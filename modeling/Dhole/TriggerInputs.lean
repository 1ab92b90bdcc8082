import Dhole.Lexical
import Dhole.TaintFlow

/-! What a trigger may start a pipeline with. The inputs of a pipeline are the input ports that no
edge feeds, by name: of the ports that share a name the last one says what is checked. A value that
passes therefore suits every port it reaches exactly if that port is as strict as any other of its
name. -/

namespace Dhole.Trigger

open Lexical List Taint FirstMatch

inductive Refusal where
  | undeclared (name : String)
  | notStructured (name : String)
  | noValue (name : String)
  | doesNotCompile (name : String)
  | notJSON (name : String)
  | unsatisfied (name schemaID : String)

variable (w : Validator) (p : Pipeline)

variable {w p} {name : String} {v : Value} {supplied : Finset String} {ins : String → Value}

end Dhole.Trigger
