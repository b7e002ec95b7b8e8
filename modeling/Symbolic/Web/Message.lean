import Symbolic.Value.Basic

/-!
What is sent to a web server and what comes back.
-/
namespace Symbolic.Web

structure Sent where
  method : String
  url : String
  /-- The body, if there is one. -/
  body : Option String
  headers : List (String × Value)
  deriving Repr

inductive Reply where
  | answer (status : Value) (body : String)
  | refusal (status : Value) (reason : String) (body : String)
  /-- The server could not be reached. -/
  | unreachable (reason : String)
  deriving Repr, Inhabited

end Symbolic.Web
