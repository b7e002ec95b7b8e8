import Symbolic.Session
import Symbolic.Sorting
import Symbolic.Text.LetterCase
import Symbolic.Web.Address
import Symbolic.Web.Json

/-!
`Request[method, url, data, headers]` sends a request to a web server and gives its
answer as a table.
-/
namespace Symbolic.Web

open Value

/-- The headers as they are sent: names are capitalized, and of two of the same name the later one
counts. -/
def sentHeaders (es : List (Value × Value)) : Except Error (List (String × Value)) := do
  let named ← es.foldlM (fun acc e => match e.1 with
    | .text s => .ok (writeKey (.text (Text.capitalized s)) e.2 acc)
    | _ => .error .noSuchField) []
  let pairs := named.filterMap fun e => match e.1 with
    | .text s => some (s, e.2)
    | _ => none
  return sortBy (fun a b => Text.compare a.1 b.1 != .gt) pairs

/-- Checks an address and the headers that go with it. -/
def checkedHeaders (address : List Char) (headers : List (Value × Value)) :
    Except Error (List (String × Value)) := do
  if !hasScheme (beforeFragment address) then .error .malformed
  let sent ← sentHeaders headers
  let host := hostOf (sentAddress address)
  if !isHost host then .error .malformed
  match host, sent.lookup "Host" with
  | [], some (.text _) => return sent
  | [], some _ => .error .wrongKind
  | _, _ => return sent

/-- The body of an answer: a value if it is JSON, else its text. -/
def parsedBody (body : String) : Except Error Value :=
  match Json.read body with
  | .ok v => .ok v
  | .error .notJson => .ok (.text body)
  | .error .longInteger => .error .malformed

def Reply.result : Reply → Except Error Value
  | .answer status body => do
    return .table [(.text "status", status), (.text "body", ← parsedBody body)]
  | .refusal status reason body =>
    .ok (.table [(.text "status", status), (.text "error", .text reason), (.text "body", .text body)])
  | .unreachable reason => .ok (.table [(.text "error", .text reason)])

def encodable (s : String) : Except Error String :=
  if Text.hasHalf s then .error .unencodable else .ok s

/-- The body of a request: a table is sent as JSON, anything else as its text. -/
def bodyText : Value → Except Error (Option String)
  | .null => .ok none
  | .table es => do return some (← Json.write (.table es))
  | v => do return some (← encodable (← v.shown))

/-- The key under which the form of the body is announced. -/
def contentType : Value := .text "Content-Type"

/-- Announces a body in JSON, unless the headers already announce something. -/
def announced (es : List (Value × Value)) : List (Value × Value) :=
  match readKey contentType es with
  | some _ => es
  | none => writeKey contentType (.text "application/json") es

/-- Notes that the headers given as the fourth argument have been extended. -/
def noteHeaders (as : List Value) (es : List (Value × Value)) : Eval Unit :=
  let before := ((as.take 3).filter fun a => a.kind == .table).length
  modify fun s => { s with extendedHeaders := some (before, es) }

def request : List Value → Eval Value
  | method :: url :: more => do
    let verb := Text.upperCase (← Step.ofExcept method.shown)
    let target ← Step.ofExcept url.shown
    let body ← Step.ofExcept (bodyText (more.head?.getD .null))
    let given := match (more.drop 1).head? with
      | some (.table es) => some es
      | _ => none
    let headers := if body.isSome then announced (given.getD []) else given.getD []
    if given.isSome && body.isSome then noteHeaders (method :: url :: more) headers
    let address := bareAddress target
    let sent ← Step.ofExcept (checkedHeaders address headers)
    let verb := if verb.isEmpty then (if body.isSome then "POST" else "GET") else verb
    modify fun s =>
      { s with sent := s.sent ++ [⟨verb, String.ofList (sentAddress address), body, sent⟩] }
    Step.ofExcept (← get).reply.result
  | _ => return .table [(.text "error", .text "Request requires at least 2 arguments: method and url")]

/-- Puts extended headers in the place of the tables they came from. -/
def replaceTable (headers : List (Value × Value)) : Nat → List Value → Nat × List Value
  | n, [] => (n, [])
  | n, .table es :: vs =>
    let (m, ws) := replaceTable headers (n - 1) vs
    (m, .table (if n = 1 then headers else es) :: ws)
  | n, .expr h as t :: vs =>
    if h.equal (sym "Sequence") then
      let (m, bs) := replaceTable headers n as
      let (k, ws) := replaceTable headers m vs
      (k, .expr h bs t :: ws)
    else
      let (m, ws) := replaceTable headers n vs
      (m, .expr h as t :: ws)
  | n, v :: vs =>
    let (m, ws) := replaceTable headers n vs
    (m, v :: ws)

/-- The arguments of a request after it was sent. -/
def argumentsAfter (s : Session) (as : List Value) : List Value :=
  match s.extendedHeaders with
  | none => as
  | some (before, headers) => (replaceTable headers (before + 1) as).2

end Symbolic.Web
