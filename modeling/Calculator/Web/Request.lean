import Calculator.Web.Form
import Calculator.Web.Reply

/-!
Answering a web request. There is one resource, `/calculator`, which a `GET` asks for the value of
the formula in its query. The path is compared as it is written.
-/

namespace Calculator.Web

/-- Where a request goes: the path, and the query behind it if there is one. -/
structure Target where
  path : List Char
  query : Option (List Char)
  deriving DecidableEq

namespace Target

/-- Reads a path with a query. A fragment is dropped. -/
def ofPath (cs : List Char) : Target :=
  let cs := cs.takeWhile (· != '#')
  match cs.dropWhile (· != '?') with
  | [] => ⟨cs, none⟩
  | _ :: query => ⟨cs.takeWhile (· != '?'), some query⟩

/-- What follows the first `://`, if there is one. -/
def afterScheme? : List Char → Option (List Char)
  | ':' :: '/' :: '/' :: rest => some rest
  | _ :: rest => afterScheme? rest
  | [] => none

/-- Reads what a request names as its target: a path, an asterisk, which is a path by itself, an
address with a scheme, whose path is `/` if it has none, or a host, which has no path. -/
def ofUri (cs : List Char) : Target :=
  match cs with
  | '/' :: _ => ofPath cs
  | ['*'] => ⟨['*'], none⟩
  | _ =>
    match afterScheme? cs with
    | none => ⟨[], none⟩
    | some rest =>
      let target := ofPath (rest.dropWhile fun c => c != '/' && c != '?' && c != '#')
      if target.path.isEmpty then ⟨['/'], target.query⟩ else target

end Target

structure Request where
  method : String
  uri : String
  deriving DecidableEq

structure Response where
  status : Nat
  contentType : Option String
  body : String
  deriving DecidableEq

namespace Request

/-- The formula that a target asks for: the first value with the key `expression`. -/
def expression? (target : Target) : Option String := do
  let query ← target.query
  (Form.read query).lookup "expression"

/-- Answers a request, where `write?` writes what is replied or fails to. -/
def answerWith (write? : Json → Option String) (r : Request) : Response :=
  let target := Target.ofUri r.uri.toList
  if r.method = "GET" ∧ target.path = "/calculator".toList then
    let reply := Reply.ofExpression (expression? target)
    match write? reply.json with
    | some body => ⟨reply.status, some "application/json", body⟩
    | none => ⟨500, none, ""⟩
  else ⟨404, none, ""⟩

def answer : Request → Response := answerWith (some ·.text)

end Request

end Calculator.Web
