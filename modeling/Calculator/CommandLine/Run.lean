import Calculator.CommandLine.Arguments
import Calculator.Text.Lines
import Calculator.Text.Utf8
import Calculator.Web.Reply

/-!
Carrying out a command line: what is printed, what is reported as wrong, and the exit code. With an
expression, what is asked for is printed in a fixed order and then the value, up to the first thing
that is wrong. Taking expressions from the input, each line that is not blank is treated so on its
own.
-/

namespace Calculator.CommandLine

structure Outcome where
  code : Nat
  stdout : String
  errors : List String
  deriving DecidableEq

/-- Which views of an expression are printed. -/
structure Views where
  json : Bool
  tree : Bool
  queue : Bool
  plain : Bool
  deriving DecidableEq

namespace Outcome

/-- An end without any output, which success and the refusal of arguments have. -/
def silent (code : Nat) : Outcome := ⟨code, "", []⟩

def failure (code : Nat) (why : String) : Outcome := ⟨code, "", ["Error: " ++ why]⟩

/-- One after the other: it fails if one of them does. -/
def sequence (outcomes : List Outcome) : Outcome :=
  ⟨if outcomes.any (·.code != 0) then 1 else 0, String.join (outcomes.map (·.stdout)),
    outcomes.flatMap (·.errors)⟩

end Outcome

namespace Views

/-- What is printed about an expression besides JSON, one text after the other. -/
def texts (v : Views) (expression : String) : List (Except Fault String) :=
  (if v.tree then [(Formula.tree expression).map Expr.outline] else []) ++
    (if v.queue then [(Formula.queueText expression).map (· ++ "\n")] else []) ++
    (if v.plain then [(Formula.plainText expression).map (· ++ "\n")] else []) ++
    [(Formula.value expression).map fun x => Style.precise.text x ++ "\n"]

/-- Prints texts up to the first fault, which is reported. -/
def print : List (Except Fault String) → Outcome
  | [] => .silent 0
  | .ok text :: rest =>
    let outcome := print rest
    { outcome with stdout := text ++ outcome.stdout }
  | .error fault :: _ => .failure 1 fault.message

def outcome (v : Views) (expression : String) : Outcome :=
  if v.json then
    let reply := Web.Reply.ofExpression (some expression)
    let printed := reply.body ++ "\n"
    if reply.status = 200 then ⟨0, printed, []⟩
    else ⟨1, printed, ["Error: Request answered with status " ++ reply.status.repr]⟩
  else print (v.texts expression)

end Views

/-- The expressions in an input: its lines that are not blank. -/
def expressions (input : List Char) : List String :=
  ((Text.lines input).filter (!Text.isBlankText ·)).map String.ofList

/-- What the lines of an input come to. -/
def runInput (v : Views) (input : List UInt8) : Outcome :=
  match Text.ofUtf8? input with
  | none => .failure 2 "stream did not contain valid UTF-8"
  | some cs => .sequence ((expressions cs).map v.outcome)

inductive Task where
  | finish (outcome : Outcome)
  | evaluate (views : Views) (expression : String)
  | evaluateInput (views : Views)

namespace Task

/-- What arguments ask for. Serving requests is left to a server, so it is refused here. -/
def ofArguments (args : List String) : Task :=
  match Arguments.read args with
  | .error .help => finish (.silent 0)
  | .error .version => finish ⟨0, "infix-calculator-cli 0.1.0\n", []⟩
  | .error .rejected => finish (.silent 2)
  | .ok a =>
    let asked := a.flags.contains
    let views : Views := ⟨asked .json, asked .tree, asked .queue, asked .plain⟩
    if a.serves then finish (.silent 2)
    else if asked .input then evaluateInput views
    else
      match a.expression with
      | some expression => evaluate views expression
      | none =>
        finish (.failure 2 "No expression provided. Pass one, or use --stdin or --serve")

def readsInput : Task → Bool
  | evaluateInput _ => true
  | finish _ | evaluate _ _ => false

def run (input : List UInt8) : Task → Outcome
  | finish outcome => outcome
  | evaluate views expression => views.outcome expression
  | evaluateInput views => runInput views input

end Task

def run (args : List String) (input : List UInt8) : Outcome := (Task.ofArguments args).run input

end Calculator.CommandLine
