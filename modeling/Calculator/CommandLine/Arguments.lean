/-!
The arguments of a command line. An argument that starts with a dash is an option, unless it is a
dash alone or stands behind `--`; any other is the expression, of which there is one at most. Flags
have long names, which may not be shortened, and some have a letter, of which several may share one
dash. Only the flags for more or fewer messages may be repeated, and they exclude each other.

Arguments are taken from left to right. Asking for help or for the version ends this at once, as
does an argument that cannot be; what is wrong with the arguments together is seen afterwards.
-/

namespace Calculator.CommandLine

/-- An option without a value. -/
inductive Flag where
  | json
  | queue
  | tree
  | plain
  | input
  | verbose
  | quiet
  deriving DecidableEq

namespace Flag

def all : List Flag := [json, queue, tree, plain, input, verbose, quiet]

def long : Flag → String
  | json => "json"
  | queue => "postfix"
  | tree => "tree"
  | plain => "normalize"
  | input => "stdin"
  | verbose => "verbose"
  | quiet => "quiet"

def short? : Flag → Option Char
  | verbose => some 'v'
  | quiet => some 'q'
  | json | queue | tree | plain | input => none

def ofLong? (name : String) : Option Flag := all.find? (·.long == name)

def ofShort? (c : Char) : Option Flag := all.find? (·.short? == some c)

/-- Whether the flag may be given more than once. -/
def isRepeatable (f : Flag) : Bool := f.short?.isSome

end Flag

inductive Halt where
  | help
  | version
  | rejected
  deriving DecidableEq

structure Arguments where
  flags : List Flag
  expression : Option String
  /-- Whether requests are to be served, at whatever address. -/
  serves : Bool
  deriving DecidableEq

namespace Arguments

def empty : Arguments := ⟨[], none, false⟩

def addFlag (a : Arguments) (f : Flag) : Arguments := { a with flags := a.flags ++ [f] }

/-- Takes the expression. A second one is rejected. -/
def addExpression (a : Arguments) (text : String) : Except Halt Arguments :=
  match a.expression with
  | none => .ok { a with expression := some text }
  | some _ => .error .rejected

/-- Takes an option by the text behind its two dashes. The flag beside the result says whether a
value for it is to come. -/
def addLong (a : Arguments) (text : List Char) : Except Halt (Arguments × Bool) :=
  let name := String.ofList (text.takeWhile (· != '='))
  let hasValue := text.contains '='
  if name = "serve" then .ok ({ a with serves := true }, !hasValue)
  else if hasValue then .error .rejected
  else if name = "help" then .error .help
  else if name = "version" then .error .version
  else
    match Flag.ofLong? name with
    | some f => .ok (a.addFlag f, false)
    | none => .error .rejected

def addShort (a : Arguments) : List Char → Except Halt Arguments
  | [] => .ok a
  | c :: cs =>
    if c = 'h' then .error .help
    else if c = 'V' then .error .version
    else
      match Flag.ofShort? c with
      | some f => (a.addFlag f).addShort cs
      | none => .error .rejected

def readPlain (a : Arguments) : List String → Except Halt Arguments
  | [] => .ok a
  | arg :: args =>
    match a.addExpression arg with
    | .error halt => .error halt
    | .ok a => a.readPlain args

/-- Takes arguments from left to right, where `awaits` says whether the last one awaits a value. -/
def readFrom (a : Arguments) (awaits : Bool) : List String → Except Halt Arguments
  | [] => .ok a
  | arg :: args =>
    match arg.toList with
    | ['-', '-'] => a.readPlain args
    | '-' :: '-' :: text =>
      match a.addLong text with
      | .error halt => .error halt
      | .ok (a, awaits) => a.readFrom awaits args
    | '-' :: c :: cs =>
      match a.addShort (c :: cs) with
      | .error halt => .error halt
      | .ok a => a.readFrom false args
    | _ =>
      if awaits then a.readFrom false args
      else
        match a.addExpression arg with
        | .error halt => .error halt
        | .ok a => a.readFrom false args

def isConsistent (a : Arguments) : Bool :=
  Flag.all.all (fun f => f.isRepeatable || a.flags.count f ≤ 1) &&
    !(a.flags.contains .verbose && a.flags.contains .quiet) &&
    !(a.flags.contains .input && a.expression.isSome) &&
    !(a.serves && (a.expression.isSome || a.flags.contains .input))

def read (args : List String) : Except Halt Arguments :=
  match empty.readFrom false args with
  | .error halt => .error halt
  | .ok a => if a.isConsistent then .ok a else .error .rejected

end Arguments

end Calculator.CommandLine
