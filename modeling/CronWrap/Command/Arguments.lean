import CronWrap.Text.Reader

/-! The arguments of the program: options, a command, and what the command is about. -/
namespace CronWrap.Command

/-- What is to be done. -/
inductive Task
  | generate (root : String)
  | transform (file root : String) (write : Bool)
  deriving DecidableEq, Repr

structure Invocation where
  verbose : Bool
  task : Task
  deriving DecidableEq, Repr

/-- Why there is nothing to do but to show how the program is used. -/
inductive Usage
  | help
  | mistake
  deriving DecidableEq, Repr

/-- The exit code of a run that only shows the usage. -/
def Usage.exitCode : Usage → Nat
  | help => 0
  | mistake => 2

/-- An option: its long name, the letter that abbreviates it, and whether a value follows. -/
structure Flag where
  long : List Char
  short : Option Char
  takesValue : Bool
  deriving DecidableEq, Repr

def helpFlag : Flag := ⟨"help".toList, some 'h', false⟩

def verboseFlag : Flag := ⟨"verbose".toList, some 'v', false⟩

def rootFlag : Flag := ⟨"root".toList, none, true⟩

def writeFlag : Flag := ⟨"write".toList, none, false⟩

/-- What an argument is among given flags. -/
inductive Argument
  | plain (s : String)
  | flag (f : Flag) (value : Option String)
  /-- Flags whose letters are run together, and whether letters follow that are no flags. -/
  | letters (fs : List Flag) (more : Bool)
  | unknown
  | mistake
  deriving DecidableEq, Repr

/-- The value behind `=`, if there is one. -/
def splitValue (cs : List Char) : List Char × Option String :=
  match cs.span (· ≠ '=') with
  | (name, []) => (name, none)
  | (name, _ :: value) => (name, some (String.ofList value))

def isNumber (cs : List Char) : Bool :=
  match cs.span Char.isDigit with
  | (whole, []) => whole ≠ []
  | (_, '.' :: places) => places ≠ [] && places.all Char.isDigit
  | _ => false

/-- A long name, which may be cut short as long as it means one flag. -/
def longFlag (known : List Flag) (cs : List Char) : Option Argument :=
  let (name, value) := splitValue cs
  match known.find? (·.long = name) with
  | some f => some (.flag f value)
  | none =>
    match known.filter fun f => name.isPrefixOf f.long with
    | [f] => some (.flag f value)
    | _ => none

def flagOfLetter (known : List Flag) (c : Char) : Option Flag := known.find? (·.short = some c)

/-- Letters behind the first one. No flag with a letter takes a value, so `=` and a further hyphen
are mistakes. -/
def moreLetters (known fs : List Flag) : List Char → Argument
  | [] => .letters fs false
  | c :: cs =>
    if c = '=' || c = '-' then .mistake
    else
      match flagOfLetter known c with
      | some f => moreLetters known (fs ++ [f]) cs
      | none => .letters fs true

/-- Letters run together, of which the first is a flag. -/
def shortFlags (known : List Flag) : List Char → Option Argument
  | [] => none
  | c :: cs => (flagOfLetter known c).map fun f => moreLetters known [f] cs

/-- Arguments that look like numbers or have spaces in them are plain even behind a hyphen. -/
def classify (known : List Flag) (s : String) : Argument :=
  let other (cs : List Char) :=
    if isNumber cs || cs.contains ' ' then Argument.plain s else .unknown
  match s.toList with
  | '-' :: '-' :: cs => (longFlag known cs).getD (other ('-' :: cs))
  | ['-'] => .plain s
  | '-' :: cs => (shortFlags known cs).getD (other cs)
  | _ => .plain s

/-- What the argument before was, and so what may come next. -/
inductive Position
  | behindPlain
  | behindFlag
  | valueNext
  deriving DecidableEq, Repr

/-- Arguments of a command, sorted out. -/
structure Sorted where
  plain : List String := []
  flags : List Flag := []
  root : Option String := none
  position : Position := .behindFlag
  /-- Whether there is an argument that means nothing. -/
  unknown : Bool := false

/-- Takes flags in; one that asks for help ends the reading. -/
def Sorted.takeFlags (s : Sorted) : List Flag → Except Usage Sorted
  | [] => .ok { s with position := .behindFlag }
  | f :: fs => if f = helpFlag then .error .help else { s with flags := f :: s.flags }.takeFlags fs

/-- Takes one argument in. -/
def Sorted.take (known : List Flag) (s : Sorted) (a : String) : Except Usage Sorted :=
  match s.position, classify known a with
  | .valueNext, .plain v => .ok { s with root := some v, position := .behindFlag }
  | .valueNext, _ => .error .mistake
  | _, .plain p => .ok { s with plain := s.plain ++ [p], position := .behindPlain }
  | _, .unknown => .ok { s with unknown := true, position := .behindFlag }
  | _, .mistake => .error .mistake
  | _, .flag f value =>
    match f.takesValue, value with
    | true, none => .ok { s with position := .valueNext }
    | true, some v => .ok { s with root := some v, position := .behindFlag }
    | false, none => s.takeFlags [f]
    | false, some _ => .error .mistake
  | _, .letters fs more => { s with unknown := s.unknown || more }.takeFlags fs

/-- Whether `--` may stand here: beside the plain arguments, and not in place of a value. -/
def Sorted.admitsDashes (s : Sorted) : Bool :=
  match s.position with
  | .behindPlain => true
  | .behindFlag => s.plain.isEmpty
  | .valueNext => false

/-- Sorts arguments out; behind `--` all are plain. -/
def sortOut (known : List Flag) (s : Sorted) : List String → Except Usage Sorted
  | [] => if s.position = .valueNext then .error .mistake else .ok s
  | "--" :: rest =>
    if s.admitsDashes then .ok { s with plain := s.plain ++ rest } else .error .mistake
  | a :: rest => do sortOut known (← s.take known a) rest

/-- Where the program works when it is not told. -/
def defaultRoot : String := "."

def taskOf (name : String) (arguments : List String) : Except Usage Task := do
  match name with
  | "generate" =>
    let s ← sortOut [helpFlag] {} arguments
    match s.unknown, s.plain with
    | false, [] => return .generate defaultRoot
    | false, [root] => return .generate root
    | _, _ => .error .mistake
  | "transform" =>
    let s ← sortOut [helpFlag, rootFlag, writeFlag] {} arguments
    match s.unknown, s.plain with
    | false, [file] => return .transform file (s.root.getD defaultRoot) (s.flags.contains writeFlag)
    | _, _ => .error .mistake
  | _ => .error .mistake

/-- Reads the options before the command, of which some may mean nothing, and then the command. -/
def Invocation.parseFrom (s : Sorted) : List String → Except Usage Invocation
  | [] => .error .mistake
  | "--" :: _ => .error .mistake
  | a :: rest =>
    let known := [helpFlag, verboseFlag]
    match classify known a with
    | .plain name => do
      let task ← taskOf name rest
      if s.unknown then .error .mistake else return ⟨s.flags.contains verboseFlag, task⟩
    | _ => do parseFrom (← s.take known a) rest

/-- Whether an argument is a value for a flag without a name, which may be any flag. -/
def isNameless (a : String) : Bool := "--=".toList.isPrefixOf a.toList

def Invocation.parse (arguments : List String) : Except Usage Invocation :=
  if (arguments.takeWhile (· ≠ "--")).any isNameless then .error .mistake
  else parseFrom {} arguments

example : Invocation.parse ["-v", "transform", "--wr", "a.ts", "--root=b"] =
    .ok ⟨true, .transform "a.ts" "b" true⟩ := by rfl

example : Invocation.parse ["generate", "a", "b"] = .error .mistake := by rfl

end CronWrap.Command
