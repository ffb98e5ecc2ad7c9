import CronWrap.Conversion.Call
import CronWrap.Wrapper.Import

/-! The imports of a converted module: the scheduling call goes, the wrappers come. -/
namespace CronWrap

open Syntax

namespace Module

/-- The end of a statement that is taken out: blanks, a semicolon and the line break go with it. -/
def removalEnd (source : List Char) (stop : Nat) : Nat :=
  let rest := source.drop stop
  let blanks := (rest.takeWhile fun c => c = ' ' || c = '\t').length
  let rest := rest.drop blanks
  let mark := if rest.head? = some ';' then 1 else 0
  let lineBreak := match rest.drop mark with
    | '\r' :: '\n' :: _ => 2
    | '\n' :: _ => 1
    | _ => 0
  stop + blanks + mark + lineBreak

/-- How one import statement loses a local name. -/
inductive Removal
  | nothing
  | specifiers (e : Edit)
  | statement (e : Edit)
  deriving DecidableEq, Repr

def Removal.edit? : Removal → Option Edit
  | nothing => none
  | specifiers e => some e
  | statement e => some e

def listText (m : Module) (specifiers : List Node) : List Char :=
  "\x7b ".toList ++ (", ".toList).intercalate (specifiers.map (·.chars m.source)) ++ " \x7d".toList

/-- Takes a local name out of a statement that imports from `module`. A statement that binds nothing
else goes as a whole. -/
def removal (m : Module) (name module : String) (statement : Node) : Removal :=
  if m.importSource? statement ≠ some module then .nothing
  else
    let all := specifiers statement
    let remaining := all.filter fun s => (m.specifierNames s).2 ≠ name
    match namedImports? statement with
    | none => .nothing
    | some named =>
      if remaining.length = all.length then .nothing
      else if !remaining.isEmpty then .specifiers ⟨named.start, named.stop, m.listText remaining⟩
      else
        match defaultImport? statement with
        | some single => .specifiers ⟨single.stop, named.stop, []⟩
        | none => .statement ⟨statement.start, removalEnd m.source statement.stop, []⟩

/-- Whether the start primitive is imported under its own name. -/
def hasStartImport (m : Module) (settings : Settings) : Bool :=
  m.bindings.any fun b =>
    b.source = settings.startModule && b.importedName = settings.startName
      && b.localName = settings.startName

/-- The first occurrence of each name. -/
def distinctFrom (seen : List String) : List String → List String
  | [] => []
  | s :: rest => if s ∈ seen then distinctFrom seen rest else s :: distinctFrom (s :: seen) rest

/-- The specifier by which a file imports the wrapper of a function. -/
def wrapperSpecifier (container file : Path) (functionName : String) : String :=
  Path.relativeSpecifier (container / Layout.schedulerSpecifier functionName) file.parent

/-- The wrappers of these functions, by their names and specifiers, each once. -/
def wrapperImports (container file : Path) (functions : List String) : List (String × String) :=
  (distinctFrom [] functions).map fun f =>
    (Layout.wrapperName f, wrapperSpecifier container file f)

/-- The imports that calls of these functions need after the conversion. -/
def newImports (m : Module) (settings : Settings) (container file : Path)
    (functions : List String) : List String :=
  (if m.hasStartImport settings then []
    else [importLine settings.startName none settings.startModule]) ++
  (wrapperImports container file functions).map fun w => importLine w.1 none w.2

end Module

end CronWrap
