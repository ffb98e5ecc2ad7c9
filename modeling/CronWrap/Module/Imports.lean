import CronWrap.Data.Value
import CronWrap.Syntax.Parser
import CronWrap.Text.Blank

/-! What a module imports: the names that its top-level import statements bind. -/
namespace CronWrap

open Syntax

/-- The text of a module with a syntax tree over it. -/
structure Module where
  source : List Char
  root : Node
  deriving Repr

/-- A name that a module binds, with the export that it stands for and the module that has it. -/
structure Binding where
  localName : String
  importedName : String
  source : String
  deriving DecidableEq, Repr

/-- The name of the export that a module stands for by itself. -/
def defaultExport : String := "default"

namespace Module

def parse (file : Path) (source : List Char) : Module :=
  ⟨source, Syntax.parse (.ofFile file) source⟩

/-- The top-level import statements. -/
def imports (m : Module) : List Node := m.root.children.filter fun n => n.kind = .importStatement

def childOf? (kind : Kind) (n : Node) : Option Node := n.children.find? fun c => c.kind = kind

/-- The module that a statement names, as it is written. -/
def importSource? (m : Module) (statement : Node) : Option String :=
  (childOf? .string statement).map (·.stringValue m.source)

def namedImports? (statement : Node) : Option Node :=
  childOf? .importClause statement >>= childOf? .namedImports

def defaultImport? (statement : Node) : Option Node :=
  childOf? .importClause statement >>= childOf? .identifier

def specifiers (statement : Node) : List Node :=
  match namedImports? statement with
  | some named => named.children.filter fun c => c.kind = .importSpecifier
  | none => []

/-- The name of the export and the local name; without an `as` they are the same. -/
def specifierNames (m : Module) (specifier : Node) : String × String :=
  match specifier.children with
  | [] =>
    let name := String.ofList (Text.trim (specifier.chars m.source))
    (name, name)
  | name :: rest =>
    let imported := if name.kind = .string then name.stringValue m.source else name.text m.source
    (imported, (rest.head?.map (·.text m.source)).getD imported)

/-- The bindings of one statement, the default import first. -/
def statementBindings (m : Module) (statement : Node) : List Binding :=
  match m.importSource? statement with
  | none => []
  | some source =>
    ((defaultImport? statement).toList.map fun n => ⟨n.text m.source, defaultExport, source⟩) ++
      (specifiers statement).map fun s =>
        let (imported, name) := m.specifierNames s
        ⟨name, imported, source⟩

def bindings (m : Module) : List Binding := m.imports.flatMap m.statementBindings

/-- The binding of each local name; of two for the same name the later one counts. -/
def importMap (m : Module) : List (String × Binding) :=
  collectFields (m.bindings.map fun b => (b.localName, b))

/-- Whether some import binds this export of this module, under whatever local name. -/
def importsName (m : Module) (name source : String) : Bool :=
  m.bindings.any fun b => b.importedName = name && b.source = source

end Module

end CronWrap
