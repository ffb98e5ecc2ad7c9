import CronWrap.Alias.Table
import CronWrap.Files.Workspace
import CronWrap.Json.Parser
import CronWrap.Path.Extension

/-! Alias tables read from the compiler configuration of a project, and one held for reuse. -/
namespace CronWrap

/-- The files that may configure aliases; the first that can be read does. -/
def aliasConfigNames : List String := ["tsconfig.json", "jsconfig.json"]

/-- What a configuration file says of aliases. -/
structure AliasConfig where
  baseUrl : Option String := none
  entries : List (String × List String) := []
  parent : Option String := none
  deriving DecidableEq, Repr

namespace AliasConfig

def text? : Value → Option String
  | .text s => some s
  | _ => none

/-- The targets of a pattern: those that are texts; without a list the pattern does not count. -/
def entry? (field : String × Value) : Option (String × List String) :=
  match field.2 with
  | .list targets => some (field.1, targets.filterMap text?)
  | _ => none

/-- Options that are not of the right kind count as missing, as does an empty base. -/
def ofFields (fields : List (String × Value)) : AliasConfig :=
  let option? (name : String) := fields.lookup "compilerOptions" >>= (·.field? name)
  { baseUrl := (option? "baseUrl" >>= text?).filter (· ≠ "")
    entries := match option? "paths" with
      | some (.record raw) => raw.filterMap entry?
      | _ => []
    parent := fields.lookup "extends" >>= text? }

/-- Where the configuration is that another one extends; its name may leave the extension out. -/
def parentPath (root : Path) (extended : String) : Except PathError Path :=
  let p := (root / extended).normalize
  if p.suffix = ".json" then .ok p else p.withName (p.name ++ ".json")

end AliasConfig

namespace AliasTable

/-- The table of a configuration at `root`, given the one that it extends and where that is. Entries
of the extending one replace equal ones where they stand. -/
def ofConfig (root : Path) (config : AliasConfig) (extended : Option (Path × AliasConfig)) :
    AliasTable :=
  let ownBase := config.baseUrl.map fun base => (root / base).normalize
  let otherBase := extended.bind fun (p, parent) =>
    parent.baseUrl.map fun base => (p.parent / base).normalize
  { base := (ownBase <|> otherBase).getD root.normalize
    entries := collectFields (((extended.map (·.2.entries)).getD []) ++ config.entries) }

open Workspace

variable {m : Type → Type} [Monad m] [MonadExceptOf Failure m] [Workspace m]

def aliasNote (message : String) : LogEntry := ⟨.debug, .aliases, message⟩

/-- The configuration in a file, if it can be read and is an object. -/
def readConfig (p : Path) : m (Option AliasConfig) := do
  let text ← tryCatch (some <$> readText p) fun
    | .file e => unreadable e.message
    | .encoding e => unreadable e.message
    | e => throw e
  match text.map Json.parseLenient? with
  | none => return none
  | some (some (.record fields)) => return some (.ofFields fields)
  | some (some _) =>
    note (aliasNote s!"Ignoring compiler config {p}: not an object")
    return none
  | some none => unreadable "invalid JSON"
where
  unreadable {α : Type} (reason : String) : m (Option α) := do
    note (aliasNote s!"Ignoring unreadable compiler config {p}: {reason}")
    return none

/-- The configuration that another one extends, if it is there and can be read. -/
def readExtended (root : Path) (config : AliasConfig) : m (Option (Path × AliasConfig)) := do
  match config.parent with
  | none => return none
  | some extended =>
    match AliasConfig.parentPath root extended with
    | .error e => throw (.path e)
    | .ok p => if ← isFile p then return (← readConfig p).map (p, ·) else return none

/-- The table from the first of the named files that can be read. -/
def loadFrom (root : Path) : List String → m AliasTable
  | [] => return ⟨root.normalize, []⟩
  | name :: rest => do
    let p := root / name
    let config ← if ← isFile p then readConfig p else pure none
    match config with
    | none => loadFrom root rest
    | some config =>
      let table := ofConfig root config (← readExtended root config)
      note (aliasNote s!"Loaded {table.entries.length} path alias(es) from {name}")
      return table

/-- The alias table of a project; without a configuration that can be read it is empty. -/
def load (root : Path) : m AliasTable := loadFrom root aliasConfigNames

end AliasTable

/-- The table that is held, with the project that it belongs to. -/
abbrev AliasCache := Option (Path × AliasTable)

namespace AliasCache

variable {m : Type → Type} [Monad m] [MonadExceptOf Failure m] [Workspace m]
  [MonadStateOf AliasCache m]

/-- The table of a project: the one that is held for it, or else a new one, which is held from then
on. -/
def fetch (root : Path) : m AliasTable := do
  match ← getThe AliasCache with
  | some (held, table) => if held = root then return table else reload
  | none => reload
where
  reload : m AliasTable := do
    let table ← AliasTable.load root
    modifyThe AliasCache fun _ => some (root, table)
    return table

def invalidate : m Unit := modifyThe AliasCache fun _ => none

end AliasCache

end CronWrap
