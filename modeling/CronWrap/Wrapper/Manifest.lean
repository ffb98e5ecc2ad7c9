import CronWrap.Json.Parser
import CronWrap.Wrapper.Plan

/-! The manifest: a JSON file that tells for each scheduled function what was generated. -/
namespace CronWrap

structure ManifestEntry where
  wrapperName : String
  directory : String
  deriving DecidableEq, Repr

/-- The entry of each function. -/
abbrev Manifest := List (String × ManifestEntry)

namespace Manifest

def ofWrappers (ws : List Wrapper) : Manifest :=
  collectFields (ws.map fun w => (w.functionName, ⟨w.name, w.directory⟩))

/-- The entries by function name. -/
def sorted (m : Manifest) : Manifest := m.mergeSort fun a b => !(b.1 < a.1 : Bool)

def entryText (function : String) (e : ManifestEntry) : String :=
  s!"  {Text.quote function}: \x7b\n    \"containerDir\": {Text.quote e.directory},\n" ++
    s!"    \"wrapperName\": {Text.quote e.wrapperName}\n  \x7d"

/-- The manifest as it is written: sorted by function name, and by key within an entry. -/
def text (m : Manifest) : String :=
  if m.isEmpty then "\x7b\x7d\n"
  else "\x7b\n" ++ ",\n".intercalate (m.sorted.map fun f => entryText f.1 f.2) ++ "\n\x7d\n"

/-- The one field among those of either name; both at once are one too many. -/
def alternative? (fields : List (String × Value)) (name other : String) : Option String :=
  match fields.lookup name, fields.lookup other with
  | some (.text s), none => some s
  | none, some (.text s) => some s
  | _, _ => none

def entryNames : List String := ["wrapperName", "wrapper_name", "containerDir", "container_dir"]

def readEntry : Value → Option ManifestEntry
  | .record fields => do
    guard (fields.all fun f => entryNames.contains f.1)
    return ⟨← alternative? fields "wrapperName" "wrapper_name",
      ← alternative? fields "containerDir" "container_dir"⟩
  | _ => none

/-- A manifest is read as a whole or not at all. -/
def ofValue? : Value → Option Manifest
  | .record fields => fields.mapM fun f => do return (f.1, ← readEntry f.2)
  | _ => none

end Manifest

end CronWrap
