import CronWrap.CallSite.Extract
import CronWrap.Files.Workspace

/-! The call sites of a list of files. -/
namespace CronWrap.CallSite

open Workspace

variable {m : Type → Type} [Monad m] [MonadExceptOf Failure m] [Workspace m]

/-- A path as messages show it: seen from the root where it lies below it. -/
def displayed (root p : Path) : String :=
  match p.relativeTo? root with
  | some segments => Path.toString ⟨.here, segments⟩
  | none => p.toString

def skipNote (root p : Path) (reason : String) : LogEntry :=
  ⟨.debug, .callSites, s!"Skipping unreadable file {displayed root p}: {reason}"⟩

/-- The text of a file, or nothing if it cannot be read. -/
def readSource (root p : Path) : m (Option (List Char)) :=
  tryCatch (some <$> readText p) fun
    | .file e => do note (skipNote root p e.message); return none
    | .encoding e => do note (skipNote root p e.message); return none
    | e => throw e

def scanFile (settings : Settings) (root p : Path) : m (List CallSite) := do
  match ← readSource root p with
  | none => return []
  | some source =>
    let (sites, log) := extract settings p source
    log.forM note
    return sites

def foundNote (settings : Settings) (sites : List CallSite) : LogEntry :=
  let names := ", ".intercalate (sites.map (·.functionName))
  ⟨.info, .callSites, s!"Found {sites.length} {settings.callName}() call(s): {names}"⟩

/-- The call sites in the files, the first of each key; files that cannot be read are passed over.
-/
def scan (settings : Settings) (root : Path) (files : List Path) : m (List CallSite) := do
  let sites := dedup (← files.mapM (scanFile settings root)).flatten
  unless sites.isEmpty do note (foundNote settings sites)
  return sites

end CronWrap.CallSite
