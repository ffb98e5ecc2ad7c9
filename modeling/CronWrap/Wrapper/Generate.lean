import CronWrap.Alias.Load
import CronWrap.CallSite.Scan
import CronWrap.Discovery
import CronWrap.Wrapper.Manifest
import CronWrap.Wrapper.Render
import CronWrap.Wrapper.Staging

/-! Generating the wrappers of a project. -/
namespace CronWrap

open Workspace

/-- The outcome of a generation. -/
structure Generation where
  container : Path
  wrappers : List Wrapper
  deriving DecidableEq, Repr

namespace Generation

def modulePaths (g : Generation) : List Path := g.wrappers.map (·.modulePath)

/-- The wrapper of each function. -/
def wrapperNames (g : Generation) : List (String × String) :=
  g.wrappers.map fun w => (w.functionName, w.name)

variable {m : Type → Type} [Monad m] [MonadExceptOf Failure m] [Workspace m]

/-- The place of the generated tree. -/
def findContainer (root : Path) : m Path := do
  return Layout.containerIn root (← (Layout.routableDirs root).findM? isDir)

/-- Writes the module of one wrapper into the tree at `top`. -/
def writeWrapper (settings : Settings) (top : Path) (w : Wrapper) : m Unit := do
  let directory := top / w.directory
  makeDir directory
  writeText (directory / w.modulePath.name) (w.schedulerText settings).toList

/-- Writes all that belongs to the wrappers into the tree at `top`. -/
def writeTree (settings : Settings) (ws : List Wrapper) (top : Path) : m Unit := do
  writeText (top / Layout.gitignoreFile) Layout.gitignoreContent.toList
  ws.forM (writeWrapper settings top)
  writeText (top / Layout.manifestFile) (Manifest.ofWrappers ws).text.toList
  writeText (top / Layout.moduleFile Layout.discoveryModule) (Wrapper.discoveryText ws).toList

def doneNote (count : Nat) (container : Path) : LogEntry :=
  ⟨.info, .generation, s!"Generated {count} wrapper file(s) in {container}"⟩

/-- Replaces the generated tree by one for the given sites; `fetch` gets the project's alias
table. -/
def run (settings : Settings) (root : Path) (fetch : m AliasTable) (sites : List CallSite) :
    m Generation := do
  let container ← findContainer root
  let table ← fetch
  match Wrapper.plan sites container table with
  | .error c => throw (.collision c)
  | .ok ws =>
    Staging.replace container (writeTree settings ws)
    note (doneNote ws.length container)
    return ⟨container, ws⟩

def nothingNote (settings : Settings) : LogEntry :=
  ⟨.info, .generation, s!"No {settings.callName}() calls found"⟩

/-- Scans a project and replaces its generated tree. Nothing is done without call sites, unless
there is a tree from before. -/
def ofProject (settings : Settings) (root : Path) (fetch : m AliasTable) :
    m (Option Generation) := do
  let container ← findContainer root
  let files ←
    sourceFiles root settings.scanDirs (some container) settings.exclude settings.nestedGitignore
  let sites ← CallSite.scan settings root files
  if sites.isEmpty && !(← exists? container) then
    note (nothingNote settings)
    return none
  else some <$> run settings root fetch sites

end Generation

namespace Manifest

variable {m : Type → Type} [Monad m] [MonadExceptOf Failure m] [Workspace m]

def path (root : Path) : m Path := do return (← Generation.findContainer root) / Layout.manifestFile

def ofBytes? (bytes : Text.Bytes) : Option Manifest := do
  let cs ← (Text.decodeUtf8 bytes).toOption
  ofValue? (← Json.parse? cs)

/-- The manifest of the last generation, if there is one that can be read. -/
def load (root : Path) : m (Option Manifest) := do
  let p ← path root
  let bytes ← tryCatch (some <$> read p) fun (_ : Failure) => return none
  return bytes >>= ofBytes?

end Manifest

end CronWrap
