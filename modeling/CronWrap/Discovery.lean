import CronWrap.Files.Workspace
import CronWrap.Path.Extension
import CronWrap.Pattern.Glob
import CronWrap.Pattern.Ignore

/-! The source files of a project that are scanned for calls. -/
namespace CronWrap

open Pattern

/-- Which files of a project count. -/
structure SourceFilter where
  root : Path
  /-- The generated tree, which does not count. -/
  output : Option Path := none
  ignored : List IgnoreFile := []
  /-- Patterns of paths, seen from the root, that do not count. -/
  exclude : List String := []
  deriving DecidableEq, Repr

namespace SourceFilter

/-- Directories of dependencies and build output, in which nothing counts. -/
def skippedDirs : List String := ["node_modules", ".git", ".next", ".well-known"]

def relativeText (segments : List String) : String := "/".intercalate segments

/-- Whether the path alone lets a file count. -/
def admits (f : SourceFilter) (p : Path) : Bool :=
  sourceExtensions.contains p.suffix &&
    match p.relativeTo? f.root with
    | none => false
    | some segments =>
      !segments.dropLast.any skippedDirs.contains &&
        !f.output.any p.isUnder &&
        !f.ignored.any (·.ignores p) &&
        !f.exclude.any (Glob.fits · (relativeText segments))

open Workspace

variable {m : Type → Type} [Monad m] [Workspace m]

/-- Whether there is a file at a path, not through a link at its end, within the root. -/
def isOwnFile (f : SourceFilter) (p : Path) : m Bool := do
  if (← isFile p) && !(← isLink p) then return (← resolve p).isUnder (← resolve f.root)
  else return false

/-- Whether a path counts. It is looked at, whatever it says but for its extension. -/
def includes (f : SourceFilter) (p : Path) : m Bool := do
  if sourceExtensions.contains p.suffix then return (← f.isOwnFile p) && f.admits p
  else return false

/-- The files that count below one directory, which must not be a link. -/
def filesIn (f : SourceFilter) (directory : String) : m (List Path) := do
  let start := f.root / directory
  if (← isDir start) && !(← isLink start) then (← below start).filterM f.includes else return []

def sortKey (root p : Path) : String := relativeText ((p.relativeTo? root).getD [])

/-- The paths by their texts as seen from the root, each once. -/
def sorted (root : Path) (ps : List Path) : List Path :=
  ps.eraseDups.mergeSort fun p q => !(sortKey root q < sortKey root p : Bool)

/-- The files that count below the given directories. -/
def files (f : SourceFilter) (directories : List String) : m (List Path) := do
  return sorted f.root (← directories.mapM f.filesIn).flatten

/-- What is wrong with asking the ignore files about a path. -/
def stray? (f : SourceFilter) (p : Path) : Option PathError :=
  (f.ignored.find? (·.misses p)).map fun i => .outside p.normalize i.base

variable [MonadExceptOf Failure m]

/-- Fails if the ignore files cannot be asked about a file below a directory that counts as far as they
and the exclusions are left out. -/
def checkIn (f : SourceFilter) (directory : String) : m Unit := do
  let asked ← filesIn { f with ignored := [], exclude := [] } directory
  match asked.findSome? f.stray? with
  | some e => throw (.path e)
  | none => return ()

/-- The files that count below the given directories, if the ignore files can be asked about all. -/
def checkedFiles (f : SourceFilter) (directories : List String) : m (List Path) := do
  return sorted f.root (← directories.mapM fun d => do f.checkIn d; f.filesIn d).flatten

end SourceFilter

namespace IgnoreFile

open Workspace

variable {m : Type → Type} [Monad m] [MonadExceptOf Failure m] [Workspace m]

def fileName : String := ".gitignore"

def load (p : Path) : m Pattern.IgnoreFile := do return .ofText p.parent (← readText p)

/-- The ignore file at the root, which may be a link. -/
def atRoot (root : Path) : m (List Pattern.IgnoreFile) := do
  let p := root / fileName
  if ← isFile p then return [← load p] else return []

/-- Whether an ignore file at this path counts among those of subdirectories. -/
def isReachable (root p : Path) : Bool :=
  p.name = fileName && !((p.relativeTo? root).getD []).any SourceFilter.skippedDirs.contains

/-- All ignore files of a project outside skipped directories; none of them may be a link. -/
def everywhere (root : Path) : m (List Pattern.IgnoreFile) := do
  let candidates := (root / fileName) :: (← below root).filter (isReachable root)
  let own ← candidates.filterM fun p => do return (← isFile p) && !(← isLink p)
  (SourceFilter.sorted root own).mapM load

end IgnoreFile

/-- The files of a project that count, `nested` telling whether the ignore files of subdirectories
do so too. Those of subdirectories are passed over where they cannot be asked about a path; the one at
the root alone has to be asked. -/
def sourceFiles {m : Type → Type} [Monad m] [MonadExceptOf Failure m] [Workspace m] (root : Path)
    (directories : List String) (output : Option Path) (exclude : List String) (nested : Bool) :
    m (List Path) := do
  let ignored ← if nested then IgnoreFile.everywhere root else IgnoreFile.atRoot root
  let filter : SourceFilter := ⟨root, output, ignored, exclude⟩
  if nested then filter.files directories else filter.checkedFiles directories

end CronWrap
