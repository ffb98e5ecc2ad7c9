import CronWrap.Failure
import CronWrap.Log
import CronWrap.Text.LineEnding

/-! What the program asks of its surroundings: the file system, and someone to tell about its
work. -/
namespace CronWrap

open Text (Bytes)

inductive FileKind
  | file
  | dir
  deriving DecidableEq, Repr

/-- Operations on files, by absolute paths. Except where links are spoken of, they are followed. -/
class Workspace (m : Type → Type) where
  /-- What there is, or nothing. -/
  kind? : Path → m (Option FileKind)
  /-- Whether the path itself is a link. -/
  isLink : Path → m Bool
  /-- The path without links and `..`. -/
  resolve : Path → m Path
  /-- The names in a directory. -/
  names : Path → m (List String)
  /-- All that is below a directory, but not through links. -/
  below : Path → m (List Path)
  read : Path → m Bytes
  write : Path → Bytes → m Unit
  makeDir : Path → m Unit
  /-- Moves what is at a path, a link itself if it is one. -/
  rename : Path → Path → m Unit
  /-- Takes away a directory, which must not be a link, with all that it holds. -/
  removeTree : Path → m Unit
  /-- A path in a directory at which there is nothing, with a name that starts in a given way. -/
  unused : Path → String → m Path
  note : LogEntry → m Unit

namespace Workspace

variable {m : Type → Type} [Monad m] [Workspace m]

def isFile (p : Path) : m Bool := do return (← kind? p) = some .file

def isDir (p : Path) : m Bool := do return (← kind? p) = some .dir

def exists? (p : Path) : m Bool := do return (← kind? p).isSome

variable [MonadExceptOf Failure m]

/-- The text of a file, with its line ends made one. -/
def readText (p : Path) : m (List Char) := do
  match Text.decodeUtf8 (← read p) with
  | .ok cs => return Text.unifyLineEnds cs
  | .error e => throw (.encoding e)

def writeText (p : Path) (cs : List Char) : m Unit := write p (Text.encodeUtf8 cs)

/-- Makes a directory unless it is there, and before it those above it. -/
def makeDirs (p : Path) : m Unit :=
  p.lineage.forM fun d => do unless ← isDir d do makeDir d

/-- Goes on without what cannot be done. -/
def ignoring (action : m Unit) : m Unit := tryCatch action fun (_ : Failure) => pure ()

end Workspace

end CronWrap
