import CronWrap.Path.Basic
import CronWrap.Text.Quoted

/-! Why a file operation fails. -/
namespace CronWrap

inductive FileCause
  | notFound
  | refused
  | exists
  | notADirectory
  | isADirectory
  | nameTooLong
  | notEmpty
  | tooManyLinks
  deriving DecidableEq, Repr

structure FileError where
  cause : FileCause
  path : Path
  deriving DecidableEq, Repr

namespace FileCause

/-- The number by which the system knows the cause. -/
def number : FileCause → Nat
  | notFound => 2
  | refused => 5
  | .exists => 17
  | notADirectory => 20
  | isADirectory => 21
  | nameTooLong => 36
  | notEmpty => 39
  | tooManyLinks => 40

def text : FileCause → String
  | notFound => "No such file or directory"
  | refused => "Input/output error"
  | .exists => "File exists"
  | notADirectory => "Not a directory"
  | isADirectory => "Is a directory"
  | nameTooLong => "File name too long"
  | notEmpty => "Directory not empty"
  | tooManyLinks => "Too many levels of symbolic links"

/-- Whether the cause only says that there is nothing at a path. -/
def meansAbsent : FileCause → Bool
  | notFound => true
  | notADirectory => true
  | tooManyLinks => true
  | _ => false

end FileCause

def FileError.message (e : FileError) : String :=
  s!"[Errno {e.cause.number}] {e.cause.text}: {Text.shown e.path.toString}"

end CronWrap
