import CronWrap.Files.Workspace

/-! Replacing a directory as a whole: the new one is made beside it and then moved into its place.
-/
namespace CronWrap.Staging

open Workspace

variable {m : Type → Type} [Monad m] [MonadExceptOf Failure m] [Workspace m]

/-- How the names of directories start in which new trees are made. -/
def stagingHead (target : Path) : String := s!".{target.name}-"

/-- How the names of trees start that were moved out of the way. -/
def retiredHead (target : Path) : String := s!".{target.name}-retired-"

def leftoverNote (retired : Path) (e : Failure) : LogEntry :=
  ⟨.warning, .staging, s!"Could not remove previous tree {retired}: {e.message}"⟩

/-- Moves a directory into the place of another, which is moved aside before and comes back if that
fails. The old tree may stay behind. -/
def swap (staging target : Path) : m Unit := do
  if ← exists? target then
    let retired ← unused target.parent (retiredHead target)
    rename target retired
    tryCatch (rename staging target) fun (e : Failure) => do
      rename retired target
      throw e
    tryCatch (removeTree retired) fun (e : Failure) => note (leftoverNote retired e)
  else rename staging target

/-- Whether a name beside a directory is one of an old tree. -/
def isRetired (target : Path) (s : String) : Bool :=
  (retiredHead target).toList.isPrefixOf s.toList

/-- Removes old trees that earlier runs could not. -/
def sweep (target : Path) : m Unit := do
  let directory := target.parent
  ((← names directory).filter (isRetired target)).forM fun s =>
    ignoring (removeTree ⟨directory.anchor, directory.segments ++ [s]⟩)

/-- Replaces a directory by what `build` makes in an empty one; after a failure all is as it was. -/
def replace (target : Path) (build : Path → m Unit) : m Unit := do
  makeDirs target.parent
  sweep target
  let staging ← unused target.parent (stagingHead target)
  makeDir staging
  tryCatch (do build staging; swap staging target) fun (e : Failure) => do
    ignoring (removeTree staging)
    throw e

end CronWrap.Staging
