import CronWrap.Text.Word

/-! The settings of a project: which call schedules a function, and what wrappers are made of. -/
namespace CronWrap

structure Settings where
  /-- The call that schedules a function. -/
  callName : String := "cronStart"
  /-- The module that the call must be imported from. -/
  callModule : String := "workflow-cron-start"
  /-- The primitive that starts a task. -/
  startName : String := "start"
  startModule : String := "workflow/api"
  /-- The primitive that sleeps until the next occurrence. -/
  sleepName : String := "cronSleep"
  sleepModule : String := "workflow-cron-sleep"
  /-- The directories to scan, seen from the project. -/
  scanDirs : List String := ["pages", "app", "src/pages", "src/app"]
  /-- Patterns of files to leave out. -/
  exclude : List String := []
  /-- Whether the ignore files of subdirectories count. -/
  nestedGitignore : Bool := false
  deriving DecidableEq, Repr, Inhabited

namespace Settings

def isIdentifierStart (c : Char) : Bool := c.isAlpha || c = '_' || c = '$'

/-- Names that may be called in a script. A line feed at the end passes. -/
def isIdentifier (cs : List Char) : Bool :=
  match cs with
  | [] => false
  | c :: rest =>
    isIdentifierStart c &&
      match rest.dropWhile fun c => Text.isWord c || c = '$' with
      | [] => true
      | left => left = ['\n']

/-- Module specifiers that can be quoted as they are. -/
def isModuleSpecifier (cs : List Char) : Bool :=
  cs ≠ [] && !cs.any fun c => c = '"' || c = '\'' || c = '\n'

end Settings

end CronWrap
