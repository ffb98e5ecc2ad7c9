import CronWrap.Conversion.Module
import CronWrap.Wrapper.Generate

/-! Converting a file of a project. -/
namespace CronWrap.Converted

open Workspace

variable {m : Type → Type} [Monad m] [MonadExceptOf Failure m] [Workspace m]

/-- Converts the text of a module of a project. -/
def inProject (settings : Settings) (root file : Path) (source : List Char) : m Converted := do
  let (result, log) := ofSource settings (← Generation.findContainer root) file source
  log.forM note
  return result

/-- Converts a file, and writes the result back if asked to and if there is something new. -/
def ofFile (settings : Settings) (root file : Path) (write : Bool) : m Converted := do
  let result ← inProject settings root file (← readText file)
  if write && result.changed then writeText file result.code
  return result

end CronWrap.Converted
