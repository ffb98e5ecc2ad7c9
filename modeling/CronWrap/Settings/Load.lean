import CronWrap.Files.Workspace
import CronWrap.Toml.Document

/-! The settings file of a project. -/
namespace CronWrap.Settings

open Workspace

variable {m : Type → Type} [Monad m] [MonadExceptOf Failure m] [Workspace m]

def fileName : String := "cronstart.toml"

/-- The settings that the content of a file describes. -/
def ofBytes (limits : Toml.Limits) (file : Path) (bytes : Text.Bytes) : Except Failure Settings :=
  match Text.decodeUtf8 bytes with
  | .error e => .error (.encoding e)
  | .ok cs =>
    match Toml.parse? limits cs with
    | .error l => .error (.limit l)
    | .ok none => .error (.settings file .notToml)
    | .ok (some v) =>
      match ofValue v with
      | .ok settings => .ok settings
      | .error cs => .error (.settings file (.complaints cs))

/-- The settings of a project; without a file they have their defaults. -/
def load (root : Path) (limits : Toml.Limits := {}) : m Settings := do
  let file := root / fileName
  if ← isFile file then
    match ofBytes limits file (← read file) with
    | .ok settings => return settings
    | .error e => throw e
  else return {}

end CronWrap.Settings
