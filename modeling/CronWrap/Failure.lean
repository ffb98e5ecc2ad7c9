import CronWrap.Files.Error
import CronWrap.Path.Specifier
import CronWrap.Settings.Schema
import CronWrap.Text.Utf8
import CronWrap.Toml.Limit
import CronWrap.Wrapper.Plan

/-! Why the program gives up on a task. -/
namespace CronWrap

/-- What is wrong with the settings file of a project. -/
inductive SettingsDefect
  | notToml
  | complaints (cs : List Complaint)
  deriving DecidableEq, Repr

/-- Why the program gives up. -/
inductive Failure
  | file (e : FileError)
  | encoding (e : Text.Utf8Error)
  | path (e : PathError)
  | settings (file : Path) (defect : SettingsDefect)
  | limit (l : Toml.Limit)
  | collision (c : Collision)
  deriving DecidableEq, Repr

/-- What went wrong with a settings file, without the details. -/
def SettingsDefect.headline (file : Path) : SettingsDefect → String
  | notToml => s!"Invalid TOML in {file}"
  | complaints _ => s!"Invalid config in {file}"

def Complaint.text (c : Complaint) : String :=
  ".".intercalate (c.place.map Step.text) ++ ": " ++ c.defect.message

def SettingsDefect.details : SettingsDefect → String
  | notToml => "the file does not follow the grammar"
  | complaints cs => "; ".intercalate (cs.map Complaint.text)

def Failure.message : Failure → String
  | file e => e.message
  | encoding e => e.message
  | path e => e.message
  | settings p defect => defect.headline p ++ ": " ++ defect.details
  | limit l => l.message
  | collision c => c.message

end CronWrap
