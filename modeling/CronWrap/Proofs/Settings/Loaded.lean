import CronWrap.Command.Run
import CronWrap.Files.Session
import CronWrap.Proofs.Files.Shows
import CronWrap.Proofs.Settings.Valid
import CronWrap.Proofs.Text.Decoding
import CronWrap.Proofs.Toml.Fits

/-! What becomes of a settings file, whatever it holds: valid settings, or a word on what is wrong with
it, as long as it is a text at all. -/
namespace CronWrap

open Session Workspace

/-- The path that a task takes for the root of its project. -/
def Command.Task.root : Task → String
  | .generate root => root
  | .transform _ root _ => root

namespace Settings

variable {t : FileTree} {root : Path} {limits : Toml.Limits} {bytes : Text.Bytes}

/-- The bytes are a text of the grammar, and these are the settings that it describes. -/
def Describes (limits : Toml.Limits) (bytes : Text.Bytes) (settings : Settings) : Prop :=
  ∃ cs v, bytes = Text.encodeUtf8 cs ∧ Toml.parse? limits cs = .ok (some v) ∧
    ofValue v = .ok settings

/-- What the reading of the bytes stops at, before it is known what they describe. -/
inductive Stops (limits : Toml.Limits) (bytes : Text.Bytes) : Failure → Prop
  /-- They are no text. -/
  | encoding {e : Text.Utf8Error} (h : Text.decodeUtf8 bytes = .error e) :
    Stops limits bytes (.encoding e)
  /-- They are a text with a number that is too long, or with brackets that are too deep. -/
  | limit {cs : List Char} {l : Toml.Limit} (h : bytes = Text.encodeUtf8 cs)
    (hlimit : Toml.limit? limits cs = some l) : Stops limits bytes (.limit l)

theorem Describes.valid {settings : Settings} (h : Describes limits bytes settings) :
    settings.Valid := by
  obtain ⟨cs, v, -, -, hvalue⟩ := h
  exact valid_of_ofValue hvalue

theorem ofBytes_of_describes {settings : Settings} (h : Describes limits bytes settings)
    (file : Path) : ofBytes limits file bytes = .ok settings := by
  obtain ⟨cs, v, rfl, hparse, hvalue⟩ := h
  simp only [ofBytes, Text.decodeUtf8_encodeUtf8, hparse, hvalue]

theorem ofBytes_of_stops {e : Failure} (h : Stops limits bytes e) (file : Path) :
    ofBytes limits file bytes = .error e := by
  cases h with
  | encoding h => simp only [ofBytes, h]
  | limit h hlimit =>
    subst h
    rw [Toml.limit?_eq_some_iff] at hlimit
    simp only [ofBytes, Text.decodeUtf8_encodeUtf8, hlimit]

/-- What stops the reading is not told from an error of the machine. -/
theorem ofBytes_cases (limits : Toml.Limits) (file : Path) (bytes : Text.Bytes) :
    (∃ settings, ofBytes limits file bytes = .ok settings ∧ Describes limits bytes settings) ∨
      (∃ defect, ofBytes limits file bytes = .error (.settings file defect)) ∨
      ∃ e, Stops limits bytes e := by
  unfold ofBytes
  cases hdecoded : Text.decodeUtf8 bytes with
  | error e => exact .inr (.inr ⟨_, .encoding hdecoded⟩)
  | ok cs =>
    have htext := Text.decodeUtf8_eq_ok_iff.mp hdecoded
    dsimp only
    cases hparse : Toml.parse? limits cs with
    | error l => exact .inr (.inr ⟨_, .limit htext (Toml.limit?_eq_some_iff.mpr hparse)⟩)
    | ok read =>
      cases read with
      | none => exact .inr (.inl ⟨.notToml, rfl⟩)
      | some v =>
        dsimp only
        cases hvalue : ofValue v with
        | ok settings => exact .inl ⟨settings, rfl, cs, v, htext, hparse, hvalue⟩
        | error complaints => exact .inr (.inl ⟨.complaints complaints, rfl⟩)

theorem exists_stops_of_no_text (h : ¬∃ cs, bytes = Text.encodeUtf8 cs) :
    ∃ e, Stops limits bytes (.encoding e) := by
  cases hdecoded : Text.decodeUtf8 bytes with
  | error e => exact ⟨e, .encoding hdecoded⟩
  | ok cs => exact absurd ⟨cs, Text.decodeUtf8_eq_ok_iff.mp hdecoded⟩ h

theorem not_stops_of_fits {cs : List Char} {e : Failure}
    (h : Toml.Fits limits.digits limits.calls cs) : ¬Stops limits (Text.encodeUtf8 cs) e := by
  intro hstops
  cases hstops with
  | encoding hdecoded => cases hdecoded.symm.trans (Text.decodeUtf8_encodeUtf8 cs)
  | limit hcs hlimit =>
    obtain rfl := Text.encodeUtf8_inj.mp hcs
    cases hlimit.symm.trans h.limit?_eq_none

theorem sees_load (h : t.contentAt (root / fileName) = .ok (some bytes)) :
    Sees t (load root limits : Session _) (ofBytes limits (root / fileName) bytes) := by
  obtain ⟨place, hfind⟩ := FileTree.exists_find_of_contentAt h
  refine (sees_isFile_of_contentAt h).bind ((sees_read_of_find hfind).bind ?_)
  cases ofBytes limits (root / fileName) bytes with
  | ok settings => exact sees_pure t settings
  | error e => exact sees_throw t e

end Settings

namespace Command

variable {t : FileTree} {root : Path} {station : Station} {task : Task} {bytes : Text.Bytes}

/-- No task gets past the settings. -/
theorem sees_runTask_error {e : Failure} (hroot : t.resolve (station.path task.root) = root)
    (h : Sees t (Settings.load root station.limits : Session _) (.error e)) :
    Sees t (runTask station task : Session _) (.error e) := by
  subst hroot
  cases task with
  | generate argument => exact (sees_resolve t _).bind h.bind_error
  | transform file argument write =>
    exact (sees_resolve t _).bind ((sees_resolve t _).bind h.bind_error)

theorem sees_run_of_defect {file : Path} {defect : SettingsDefect}
    (hroot : t.resolve (station.path task.root) = root)
    (h : Sees t (Settings.load root station.limits : Session _) (.error (.settings file defect))) :
    Sees t (run station task : Session _)
      (.ok { exitCode := 2, failure := some (.settings file defect) }) :=
  (sees_runTask_error hroot h).handled (sees_pure t _)

theorem sees_run_of_stops {e : Failure} (hroot : t.resolve (station.path task.root) = root)
    (hstops : Settings.Stops station.limits bytes e)
    (h : Sees t (Settings.load root station.limits : Session _) (.error e)) :
    Sees t (run station task : Session _) (.error e) := by
  cases hstops with
  | encoding _ => exact (sees_runTask_error hroot h).handled (sees_throw t _)
  | limit _ _ => exact (sees_runTask_error hroot h).handled (sees_throw t _)

/-- The settings that the file of a project describes are loaded and valid; or it describes none, which
is said of it, and then a task on the project ends with an exit code of its own. -/
def AnswersForSettings (t : FileTree) (root : Path) (bytes : Text.Bytes) (station : Station)
    (task : Task) : Prop :=
  let file := root / Settings.fileName
  let limits := station.limits
  (∃ settings, Sees t (Settings.load root limits) (.ok settings) ∧
      Settings.Describes limits bytes settings ∧ settings.Valid) ∨
    (∀ settings, ¬Settings.Describes limits bytes settings) ∧
      ∃ defect, Sees t (Settings.load root limits : Session _) (.error (.settings file defect)) ∧
        Sees t (run station task) (.ok { exitCode := 2, failure := some (.settings file defect) })

theorem not_answersForSettings {e : Failure} (hstops : Settings.Stops station.limits bytes e)
    (h : Sees t (Settings.load root station.limits : Session _) (.error e)) :
    ¬AnswersForSettings t root bytes station task := by
  rintro (⟨settings, hload, -⟩ | ⟨-, defect, hload, -⟩)
  · cases hload.unique h
  · cases hload.unique h
    cases hstops

end Command

end CronWrap
