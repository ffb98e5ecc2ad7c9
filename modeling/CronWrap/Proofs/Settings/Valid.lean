import CronWrap.Settings.Schema
import Mathlib.Data.List.TakeWhile
import Mathlib.Tactic.Common

/-! Settings that are read from a value pass the checks that are made of them. -/
namespace CronWrap.Settings

/-- All names may be called, and all modules may be quoted. -/
structure Valid (s : Settings) : Prop where
  callName : isIdentifier s.callName.toList
  callModule : isModuleSpecifier s.callModule.toList
  startName : isIdentifier s.startName.toList
  startModule : isModuleSpecifier s.startModule.toList
  sleepName : isIdentifier s.sleepName.toList
  sleepModule : isModuleSpecifier s.sleepModule.toList

/-- A line feed passes only at the end of a name. -/
theorem lineFeed_mem_iff_of_isIdentifier {cs : List Char} (h : isIdentifier cs) :
    '\n' ∈ cs ↔ cs.getLast? = some '\n' := by
  refine ⟨fun hmem => ?_, List.mem_of_getLast?⟩
  cases cs with
  | nil => cases h
  | cons c rest =>
    simp only [isIdentifier, Bool.and_eq_true] at h
    obtain ⟨hstart, hrest⟩ := h
    have hne : '\n' ≠ c := by
      rintro rfl
      revert hstart
      decide
    let inside (c : Char) : Bool := Text.isWord c || c = '$'
    have hinside : '\n' ∉ rest.takeWhile inside := fun hin =>
      absurd (List.mem_takeWhile_imp hin) (by decide)
    have hsplit : rest.takeWhile inside ++ rest.dropWhile inside = rest :=
      List.takeWhile_append_dropWhile
    have hmem := List.mem_of_ne_of_mem hne hmem
    rw [← hsplit] at hmem
    have hleft := (List.mem_append.mp hmem).resolve_left hinside
    split at hrest
    · rename_i hnil
      exact absurd (hnil ▸ hleft) List.not_mem_nil
    · have hend : rest.dropWhile inside = ['\n'] := of_decide_eq_true hrest
      rw [← hsplit, hend, ← List.cons_append, List.getLast?_concat]

theorem valid_default : Valid {} := by
  constructor <;> decide

/-- What is read and then checked has passed the check. -/
theorem passes_of_checked (passes : String → Bool) {place : List Step} {read : Checked String}
    {defect : String → Defect} {s : String}
    (h : (do let s ← read; if passes s then return s else complain place (defect s)) = .ok s) :
    passes s := by
  cases read with
  | error cs => cases h
  | ok text =>
    change (if passes text then Except.ok text else complain place (defect text)) = _ at h
    split at h
    · cases h
      assumption
    · cases h

theorem isIdentifier_of_readIdentifier {place : List Step} {v : Value} {s : String}
    (h : readIdentifier place v = .ok s) : isIdentifier s.toList :=
  passes_of_checked (fun s => isIdentifier s.toList) h

theorem isModuleSpecifier_of_readModule {place : List Step} {v : Value} {s : String}
    (h : readModule place v = .ok s) : isModuleSpecifier s.toList :=
  passes_of_checked (fun s => isModuleSpecifier s.toList) h

theorem Draft.valid_take {α : Type} {d : Draft} {checked : Checked α} {set : Settings → α → Settings}
    (hd : d.settings.Valid) (hset : ∀ a, checked = .ok a → (set d.settings a).Valid) :
    (d.take checked set).settings.Valid := by
  cases checked with
  | ok a => exact hset a rfl
  | error cs => exact hd

/-- A field that is taken over passes its own check and leaves the others. -/
theorem Draft.valid_field {d : Draft} (hd : d.settings.Valid) (name : String) (v : Value) :
    (d.field name v).settings.Valid := by
  unfold Draft.field
  dsimp only
  split
  · exact valid_take hd fun a h => { hd with callName := isIdentifier_of_readIdentifier h }
  · exact valid_take hd fun a h => { hd with callModule := isModuleSpecifier_of_readModule h }
  · exact valid_take hd fun a h => { hd with startName := isIdentifier_of_readIdentifier h }
  · exact valid_take hd fun a h => { hd with startModule := isModuleSpecifier_of_readModule h }
  · exact valid_take hd fun a h => { hd with sleepName := isIdentifier_of_readIdentifier h }
  · exact valid_take hd fun a h => { hd with sleepModule := isModuleSpecifier_of_readModule h }
  all_goals exact valid_take hd fun a h => { hd with }

theorem Draft.valid_fields {d : Draft} (hd : d.settings.Valid) (fields : List (String × Value)) :
    (fields.foldl (fun d f => d.field f.1 f.2) d).settings.Valid := by
  induction fields generalizing d with
  | nil => exact hd
  | cons f fields ih => exact ih (valid_field hd f.1 f.2)

theorem valid_of_ofValue {v : Value} {s : Settings} (h : ofValue v = .ok s) : s.Valid := by
  unfold ofValue at h
  split at h
  · rename_i fields
    dsimp only at h
    split at h
    · cases h
      exact Draft.valid_fields valid_default fields
    · cases h
  · cases h

end CronWrap.Settings
