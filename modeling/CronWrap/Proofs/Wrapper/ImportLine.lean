import CronWrap.Wrapper.Import
import Mathlib.Tactic.Common

/-! The text of an import: literals hold no controls, so that there are none but those of its names. -/
namespace CronWrap

namespace Text

theorem forall_escapeChar (c : Char) : ∀ d ∈ escapeChar c, 0x20 ≤ d.toNat := by
  unfold escapeChar
  split
  case h_8 =>
    split
    · have hdigit : ∀ n < 16, 0x20 ≤ (Nat.digitChar n).toNat := by decide
      have hlow := hdigit (c.toNat % 16) (Nat.mod_lt _ (by decide))
      have hhigh := hdigit (c.toNat / 16) (by omega)
      simp [hlow, hhigh]
    · simpa using ‹¬c.toNat < 0x20›
  all_goals simp

theorem forall_quote (s : String) : ∀ d ∈ (quote s).toList, 0x20 ≤ d.toNat := by
  rw [toList_quote, List.forall_mem_append, List.forall_mem_cons, List.forall_mem_flatMap]
  exact ⟨⟨by decide, fun c _ => forall_escapeChar c⟩, by simp⟩

/-- No control stands in a literal. -/
theorem control_not_mem_quote {c : Char} (hc : c.toNat < 0x20) (s : String) : c ∉ (quote s).toList :=
  fun h => absurd (forall_quote s c h) (Nat.not_le.mpr hc)

end Text

/-- A control in an import is in one of its names. -/
theorem control_mem_importLine_iff {c : Char} (hc : c.toNat < 0x20) (functionName : String)
    (importedName : Option String) (path : String) :
    c ∈ (importLine functionName importedName path).toList ↔
      c ∈ functionName.toList ∨ ∃ name ∈ importedName, c ∈ name.toList := by
  have hword : ∀ s : String, s.toList.all (0x20 ≤ ·.toNat) → c ∉ s.toList := fun s hs h =>
    absurd (of_decide_eq_true (List.all_eq_true.mp hs c h)) (Nat.not_le.mpr hc)
  have hquote := Text.control_not_mem_quote hc path
  have himport := hword "import " (by decide)
  have hopening := hword "import \x7b " (by decide)
  have hclosing := hword " \x7d from " (by decide)
  have hfrom := hword " from " (by decide)
  have has := hword " as " (by decide)
  have hdefault := hword defaultExport (by decide)
  have hsame : c ∈ s!"import \x7b {functionName} \x7d from {Text.quote path}".toList ↔
      c ∈ functionName.toList := by
    simp only [toString, String.toList_append, List.mem_append, hopening, hclosing, hquote,
      false_or, or_false]
  unfold importLine
  dsimp only
  split
  · simpa using hsame
  · rename_i name
    split
    · rename_i hname
      subst hname
      simp only [toString, String.toList_append, List.mem_append, himport, hfrom, hquote, hdefault,
        false_or, or_false, Option.mem_some_iff, exists_eq_left']
    · split
      · rename_i hname
        rw [Bool.or_eq_true, decide_eq_true_eq, decide_eq_true_eq] at hname
        rw [hsame]
        rcases hname with rfl | rfl <;> simp
      · simp only [toString, String.toList_append, List.mem_append, hopening, has, hclosing,
          hquote, false_or, or_false, Option.mem_some_iff, exists_eq_left']
        exact or_comm

theorem control_not_mem_importLine {c : Char} (hc : c.toNat < 0x20) {functionName : String}
    {importedName : Option String} (hf : c ∉ functionName.toList)
    (himported : ∀ name ∈ importedName, c ∉ name.toList) (path : String) :
    c ∉ (importLine functionName importedName path).toList := fun h =>
  ((control_mem_importLine_iff hc functionName importedName path).mp h).elim hf
    fun ⟨name, hname, hmem⟩ => himported name hname hmem

end CronWrap
