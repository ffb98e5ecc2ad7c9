import Mathlib.Data.List.Basic
import Mathlib.Data.List.TakeDrop
import CronWrap.Text.Wildcard

/-! What a pattern captures from a text that was made by filling it. -/
namespace CronWrap.Text

theorem splitWildcard_star (rest : List Char) : splitWildcard ('*' :: rest) = ([], some rest) := by
  simp [splitWildcard, List.span_eq_takeWhile_dropWhile]

theorem splitWildcard_cons {c : Char} (h : c ≠ '*') (rest : List Char) :
    splitWildcard (c :: rest) = (c :: (splitWildcard rest).1, (splitWildcard rest).2) := by
  simp only [splitWildcard, List.span_eq_takeWhile_dropWhile]
  rw [List.takeWhile_cons_of_pos (by simpa using h), List.dropWhile_cons_of_pos (by simpa using h)]
  cases List.dropWhile (fun x => decide (x ≠ '*')) rest <;> rfl

/-- A pattern without a wildcard is its own head; any other is parted at its first one. -/
theorem splitWildcard_cases (pattern : List Char) :
    ('*' ∉ pattern ∧ splitWildcard pattern = (pattern, none)) ∨
      ∃ head tail, pattern = head ++ '*' :: tail ∧ splitWildcard pattern = (head, some tail) := by
  induction pattern with
  | nil => exact .inl ⟨by simp, rfl⟩
  | cons c rest ih =>
    by_cases hc : c = '*'
    · subst hc
      exact .inr ⟨[], rest, rfl, splitWildcard_star rest⟩
    · rw [splitWildcard_cons hc]
      rcases ih with ⟨hno, hsplit⟩ | ⟨head, tail, rfl, hsplit⟩
      · left
        refine ⟨?_, by rw [hsplit]⟩
        intro hmem
        rcases List.mem_cons.mp hmem with h | h
        · exact hc h.symm
        · exact hno h
      · exact .inr ⟨c :: head, tail, rfl, by rw [hsplit]⟩

theorem exists_splitWildcard {pattern : List Char} (h : '*' ∈ pattern) :
    ∃ head tail, pattern = head ++ '*' :: tail ∧ splitWildcard pattern = (head, some tail) :=
  (splitWildcard_cases pattern).resolve_left fun hno => hno.1 h

/-- A pattern is what filling it with a wildcard gives. -/
theorem fillWildcard_star (pattern : List Char) : fillWildcard pattern ['*'] = pattern := by
  rcases splitWildcard_cases pattern with ⟨-, hsplit⟩ | ⟨head, tail, rfl, hsplit⟩
  · simp [fillWildcard, hsplit]
  · simp [fillWildcard, hsplit]

/-- A pattern captures what it was filled with, if that is on one line. -/
theorem captureWildcard_of_split {pattern head tail run : List Char}
    (hsplit : splitWildcard pattern = (head, some tail)) (hrun : '\n' ∉ run) :
    captureWildcard pattern (head ++ run ++ tail) = some run := by
  have hbetween : between? head tail (head ++ run ++ tail) = some run := by
    have hhead : head.isPrefixOf? (head ++ (run ++ tail)) = some (run ++ tail) :=
      List.isPrefixOf?_eq_some_iff_append_eq.mpr rfl
    have htail : tail.isSuffixOf? (run ++ tail) = some run :=
      List.isSuffixOf?_eq_some_iff_append_eq.mpr rfl
    simp [between?, hhead, htail, hrun]
  rw [captureWildcard, hsplit]
  simp only [hbetween]
  rfl

theorem isSome_captureWildcard_fillWildcard (pattern : List Char) {run : List Char}
    (hrun : '\n' ∉ run) : (captureWildcard pattern (fillWildcard pattern run)).isSome := by
  rcases splitWildcard_cases pattern with ⟨-, hsplit⟩ | ⟨head, tail, -, hsplit⟩
  · simp [captureWildcard, fillWildcard, hsplit]
  · simp only [fillWildcard, hsplit]
    rw [captureWildcard_of_split hsplit hrun]
    rfl

end CronWrap.Text
