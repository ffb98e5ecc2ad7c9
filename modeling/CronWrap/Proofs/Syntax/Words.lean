import CronWrap.Syntax.Token
import Mathlib.Data.List.TakeWhile
import Mathlib.Tactic.Common

/-! Places in a text, and the words that are found there. -/
namespace CronWrap.Syntax

/-! ## Places -/

/-- The place is one in the text. -/
structure Cursor.IsIn (source : List Char) (c : Cursor) : Prop where
  gap_eq : c.gap = source.drop c.stop
  rest_eq : c.rest = source.drop c.start

theorem skipGap_eq (g : Gap) (n : Nat) (broken : Bool) (cs : List Char) :
    ∃ k, (skipGap g n broken cs).1 = n + k ∧ (skipGap g n broken cs).2.2 = cs.drop k ∧
      k ≤ cs.length := by
  fun_induction skipGap g n broken cs with
  | case1 | case5 => exact ⟨0, rfl, rfl, Nat.zero_le _⟩
  | case2 _ _ _ ih | case3 _ _ _ ih | case8 _ _ _ ih =>
    obtain ⟨k, hn, hrest, hk⟩ := ih
    exact ⟨k + 2, by omega, by rw [hrest]; rfl, by simpa using hk⟩
  | case4 _ _ _ _ _ _ _ ih | case6 _ _ _ _ _ ih | case7 _ _ _ _ _ ih | case9 _ _ _ _ _ ih =>
    obtain ⟨k, hn, hrest, hk⟩ := ih
    exact ⟨k + 1, by omega, by rw [hrest]; rfl, by simpa using hk⟩

theorem Cursor.isIn_after (source : List Char) (n : Nat) :
    (after n (source.drop n)).IsIn source := by
  obtain ⟨k, hn, hrest, -⟩ := skipGap_eq .spaces 0 false (source.drop n)
  refine ⟨rfl, ?_⟩
  simp only [after, hn, hrest, List.drop_drop]
  congr 1
  omega

theorem drop_length_take_eq (cs : List Char) (n : Nat) :
    cs.drop (cs.take n).length = cs.drop n := by
  rw [List.length_take, List.drop_eq_drop_iff]
  omega

theorem Cursor.IsIn.advance {source : List Char} {c : Cursor} (h : c.IsIn source) (n : Nat) :
    (c.advance n).IsIn source := by
  rw [Cursor.advance, ← drop_length_take_eq, h.rest_eq, List.drop_drop]
  exact isIn_after source _

theorem Cursor.IsIn.advanceRaw {source : List Char} {c : Cursor} (h : c.IsIn source) (n : Nat) :
    (c.advanceRaw n).IsIn source := by
  rw [Cursor.advanceRaw, ← drop_length_take_eq, h.gap_eq, List.drop_drop]
  exact isIn_after source _

/-! ## Places between tokens -/

theorem not_isSpace_skipGap (g : Gap) (n : Nat) (broken : Bool) (cs : List Char) :
    ∀ x ∈ (skipGap g n broken cs).2.2.head?, isSpace x = false := by
  fun_induction skipGap g n broken cs with
  | case1 => simp
  | case5 => simp_all
  | case2 _ _ _ ih | case3 _ _ _ ih | case8 _ _ _ ih => exact ih
  | case4 _ _ _ _ _ _ _ ih | case6 _ _ _ _ _ ih | case7 _ _ _ _ _ ih | case9 _ _ _ _ _ ih =>
    exact ih

namespace Cursor

variable {source : List Char} {c : Cursor}

/-- The place is between two tokens of the text. -/
def IsPlace (source : List Char) (c : Cursor) : Prop :=
  ∃ n ≤ source.length, c = after n (source.drop n)

theorem IsPlace.isIn (h : c.IsPlace source) : c.IsIn source := by
  obtain ⟨n, -, rfl⟩ := h
  exact isIn_after source n

theorem IsPlace.stop_le_start (h : c.IsPlace source) : c.stop ≤ c.start := by
  obtain ⟨n, -, rfl⟩ := h
  exact Nat.le_add_right _ _

theorem IsPlace.start_le (h : c.IsPlace source) : c.start ≤ source.length := by
  obtain ⟨n, hn, rfl⟩ := h
  obtain ⟨k, hgap, -, hk⟩ := skipGap_eq .spaces 0 false (source.drop n)
  rw [List.length_drop] at hk
  simp only [after, hgap]
  omega

/-- What comes next is no space. -/
theorem IsPlace.not_isSpace (h : c.IsPlace source) : ∀ x ∈ c.rest.head?, isSpace x = false := by
  obtain ⟨n, -, rfl⟩ := h
  exact not_isSpace_skipGap _ _ _ _

theorem IsPlace.advance (h : c.IsPlace source) (n : Nat) : (c.advance n).IsPlace source := by
  have hstart := h.start_le
  have hrest := h.isIn.rest_eq
  refine ⟨c.start + (c.rest.take n).length, ?_, ?_⟩
  · rw [List.length_take, hrest, List.length_drop]
    omega
  · rw [Cursor.advance, ← List.drop_drop, ← hrest, drop_length_take_eq]

theorem IsPlace.advanceRaw (h : c.IsPlace source) (n : Nat) : (c.advanceRaw n).IsPlace source := by
  have hstop := h.stop_le_start.trans h.start_le
  have hgap := h.isIn.gap_eq
  refine ⟨c.stop + (c.gap.take n).length, ?_, ?_⟩
  · rw [List.length_take, hgap, List.length_drop]
    omega
  · rw [Cursor.advanceRaw, ← List.drop_drop, ← hgap, drop_length_take_eq]

theorem isPlace_ofSource (source : List Char) : (ofSource source).IsPlace source := by
  refine ⟨_, ?_, rfl⟩
  have hmark := (source.takeWhile_prefix (· = '\ufeff')).length_le
  have hline : (interpreterLine (source.drop (source.takeWhile (· = '\ufeff')).length)).length ≤
      (source.drop (source.takeWhile (· = '\ufeff')).length).length := by
    unfold interpreterLine
    split
    · exact (List.takeWhile_prefix _).length_le
    · exact Nat.zero_le _
  rw [List.length_drop] at hline
  omega

end Cursor

/-! ## Words -/

theorem no_slash_escapeTail (cs : List Char) : '/' ∉ cs.take (escapeTailLength cs) := by
  unfold escapeTailLength
  split
  · rename_i rest hrest
    have hsplit := List.takeWhile_append_dropWhile (p := fun c => c.isAlphanum) (l := cs)
    rw [hrest] at hsplit
    have hrun : '/' ∉ cs.takeWhile fun c => c.isAlphanum :=
      fun h => absurd (List.mem_takeWhile_imp h) (by decide)
    generalize cs.takeWhile (fun c => c.isAlphanum) = run at hsplit hrun ⊢
    rw [← hsplit, List.take_length_add_append]
    simp [hrun]
  · simp

theorem no_slash_run (bound : Nat) (cs : List Char) : '/' ∉ cs.take (wordLengthUpTo bound cs) := by
  fun_induction wordLengthUpTo bound cs with
  | case1 => simp
  | case2 => simp
  | case3 bound rest n h ih =>
    rw [Nat.add_assoc, Nat.add_comm 3, List.take_succ_cons, List.take_succ_cons,
      List.take_succ_cons, List.take_add]
    simp [no_slash_escapeTail, ih, n]
  | case4 bound rest _ ih =>
    rw [Nat.add_comm 2, List.take_succ_cons, List.take_succ_cons]
    simp [ih]
  | case5 bound c rest _ _ hc ih =>
    have hne : c ≠ '/' := by
      rintro rfl
      exact absurd hc (by decide)
    rw [Nat.add_comm 1, List.take_succ_cons]
    simp [ih, Ne.symm hne]
  | case6 => simp
  | case7 => simp

theorem no_slash_wordOf (cs : List Char) : '/' ∉ wordOf cs := by
  unfold wordOf
  split
  · split
    · simp
    · exact no_slash_run _ _
  · simp

theorem take_length_wordOf (cs : List Char) : cs.take (wordOf cs).length = wordOf cs := by
  unfold wordOf
  split
  · split
    · simp
    · simp [List.length_take]
  · simp

theorem word_eq_some {c d : Cursor} {w : String} (h : Reader.word c = some (w, d)) :
    d = c.advance (wordOf c.rest).length := by
  unfold Reader.word at h
  split at h
  · cases h
  · cases h
    rfl

end CronWrap.Syntax
