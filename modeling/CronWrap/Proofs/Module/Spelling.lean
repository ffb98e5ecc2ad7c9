import CronWrap.Module.Mention
import Mathlib.Data.List.Basic

/-! Texts that start in a given way and go on in another. -/
namespace CronWrap.Mention

open Text

/-- A text that starts with `w`, with `next` behind it. -/
def Spells (w : List Char) (next : List Char → Prop) (cs : List Char) : Prop :=
  ∃ rest, cs = w ++ rest ∧ next rest

/-- A text that starts with any number of blanks, with `next` behind them. -/
def Blanks (next : List Char → Prop) (cs : List Char) : Prop :=
  ∃ gap rest, cs = gap ++ rest ∧ allBlank gap ∧ next rest

/-- A text with `here` behind some characters for which `p` holds; `here` also gets the character
before it, which is `before` where there are none. -/
def Behind (p : Char → Prop) (here : Option Char → List Char → Prop) (before : Option Char)
    (cs : List Char) : Prop :=
  ∃ others rest, cs = others ++ rest ∧ (∀ c ∈ others, p c) ∧
    here (others.getLast? <|> before) rest

theorem spells_iff (w : List Char) (next : List Char → Prop) (cs : List Char) :
    Spells w next cs ↔ ∃ rest, w.isPrefixOf? cs = some rest ∧ next rest := by
  constructor
  · rintro ⟨rest, rfl, h⟩
    exact ⟨rest, List.isPrefixOf?_eq_some_iff_append_eq.mpr rfl, h⟩
  · rintro ⟨rest, hw, h⟩
    exact ⟨rest, (List.isPrefixOf?_eq_some_iff_append_eq.mp hw).symm, h⟩

theorem spells_singleton (c : Char) (next : List Char → Prop) (cs : List Char) :
    Spells [c] next cs ↔ ∃ rest, cs = c :: rest ∧ next rest := Iff.rfl

theorem dropBlanks_append {gap : List Char} (h : allBlank gap) (cs : List Char) :
    dropBlanks (gap ++ cs) = dropBlanks cs :=
  List.dropWhile_append_of_pos (List.all_eq_true.mp h)

theorem dropBlanks_cons_of_not_blank {c : Char} (h : ¬ isBlank c) (cs : List Char) :
    dropBlanks (c :: cs) = c :: cs :=
  List.dropWhile_cons_of_neg h

/-- What does not start with a blank follows behind blanks when it follows behind all of them. -/
theorem blanks_iff {next : List Char → Prop} (hnext : ∀ c rest, isBlank c → ¬ next (c :: rest))
    (cs : List Char) : Blanks next cs ↔ next (dropBlanks cs) := by
  constructor
  · rintro ⟨gap, rest, rfl, hgap, h⟩
    rw [dropBlanks_append hgap]
    cases rest with
    | nil => exact h
    | cons c rest =>
      have hc : ¬ isBlank c := fun hc => hnext c rest hc h
      rwa [dropBlanks_cons_of_not_blank hc]
  · intro h
    refine ⟨cs.takeWhile isBlank, dropBlanks cs, List.takeWhile_append_dropWhile.symm, ?_, h⟩
    exact List.all_takeWhile

theorem getLast?_cons_or (c : Char) (others : List Char) (before : Option Char) :
    ((c :: others).getLast? <|> before) = (others.getLast? <|> some c) := by
  cases others with
  | nil => rfl
  | cons d others =>
    rw [List.getLast?_cons_cons]
    cases h : (d :: others).getLast? with
    | none => simp at h
    | some l => rfl

theorem behind_nil (p : Char → Prop) (here : Option Char → List Char → Prop)
    (before : Option Char) : Behind p here before [] ↔ here before [] := by
  constructor
  · rintro ⟨others, rest, he, -, h⟩
    obtain ⟨rfl, rfl⟩ := List.append_eq_nil_iff.mp he.symm
    exact h
  · exact fun h => ⟨[], [], rfl, by simp, h⟩

theorem behind_cons (p : Char → Prop) (here : Option Char → List Char → Prop)
    (before : Option Char) (c : Char) (cs : List Char) :
    Behind p here before (c :: cs) ↔ here before (c :: cs) ∨ p c ∧ Behind p here (some c) cs := by
  constructor
  · rintro ⟨others, rest, he, hothers, h⟩
    cases others with
    | nil =>
      left
      rw [he]
      exact h
    | cons d others =>
      right
      obtain ⟨rfl, rfl⟩ := List.cons.inj he
      rw [getLast?_cons_or] at h
      exact ⟨hothers c (by simp), others, rest, rfl, fun d hd => hothers d (by simp [hd]), h⟩
  · rintro (h | ⟨hc, others, rest, rfl, hothers, h⟩)
    · exact ⟨[], c :: cs, rfl, by simp, h⟩
    · refine ⟨c :: others, rest, rfl, List.forall_mem_cons.mpr ⟨hc, hothers⟩, ?_⟩
      rw [getLast?_cons_or]
      exact h

theorem not_spells_cons_of_ne {c d : Char} (h : c ≠ d) (w rest : List Char)
    (next : List Char → Prop) : ¬ Spells (d :: w) next (c :: rest) := by
  rintro ⟨_, he, -⟩
  exact h (List.cons.inj he).1

theorem ne_of_isBlank {c d : Char} (hc : isBlank c) (hd : isBlank d = false) : c ≠ d := by
  rintro rfl
  rw [hc] at hd
  cases hd

theorem dropWhile_ne_eq_cons_iff (m : Char) (cs : List Char) (c : Char) (rest : List Char) :
    cs.dropWhile (· ≠ m) = c :: rest ↔ c = m ∧ ∃ others, cs = others ++ m :: rest ∧ m ∉ others := by
  constructor
  · intro h
    have hc : c = m := by
      have hhead := List.head?_dropWhile_not (· ≠ m) cs
      rw [h] at hhead
      simpa using hhead
    subst hc
    refine ⟨rfl, cs.takeWhile (· ≠ c), ?_, ?_⟩
    · rw [← h, List.takeWhile_append_dropWhile]
    · intro hmem
      have hne := List.all_eq_true.mp List.all_takeWhile c hmem
      simp at hne
  · rintro ⟨rfl, others, rfl, hm⟩
    have hothers : ∀ d ∈ others, decide (d ≠ c) = true := by
      intro d hd
      simp only [ne_eq, decide_not, Bool.not_eq_true', decide_eq_false_iff_not]
      rintro rfl
      exact hm hd
    rw [List.dropWhile_append_of_pos hothers]
    simp

theorem mem_of_inRanges {ranges : List (Nat × Nat)} {c : Char} (h : inRanges ranges c) :
    c.toNat ∈ ranges.flatMap fun r => List.range' r.1 (r.2 + 1 - r.1) := by
  obtain ⟨r, hr, hc⟩ := List.any_eq_true.mp h
  simp only [Bool.and_eq_true, decide_eq_true_eq] at hc
  refine List.mem_flatMap.mpr ⟨r, hr, List.mem_range'_1.mpr ?_⟩
  omega

theorem not_isNamePart_of_isBlank {c : Char} (h : isBlank c) : isNamePart c = false := by
  have hall : ∀ n ∈ blankRanges.flatMap fun r => List.range' r.1 (r.2 + 1 - r.1),
      isNamePart (Char.ofNat n) = false := by decide +kernel
  rw [← Char.ofNat_toNat c]
  exact hall _ (mem_of_inRanges h)

/-- A run of characters that nothing behind it goes on with is taken as a whole. -/
theorem run_iff {p : Char → Bool} {next : List Char → Prop}
    (hnext : ∀ c rest, p c → ¬ next (c :: rest)) (cs : List Char) :
    (∃ run rest, cs = run ++ rest ∧ run ≠ [] ∧ (∀ c ∈ run, p c) ∧ next rest) ↔
      cs.takeWhile p ≠ [] ∧ next (cs.dropWhile p) := by
  constructor
  · rintro ⟨run, rest, rfl, hne, hrun, h⟩
    have hrest : rest.takeWhile p = [] ∧ rest.dropWhile p = rest := by
      cases rest with
      | nil => simp
      | cons c rest =>
        have hc : ¬ p c := fun hc => hnext c rest hc h
        simp [hc]
    rw [List.takeWhile_append_of_pos hrun, List.dropWhile_append_of_pos hrun, hrest.1, hrest.2]
    exact ⟨by simpa using hne, h⟩
  · rintro ⟨hne, h⟩
    refine ⟨_, _, List.takeWhile_append_dropWhile.symm, hne, ?_, h⟩
    exact List.all_eq_true.mp List.all_takeWhile

end CronWrap.Mention
