import Mathlib.Data.List.Pairwise

/-! Laws on lists, and on texts that are joined from several. -/

/-- Of two items of a list one is the earlier. -/
theorem List.Pairwise.or_of_ne {α : Type} {R : α → α → Prop} {l : List α} (h : l.Pairwise R)
    {a b : α} (ha : a ∈ l) (hb : b ∈ l) (hne : a ≠ b) : R a b ∨ R b a := by
  have hsymm : Std.Symm fun a b => R a b ∨ R b a := ⟨fun _ _ => Or.symm⟩
  exact (h.imp (S := fun a b => R a b ∨ R b a) Or.inl).forall ha hb hne

theorem List.drop_length_takeWhile {α : Type} (p : α → Bool) (l : List α) :
    l.drop (l.takeWhile p).length = l.dropWhile p := by
  have hsplit : l.takeWhile p ++ l.dropWhile p = l := List.takeWhile_append_dropWhile
  calc l.drop (l.takeWhile p).length
    _ = (l.takeWhile p ++ l.dropWhile p).drop (l.takeWhile p).length := by rw [hsplit]
    _ = l.dropWhile p := List.drop_left

theorem List.mem_of_mem_intercalate {α : Type} {a : α} {sep : List α} {ls : List (List α)}
    (h : a ∈ sep.intercalate ls) : a ∈ sep ∨ ∃ l ∈ ls, a ∈ l := by
  induction ls with
  | nil => simp at h
  | cons first rest ih =>
    cases rest with
    | nil => exact .inr ⟨first, List.mem_cons_self, by simpa using h⟩
    | cons next rest =>
      rw [List.intercalate_cons_cons, List.append_assoc, List.mem_append, List.mem_append] at h
      rcases h with h | h | h
      · exact .inr ⟨first, List.mem_cons_self, h⟩
      · exact .inl h
      · exact (ih h).imp_right fun ⟨l, hl, ha⟩ => ⟨l, List.mem_cons_of_mem _ hl, ha⟩

/-- Around one of several lines the others stand with their line breaks. -/
theorem String.toList_intercalate_lines (before : List String) (line : String) (after : List String) :
    ("\n".intercalate (before ++ line :: after)).toList =
      before.flatMap (fun l => l.toList ++ ['\n']) ++ line.toList ++
        after.flatMap fun l => '\n' :: l.toList := by
  induction before with
  | nil =>
    induction after generalizing line with
    | nil => simp
    | cons next after ih =>
      have htail := ih next
      rw [List.nil_append] at htail ⊢
      rw [String.intercalate_cons_of_ne_nil (by simp), String.toList_append, String.toList_append,
        htail]
      simp
  | cons first before ih =>
    rw [List.cons_append, String.intercalate_cons_of_ne_nil (by simp), String.toList_append,
      String.toList_append, ih]
    simp
