import CronWrap.Path.Specifier

/-! Segments and the texts that are read as them. -/
namespace CronWrap.Path

/-- What may stand between two slashes and say something. -/
structure IsSegment (s : String) : Prop where
  ne_empty : s ≠ ""
  ne_dot : s ≠ "."
  no_slash : '/' ∉ s.toList

instance (s : String) : Decidable (IsSegment s) :=
  decidable_of_iff (s ≠ "" ∧ s ≠ "." ∧ '/' ∉ s.toList)
    ⟨fun h => ⟨h.1, h.2.1, h.2.2⟩, fun h => ⟨h.1, h.2, h.3⟩⟩

theorem IsSegment.toList_ne_nil {s : String} (h : IsSegment s) : s.toList ≠ [] := by
  intro he
  exact h.ne_empty (String.toList_inj.mp he)

theorem segmentsOf_append_slash (as bs : List Char) :
    segmentsOf (as ++ '/' :: bs) = segmentsOf as ++ segmentsOf bs := by
  simp [segmentsOf, List.splitOn_append_cons_self]

theorem segmentsOf_of_no_slash {cs : List Char} (h : '/' ∉ cs) :
    segmentsOf cs = if cs = [] ∨ cs = ['.'] then [] else [String.ofList cs] := by
  rw [segmentsOf, List.splitOn_eq_singleton h]
  by_cases h₁ : cs = [] <;> by_cases h₂ : cs = ['.'] <;> simp [h₁, h₂]

theorem isSegment_infix_of_mem_segmentsOf {cs : List Char} {s : String} (h : s ∈ segmentsOf cs) :
    IsSegment s ∧ s.toList <:+: cs := by
  -- The text is cut at a slash, and one without slashes is a segment or says nothing.
  induction hn : cs.length using Nat.strongRecOn generalizing cs with
  | ind n ih =>
    by_cases hs : '/' ∈ cs
    · obtain ⟨as, bs, rfl⟩ := List.append_of_mem hs
      rw [segmentsOf_append_slash, List.mem_append] at h
      rcases h with h | h
      · obtain ⟨hseg, hin⟩ := ih as.length (by simp at hn; omega) h rfl
        exact ⟨hseg, hin.trans (List.prefix_append as _).isInfix⟩
      · obtain ⟨hseg, hin⟩ := ih bs.length (by simp at hn; omega) h rfl
        have hsuffix : bs <:+ as ++ '/' :: bs := ⟨as ++ ['/'], by simp⟩
        exact ⟨hseg, hin.trans hsuffix.isInfix⟩
    · rw [segmentsOf_of_no_slash hs] at h
      split at h
      · cases h
      · rename_i hne
        rw [List.mem_singleton] at h
        subst h
        rw [not_or] at hne
        refine ⟨⟨fun he => hne.1 ?_, fun he => hne.2 ?_, by simpa using hs⟩, by simp⟩
        · simpa using congrArg String.toList he
        · simpa using congrArg String.toList he

theorem isSegment_of_mem_segmentsOf {cs : List Char} {s : String} (h : s ∈ segmentsOf cs) :
    IsSegment s :=
  (isSegment_infix_of_mem_segmentsOf h).1

theorem mem_of_mem_segmentsOf {cs : List Char} {s : String} (h : s ∈ segmentsOf cs) {c : Char}
    (hc : c ∈ s.toList) : c ∈ cs :=
  (isSegment_infix_of_mem_segmentsOf h).2.subset hc

theorem segmentsOf_toList_of_isSegment {s : String} (h : IsSegment s) :
    segmentsOf s.toList = [s] := by
  have hdot : s.toList ≠ ['.'] := fun he => h.ne_dot (String.toList_inj.mp he)
  rw [segmentsOf_of_no_slash h.no_slash]
  simp [h.toList_ne_nil, hdot]

/-- A text that starts with a segment is no absolute path. -/
theorem anchorOf_of_isSegment {s : String} (h : IsSegment s) (cs : List Char) :
    anchorOf (s.toList ++ cs) = .here := by
  cases hs : s.toList with
  | nil => exact absurd hs h.toList_ne_nil
  | cons c rest =>
    have hc : c ≠ '/' := by
      rintro rfl
      exact h.no_slash (hs ▸ List.mem_cons_self)
    unfold anchorOf
    simp only [List.cons_append]
    split <;> simp_all

theorem parse_of_isSegment {s : String} (h : IsSegment s) : parse s = ⟨.here, [s]⟩ := by
  have ha := anchorOf_of_isSegment h []
  rw [List.append_nil] at ha
  rw [parse, ofChars, ha, segmentsOf_toList_of_isSegment h]

/-- A segment leads one step down. -/
theorem div_of_isSegment (p : Path) {s : String} (h : IsSegment s) :
    p / s = ⟨p.anchor, p.segments ++ [s]⟩ := by
  change p.join (parse s) = _
  rw [parse_of_isSegment h]
  simp [join, isAbsolute]

theorem segmentsOf_intercalate (segs : List String) (h : ∀ s ∈ segs, IsSegment s) :
    segmentsOf (String.intercalate "/" segs).toList = segs := by
  rw [String.toList_intercalate]
  induction segs with
  | nil => simp [segmentsOf_of_no_slash]
  | cons s rest ih =>
    have hs : segmentsOf s.toList = [s] := segmentsOf_toList_of_isSegment (h s (by simp))
    cases rest with
    | nil => simpa using hs
    | cons t rest =>
      have hrest := ih fun u hu => h u (List.mem_cons_of_mem _ hu)
      simp only [List.map_cons, List.intercalate_cons_cons] at hrest ⊢
      have hsep : "/".toList = ['/'] := rfl
      rw [hsep] at hrest ⊢
      rw [List.append_assoc, List.singleton_append, segmentsOf_append_slash, hs, hrest]
      rfl

end CronWrap.Path
