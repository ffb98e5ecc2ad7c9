import CronWrap.Proofs.Path.Specifier

/-! The text of an absolute path, and what is read from it. -/
namespace CronWrap.Path

/-- Segments written out, each behind a slash. -/
def slashed (segs : List String) : List Char := segs.flatMap fun s => '/' :: s.toList

@[simp] theorem slashed_nil : slashed [] = [] := rfl

@[simp] theorem slashed_cons (s : String) (rest : List String) :
    slashed (s :: rest) = '/' :: (s.toList ++ slashed rest) := rfl

@[simp] theorem slashed_append (as bs : List String) :
    slashed (as ++ bs) = slashed as ++ slashed bs := by simp [slashed]

theorem intercalate_slash (s : String) (rest : List String) :
    ['/'].intercalate (s.toList :: rest.map String.toList) = s.toList ++ slashed rest := by
  induction rest generalizing s with
  | nil => simp
  | cons t rest ih =>
    rw [List.map_cons, List.intercalate_cons_cons, ih t]
    simp

theorem segmentsOf_slashed {segs : List String} (h : ∀ s ∈ segs, IsSegment s) :
    segmentsOf (slashed segs) = segs := by
  cases segs with
  | nil => simp [segmentsOf_of_no_slash]
  | cons s rest =>
    have htext : s.toList ++ slashed rest = (String.intercalate "/" (s :: rest)).toList := by
      simp [intercalate_slash]
    rw [slashed_cons, htext, ← List.nil_append ('/' :: _), segmentsOf_append_slash,
      segmentsOf_intercalate _ h]
    simp [segmentsOf_of_no_slash]

theorem toList_toString_of_root {p : Path} (h : p.anchor = .root) :
    p.toString.toList = if p.segments = [] then ['/'] else slashed p.segments := by
  cases hs : p.segments with
  | nil => simp [toString, h, hs, Anchor.text]
  | cons s rest => simp [toString, h, hs, Anchor.text, intercalate_slash]

theorem toList_toString_of_twinRoot {p : Path} (h : p.anchor = .twinRoot) :
    p.toString.toList = '/' :: if p.segments = [] then ['/'] else slashed p.segments := by
  cases hs : p.segments with
  | nil => simp [toString, h, hs, Anchor.text]
  | cons s rest => simp [toString, h, hs, Anchor.text, intercalate_slash]

theorem anchorOf_slashed {s : String} (h : IsSegment s) (rest : List String) :
    anchorOf (slashed (s :: rest)) = .root ∧
      anchorOf ('/' :: slashed (s :: rest)) = .twinRoot := by
  cases hl : s.toList with
  | nil => exact absurd hl h.toList_ne_nil
  | cons c cs =>
    have hc : c ≠ '/' := by
      rintro rfl
      exact h.no_slash (by simp [hl])
    rw [slashed_cons, hl]
    constructor
    · unfold anchorOf
      simp_all
    · unfold anchorOf
      simp_all

/-- An absolute path is told by its text. -/
theorem parse_toString {p : Path} (habs : p.isAbsolute) (h : ∀ s ∈ p.segments, IsSegment s) :
    parse p.toString = p := by
  obtain ⟨anchor, segs⟩ := p
  have hskip : ∀ cs, segmentsOf ('/' :: cs) = segmentsOf cs := by
    intro cs
    rw [← List.nil_append ('/' :: cs), segmentsOf_append_slash, segmentsOf_of_no_slash (by simp)]
    rfl
  rw [parse, ofChars]
  cases anchor with
  | here => simp [isAbsolute] at habs
  | root =>
    rw [toList_toString_of_root rfl]
    cases segs with
    | nil => decide
    | cons s rest =>
      simp only [reduceCtorEq, if_false]
      rw [segmentsOf_slashed h, (anchorOf_slashed (h s (by simp)) rest).1]
  | twinRoot =>
    rw [toList_toString_of_twinRoot rfl]
    cases segs with
    | nil => decide
    | cons s rest =>
      simp only [reduceCtorEq, if_false]
      rw [hskip, segmentsOf_slashed h, (anchorOf_slashed (h s (by simp)) rest).2]

theorem toString_inj {p q : Path} (hp : p.isAbsolute) (hq : q.isAbsolute)
    (hps : ∀ s ∈ p.segments, IsSegment s) (hqs : ∀ s ∈ q.segments, IsSegment s) :
    p.toString = q.toString ↔ p = q := by
  constructor
  · intro h
    rw [← parse_toString hp hps, h, parse_toString hq hqs]
  · rintro rfl
    rfl

theorem mem_toString_of_root {p : Path} (h : p.anchor = .root) {c : Char}
    (hc : c ∈ p.toString.toList) : c = '/' ∨ ∃ s ∈ p.segments, c ∈ s.toList := by
  rw [toList_toString_of_root h] at hc
  split at hc
  · exact .inl (List.mem_singleton.mp hc)
  · obtain ⟨s, hs, hc⟩ := List.mem_flatMap.mp hc
    rcases List.mem_cons.mp hc with hc | hc
    · exact .inl hc
    · exact .inr ⟨s, hs, hc⟩

theorem posix_of_isPlain {p : Path} (h : p.IsPlain) : p.posix = p.toString := by
  apply forwardSlashes_eq_self
  intro hmem
  rcases mem_toString_of_root h.anchor_eq hmem with hc | ⟨s, hs, hc⟩
  · cases hc
  · exact h.no_backslash s hs hc

theorem IsPlain.normalize {p : Path} (h : p.IsPlain) : p.normalize.IsPlain where
  anchor_eq := h.anchor_eq
  isSegment s hs := h.isSegment s (mem_of_mem_normalize h.isAbsolute hs).1
  no_backslash s hs := h.no_backslash s (mem_of_mem_normalize h.isAbsolute hs).1

/-- The collapse of a plain path puts no characters into its text but slashes. -/
theorem mem_posix_normalize {p : Path} (h : p.IsPlain) {c : Char}
    (hc : c ∈ p.normalize.posix.toList) : c = '/' ∨ ∃ s ∈ p.segments, c ∈ s.toList := by
  rw [posix_of_isPlain h.normalize] at hc
  rcases mem_toString_of_root h.normalize.anchor_eq hc with hc | ⟨s, hs, hc⟩
  · exact .inl hc
  · exact .inr ⟨s, (mem_of_mem_normalize h.isAbsolute hs).1, hc⟩

/-- What a text leads to from a plain path is an absolute path with proper segments. -/
theorem normalize_join_ofChars {base : Path} (h : base.IsPlain) (cs : List Char) :
    (base.join (.ofChars cs)).normalize.isAbsolute ∧
      ∀ s ∈ (base.join (.ofChars cs)).normalize.segments, IsSegment s := by
  have hjoin : (base.join (.ofChars cs)).isAbsolute ∧
      ∀ s ∈ (base.join (.ofChars cs)).segments, IsSegment s := by
    unfold join
    split
    · rename_i habs
      exact ⟨habs, fun s hs => isSegment_of_mem_segmentsOf hs⟩
    · refine ⟨h.isAbsolute, ?_⟩
      intro s hs
      rcases List.mem_append.mp hs with hs | hs
      · exact h.isSegment s hs
      · exact isSegment_of_mem_segmentsOf hs
  refine ⟨by rw [isAbsolute_normalize, hjoin.1], ?_⟩
  intro s hs
  exact hjoin.2 s (mem_of_mem_normalize hjoin.1 hs).1

theorem normalize_normalize {p : Path} (h : p.isAbsolute) : p.normalize.normalize = p.normalize := by
  have hn : p.normalize.isAbsolute := by rw [isAbsolute_normalize, h]
  rw [normalize_of_absolute hn, foldl_push_of_no_parent true [] _ (no_parent_normalize h)]
  simp only [List.append_nil, List.reverse_reverse, anchor_normalize]
  rfl

/-- What is appended to a text does not change where a path starts, unless it adds a slash. -/
theorem anchorOf_append (cs : List Char) {rest : List Char} (h : rest.head? ≠ some '/') :
    anchorOf (cs ++ rest) = anchorOf cs := by
  have hrest : ∀ r : List Char, rest ≠ '/' :: r := by
    rintro r rfl
    exact h rfl
  rcases cs with _ | ⟨x, _ | ⟨y, _ | ⟨z, cs⟩⟩⟩
  · simp only [List.nil_append]
    unfold anchorOf
    split <;> simp_all
  · rcases rest with _ | ⟨c, rest⟩
    · rfl
    · have hc : c ≠ '/' := fun hc => hrest rest (by rw [hc])
      by_cases hx : x = '/'
      · subst hx
        simp [anchorOf, hc]
      · simp [anchorOf, hx]
  · rcases rest with _ | ⟨c, rest⟩
    · rfl
    · have hc : c ≠ '/' := fun hc => hrest rest (by rw [hc])
      by_cases hx : x = '/'
      · by_cases hy : y = '/'
        · subst hx hy
          simp [anchorOf]
        · subst hx
          simp [anchorOf, hy]
      · simp [anchorOf, hx]
  · by_cases hx : x = '/'
    · by_cases hy : y = '/'
      · by_cases hz : z = '/'
        · subst hx hy hz
          rfl
        · subst hx hy
          simp [anchorOf, hz]
      · subst hx
        simp [anchorOf, hy]
    · simp [anchorOf, hx]

end CronWrap.Path
