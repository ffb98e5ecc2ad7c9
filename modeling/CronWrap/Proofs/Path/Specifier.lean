import CronWrap.Proofs.Path.Normalize
import CronWrap.Proofs.Path.Segments

/-! A relative specifier is read back as the way that it was made from. -/
namespace CronWrap.Path

/-- A path below `/` whose segments are such, and in none of which a backslash stands. -/
structure IsPlain (p : Path) : Prop where
  anchor_eq : p.anchor = .root
  isSegment : ∀ s ∈ p.segments, IsSegment s
  no_backslash : ∀ s ∈ p.segments, '\\' ∉ s.toList

instance (p : Path) : Decidable p.IsPlain :=
  decidable_of_iff (p.anchor = .root ∧ (∀ s ∈ p.segments, IsSegment s) ∧
    ∀ s ∈ p.segments, '\\' ∉ s.toList) ⟨fun h => ⟨h.1, h.2.1, h.2.2⟩, fun h => ⟨h.1, h.2, h.3⟩⟩

theorem IsPlain.isAbsolute {p : Path} (h : p.IsPlain) : p.isAbsolute := by
  simp [Path.isAbsolute, h.anchor_eq]

theorem IsPlain.parent {p : Path} (h : p.IsPlain) : p.parent.IsPlain where
  anchor_eq := h.anchor_eq
  isSegment s hs := h.isSegment s (List.dropLast_subset _ hs)
  no_backslash s hs := h.no_backslash s (List.dropLast_subset _ hs)

theorem IsPlain.append {p : Path} (h : p.IsPlain) {segs : List String}
    (hs : ∀ s ∈ segs, IsSegment s) (hb : ∀ s ∈ segs, '\\' ∉ s.toList) :
    (Path.mk p.anchor (p.segments ++ segs)).IsPlain where
  anchor_eq := h.anchor_eq
  isSegment s hmem := (List.mem_append.mp hmem).elim (h.isSegment s) (hs s)
  no_backslash s hmem := (List.mem_append.mp hmem).elim (h.no_backslash s) (hb s)

/-- What is read from a text with a single leading slash and no backslash is plain. -/
theorem isPlain_parse {s : String} (hs : anchorOf s.toList = .root) (hb : '\\' ∉ s.toList) :
    (parse s).IsPlain where
  anchor_eq := hs
  isSegment _ ht := isSegment_of_mem_segmentsOf ht
  no_backslash _ ht hc := hb (mem_of_mem_segmentsOf ht hc)

theorem forwardSlashes_eq_self {s : String} (h : '\\' ∉ s.toList) : forwardSlashes s = s := by
  have hmap : s.toList.map (fun c => if c = '\\' then '/' else c) = s.toList := by
    conv_rhs => rw [← List.map_id s.toList]
    apply List.map_congr_left
    intro c hc
    have hne : c ≠ '\\' := fun he => h (he ▸ hc)
    simp [hne]
  rw [forwardSlashes, hmap, String.ofList_toList]

theorem mem_steps {target base : List String} {s : String} (h : s ∈ steps target base) :
    s = ".." ∨ s ∈ target := by
  fun_induction steps target base with
  | case1 target d base ih =>
    rcases ih h with h | h
    · exact Or.inl h
    · exact Or.inr (List.mem_cons_of_mem _ h)
  | case2 t target d base hne =>
    rcases List.mem_append.mp h with h | h
    · rcases List.mem_cons.mp h with h | h
      · exact Or.inl h
      · obtain ⟨_, -, rfl⟩ := List.mem_map.mp h
        exact Or.inl rfl
    · exact Or.inr h
  | case3 target base hne =>
    rcases List.mem_append.mp h with h | h
    · obtain ⟨_, -, rfl⟩ := List.mem_map.mp h
      exact Or.inl rfl
    · exact Or.inr h

theorem toList_intercalate_cons (s : String) (rest : List String) :
    ∃ cs, (String.intercalate "/" (s :: rest)).toList = s.toList ++ cs := by
  cases rest with
  | nil => exact ⟨[], by simp⟩
  | cons t rest => exact ⟨'/' :: (String.intercalate "/" (t :: rest)).toList, by simp⟩

theorem parse_intercalate {s : String} {rest : List String} (h : ∀ t ∈ s :: rest, IsSegment t) :
    parse (String.intercalate "/" (s :: rest)) = ⟨.here, s :: rest⟩ := by
  obtain ⟨cs, hcs⟩ := toList_intercalate_cons s rest
  have ha : anchorOf (String.intercalate "/" (s :: rest)).toList = .here := by
    rw [hcs]
    exact anchorOf_of_isSegment (h s (by simp)) cs
  rw [parse, ofChars, ha, segmentsOf_intercalate _ h]

theorem no_backslash_intercalate {segs : List String} (h : ∀ s ∈ segs, '\\' ∉ s.toList) :
    '\\' ∉ (String.intercalate "/" segs).toList := by
  induction segs with
  | nil => simp
  | cons s rest ih =>
    have hs := h s (by simp)
    have hrest := ih fun t ht => h t (List.mem_cons_of_mem _ ht)
    cases rest with
    | nil => simpa using hs
    | cons t rest =>
      rw [String.intercalate_cons_of_ne_nil (by simp), String.toList_append, String.toList_append]
      simp only [List.mem_append, not_or]
      exact ⟨⟨hs, by decide⟩, hrest⟩

theorem parse_dot_slash (cs : List Char) :
    parse (String.ofList ('.' :: '/' :: cs)) = ⟨.here, segmentsOf cs⟩ := by
  have h : segmentsOf ('.' :: '/' :: cs) = segmentsOf cs := by
    have hdot : segmentsOf ['.'] = [] := by decide
    rw [← List.singleton_append, segmentsOf_append_slash, hdot, List.nil_append]
  simp [parse, ofChars, h, anchorOf]

/-- The way between two plain paths is made of segments without backslashes. -/
theorem isSegment_of_mem_way {target : Path} (ht : target.IsPlain) (base : Path) {s : String}
    (hs : s ∈ steps target.normalize.segments base.normalize.segments) :
    IsSegment s ∧ '\\' ∉ s.toList := by
  rcases mem_steps hs with rfl | hs
  · decide
  · have h := (mem_of_mem_normalize ht.isAbsolute hs).1
    exact ⟨ht.isSegment s h, ht.no_backslash s h⟩

theorem posix_of_here {s : String} {rest : List String} (h : ∀ t ∈ s :: rest, '\\' ∉ t.toList) :
    (Path.mk .here (s :: rest)).posix = String.intercalate "/" (s :: rest) := by
  have htext : toString (Path.mk .here (s :: rest)) = String.intercalate "/" (s :: rest) := by
    simp [toString, Anchor.text]
  rw [posix, htext]
  exact forwardSlashes_eq_self (no_backslash_intercalate h)

theorem toList_dot_slash (s : String) : ("./" ++ s).toList = '.' :: '/' :: s.toList := by simp

/-- The way between two plain paths can be read off the specifier that is written for it. -/
theorem parse_relativeSpecifier {target base : Path} (ht : target.IsPlain) (hb : base.IsPlain) :
    parse (relativeSpecifier target base) = relative target base := by
  rw [relativeSpecifier, relative_of_root ht.anchor_eq hb.anchor_eq]
  have hmem := fun s => isSegment_of_mem_way ht base (s := s)
  generalize steps target.normalize.segments base.normalize.segments = way at hmem
  cases way with
  | nil => decide
  | cons s rest =>
    simp only [posix_of_here fun t h => (hmem t h).2]
    split
    · exact parse_intercalate fun t h => (hmem t h).1
    · have hdot : "./" ++ String.intercalate "/" (s :: rest) =
          String.ofList ('.' :: '/' :: (String.intercalate "/" (s :: rest)).toList) := by
        rw [← toList_dot_slash, String.ofList_toList]
      rw [hdot, parse_dot_slash, segmentsOf_intercalate _ fun t h => (hmem t h).1]

theorem anchorOf_of_isRelativeSpecifier {s : String} (h : isRelativeSpecifier s) :
    anchorOf s.toList = .here := by
  have hdot : ∃ cs, s.toList = '.' :: cs := by
    simp only [isRelativeSpecifier, Bool.or_eq_true, decide_eq_true_eq,
      List.isPrefixOf_iff_prefix] at h
    rcases h with ((rfl | rfl) | ⟨cs, hcs⟩) | ⟨cs, hcs⟩
    · exact ⟨[], rfl⟩
    · exact ⟨['.'], rfl⟩
    · exact ⟨'/' :: cs, hcs.symm⟩
    · exact ⟨'.' :: '/' :: cs, hcs.symm⟩
  obtain ⟨cs, hcs⟩ := hdot
  rw [hcs]
  rfl

theorem isRelativeSpecifier_relativeSpecifier (target base : Path) :
    isRelativeSpecifier (relativeSpecifier target base) := by
  simp only [relativeSpecifier]
  split
  · assumption
  · simp [isRelativeSpecifier, List.isPrefixOf]

/-- A specifier that is followed from the directory it was made for leads to the target. -/
theorem normalize_div_relativeSpecifier {target base : Path} (ht : target.IsPlain)
    (hb : base.IsPlain) : (base / relativeSpecifier target base).normalize = target.normalize := by
  change (base.join (parse (relativeSpecifier target base))).normalize = _
  rw [parse_relativeSpecifier ht hb]
  exact normalize_join_relative ht.anchor_eq hb.anchor_eq

end CronWrap.Path
