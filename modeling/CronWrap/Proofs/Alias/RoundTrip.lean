import Mathlib.Tactic.MkIffOfInductiveProp
import CronWrap.Alias.Table
import CronWrap.Proofs.Path.Written
import CronWrap.Proofs.Text.Wildcard

/-! An alias that names a path, and the path that it is read back as. -/
namespace CronWrap

open Text

namespace AliasTable

variable {base : Path} {path : List Char} {pattern target a : String} {targets : List String}

/-! ## The pattern of the entry that names a path -/

theorem nameEntry_of_no_star {more : List String}
    (hsplit : splitWildcard target.toList = (target.toList, none))
    (h : nameEntry base path (pattern, target :: more) = some a) : a = pattern := by
  simp only [nameEntry, hsplit] at h
  split at h
  · cases h
    rfl
  · cases h

theorem nameEntry_of_split {more : List String} {head tail : List Char}
    (hsplit : splitWildcard target.toList = (head, some tail))
    (h : nameEntry base path (pattern, target :: more) = some a) :
    ∃ run, remainder? (base.join (.ofChars head)).normalize.posix.toList path = some (run ++ tail) ∧
      a = String.ofList (fillWildcard pattern.toList run) := by
  simp only [nameEntry, hsplit, Option.bind_eq_bind, Option.bind_eq_some_iff] at h
  obtain ⟨rest, hrest, run, hrun, ha⟩ := h
  rw [List.isSuffixOf?_eq_some_iff_append_eq] at hrun
  cases ha
  exact ⟨run, hrun ▸ hrest, rfl⟩

theorem suffix_of_remainder {base path rest : List Char} (h : remainder? base path = some rest) :
    rest <:+ path := by
  unfold remainder? at h
  split at h
  · cases h
    exact List.nil_suffix
  · rw [List.isPrefixOf?_eq_some_iff_append_eq] at h
    exact ⟨_, h⟩

/-- An entry names a path by its pattern, filled with something on one line. -/
theorem exists_fill_of_nameEntry (hpath : '\n' ∉ path)
    (h : nameEntry base path (pattern, targets) = some a) :
    targets ≠ [] ∧ ∃ run, '\n' ∉ run ∧ a.toList = fillWildcard pattern.toList run := by
  cases targets with
  | nil => cases h
  | cons target more =>
    refine ⟨by simp, ?_⟩
    rcases splitWildcard_cases target.toList with ⟨-, hsplit⟩ | ⟨head, tail, -, hsplit⟩
    · rw [nameEntry_of_no_star hsplit h]
      exact ⟨['*'], by decide, (fillWildcard_star _).symm⟩
    · obtain ⟨run, hrest, rfl⟩ := nameEntry_of_split hsplit h
      refine ⟨run, ?_, String.toList_ofList⟩
      intro hmem
      exact hpath ((suffix_of_remainder hrest).subset (List.mem_append_left _ hmem))

/-- The entry that names a path also matches the name, so that the name is read back as some
path. -/
theorem isSome_resolve_of_nameOf {table : AliasTable} {p : Path}
    (hp : '\n' ∉ p.normalize.posix.toList) (h : table.nameOf p = some a) :
    (table.entries.any fun e => matchesPattern e.1 a) ∧ (table.resolve a).isSome := by
  obtain ⟨⟨pattern, targets⟩, hmem, he⟩ := List.exists_of_findSome?_eq_some h
  obtain ⟨hne, run, hrun, ha⟩ := exists_fill_of_nameEntry hp he
  have hmatch : (captureWildcard pattern.toList a.toList).isSome := by
    rw [ha]
    exact isSome_captureWildcard_fillWildcard _ hrun
  constructor
  · exact List.any_eq_true.mpr ⟨_, hmem, hmatch⟩
  · apply List.findSome?_isSome_iff.mpr
    refine ⟨_, hmem, ?_⟩
    cases targets with
    | nil => exact absurd rfl hne
    | cons target more =>
      simp only [resolveEntry, Option.isSome_map]
      exact hmatch

theorem resolve_spec {table : AliasTable} {q : Path} (hbase : table.base.IsPlain)
    (h : table.resolve a = some q) : q.isAbsolute ∧ ∀ s ∈ q.segments, Path.IsSegment s := by
  obtain ⟨⟨pattern, targets⟩, -, he⟩ := List.exists_of_findSome?_eq_some h
  cases targets with
  | nil => cases he
  | cons target more =>
    obtain ⟨run, -, rfl⟩ := Option.map_eq_some_iff.mp he
    exact Path.normalize_join_ofChars hbase _

/-! ## The target of the entry that names a path -/

theorem dropWhile_reverse_slashed {segs : List String} (h : ∀ s ∈ segs, Path.IsSegment s) :
    ((Path.slashed segs).reverse.dropWhile (· = '/')).reverse = Path.slashed segs := by
  rcases List.eq_nil_or_concat segs with rfl | ⟨init, last, rfl⟩
  · rfl
  · have hlast := h last (by simp)
    rcases List.eq_nil_or_concat last.toList with hnil | ⟨cs, c, hcs⟩
    · exact absurd hnil hlast.toList_ne_nil
    · have hc : c ≠ '/' := by
        rintro rfl
        exact hlast.no_slash (by simp [hcs])
      simp [hcs, hc]

/-- The remainder of a path behind another one is what its segments have in addition. -/
theorem segments_of_remainder {b q : Path} (hb : b.IsPlain) (hq : q.IsPlain) {rest : List Char}
    (h : remainder? b.toString.toList q.toString.toList = some rest) :
    q.segments = b.segments ++ Path.segmentsOf rest ∧ rest.head? ≠ some '/' := by
  unfold remainder? at h
  split at h
  · rename_i heq
    cases h
    have hqb : q = b := (Path.toString_inj hq.isAbsolute hb.isAbsolute hq.isSegment
      hb.isSegment).mp (String.toList_inj.mp heq)
    subst hqb
    exact ⟨by simp [Path.segmentsOf_of_no_slash], by simp⟩
  · rename_i hne
    rw [List.isPrefixOf?_eq_some_iff_append_eq] at h
    have hbase : (b.toString.toList.reverse.dropWhile (· = '/')).reverse =
        Path.slashed b.segments := by
      rw [Path.toList_toString_of_root hb.anchor_eq]
      split
      · rename_i hnil
        simp [hnil]
      · exact dropWhile_reverse_slashed hb.isSegment
    rw [hbase, List.append_assoc, List.singleton_append] at h
    have htext := Path.toList_toString_of_root hq.anchor_eq
    have hsegs : q.segments = b.segments ++ Path.segmentsOf rest := by
      have hread := congrArg Path.segmentsOf h
      rw [Path.segmentsOf_append_slash, Path.segmentsOf_slashed hb.isSegment, htext] at hread
      rw [hread]
      split
      · rename_i hnil
        rw [hnil]
        decide
      · exact (Path.segmentsOf_slashed hq.isSegment).symm
    refine ⟨hsegs, ?_⟩
    rw [htext] at h
    split at h
    · -- The text of the root is covered by the root alone.
      rename_i hnil
      rw [hnil] at hsegs
      have hbnil : b.segments = [] := (List.append_eq_nil_iff.mp hsegs.symm).1
      rw [hbnil] at h
      simp only [Path.slashed_nil, List.nil_append, List.cons.injEq, true_and] at h
      simp [h]
    · rw [hsegs, Path.slashed_append, List.append_cancel_left_eq] at h
      cases hmore : Path.segmentsOf rest with
      | nil => simp [hmore] at h
      | cons s more =>
        have hs : Path.IsSegment s := Path.isSegment_of_mem_segmentsOf (hmore ▸ List.mem_cons_self)
        rw [hmore, Path.slashed_cons, List.cons.injEq] at h
        rw [h.2]
        intro hhead
        cases hl : s.toList with
        | nil => exact hs.toList_ne_nil hl
        | cons c cs =>
          rw [hl] at hhead
          simp only [List.cons_append, List.head?_cons, Option.some.injEq] at hhead
          exact hs.no_slash (by simp [hl, hhead])

/-- A pattern and a target with wildcards, the target's at the start of a segment; the target is
written without backslashes, and not from a root of its own. -/
@[mk_iff]
structure IsRegular (pattern target : String) : Prop where
  pattern_star : '*' ∈ pattern.toList
  target_star : '*' ∈ target.toList
  starts_segment : (splitWildcard target.toList).1.getLast?.all (· = '/')
  anchor_ne : Path.anchorOf target.toList ≠ .twinRoot
  no_backslash : '\\' ∉ target.toList

instance (pattern target : String) : Decidable (IsRegular pattern target) :=
  decidable_of_iff _ (isRegular_iff pattern target).symm

/-- Where the wildcard of a target starts a segment, whatever fills it only adds segments. -/
theorem join_ofChars_append (base : Path) {head rest : List Char}
    (hstart : ∀ c ∈ head.getLast?, c = '/') (hrest : rest.head? ≠ some '/') :
    base.join (.ofChars (head ++ rest)) =
      ⟨(base.join (.ofChars head)).anchor,
        (base.join (.ofChars head)).segments ++ Path.segmentsOf rest⟩ := by
  have hsegs : Path.segmentsOf (head ++ rest) = Path.segmentsOf head ++ Path.segmentsOf rest := by
    rcases List.eq_nil_or_concat head with rfl | ⟨init, c, rfl⟩
    · simp [Path.segmentsOf_of_no_slash]
    · have hc : c = '/' := hstart c (by simp)
      subst hc
      rw [List.concat_eq_append, List.append_assoc, List.singleton_append,
        Path.segmentsOf_append_slash, Path.segmentsOf_append_slash]
      simp [Path.segmentsOf_of_no_slash]
  simp only [Path.ofChars, hsegs, Path.anchorOf_append head hrest]
  by_cases habs : Path.anchorOf head = .here
  · simp [Path.join, Path.isAbsolute, habs]
  · simp [Path.join, Path.isAbsolute, habs]

theorem isPlain_join_ofChars {base : Path} (hbase : base.IsPlain) {cs : List Char}
    (hanchor : Path.anchorOf cs ≠ .twinRoot) (hcs : '\\' ∉ cs) :
    (base.join (.ofChars cs)).IsPlain := by
  have hsegs : ∀ s ∈ Path.segmentsOf cs, Path.IsSegment s :=
    fun s hs => Path.isSegment_of_mem_segmentsOf hs
  have hslash : ∀ s ∈ Path.segmentsOf cs, '\\' ∉ s.toList :=
    fun s hs hc => hcs (Path.mem_of_mem_segmentsOf hs hc)
  cases h : Path.anchorOf cs with
  | here =>
    have hjoin : base.join (.ofChars cs) = ⟨base.anchor, base.segments ++ Path.segmentsOf cs⟩ := by
      simp [Path.join, Path.ofChars, Path.isAbsolute, h]
    rw [hjoin]
    exact hbase.append hsegs hslash
  | root =>
    have hjoin : base.join (.ofChars cs) = .ofChars cs := by
      simp [Path.join, Path.ofChars, Path.isAbsolute, h]
    rw [hjoin]
    exact ⟨h, hsegs, hslash⟩
  | twinRoot => exact absurd h hanchor

/-- A regular entry that names a path reads the name back as the path. -/
theorem resolveEntry_of_nameEntry {base p : Path} (hbase : base.IsPlain) (hp : p.IsPlain)
    (hregular : IsRegular pattern target) {more : List String}
    (hline : '\n' ∉ p.normalize.posix.toList)
    (h : nameEntry base p.normalize.posix.toList (pattern, target :: more) = some a) :
    resolveEntry base a (pattern, target :: more) = some p.normalize := by
  obtain ⟨ph, pt, -, hpattern⟩ := exists_splitWildcard hregular.pattern_star
  obtain ⟨th, tt, htext, hsplit⟩ := exists_splitWildcard hregular.target_star
  obtain ⟨run, hrest, rfl⟩ := nameEntry_of_split hsplit h
  have hstart : ∀ c ∈ th.getLast?, c = '/' := by
    intro c hc
    have hslash := hregular.starts_segment
    rw [hsplit, Option.mem_def.mp hc] at hslash
    simpa using hslash
  -- The place of the target's head, with which the path starts.
  have hcovered : (base.join (.ofChars th)).IsPlain := by
    have hanchor := hregular.anchor_ne
    have hslash := hregular.no_backslash
    rw [htext] at hanchor hslash
    rw [Path.anchorOf_append th (by simp)] at hanchor
    exact isPlain_join_ofChars hbase hanchor fun hc => hslash (List.mem_append_left _ hc)
  have hplace : (base.join (.ofChars th)).normalize.IsPlain := hcovered.normalize
  rw [Path.posix_of_isPlain hplace, Path.posix_of_isPlain hp.normalize] at hrest
  obtain ⟨hsegs, hhead⟩ := segments_of_remainder hplace hp.normalize hrest
  have hmore : ".." ∉ Path.segmentsOf (run ++ tt) := by
    intro hmem
    have hno := Path.no_parent_normalize hp.isAbsolute
    rw [hsegs] at hno
    exact hno (List.mem_append_right _ hmem)
  have hrun : '\n' ∉ run := by
    rw [Path.posix_of_isPlain hp.normalize] at hline
    intro hmem
    exact hline ((suffix_of_remainder hrest).subset (List.mem_append_left _ hmem))
  have hcapture : captureWildcard pattern.toList (fillWildcard pattern.toList run) = some run := by
    have hfill : fillWildcard pattern.toList run = ph ++ run ++ pt := by
      simp [fillWildcard, hpattern]
    rw [hfill]
    exact captureWildcard_of_split hpattern hrun
  have hfilled : fillWildcard target.toList run = th ++ (run ++ tt) := by
    simp [fillWildcard, hsplit]
  simp only [resolveEntry, String.toList_ofList, hcapture, Option.map_some, hfilled]
  rw [join_ofChars_append base hstart hhead, Path.normalize_append _ hmore,
    ← hsegs, hcovered.anchor_eq, ← hp.normalize.anchor_eq]

/-- A regular entry gives the path this name, and no entry before it that has a target matches the
name. -/
def NamesRegularly (table : AliasTable) (p : Path) (a : String) : Prop :=
  ∃ before pattern target more behind,
    table.entries = before ++ (pattern, target :: more) :: behind ∧ IsRegular pattern target ∧
      nameEntry table.base p.normalize.posix.toList (pattern, target :: more) = some a ∧
      ∀ e ∈ before, e.2 = [] ∨ matchesPattern e.1 a = false

theorem resolve_of_namesRegularly {table : AliasTable} {p : Path} (hbase : table.base.IsPlain)
    (hp : p.IsPlain) (hline : '\n' ∉ p.normalize.posix.toList) (h : table.NamesRegularly p a) :
    table.resolve a = some p.normalize := by
  obtain ⟨before, pattern, target, more, behind, hentries, hregular, hname, hbefore⟩ := h
  have hskip : before.findSome? (resolveEntry table.base a) = none := by
    rw [List.findSome?_eq_none_iff]
    rintro ⟨pattern', targets'⟩ he
    cases targets' with
    | nil => rfl
    | cons target' more' =>
      have hno := (hbefore _ he).resolve_left (by simp)
      have hcapture : captureWildcard pattern'.toList a.toList = none := by
        simpa [matchesPattern] using hno
      simp [resolveEntry, hcapture]
  rw [resolve, hentries, List.findSome?_append, hskip, Option.none_or,
    List.findSome?_cons_of_isSome]
  · exact resolveEntry_of_nameEntry hbase hp hregular hline hname
  · rw [resolveEntry_of_nameEntry hbase hp hregular hline hname]
    rfl

end AliasTable
end CronWrap
