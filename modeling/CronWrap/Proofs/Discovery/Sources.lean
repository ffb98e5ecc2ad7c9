import CronWrap.Proofs.Discovery.Ignores
import CronWrap.Proofs.Files.Shows

/-! The source files that a project has. -/
namespace CronWrap

open FileTree Session Workspace

namespace SourceFilter

/-! ## The order of the files -/

/-- A path below the root, with segments that say something. -/
structure IsBelow (root p : Path) : Prop where
  isUnder : p.isUnder root
  isSegment : ∀ s ∈ p.segments, Path.IsSegment s

theorem IsBelow.exists_relative {root p : Path} (h : IsBelow root p) :
    ∃ segs, p = ⟨root.anchor, root.segments ++ segs⟩ ∧ p.relativeTo? root = some segs ∧
      ∀ s ∈ segs, Path.IsSegment s := by
  obtain ⟨segs, hrel⟩ := Option.isSome_iff_exists.mp h.isUnder
  have hparts := hrel
  rw [Path.relativeTo?] at hparts
  split at hparts
  · rename_i hanchor
    have hsegs := List.isPrefixOf?_eq_some_iff_append_eq.mp hparts
    refine ⟨segs, ?_, hrel, fun s hs => h.isSegment s (hsegs ▸ List.mem_append_right _ hs)⟩
    obtain ⟨anchor, all⟩ := p
    cases hanchor
    cases hsegs
    rfl
  · cases hparts

/-- Paths below the root are told by the texts that put them in order. -/
theorem sortKey_inj {root p q : Path} (hp : IsBelow root p) (hq : IsBelow root q)
    (h : sortKey root p = sortKey root q) : p = q := by
  obtain ⟨segs, rfl, hrel, hsegs⟩ := hp.exists_relative
  obtain ⟨segs', rfl, hrel', hsegs'⟩ := hq.exists_relative
  rw [sortKey, sortKey, hrel, hrel', Option.getD_some, Option.getD_some, relativeText,
    relativeText] at h
  have hread := congrArg (fun s => Path.segmentsOf s.toList) h
  simp only [Path.segmentsOf_intercalate _ hsegs, Path.segmentsOf_intercalate _ hsegs'] at hread
  rw [hread]

theorem pairwise_sorted (root : Path) (ps : List Path) :
    (sorted root ps).Pairwise fun p q => sortKey root p ≤ sortKey root q := by
  let before (p q : Path) : Bool := !(sortKey root q < sortKey root p : Bool)
  have hbefore : ∀ p q, before p q ↔ sortKey root p ≤ sortKey root q := by
    intro p q
    rw [Bool.not_eq_true', decide_eq_false_iff_not, String.not_lt]
  have htrans : ∀ p q r, before p q → before q r → before p r := by
    simp only [hbefore]
    exact fun _ _ _ => String.le_trans
  have htotal : ∀ p q, before p q || before q p := by
    simp only [Bool.or_eq_true, hbefore]
    exact fun _ _ => String.le_total _ _
  exact (List.pairwise_mergeSort htrans htotal ps.eraseDups).imp fun h => (hbefore _ _).mp h

/-- Paths that are in order are put in no other one. -/
theorem sorted_of_pairwise {root : Path} {ps : List Path}
    (h : ps.eraseDups.Pairwise fun p q => sortKey root p ≤ sortKey root q) :
    sorted root ps = ps.eraseDups := by
  rw [sorted, List.mergeSort_of_pairwise]
  refine h.imp fun hle => ?_
  rw [Bool.not_eq_true', decide_eq_false_iff_not]
  exact String.not_lt.mpr hle

theorem nodup_eraseDups (ps : List Path) : ps.eraseDups.Nodup := by
  induction hn : ps.length using Nat.strongRecOn generalizing ps with
  | ind n ih =>
    cases ps with
    | nil => simp
    | cons p ps =>
      rw [List.eraseDups_cons, List.nodup_cons, List.mem_eraseDups]
      have hle := List.length_filter_le (fun q => !q == p) ps
      rw [List.length_cons] at hn
      exact ⟨by simp, ih _ (by omega) _ rfl⟩

theorem nodup_sorted (root : Path) (ps : List Path) : (sorted root ps).Nodup :=
  (List.mergeSort_perm _ _).nodup_iff.mpr (nodup_eraseDups ps)

/-- The files in order depend only on which there are. -/
theorem sorted_congr {root : Path} {ps qs : List Path} (hps : ∀ p ∈ ps, IsBelow root p)
    (h : ∀ p, p ∈ ps ↔ p ∈ qs) : sorted root ps = sorted root qs := by
  have hperm : (sorted root ps).Perm (sorted root qs) := by
    rw [List.perm_ext_iff_of_nodup (nodup_sorted root ps) (nodup_sorted root qs)]
    exact fun p => by rw [mem_sorted, mem_sorted, h]
  refine hperm.eq_of_pairwise (fun p q hp hq hpq hqp => ?_) (pairwise_sorted root ps)
    (pairwise_sorted root qs)
  rw [mem_sorted] at hp hq
  exact sortKey_inj (hps p hp) (hps q ((h q).mpr hq)) (String.le_antisymm hpq hqp)

/-! ## What is found -/

variable {t : FileTree} {f : SourceFilter} {p : Path} {d : String}

theorem isUnder_of_admits (h : f.admits p) : p.isUnder f.root := by
  rw [admits, Bool.and_eq_true] at h
  rw [Path.isUnder]
  cases hrel : p.relativeTo? f.root with
  | none => simp [hrel] at h
  | some segs => rfl

/-- What is below another path is so too seen from the top. -/
theorem isUnder_segments {base : Path} (h : p.isUnder base) :
    (Path.mk .root p.segments).isUnder ⟨.root, base.segments⟩ := by
  rw [Path.isUnder, Path.relativeTo?] at h ⊢
  split at h
  · exact h
  · cases h

theorem suffix_of_admits (h : f.admits p) : p.suffix ∈ sourceExtensions := by
  rw [admits, Bool.and_eq_true, List.contains_iff_mem] at h
  exact h.1

theorem not_isUnder_of_admits (h : f.admits p) {output : Path} (ho : f.output = some output) :
    p.isUnder output = false := by
  have hunder := isUnder_of_admits h
  obtain ⟨segs, hrel⟩ := Option.isSome_iff_exists.mp hunder
  simp only [admits, hrel, ho, Bool.and_eq_true, Option.any_some, Bool.not_eq_true'] at h
  exact h.2.1.1.2

theorem glances_isOwnFile (f : SourceFilter) (p : Path) : Glances (f.isOwnFile p : Session _) := by
  refine (glances_isFile p).bind fun isFile => (glances_isLink p).bind fun isLink => ?_
  split
  · exact (glances_resolve p).bind fun _ => (glances_resolve f.root).bind fun _ => glances_pure _
  · exact glances_pure _

theorem glances_includes (f : SourceFilter) (p : Path) : Glances (f.includes p : Session _) := by
  unfold includes
  split
  · exact (glances_isOwnFile f p).bind fun _ => glances_pure _
  · exact glances_pure _

theorem glances_filesBelow (f : SourceFilter) (start : Path) (found : Bool) :
    Glances (if found then (do (← below start).filterM f.includes) else return [] : Session _) := by
  split
  · exact (glances_below _).bind fun _ => glances_filterM (glances_includes f) _
  · exact glances_pure _

theorem glances_filesIn (f : SourceFilter) (d : String) : Glances (f.filesIn d : Session _) :=
  (glances_isDir _).bind fun _ => (glances_isLink _).bind fun _ => glances_filesBelow f _ _

theorem glances_files (f : SourceFilter) (dirs : List String) :
    Glances (f.files dirs : Session _) :=
  (glances_mapM (glances_filesIn f) dirs).bind fun _ => glances_pure _

/-- The files that count below a directory. -/
def counted (t : FileTree) (f : SourceFilter) (d : String) : List Path :=
  (pathsBelow t (f.root / d)).filter fun p => f.admits p && t.isFileAt p.segments

theorem pathsBelow_of_not_isDirAt (h : t.isDirAt p.segments = false) : pathsBelow t p = [] := by
  unfold isDirAt at h
  unfold pathsBelow
  cases hu : t.get? p.segments with
  | none => rfl
  | some u =>
    cases u with
    | dir es => simp [hu, FileTree.isDir] at h
    | file content => rfl
    | link target => rfl

/-- All can be looked at of which it is asked what there is below a directory: the directory, and
whatever is below it with the name of a source. -/
structure AllShow (t : FileTree) (root : Path) (d : String) : Prop where
  start : t.Shows (root / d)
  sources : ∀ p ∈ pathsBelow t (root / d), p.suffix ∈ sourceExtensions → t.Shows p

instance (t : FileTree) (root : Path) (d : String) : Decidable (AllShow t root d) :=
  decidable_of_iff (t.Shows (root / d) ∧
      ∀ p ∈ pathsBelow t (root / d), p.suffix ∈ sourceExtensions → t.Shows p)
    ⟨fun h => ⟨h.1, h.2⟩, fun h => ⟨h.start, h.sources⟩⟩

section Seen

variable (hrootUp : ".." ∉ f.root.segments) (hroot : Straight t true [] f.root.segments)

include hrootUp hroot

theorem sees_isOwnFile (hup : ".." ∉ p.segments) (hsome : (t.get? p.segments).isSome) :
    Sees t (f.isOwnFile p : Session _)
      (if t.Shows p then
        .ok (t.isFileAt p.segments && (Path.mk .root p.segments).isUnder ⟨.root, f.root.segments⟩)
      else .error (tooLong p)) := by
  have hentry : Straight t false [] p.segments := straight_of_isSome hsome
  split
  · rename_i hshows
    have hlink := sees_isLink_of_shows hentry hup hshows
    cases hislink : (t.get? p.segments).any (·.isLink) with
    | true =>
      -- What a link leads to does not matter.
      obtain ⟨found, hfound⟩ := exists_sees_isFile hshows
      rw [hislink] at hlink
      rw [isFileAt_of_isLink hislink, Bool.false_and]
      refine hfound.bind (hlink.bind ?_)
      rw [Bool.not_true, Bool.and_false]
      exact sees_pure t false
    | false =>
      have hstraight : Straight t true [] p.segments := hentry.of_not_isLink hislink
      rw [hislink] at hlink
      refine (sees_isFile_of_shows hstraight hup hshows).bind (hlink.bind ?_)
      cases t.isFileAt p.segments with
      | true =>
        exact (sees_resolve_straight hstraight hup).bind
          ((sees_resolve_straight hroot hrootUp).bind (sees_pure t _))
      | false => exact sees_pure t false
  · exact (sees_isFile_of_not_shows ‹_›).bind_error

theorem sees_includes (hup : ".." ∉ p.segments) (hsome : (t.get? p.segments).isSome) :
    Sees t (f.includes p : Session _)
      (if p.suffix ∈ sourceExtensions → t.Shows p then .ok (f.admits p && t.isFileAt p.segments)
        else .error (tooLong p)) := by
  unfold includes
  by_cases hsource : p.suffix ∈ sourceExtensions
  · have hown := sees_isOwnFile (f := f) hrootUp hroot hup hsome
    simp only [List.contains_iff_mem, hsource, if_true, true_imp_iff]
    by_cases hshows : t.Shows p
    · rw [if_pos hshows] at hown ⊢
      have hsame : (t.isFileAt p.segments && (Path.mk .root p.segments).isUnder
          ⟨.root, f.root.segments⟩ && f.admits p) = (f.admits p && t.isFileAt p.segments) := by
        cases hadmits : f.admits p with
        | true =>
          rw [isUnder_segments (isUnder_of_admits hadmits), Bool.and_true, Bool.and_true,
            Bool.true_and]
        | false => rw [Bool.and_false, Bool.false_and]
      exact hsame ▸ hown.bind (sees_pure t _)
    · rw [if_neg hshows] at hown ⊢
      exact hown.bind_error
  · have hnone : f.admits p = false := Bool.eq_false_iff.mpr fun h => hsource (suffix_of_admits h)
    simp only [List.contains_iff_mem, hsource, if_false, false_imp_iff, if_true, hnone,
      Bool.false_and]
    exact sees_pure t false

variable (hproper : Proper t) (hup : ".." ∉ (f.root / d).segments)
  (hstart : Straight t false [] (f.root / d).segments)

include hproper hup hstart

theorem sees_filesIn (hshow : AllShow t f.root d) :
    Sees t (f.filesIn d : Session _) (.ok (counted t f d)) := by
  have hlink := sees_isLink_of_shows hstart hup hshow.start
  cases hislink : (t.get? (f.root / d).segments).any (·.isLink) with
  | true =>
    obtain ⟨found, hfound⟩ := exists_sees_isDir hshow.start
    rw [hislink] at hlink
    refine hfound.bind (hlink.bind ?_)
    rw [Bool.not_true, Bool.and_false, counted, pathsBelow_of_not_isDirAt (isDirAt_of_isLink hislink)]
    exact sees_pure t []
  | false =>
    have hstraight : Straight t true [] (f.root / d).segments := hstart.of_not_isLink hislink
    rw [hislink] at hlink
    refine (sees_isDir_of_shows hstraight hup hshow.start).bind (hlink.bind ?_)
    cases hd : t.isDirAt (f.root / d).segments with
    | true =>
      refine (sees_below_of_shows hstraight hup hshow.start).bind (sees_filterM fun p hp => ?_)
      obtain ⟨-, r, -, -, hsome⟩ := (mem_pathsBelow_iff hproper).mp hp
      have h := sees_includes (f := f) hrootUp hroot (no_parent_of_mem_pathsBelow hproper hp) hsome
      rwa [if_pos (hshow.sources p hp)] at h
    | false =>
      rw [counted, pathsBelow_of_not_isDirAt hd]
      exact sees_pure t []

/-- What it takes to see the files below a directory. -/
theorem of_sees_filesIn {ps : List Path} (h : Sees t (f.filesIn d : Session _) (.ok ps)) :
    AllShow t f.root d := by
  obtain ⟨b, hb, hrest⟩ := h.of_bind_looks (glances_isDir _).looks fun _ =>
    (glances_isLink _).looks.bind fun _ => (glances_filesBelow f _ _).looks
  have hshows : t.Shows (f.root / d) := by
    by_contra hnone
    cases hb.unique (sees_isDir_of_not_shows hnone)
  refine ⟨hshows, fun p hp hsource => ?_⟩
  obtain ⟨-, r, hne, hsegs, hsome⟩ := (mem_pathsBelow_iff hproper).mp hp
  have hd : t.isDirAt (f.root / d).segments := isDirAt_of_below (hsegs ▸ hsome) hne
  have hstraight := straight_of_isDirAt hd
  have hislink : (t.get? (f.root / d).segments).any (·.isLink) = false := by
    obtain ⟨es, hes⟩ := isDirAt_iff.mp hd
    rw [hes]
    rfl
  have hlink := sees_isLink_of_shows hstart hup hshows
  rw [hislink] at hlink
  obtain ⟨c, hc, hrest⟩ := hrest.of_bind_looks (glances_isLink _).looks fun _ =>
    (glances_filesBelow f _ _).looks
  cases hc.unique hlink
  cases hb.unique (sees_isDir_of_shows hstraight hup hshows)
  rw [hd] at hrest
  obtain ⟨found, hfound, hrest⟩ := hrest.of_bind_looks (glances_below _).looks fun _ =>
    (glances_filterM (glances_includes f) _).looks
  cases hfound.unique (sees_below_of_shows hstraight hup hshows)
  obtain ⟨counts, hcounts⟩ := hrest.of_filterM (fun p _ => (glances_includes f p).looks t) p hp
  by_contra hnone
  have hseen := sees_includes (f := f) hrootUp hroot (no_parent_of_mem_pathsBelow hproper hp) hsome
  rw [if_neg fun hall => hnone (hall hsource)] at hseen
  cases hcounts.unique hseen

end Seen

section Directories

variable {dirs : List String}

/-- The root and the directories are reached by no link and named by no parent. -/
structure Direct (t : FileTree) (root : Path) (dirs : List String) : Prop where
  root_up : ".." ∉ root.segments
  root_straight : Straight t true [] root.segments
  dirs_up : ∀ d ∈ dirs, ".." ∉ (root / d).segments
  dirs_straight : ∀ d ∈ dirs, Straight t false [] (root / d).segments

theorem direct_of_noLinks (ht : NoLinks t) {root : Path} (hroot : ".." ∉ root.segments)
    (hdirs : ∀ d ∈ dirs, ".." ∉ (root / d).segments) : Direct t root dirs :=
  ⟨hroot, ht.straight_top true _, hdirs, fun _ _ => ht.straight_top false _⟩

theorem sees_files (hproper : Proper t) (hdirect : Direct t f.root dirs)
    (hshow : ∀ d ∈ dirs, AllShow t f.root d) :
    ∃ ps, Sees t (f.files dirs : Session _) (.ok (sorted f.root ps)) ∧
      ∀ p, p ∈ ps ↔ ∃ d ∈ dirs, p ∈ counted t f d := by
  have hin : ∀ d ∈ dirs, Sees t (f.filesIn d) (.ok (counted t f d)) := fun d hd =>
    sees_filesIn hdirect.root_up hdirect.root_straight hproper (hdirect.dirs_up d hd)
      (hdirect.dirs_straight d hd) (hshow d hd)
  obtain ⟨pss, hpss, hmem⟩ := exists_sees_mapM fun d hd => ⟨_, hin d hd⟩
  refine ⟨pss.flatten, hpss.bind (sees_pure t _), fun p => ?_⟩
  rw [List.mem_flatten]
  constructor
  · rintro ⟨ps, hps, hp⟩
    obtain ⟨d, hd, hseen⟩ := (hmem ps).mp hps
    cases hseen.unique (hin d hd)
    exact ⟨d, hd, hp⟩
  · rintro ⟨d, hd, hp⟩
    exact ⟨_, (hmem _).mpr ⟨d, hd, hin d hd⟩, hp⟩

/-- What it takes to see the files, and which there are. -/
theorem of_sees_files (hproper : Proper t) (hdirect : Direct t f.root dirs) {ps : List Path}
    (h : Sees t (f.files dirs : Session _) (.ok ps)) :
    (∀ d ∈ dirs, AllShow t f.root d) ∧ ∀ p, p ∈ ps ↔ ∃ d ∈ dirs, p ∈ counted t f d := by
  have hshow : ∀ d ∈ dirs, AllShow t f.root d := by
    intro d hd
    obtain ⟨pss, hpss, -⟩ := h.of_bind_looks (glances_mapM (glances_filesIn f) dirs).looks fun _ =>
      looks_pure _
    obtain ⟨found, hfound⟩ := hpss.of_mapM (fun d _ => (glances_filesIn f d).looks t) d hd
    exact of_sees_filesIn hdirect.root_up hdirect.root_straight hproper (hdirect.dirs_up d hd)
      (hdirect.dirs_straight d hd) hfound
  obtain ⟨qs, hqs, hmem⟩ := sees_files hproper hdirect hshow
  cases h.unique hqs
  exact ⟨hshow, fun p => mem_sorted.trans (hmem p)⟩

theorem isBelow_of_mem_counted (hproper : Proper t) (hp : p ∈ counted t f d) :
    IsBelow f.root p := by
  rw [counted, List.mem_filter, Bool.and_eq_true] at hp
  obtain ⟨hbelow, hadmits, -⟩ := hp
  obtain ⟨-, r, -, -, hsome⟩ := (mem_pathsBelow_iff hproper).mp hbelow
  exact ⟨isUnder_of_admits hadmits, fun s hs => (hproper.isName hsome s hs).1⟩

/-- In another tree another filter finds the same files, if the same ones count there and all that is
looked at can be. -/
theorem files_congr {t' : FileTree} {f' : SourceFilter} (hproper : Proper t)
    (hdirect : Direct t f.root dirs) (hproper' : Proper t') (hdirect' : Direct t' f'.root dirs)
    (hsame : f'.root = f.root) (hshow : ∀ d ∈ dirs, AllShow t f.root d → AllShow t' f'.root d)
    (hcounted : ∀ d ∈ dirs, ∀ p, p ∈ counted t f d ↔ p ∈ counted t' f' d) {ps : List Path}
    (h : Sees t (f.files dirs : Session _) (.ok ps)) :
    Sees t' (f'.files dirs : Session _) (.ok ps) := by
  have hall := (of_sees_files hproper hdirect h).1
  obtain ⟨qs, hqs, hmem⟩ := sees_files hproper hdirect hall
  obtain ⟨qs', hqs', hmem'⟩ := sees_files hproper' hdirect' fun d hd => hshow d hd (hall d hd)
  cases h.unique hqs
  have hsorted : sorted f.root qs = sorted f.root qs' := by
    refine sorted_congr (fun p hp => ?_) fun p => ?_
    · obtain ⟨d, -, hp⟩ := (hmem p).mp hp
      exact isBelow_of_mem_counted hproper hp
    · rw [hmem, hmem']
      exact exists_congr fun d => and_congr_right fun hd => hcounted d hd p
  rw [hsorted, ← hsame]
  exact hqs'

end Directories

end SourceFilter

/-! ## Files that the ignore files have to be asked about -/

namespace SourceFilter

variable {f : SourceFilter} {d : String} {dirs : List String}

theorem looks_checkIn (f : SourceFilter) (d : String) : Looks (f.checkIn d : Session _) := by
  refine (glances_filesIn _ d).looks.bind fun asked => ?_
  split
  · exact looks_throw _
  · exact looks_pure _

theorem looks_checkedFiles (f : SourceFilter) (dirs : List String) :
    Looks (f.checkedFiles dirs : Session _) :=
  (looks_mapM (fun d => (looks_checkIn f d).bind fun _ => (glances_filesIn f d).looks) dirs).bind
    fun _ => looks_pure _

end SourceFilter

/-! ## The files of a project -/

section Project

variable (root : Path) (dirs : List String) (output : Option Path) (exclude : List String)
  (nested : Bool)

theorem looks_ignored : Looks
    (if nested then IgnoreFile.everywhere root else IgnoreFile.atRoot root : Session _) := by
  split
  · exact IgnoreFile.looks_everywhere root
  · exact IgnoreFile.looks_atRoot root

theorem looks_sourceFiles : Looks (sourceFiles root dirs output exclude nested : Session _) := by
  cases nested with
  | true =>
    exact (IgnoreFile.looks_everywhere root).bind fun _ => (SourceFilter.glances_files _ dirs).looks
  | false => exact (IgnoreFile.looks_atRoot root).bind fun _ => SourceFilter.looks_checkedFiles _ dirs

end Project

end CronWrap
