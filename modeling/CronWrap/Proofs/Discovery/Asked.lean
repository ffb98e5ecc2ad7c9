import CronWrap.Proofs.Discovery.Sources
import CronWrap.Proofs.Files.Straight
import CronWrap.Proofs.Path.Normalize

/-! The paths that the ignore files are asked about, and that the one at the root can be asked about all of
them below a directory that is named by no parent. -/
namespace CronWrap

open FileTree Pattern Session Workspace

namespace SourceFilter

variable {t : FileTree} {f g : SourceFilter} {root p : Path} {d : String} {dirs : List String}

/-! ## Paths seen from the root -/

/-- The path of a place that is seen from the root. -/
def pathAt (root : Path) (rel : Place) : Path := ⟨root.anchor, root.segments ++ rel⟩

theorem relativeTo?_pathAt (root : Path) (rel : Place) :
    (pathAt root rel).relativeTo? root = some rel := by
  have hanchor : (pathAt root rel).anchor = root.anchor := rfl
  rw [Path.relativeTo?, if_pos hanchor]
  exact List.isPrefixOf?_eq_some_iff_append_eq.mpr rfl

/-- A relative directory is looked for from the root. -/
theorem div_of_relative (hd : (Path.parse d).isAbsolute = false) :
    root / d = pathAt root (Path.parse d).segments := by
  change root.join (.parse d) = _
  rw [Path.join, if_neg (by simp [hd])]
  rfl

theorem mem_segments_div_of_mem {n : String} (h : n ∈ (Path.parse d).segments) :
    n ∈ (root / d).segments := by
  change n ∈ (root.join (.parse d)).segments
  rw [Path.join]
  split
  · exact h
  · exact List.mem_append_right _ h

/-! ## Filters that admit less -/

/-- From the same root the first filter admits only what the second one does. -/
structure Narrows (f g : SourceFilter) : Prop where
  root : f.root = g.root
  admits : ∀ p, f.admits p → g.admits p

theorem Narrows.includes_eq (h : f.Narrows g) (p : Path) :
    (f.includes p : Session _) = do return (← g.includes p) && f.admits p := by
  have hadmits : (g.admits p && f.admits p) = f.admits p := by
    cases hf : f.admits p with
    | true => rw [h.admits p hf, Bool.and_true]
    | false => rw [Bool.and_false]
  have hown : (f.isOwnFile p : Session _) = g.isOwnFile p := by rw [isOwnFile, isOwnFile, h.root]
  unfold includes
  split
  · simp only [hown, bind_assoc, pure_bind, Bool.and_assoc, hadmits]
  · rw [pure_bind, Bool.false_and]

/-- A filter that admits less finds of the other one's files those that it admits. -/
theorem Narrows.filesIn_eq (h : f.Narrows g) (d : String) :
    (f.filesIn d : Session _) = do return (← g.filesIn d).filter f.admits := by
  have hincludes : (f.includes : Path → Session Bool) =
      fun p => do return (← g.includes p) && f.admits p := funext h.includes_eq
  unfold filesIn
  simp only [h.root, hincludes, bind_assoc]
  refine bind_congr fun found => bind_congr fun isLink => ?_
  split
  · simp only [filterM_and, bind_assoc]
  · rw [pure_bind, List.filter_nil]

/-- The filter without its ignore files and exclusions. -/
def bare (f : SourceFilter) : SourceFilter := { f with ignored := [], exclude := [] }

theorem narrows_bare (f : SourceFilter) : f.Narrows f.bare where
  root := rfl
  admits p h := by
    have hunder := isUnder_of_admits h
    obtain ⟨segs, hrel⟩ := Option.isSome_iff_exists.mp hunder
    simp only [admits, bare, hrel, Bool.and_eq_true, List.any_nil, Bool.not_false] at h ⊢
    exact ⟨h.1, ⟨⟨h.2.1.1.1, h.2.1.1.2⟩, trivial⟩, trivial⟩

theorem sees_filesIn_of_bare {ps : List Path} (h : Sees t (f.bare.filesIn d : Session _) (.ok ps)) :
    Sees t (f.filesIn d : Session _) (.ok (ps.filter f.admits)) := by
  rw [f.narrows_bare.filesIn_eq]
  exact h.bind (sees_pure t _)

theorem exists_sees_bare {ps : List Path} (h : Sees t (f.filesIn d : Session _) (.ok ps)) :
    ∃ qs, Sees t (f.bare.filesIn d : Session _) (.ok qs) ∧ ps = qs.filter f.admits := by
  rw [f.narrows_bare.filesIn_eq] at h
  obtain ⟨qs, hqs, hfilter⟩ := h.of_bind_looks (glances_filesIn f.bare d).looks fun _ => looks_pure _
  cases hfilter.unique (sees_pure t _)
  exact ⟨qs, hqs, rfl⟩

/-! ## Where ignore files can be asked -/

theorem exists_below_of_sees (hproper : Proper t) {start : Path} {ps : List Path}
    (h : Sees t (below start : Session _) (.ok ps)) (hp : p ∈ ps) :
    ∃ r, p = ⟨start.anchor, start.segments ++ r⟩ ∧ ".." ∉ r := by
  rw [below_eq] at h
  obtain ⟨found, hfound, hps⟩ := h.of_bind_looks (looks_find? true _) fun _ => looks_pure _
  cases hps.unique (sees_pure t _)
  obtain ⟨e, he, rfl⟩ := List.mem_map.mp hp
  refine ⟨e.1, rfl, ?_⟩
  cases found with
  | none => simp at he
  | some u =>
    have hfind : t.find? true start = .ok (some u) := by
      have hseen := hfound.unique (sees_find? t true start)
      cases hstart : t.find? true start with
      | ok there =>
        rw [hstart] at hseen
        cases hseen
        rfl
      | error cause => simp [hstart, Except.mapError] at hseen
    obtain ⟨place, hplace⟩ := exists_find_of_find? hfind
    have hu : Proper u := hproper.get? (find_eq_ok hplace).2.symm
    have hget := ((hu.mem_listing_iff (q := e.1) (u := e.2)).mp he).2
    exact fun hup => (hu.isName (by simp [hget]) _ hup).2 rfl

theorem exists_sees_below {ps : List Path} (h : Sees t (f.filesIn d : Session _) (.ok ps))
    (hp : p ∈ ps) : ∃ all, Sees t (below (f.root / d) : Session _) (.ok all) ∧ p ∈ all := by
  obtain ⟨isDir, -, h⟩ := h.of_bind_looks (looks_isDir _) fun _ =>
    (looks_isLink _).bind fun _ => (glances_filesBelow f _ _).looks
  obtain ⟨isLink, -, h⟩ := h.of_bind_looks (looks_isLink _) fun _ => (glances_filesBelow f _ _).looks
  split at h
  · obtain ⟨all, hall, h⟩ := h.of_bind_looks (looks_below _) fun _ =>
      (glances_filterM (glances_includes f) _).looks
    have hmem := (h.mem_filterM_iff fun p _ => (glances_includes f p).looks t).mp hp
    exact ⟨all, hall, hmem.1⟩
  · cases h.unique (sees_pure t [])
    cases hp

/-- A path that is asked about below a directory that is named by no parent is named from the root by
none. -/
theorem exists_pathAt_of_sees (hproper : Proper t) (hd : ".." ∉ (Path.parse d).segments)
    {ps : List Path} (h : Sees t (f.bare.filesIn d : Session _) (.ok ps)) (hp : p ∈ ps) :
    ∃ segs, p = pathAt f.root segs ∧ ".." ∉ segs := by
  obtain ⟨all, hall, hmem⟩ := exists_sees_below h hp
  obtain ⟨r, hbelow, hr⟩ := exists_below_of_sees hproper hall hmem
  obtain ⟨qs, -, rfl⟩ := exists_sees_bare (f := f.bare) h
  obtain ⟨segs, hrel⟩ :=
    Option.isSome_iff_exists.mp (isUnder_of_admits (List.mem_filter.mp hp).2)
  rw [Path.relativeTo?] at hrel
  split at hrel
  · rename_i hanchor
    have hsegs : f.root.segments ++ segs = p.segments :=
      List.isPrefixOf?_eq_some_iff_append_eq.mp hrel
    refine ⟨segs, ?_, ?_⟩
    · obtain ⟨anchor, all⟩ := p
      exact congrArg₂ Path.mk hanchor hsegs.symm
    · rw [hbelow] at hsegs
      have hnone : ".." ∉ (Path.parse d).segments ++ r := by simp [hd, hr]
      cases habs : (Path.parse d).isAbsolute with
      | true =>
        have hstart : f.bare.root / d = .parse d := Path.join_of_absolute habs
        rw [hstart] at hsegs
        dsimp only at hsegs
        rw [← hsegs] at hnone
        exact fun hup => hnone (List.mem_append_right _ hup)
      | false =>
        have hstart : f.bare.root / d = pathAt f.root (Path.parse d).segments := div_of_relative habs
        rw [hstart, pathAt, List.append_assoc] at hsegs
        rwa [List.append_cancel_left hsegs]
  · cases hrel

/-- Ignore files at the root can be asked about every path below a directory that is named by no parent. -/
theorem stray?_eq_none (hproper : Proper t) (hbase : ∀ i ∈ f.ignored, i.base = f.root.normalize)
    (hd : ".." ∉ (Path.parse d).segments) {ps : List Path}
    (h : Sees t (f.bare.filesIn d : Session _) (.ok ps)) (hp : p ∈ ps) : f.stray? p = none := by
  obtain ⟨segs, rfl, hsegs⟩ := exists_pathAt_of_sees hproper hd h hp
  have hnormal : (pathAt f.root segs).normalize = pathAt f.root.normalize segs :=
    Path.normalize_append f.root hsegs
  have hunder : (pathAt f.root segs).normalize.isUnder f.root.normalize := by
    rw [hnormal, Path.isUnder, relativeTo?_pathAt]
    rfl
  rw [stray?, Option.map_eq_none_iff, List.find?_eq_none]
  intro i hi
  simp [IgnoreFile.misses, hbase i hi, hunder]

theorem sees_checkIn_of_no_stray {ps : List Path}
    (h : Sees t (f.bare.filesIn d : Session _) (.ok ps)) (hnone : ∀ p ∈ ps, f.stray? p = none) :
    Sees t (f.checkIn d : Session _) (.ok ()) := by
  refine h.bind ?_
  rw [List.findSome?_eq_none_iff.mpr hnone]
  exact sees_pure t ()

theorem alike_checkIn (hproper : Proper t) (hbase : ∀ i ∈ f.ignored, i.base = f.root.normalize)
    (hd : ".." ∉ (Path.parse d).segments) :
    Alike t (do f.checkIn d; f.filesIn d : Session _) (f.filesIn d) := by
  obtain ⟨asked, hasked, -⟩ := (glances_filesIn f.bare d).looks t
  cases asked with
  | ok ps =>
    have hnone : ∀ p ∈ ps, f.stray? p = none := fun p hp =>
      stray?_eq_none hproper hbase hd hasked hp
    obtain ⟨r, hr, -⟩ := (glances_filesIn f d).looks t
    exact ⟨r, (sees_checkIn_of_no_stray hasked hnone).bind hr, hr⟩
  | error e =>
    -- What keeps the check from being made keeps the files from being found.
    refine ⟨.error e, Sees.bind_error hasked.bind_error, ?_⟩
    rw [f.narrows_bare.filesIn_eq]
    exact hasked.bind_error

/-- Below directories that are named by no parent the same is found whether or not ignore files at the root
have to be asked. -/
theorem alike_checkedFiles (hproper : Proper t)
    (hbase : ∀ i ∈ f.ignored, i.base = f.root.normalize)
    (hdirs : ∀ d ∈ dirs, ".." ∉ (Path.parse d).segments) :
    Alike t (f.checkedFiles dirs : Session _) (f.files dirs) :=
  (alike_mapM fun d hd => alike_checkIn hproper hbase (hdirs d hd)).bind fun _ _ =>
    looks_pure _ t

end SourceFilter

/-! ## The ignore file at the root -/

namespace IgnoreFile

variable {t : FileTree} {root p : Path} {i : Pattern.IgnoreFile}

theorem base_of_sees_load (h : Sees t (load p : Session _) (.ok i)) : i.base = p.parent.normalize := by
  obtain ⟨text, -, hof⟩ := h.of_bind_looks (looks_readText p) fun _ => looks_pure _
  cases hof.unique (sees_pure t _)
  rfl

theorem base_of_sees_atRoot {files : List Pattern.IgnoreFile}
    (h : Sees t (atRoot root : Session _) (.ok files)) : ∀ i ∈ files, i.base = root.normalize := by
  obtain ⟨found, -, h⟩ := h.of_bind_looks (looks_isFile _) fun found => by
    split
    · exact (looks_load _).bind fun _ => looks_pure _
    · exact looks_pure _
  split at h
  · obtain ⟨i, hi, h⟩ := h.of_bind_looks (looks_load _) fun _ => looks_pure _
    cases h.unique (sees_pure t [i])
    rintro _ (_ | ⟨_, ⟨⟩⟩)
    rw [base_of_sees_load hi, div_fileName, Path.parent, List.dropLast_concat]
  · cases h.unique (sees_pure t [])
    simp

end IgnoreFile

/-! ## The files of a project -/

/-- On a proper tree, with directories that are named by no parent, the one ignore file at the root is asked
as those of all directories are. -/
theorem alike_sourceFiles {t : FileTree} (hproper : Proper t) {root : Path} {dirs : List String}
    (hdirs : ∀ d ∈ dirs, ".." ∉ (root / d).segments) (output : Option Path) (exclude : List String)
    (nested : Bool) :
    Alike t (sourceFiles root dirs output exclude nested)
      ((if nested then IgnoreFile.everywhere root else IgnoreFile.atRoot root) >>= fun ignored =>
        SourceFilter.files ⟨root, output, ignored, exclude⟩ dirs) := by
  cases nested with
  | true => exact looks_sourceFiles root dirs output exclude true t
  | false =>
    refine Alike.bind (IgnoreFile.looks_atRoot root t) fun ignored hignored => ?_
    exact SourceFilter.alike_checkedFiles hproper (IgnoreFile.base_of_sees_atRoot hignored)
      fun d hd hup => hdirs d hd (SourceFilter.mem_segments_div_of_mem hup)

end CronWrap
