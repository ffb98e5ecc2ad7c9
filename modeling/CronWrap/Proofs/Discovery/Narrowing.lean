import CronWrap.Proofs.Discovery.Asked

/-! The ignore files of subdirectories only take away from the files that are found without them. -/
namespace CronWrap

open FileTree Pattern Session Workspace

namespace SourceFilter

variable {t : FileTree} {f g : SourceFilter} {p : Path} {d : String} {dirs : List String}

/-- The ignore files are asked about what is admitted without them. -/
theorem admits_iff_unignored :
    f.admits p ↔ { f with ignored := [] }.admits p ∧ ∀ i ∈ f.ignored, i.ignores p = false := by
  unfold admits
  cases p.relativeTo? f.root with
  | none => simp
  | some segs =>
    simp only [Bool.and_eq_true, Bool.not_eq_true', List.any_nil, List.any_eq_false,
      Bool.not_eq_true]
    tauto

/-! ## What is asked about -/

/-- Below one of the directories the path is found by the bare filter. -/
def Asked (t : FileTree) (f : SourceFilter) (dirs : List String) (p : Path) : Prop :=
  ∃ d ∈ dirs, ∃ ps, Sees t (f.bare.filesIn d : Session _) (.ok ps) ∧ p ∈ ps

/-- Below all directories it is seen what the bare filter finds. -/
def AllAsked (t : FileTree) (f : SourceFilter) (dirs : List String) : Prop :=
  ∀ d ∈ dirs, ∃ ps, Sees t (f.bare.filesIn d : Session _) (.ok ps)

/-- Where what is found below each directory is what the filter admits of the paths that are asked
about, so is what is found below several. -/
theorem of_sees_sorted {find : String → Session (List Path)} (hfind : ∀ d, Looks (find d))
    (hbare : ∀ d ps, Sees t (find d) (.ok ps) →
      ∃ qs, Sees t (f.bare.filesIn d : Session _) (.ok qs) ∧ ps = qs.filter f.admits)
    {root : Path} {found : List Path}
    (h : Sees t (do return sorted root (← dirs.mapM find).flatten) (.ok found)) :
    AllAsked t f dirs ∧ ∀ p, p ∈ found ↔ Asked t f dirs p ∧ f.admits p := by
  obtain ⟨pss, hpss, hsorted⟩ := h.of_bind_looks (looks_mapM hfind dirs) fun _ => looks_pure _
  cases hsorted.unique (sees_pure t _)
  have hall : ∀ d ∈ dirs, ∃ ps, Sees t (find d) (.ok ps) := hpss.of_mapM fun d _ => hfind d t
  have hmem : ∀ ps, ps ∈ pss ↔ ∃ d ∈ dirs, Sees t (find d) (.ok ps) :=
    fun _ => hpss.mem_mapM_iff fun d _ => hfind d t
  refine ⟨fun d hd => ?_, fun p => ?_⟩
  · obtain ⟨ps, hps⟩ := hall d hd
    obtain ⟨qs, hqs, -⟩ := hbare d ps hps
    exact ⟨qs, hqs⟩
  · rw [mem_sorted, List.mem_flatten]
    constructor
    · rintro ⟨ps, hps, hp⟩
      obtain ⟨d, hd, hseen⟩ := (hmem ps).mp hps
      obtain ⟨qs, hqs, rfl⟩ := hbare d ps hseen
      obtain ⟨hasked, hadmits⟩ := List.mem_filter.mp hp
      exact ⟨⟨d, hd, qs, hqs, hasked⟩, hadmits⟩
    · rintro ⟨⟨d, hd, qs, hqs, hasked⟩, hadmits⟩
      obtain ⟨ps, hps⟩ := hall d hd
      obtain ⟨qs', hqs', rfl⟩ := hbare d ps hps
      cases hqs.unique hqs'
      exact ⟨_, (hmem _).mpr ⟨d, hd, hps⟩, List.mem_filter.mpr ⟨hasked, hadmits⟩⟩

theorem of_sees_files_asked {found : List Path} (h : Sees t (f.files dirs : Session _) (.ok found)) :
    AllAsked t f dirs ∧ ∀ p, p ∈ found ↔ Asked t f dirs p ∧ f.admits p :=
  of_sees_sorted (fun d => (glances_filesIn f d).looks) (fun _ _ => exists_sees_bare) h

/-! ## Where ignore files cannot be asked -/

theorem exists_misses_of_stray? {e : PathError} (h : f.stray? p = some e) :
    ∃ i ∈ f.ignored, i.misses p ∧ e = .outside p.normalize i.base := by
  obtain ⟨i, hi, rfl⟩ := Option.map_eq_some_iff.mp h
  exact ⟨i, List.mem_of_find?_eq_some hi, by simpa using List.find?_some hi, rfl⟩

/-- Below the directory an ignore file cannot be asked about a path that has to be asked about. -/
def Strays (t : FileTree) (f : SourceFilter) (d : String) (e : PathError) : Prop :=
  ∃ ps, Sees t (f.bare.filesIn d : Session _) (.ok ps) ∧ ∃ p ∈ ps, f.stray? p = some e

/-- Of ignore files at the root this is so only below a directory that is named by a parent. -/
theorem Strays.named_by_parent {e : PathError} (h : Strays t f d e) (hproper : Proper t)
    (hbase : ∀ i ∈ f.ignored, i.base = f.root.normalize) : ".." ∈ (Path.parse d).segments := by
  obtain ⟨ps, hps, p, hp, hstray⟩ := h
  by_contra hd
  cases hstray.symm.trans (stray?_eq_none hproper hbase hd hps hp)

theorem sees_checkIn {ps : List Path} (h : Sees t (f.bare.filesIn d : Session _) (.ok ps)) :
    Sees t (f.checkIn d : Session _) (.ok ()) ∨
      ∃ e, Strays t f d e ∧ Sees t (f.checkIn d : Session _) (.error (.path e)) := by
  cases hstray : ps.findSome? f.stray? with
  | none =>
    exact .inl (sees_checkIn_of_no_stray h (List.findSome?_eq_none_iff.mp hstray))
  | some e =>
    obtain ⟨p, hp, he⟩ := List.exists_of_findSome?_eq_some hstray
    refine .inr ⟨e, ⟨ps, h, p, hp, he⟩, h.bind ?_⟩
    rw [hstray]
    exact sees_throw t _

/-- With ignore files that have to be asked the same files are found, or it fails. -/
theorem sees_checkedFiles (h : AllAsked t f dirs) :
    (∃ found, Sees t (f.checkedFiles dirs : Session _) (.ok found) ∧
        ∀ p, p ∈ found ↔ Asked t f dirs p ∧ f.admits p) ∨
      ∃ d ∈ dirs, ∃ e, Strays t f d e ∧
        Sees t (f.checkedFiles dirs : Session _) (.error (.path e)) := by
  let find (d : String) : Session (List Path) := do f.checkIn d; f.filesIn d
  have hfind : ∀ d, Looks (find d) := fun d =>
    (looks_checkIn f d).bind fun _ => (glances_filesIn f d).looks
  rcases sees_mapM_or_fails (g := find) fun d _ => hfind d t with hall | ⟨d, hd, e, he, hfails⟩
  · left
    obtain ⟨pss, hpss, -⟩ := exists_sees_mapM hall
    have hfound : Sees t (f.checkedFiles dirs : Session _) (.ok (sorted f.root pss.flatten)) :=
      hpss.bind (sees_pure t _)
    refine ⟨_, hfound, (of_sees_sorted hfind (fun d ps hps => ?_) hfound).2⟩
    obtain ⟨-, -, hfiles⟩ := hps.of_bind_looks (looks_checkIn f d) fun _ =>
      (glances_filesIn f d).looks
    exact exists_sees_bare hfiles
  · right
    obtain ⟨ps, hps⟩ := h d hd
    rcases sees_checkIn hps with hok | ⟨e', hstrays, herror⟩
    · cases he.unique (hok.bind (sees_filesIn_of_bare hps))
    · cases he.unique herror.bind_error
      exact ⟨d, hd, e', hstrays, hfails.bind_error⟩

end SourceFilter

/-! ## The ignore file at the root -/

namespace IgnoreFile

variable {t : FileTree} {root : Path}

/-- The ignore file at the root is a link to a file. It is not among those of all directories. -/
def RootIsLinked (t : FileTree) (root : Path) : Prop :=
  Sees t (isFile (root / fileName) : Session _) (.ok true) ∧
    Sees t (isLink (root / fileName) : Session _) (.ok true)

/-- Where all ignore files are read the one at the root is, unless it is a link to a file. -/
theorem exists_sees_atRoot {files : List Pattern.IgnoreFile} (hlink : ¬ RootIsLinked t root)
    (h : Sees t (everywhere root : Session _) (.ok files)) :
    ∃ top, Sees t (atRoot root : Session _) (.ok top) ∧
      ∀ i ∈ top, i ∈ files ∧ i.base = root.normalize := by
  obtain ⟨found, -, hrest⟩ := h.of_bind_looks (looks_below root) fun _ =>
    (looks_filterM looks_isOwn _).bind fun _ => looks_mapM looks_load _
  obtain ⟨own, hown, hload⟩ := hrest.of_bind_looks (looks_filterM looks_isOwn _) fun _ =>
    looks_mapM looks_load _
  obtain ⟨b, hb⟩ := hown.of_filterM (fun p _ => looks_isOwn p t) _ List.mem_cons_self
  obtain ⟨isFile, hfile, hb⟩ := hb.of_bind_looks (looks_isFile _) fun _ =>
    (looks_isLink _).bind fun _ => looks_pure _
  cases isFile with
  | false => exact ⟨[], hfile.bind (sees_pure t []), by simp⟩
  | true =>
    obtain ⟨isLink, hislink, hb⟩ := hb.of_bind_looks (looks_isLink _) fun _ => looks_pure _
    cases isLink with
    | true => exact absurd ⟨hfile, hislink⟩ hlink
    | false =>
      have hmem : root / fileName ∈ own :=
        (hown.mem_filterM_iff fun p _ => looks_isOwn p t).mpr
          ⟨List.mem_cons_self, hfile.bind (hislink.bind (sees_pure t true))⟩
      have hsorted : root / fileName ∈ SourceFilter.sorted root own := SourceFilter.mem_sorted.mpr hmem
      obtain ⟨i, hi⟩ := hload.of_mapM (fun p _ => looks_load p t) _ hsorted
      have htop : Sees t (atRoot root : Session _) (.ok [i]) := hfile.bind (hi.bind (sees_pure t [i]))
      refine ⟨[i], htop, fun j hj => ⟨?_, base_of_sees_atRoot htop j hj⟩⟩
      obtain rfl := List.mem_singleton.mp hj
      exact (hload.mem_mapM_iff fun p _ => looks_load p t).mpr ⟨_, hsorted, hi⟩

end IgnoreFile

/-! ## The files of a project -/

section Project

open SourceFilter

variable {t : FileTree} {root : Path} {dirs : List String} {output : Option Path}
  {exclude : List String} {found : List Path}

/-- Let the ignore file at the root be no link to a file. Then the files that are found with all ignore
files are those that are found with the one at the root, less what any of all these ignores. Only with
a directory that is named by a parent, as no entry of a proper tree is, may it fail to find files with the
one at the root: by links the path of a file may there lead out of the root, and then that ignore file
cannot be asked about it. -/
theorem sourceFiles_nested_narrows (hlink : ¬ IgnoreFile.RootIsLinked t root)
    (h : Sees t (sourceFiles root dirs output exclude true) (.ok found)) :
    (∃ files all, Sees t (IgnoreFile.everywhere root) (.ok files) ∧
        Sees t (sourceFiles root dirs output exclude false) (.ok all) ∧
        ∀ p, p ∈ found ↔ p ∈ all ∧ ∀ i ∈ files, i.ignores p = false) ∨
      ∃ d ∈ dirs, (Proper t → ".." ∈ (Path.parse d).segments) ∧
        ∃ p : Path, p.isUnder root.normalize = false ∧
          Sees t (sourceFiles root dirs output exclude false)
            (.error (.path (.outside p root.normalize))) := by
  obtain ⟨files, hfiles, hfound⟩ := h.of_bind_looks (IgnoreFile.looks_everywhere root) fun _ =>
    (glances_files _ dirs).looks
  obtain ⟨top, htop, hsub⟩ := IgnoreFile.exists_sees_atRoot hlink hfiles
  let f : SourceFilter := ⟨root, output, files, exclude⟩
  let g : SourceFilter := ⟨root, output, top, exclude⟩
  -- Both filters are the same without their ignore files, so that they are asked about the same paths.
  obtain ⟨hall, hmem⟩ := of_sees_files_asked (f := f) hfound
  rcases sees_checkedFiles (f := g) hall with ⟨all, hseen, hmem'⟩ | ⟨d, hd, e, hstrays, hfails⟩
  · refine .inl ⟨files, all, hfiles, htop.bind hseen, fun p => ?_⟩
    have hsame : Asked t f dirs p ↔ Asked t g dirs p := Iff.rfl
    have hf : f.admits p ↔ { f with ignored := [] }.admits p ∧ ∀ i ∈ files, i.ignores p = false :=
      admits_iff_unignored
    have hg : g.admits p ↔ { f with ignored := [] }.admits p ∧ ∀ i ∈ top, i.ignores p = false :=
      admits_iff_unignored
    have htopmost : (∀ i ∈ files, i.ignores p = false) → ∀ i ∈ top, i.ignores p = false :=
      fun hnone i hi => hnone i (hsub i hi).1
    rw [hmem, hmem', hsame, hf, hg]
    constructor
    · rintro ⟨hasked, hadmits, hnone⟩
      exact ⟨⟨hasked, hadmits, htopmost hnone⟩, hnone⟩
    · rintro ⟨⟨hasked, hadmits, -⟩, hnone⟩
      exact ⟨hasked, hadmits, hnone⟩
  · have hup (hproper : Proper t) : ".." ∈ (Path.parse d).segments :=
      hstrays.named_by_parent hproper fun i hi => (hsub i hi).2
    obtain ⟨ps, -, p, -, hstray⟩ := hstrays
    obtain ⟨i, hi, hmisses, rfl⟩ := exists_misses_of_stray? hstray
    rw [(hsub i hi).2] at hfails
    rw [IgnoreFile.misses, Bool.and_eq_true, (hsub i hi).2] at hmisses
    exact .inr ⟨d, hd, hup, p.normalize, Bool.not_eq_true' _ |>.mp hmisses.2, htop.bind hfails⟩

/-- Ignore files at the root and below it, each with a rule that takes files back in, one below a
directory in which nothing counts, and one that is a link. -/
theorem sourceFiles_nested_narrows_with_negation :
    let root : Path := ⟨.root, ["p"]⟩
    let rules (text : String) : FileTree := .file (Text.encodeUtf8 text.toList)
    let t := FileTree.empty.set (.dir [(".gitignore", rules "*.gen.ts\n!kept.gen.ts\n"),
      ("src", .dir [(".gitignore", rules "a.ts\n!b.gen.ts\n"), ("a.ts", .file []),
        ("b.gen.ts", .file []), ("c.ts", .file []), ("kept.gen.ts", .file []),
        ("lib", .dir [(".gitignore", .link "../.gitignore"), ("a.ts", .file [])]),
        ("node_modules", .dir [(".gitignore", rules "*\n")])])]) ["p"]
    let at? (rel : List String) : Path := ⟨.root, "p" :: "src" :: rel⟩
    let found := [at? ["c.ts"], at? ["kept.gen.ts"]]
    ¬ IgnoreFile.RootIsLinked t root ∧ Sees t (sourceFiles root ["src"] none [] true) (.ok found) ∧
      ∃ files all, Sees t (IgnoreFile.everywhere root) (.ok files) ∧
        Sees t (sourceFiles root ["src"] none [] false) (.ok all) ∧
        ∀ p, p ∈ found ↔ p ∈ all ∧ ∀ i ∈ files, i.ignores p = false := by
  intro root rules t at? found
  have hlink : ¬ IgnoreFile.RootIsLinked t root := by
    rintro ⟨-, hlinked⟩
    have hnone : Sees t (isLink (root / IgnoreFile.fileName)) (.ok false) :=
      (looks_isLink _).sees_of_passes (by decide +kernel)
    cases hlinked.unique hnone
  let top := root / ".gitignore"
  let inner := root / "src/.gitignore"
  have hbelow : Sees t (below root) (.ok (pathsBelow t root)) :=
    (looks_below root).sees_of_passes (by decide +kernel)
  -- The ignore file at the root is also among those below it.
  have hown : Sees t ((IgnoreFile.candidates t root).filterM fun p => do
      return (← isFile p) && !(← isLink p)) (.ok [top, top, inner]) :=
    (looks_filterM IgnoreFile.looks_isOwn _).sees_of_passes (by decide +kernel)
  have hsorted : sorted root [top, top, inner] = [top, inner] :=
    (sorted_of_pairwise (by decide +kernel)).trans (by decide +kernel)
  let files : List Pattern.IgnoreFile := [.ofText root "*.gen.ts\n!kept.gen.ts\n".toList,
    .ofText (root / "src") "a.ts\n!b.gen.ts\n".toList]
  have hload : Sees t ([top, inner].mapM IgnoreFile.load) (.ok files) :=
    (looks_mapM IgnoreFile.looks_load _).sees_of_passes (by decide +kernel)
  rw [← hsorted] at hload
  have hfiles : Sees t (IgnoreFile.everywhere root) (.ok files) := hbelow.bind (hown.bind hload)
  have hin : ∀ f : SourceFilter, Looks (["src"].mapM f.filesIn : Session _) := fun f =>
    looks_mapM (fun d => (glances_filesIn f d).looks) ["src"]
  have hfound : Sees t (sourceFiles root ["src"] none [] true) (.ok found) := by
    have hkept : sorted root [found].flatten = found :=
      (sorted_of_pairwise (by decide +kernel)).trans (by decide +kernel)
    rw [← hkept]
    exact hfiles.bind (((hin _).sees_of_passes (by decide +kernel)).bind (sees_pure t _))
  refine ⟨hlink, hfound, ?_⟩
  have hlib : Proper (.dir [(".gitignore", .link "../.gitignore"), ("a.ts", .file [])]) :=
    proper_dir (by decide) (by simpa using ⟨⟨by decide, proper_link _⟩, by decide, proper_file []⟩)
  have hmodules : Proper (.dir [(".gitignore", rules "*\n")]) :=
    proper_dir (by decide) (by simpa using ⟨by decide, proper_file _⟩)
  have hsrc : Proper (.dir [(".gitignore", rules "a.ts\n!b.gen.ts\n"), ("a.ts", .file []),
      ("b.gen.ts", .file []), ("c.ts", .file []), ("kept.gen.ts", .file []),
      ("lib", .dir [(".gitignore", .link "../.gitignore"), ("a.ts", .file [])]),
      ("node_modules", .dir [(".gitignore", rules "*\n")])]) :=
    proper_dir (by decide) (by
      simpa using ⟨⟨by decide, proper_file _⟩, ⟨by decide, proper_file []⟩,
        ⟨by decide, proper_file []⟩, ⟨by decide, proper_file []⟩, ⟨by decide, proper_file []⟩,
        ⟨by decide, hlib⟩, by decide, hmodules⟩)
  have hproper : Proper t := proper_empty.set (proper_dir (by decide) (by
    simpa using ⟨⟨by decide, proper_file _⟩, by decide, hsrc⟩)) (by decide)
  rcases sourceFiles_nested_narrows hlink hfound with hnarrow | ⟨d, hd, hup, -⟩
  · exact hnarrow
  · obtain rfl := List.mem_singleton.mp hd
    exact absurd (hup hproper) (by decide)

/-- Where the ignore file at the root is a link, it counts only alone. And a directory that a link and
parents lead to, of which the ignore file at the root cannot be asked, is passed over by the others. -/
theorem sourceFiles_nested_finds_more :
    let root : Path := ⟨.root, ["p"]⟩
    let rules (text : String) : FileTree := .file (Text.encodeUtf8 text.toList)
    let linked := FileTree.empty.set (.dir [(".gitignore", .link "rules"),
      ("rules", rules "*.gen.ts\n"), ("src", .dir [("a.gen.ts", .file [])])]) ["p"]
    let crossed := FileTree.empty.set (.dir [(".gitignore", rules "x\n"),
      ("a", .dir [("b", .dir [("k.ts", .file [])])]), ("link", .link "a/b")]) ["p"]
    let find (dirs : List String) (nested : Bool) : Session (List Path) :=
      sourceFiles root dirs none [] nested
    let deep : Path := ⟨.root, ["p", "link", "..", "..", "a", "b", "k.ts"]⟩
    Sees linked (find ["src"] true) (.ok [⟨.root, ["p", "src", "a.gen.ts"]⟩]) ∧
      Sees linked (find ["src"] false) (.ok []) ∧
      Sees crossed (find ["link/../.."] true) (.ok [deep]) ∧
      ¬ ∃ all, Sees crossed (find ["link/../.."] false) (.ok all) := by
  intro root rules linked crossed find deep
  have hlooks : ∀ dirs nested, Looks (find dirs nested) := fun dirs nested =>
    looks_sourceFiles root dirs none [] nested
  refine ⟨(hlooks _ _).sees_of_passes (by decide +kernel),
    (hlooks _ _).sees_of_passes (by decide +kernel),
    (hlooks _ _).sees_of_passes (by decide +kernel), ?_⟩
  rintro ⟨all, hall⟩
  obtain ⟨e, s', hfails⟩ := exists_eq_error_of_not_passes
    (x := find ["link/../.."] false) (s := { tree := crossed }) (by decide +kernel)
  obtain ⟨log, hrun⟩ := hall.eq_ok (s := { tree := crossed }) rfl
  cases hfails.symm.trans hrun

end Project

end CronWrap
