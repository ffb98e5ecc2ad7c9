import CronWrap.Proofs.Alias.Held
import CronWrap.Proofs.Wrapper.Rounds
import CronWrap.Proofs.Wrapper.Survey

/-! A generation that is asked for again at once gives the same and changes nothing. -/
namespace CronWrap

open FileTree Session Workspace

theorem FileTree.NoLinks.hasDir_eq {t : FileTree} (ht : NoLinks t) {p : Path}
    (hup : ".." ∉ p.segments) (hfits : p.Fits) : t.hasDir p = t.isDirAt p.segments := by
  have hfind := ht.find? hup (.inl hfits.short) true
  rw [if_pos hfits] at hfind
  rw [hasDir, hfind, isDirAt]
  cases t.get? p.segments with
  | none => rfl
  | some u => cases u <;> rfl

/-- What is on a joined path is on one of the two. -/
theorem Path.mem_segments_div {base : Path} {s n : String} (h : n ∈ (base / s).segments) :
    n ∈ base.segments ∨ n ∈ (Path.parse s).segments := by
  change n ∈ (base.join (.parse s)).segments at h
  unfold Path.join at h
  split at h
  · exact .inr h
  · exact List.mem_append.mp h

namespace Generation

variable {t t' : FileTree} {root : Path} {dir : List String}

/-! ## The place of the generated tree -/

theorem looks_findContainer (root : Path) : Looks (findContainer root : Session _) := fun t =>
  (steady_findM? fun d _ => looks_isDir d t).bind fun _ _ => steady_pure _

theorem eq_containerOf_of_sees {c : Path} (h : Sees t (findContainer root) (.ok c)) :
    c = containerOf t root := by
  obtain ⟨log, hrun⟩ := h.eq_ok (s := { tree := t }) rfl
  have htriple := triple_findContainer root { tree := t } _ rfl
  rw [hrun] at htriple
  exact htriple.1

/-- Where a generated tree fits, so do all directories in which it may be. -/
theorem fits_routableDirs {parts : List String} (hparts : parts ∈ Layout.routableRoots)
    (h : (treePath root.anchor (root.segments ++ parts)).Fits) :
    ∀ d ∈ Layout.routableDirs root, d.Fits := by
  have hsrc : (Path.mk root.anchor (root.segments ++ ["src", "app"])).Fits := by
    simp only [Layout.routableRoots, List.mem_cons, List.not_mem_nil, or_false] at hparts
    rcases hparts with rfl | rfl
    · exact h.above
    · have hrenamed : (Path.mk root.anchor (root.segments ++ "src" :: [Layout.containerName])).Fits :=
        Path.Fits.rename (s := "app") (by simpa [treePath] using h) (by decide)
      have hlast : (Path.mk root.anchor
          (root.segments ++ ["src"] ++ Layout.containerName :: [])).Fits := by simpa using hrenamed
      simpa using hlast.rename (x := "app") (by decide)
  have happ : (Path.mk root.anchor (root.segments ++ ["app"])).Fits := by
    have hwhole : (Path.mk root.anchor (root.segments ++ "src" :: [] ++ ["app"])).Fits := by
      simpa using hsrc
    exact hwhole.above.rename (by decide)
  rintro d hd
  simp only [Layout.routableDirs, Layout.routableRoots, List.map_cons, List.map_nil, List.mem_cons,
    List.not_mem_nil, or_false] at hd
  rcases hd with rfl | rfl
  · exact hsrc
  · exact happ

theorem sees_findContainer (ht : NoLinks t) (hup : ".." ∉ root.segments)
    (hfits : ∀ d ∈ Layout.routableDirs root, d.Fits) :
    Sees t (findContainer root : Session _) (.ok (containerOf t root)) := by
  have hdirs : ∀ d ∈ Layout.routableDirs root, Sees t (isDir d : Session _) (.ok (t.hasDir d)) := by
    intro d hd
    obtain ⟨parts, hparts, rfl⟩ := List.mem_map.mp hd
    have hall : ∀ parts ∈ Layout.routableRoots, ".." ∉ parts := by decide
    have hupd : ".." ∉ root.segments ++ parts :=
      fun hmem => (List.mem_append.mp hmem).elim hup (hall parts hparts)
    have h := sees_isDir ht hupd (.inl (hfits _ hd).short)
    rwa [if_pos (hfits _ hd), ← ht.hasDir_eq hupd (hfits _ hd)] at h
  exact (sees_findM? hdirs).bind (sees_pure t _)

theorem treePath_inj {anchor : Anchor} {dir dir' : List String}
    (h : treePath anchor dir = treePath anchor dir') : dir = dir' := by
  rw [treePath, treePath, Path.mk.injEq] at h
  exact List.append_cancel_right h.2

theorem containerIn_eq (root : Path) (parts : List String) :
    Layout.containerIn root (some ⟨root.anchor, root.segments ++ parts⟩) =
      treePath root.anchor (root.segments ++ parts) :=
  Path.div_of_isSegment _ (by decide)

/-- The directory that a generation makes for its tree is the one that the next one finds. -/
theorem containerOf_again (h : Regenerated dir t t') (hup : ".." ∉ root.segments)
    (hfits : ∀ d ∈ Layout.routableDirs root, d.Fits)
    (hdir : containerOf t root = treePath root.anchor dir) :
    containerOf t' root = containerOf t root := by
  have hhas : ∀ {u : FileTree} (parts : List String), NoLinks u → parts ∈ Layout.routableRoots →
      u.hasDir ⟨root.anchor, root.segments ++ parts⟩ = u.isDirAt (root.segments ++ parts) := by
    intro u parts hu hparts
    have hall : ∀ parts ∈ Layout.routableRoots, ".." ∉ parts := by decide
    refine hu.hasDir_eq ?_ (hfits _ (List.mem_map_of_mem hparts))
    exact fun hmem => (List.mem_append.mp hmem).elim hup (hall parts hparts)
  have hsrc := hhas ["src", "app"] h.noLinks (by decide)
  have hsrc' := hhas ["src", "app"] h.noLinks' (by decide)
  have happ := hhas ["app"] h.noLinks (by decide)
  have happ' := hhas ["app"] h.noLinks' (by decide)
  have hnow : ∀ u, containerOf u root = Layout.containerIn root
      ([Path.mk root.anchor (root.segments ++ ["src", "app"]),
        ⟨root.anchor, root.segments ++ ["app"]⟩].find? u.hasDir) := fun _ => rfl
  have hstays : ∀ parts, dir = root.segments ++ parts →
      t'.isDirAt (root.segments ++ parts) := by
    rintro parts rfl
    exact isDirAt_above h.tree
  rw [hnow] at hdir
  rw [hnow, hnow]
  simp only [List.find?_cons, List.find?_nil, hsrc, hsrc', happ, happ'] at hdir ⊢
  cases hs : t.isDirAt (root.segments ++ ["src", "app"]) with
  | true =>
    simp only [hs] at hdir
    rw [hstays _ (treePath_inj ((containerIn_eq root _).symm.trans hdir)).symm]
  | false =>
    cases ha : t.isDirAt (root.segments ++ ["app"]) with
    | true =>
      simp only [hs, ha] at hdir
      have hparts := (treePath_inj ((containerIn_eq root _).symm.trans hdir)).symm
      have hno : t'.isDirAt (root.segments ++ ["src", "app"]) = false := by
        rw [Bool.eq_false_iff, Ne, h.renewal.dir_iff _ ?_, hs, hparts]
        · simp
        · rw [hparts, treePlace, List.append_assoc, List.prefix_append_right_inj]
          decide
      rw [hno, hstays _ hparts]
    | false =>
      simp only [hs, ha] at hdir
      have hparts := (treePath_inj ((containerIn_eq root ["src", "app"]).symm.trans hdir)).symm
      rw [hstays _ hparts]
      rfl

/-! ## The aliases -/

/-- What the alias configuration extends, if anything, is no part of the generated tree, and its path
has short names. -/
def ExtendsOutside (t : FileTree) (root : Path) : Prop :=
  ∀ config ∈ AliasConfig.effective? t root, ∀ extended ∈ config.parent, ∀ p,
    AliasConfig.parentPath root extended = .ok p →
      p.Short ∧ ¬ (containerOf t root).segments <+: p.segments

theorem Regenerated.steady_aliases (h : Regenerated dir t t')
    (hroot : root.segments <+: dir) (habs : root.isAbsolute) (hup : ".." ∉ root.segments)
    (hdir : containerOf t root = treePath root.anchor dir) (hextends : ExtendsOutside t root) :
    Steady t t' (AliasTable.load root : Session _) := by
  refine AliasTable.steady_load h.noLinks (fun name hname => ?_)
    fun config hconfig extended hextended p hp => ?_
  · have hall : ∀ name ∈ aliasConfigNames, Path.IsSegment name ∧ name ≠ ".." ∧
        name ≠ Layout.containerName ∧ name.utf8ByteSize ≤ maxName ∧
        Path.suffixOf name.toList ≠ [] := by decide
    obtain ⟨hseg, hnameUp, hne, hsize, hsuffix⟩ := hall name hname
    rw [Path.div_of_isSegment _ hseg]
    have hupName : ".." ∉ root.segments ++ [name] := by simpa using ⟨hup, hnameUp.symm⟩
    have hshort : (Path.mk root.anchor (root.segments ++ [name])).Short :=
      (h.fits_of_above hroot).short.append (by simpa using hsize)
    refine ⟨hupName, hshort, h.sameFile (elsewhere_of_suffix (not_in_tree_of_entry hroot hne) ?_)
      hupName hshort⟩
    rw [Path.suffix, Path.name, List.getLast?_concat, Option.getD_some]
    exact fun he => hsuffix (String.ofList_injective he)
  · obtain ⟨hshort, hout⟩ := hextends config hconfig extended hextended p hp
    rw [hdir] at hout
    refine h.sameFile (elsewhere_of_suffix hout ?_) (AliasConfig.no_parent_of_parentPath habs hp)
      hshort
    rw [AliasConfig.suffix_of_parentPath hp]
    decide

/-- The ways to get the alias table of a project. -/
def IsFetch (root : Path) (fetch : Session AliasTable) : Prop :=
  fetch = AliasTable.load root ∨ fetch = AliasCache.fetch root

theorem IsFetch.after {fetch : Session AliasTable} (h : IsFetch root fetch) {s s' : SessionState}
    {table : AliasTable} (hs : fetch s = .ok table s') : s'.tree = s.tree ∧ s'.fails = s.fails := by
  rcases h with rfl | rfl
  · obtain ⟨-, hafter⟩ := (AliasTable.looks_load root).of_eq_ok hs
    exact ⟨hafter.tree_eq, hafter.fails_eq⟩
  · exact (AliasCache.held_of_fetch hs).2

/-- The same table is got again, be it held or loaded from files that say the same. -/
theorem IsFetch.again {fetch : Session AliasTable} (h : IsFetch root fetch)
    {s s' s₁ : SessionState} {table : AliasTable} (hs : fetch s = .ok table s')
    (hsteady : Steady s.tree s₁.tree (AliasTable.load root : Session _))
    (haliases : s₁.aliases = s'.aliases) :
    ∃ s₂, fetch s₁ = .ok table s₂ ∧ s₂.tree = s₁.tree ∧ s₂.fails = s₁.fails := by
  rcases h with rfl | rfl
  · obtain ⟨hsees, -⟩ := (AliasTable.looks_load root).of_eq_ok hs
    obtain ⟨s₂, hs₂, hafter⟩ := (hsteady.sees hsees).exists_eq_ok rfl
    exact ⟨s₂, hs₂, hafter.tree_eq, hafter.fails_eq⟩
  · exact ⟨s₁, AliasCache.fetch_of_held (haliases.trans (AliasCache.held_of_fetch hs).1), rfl, rfl⟩

/-! ## Runs -/

/-- A project of which the generation can be repeated: a proper tree without links, in which nothing is
left of old generated trees, no directory to scan is named by way of its parent, and the aliases are
configured outside of the generated tree. -/
structure Repeatable (settings : Settings) (root : Path) (t : FileTree) : Prop where
  noLinks : NoLinks t
  proper : Proper t
  isAbsolute : root.isAbsolute
  isName : ∀ n ∈ root.segments, IsName n
  scanDirs : ∀ d ∈ settings.scanDirs, ".." ∉ (Path.parse d).segments ∧ (Path.parse d).Short
  onlyNew : OnlyNew root.anchor (containerOf t root).parent.segments t
  outside : ExtendsOutside t root

section Runs

variable {settings : Settings} {fetch : Session AliasTable} {sites : List CallSite}
  {s s' : SessionState} {g : Generation}

/-- The wrappers of a plan for functions with proper names are placed, each in a directory of its
own. -/
theorem isPlaced_plan {container : Path} {table : AliasTable} {ws : List Wrapper}
    (hsites : ∀ c ∈ sites, '/' ∉ c.functionName.toList)
    (hplan : Wrapper.plan sites container table = .ok ws) :
    (∀ w ∈ ws, w.IsPlaced) ∧ (ws.map (·.directory)).Nodup := by
  have hplaced : ∀ w ∈ ws, w.IsPlaced := by
    intro w hw
    obtain ⟨c, hc, rfl⟩ := Wrapper.exists_site_of_mem_plan hplan hw
    exact Wrapper.isPlaced_ofSite _ _ (hsites c hc)
  refine ⟨hplaced, ?_⟩
  have hdirs : ws.map (·.directory) = (ws.map (·.functionName)).map Layout.triggerDir := by
    rw [List.map_map]
    exact List.map_congr_left fun w hw => (hplaced w hw).directory_eq
  rw [hdirs]
  exact (Wrapper.nodup_names_plan hplan).map Layout.triggerDir_injective

/-- What a run does once it has a plan. -/
def renew (settings : Settings) (container : Path) (ws : List Wrapper) : Session Generation := do
  Staging.replace container (writeTree settings ws)
  note (doneNote ws.length container)
  return ⟨container, ws⟩

theorem run_eq_renew {container : Path} {table : AliasTable} {ws : List Wrapper}
    {s₁ s₂ : SessionState} (hcontainer : (findContainer root : Session _) s = .ok container s₁)
    (hfetched : fetch s₁ = .ok table s₂) (hplan : Wrapper.plan sites container table = .ok ws) :
    run settings root fetch sites s = renew settings container ws s₂ := by
  rw [run, bind_of_eq_ok hcontainer, bind_of_eq_ok hfetched, hplan]
  rfl

theorem exists_of_run_eq_ok (h : run settings root fetch sites s = .ok g s') :
    ∃ container s₁ table s₂ ws, (findContainer root : Session _) s = .ok container s₁ ∧
      fetch s₁ = .ok table s₂ ∧ Wrapper.plan sites container table = .ok ws ∧
      renew settings container ws s₂ = .ok g s' := by
  obtain ⟨container, s₁, hcontainer, h⟩ := exists_of_bind_eq_ok h
  obtain ⟨table, s₂, hfetched, h⟩ := exists_of_bind_eq_ok h
  cases hplan : Wrapper.plan sites container table with
  | error c =>
    rw [hplan] at h
    cases h
  | ok ws =>
    rw [hplan] at h
    exact ⟨container, s₁, table, s₂, ws, hcontainer, hfetched, hplan, h⟩

theorem exact_renew (settings : Settings) {anchor : Anchor} {ws : List Wrapper} (ht : NoLinks t) (hup : ".." ∉ dir)
    (hold : Staging.NoOldTrees (treePath anchor dir) (t.entriesAt dir)) (hws : ∀ w ∈ ws, w.IsPlaced)
    (hnodup : (ws.map (·.directory)).Nodup) :
    Exact t (renew settings (treePath anchor dir) ws) (Room ws anchor dir t)
      ⟨treePath anchor dir, ws⟩ (rebuilt settings ws anchor dir t) := by
  have hend : Exact (rebuilt settings ws anchor dir t)
      (do note (doneNote ws.length (treePath anchor dir)); return ⟨treePath anchor dir, ws⟩ :
        Session Generation) True ⟨treePath anchor dir, ws⟩ (rebuilt settings ws anchor dir t) :=
    exact_of_sees_ok ((sees_note _ _).bind (sees_pure _ _))
  exact ((exact_replace_tree ht hup hold settings hws hnodup).bind fun _ => hend).congr (by simp)

/-- A run that succeeded leaves a tree in which the next one does the same. -/
theorem run_again (hproject : Repeatable settings root s.tree) (hfetch : IsFetch root fetch)
    (hcalm : Calm s) (hsites : ∀ c ∈ sites, '/' ∉ c.functionName.toList)
    (hrun : run settings root fetch sites s = .ok g s') :
    s'.fails = s.fails ∧
      (∃ parts ∈ Layout.routableRoots,
        containerOf s.tree root = treePath root.anchor (root.segments ++ parts) ∧
        Regenerated (root.segments ++ parts) s.tree s'.tree ∧
        (∀ d ∈ Layout.routableDirs root, d.Fits)) ∧
      ∀ r : SessionState, r.tree = s'.tree → Calm r → r.aliases = s'.aliases →
        ∃ r', run settings root fetch sites r = .ok g r' ∧ r'.tree = s'.tree := by
  obtain ⟨container, s₁, table, s₂, ws, hcontainer, hfetched, hplan, hrenew⟩ :=
    exists_of_run_eq_ok hrun
  obtain ⟨hseen, hs₁⟩ := (looks_findContainer root).of_eq_ok hcontainer
  obtain rfl := eq_containerOf_of_sees hseen
  obtain ⟨htree₂, hfails₂⟩ := hfetch.after hfetched
  rw [hs₁.tree_eq] at htree₂
  rw [hs₁.fails_eq] at hfails₂
  obtain ⟨parts, hparts, hpath⟩ := exists_parts s.tree root
  obtain ⟨hws, hnodup⟩ := isPlaced_plan hsites hplan
  have hnames : ∀ n ∈ root.segments ++ parts, IsName n := by
    have hall : ∀ parts ∈ Layout.routableRoots, ∀ n ∈ parts, IsName n := by decide
    exact fun n hn => (List.mem_append.mp hn).elim (hproject.isName n) (hall parts hparts n)
  have hup : ".." ∉ root.segments ++ parts := fun hmem => (hnames _ hmem).2 rfl
  have hrootUp : ".." ∉ root.segments := fun hmem => (hproject.isName _ hmem).2 rfl
  have hnew := hproject.onlyNew
  rw [hpath, Path.parent, List.dropLast_concat] at hnew
  have hcalm₂ : Calm s₂ := fun before c => by rw [hfails₂, hcalm before c]
  rw [hpath] at hrenew
  obtain ⟨hroom, rfl, hafter⟩ := (exact_renew settings hproject.noLinks hup hnew.noOldTrees hws
    hnodup).of_eq_ok htree₂ hcalm₂ hrenew
  have hregenerated := regenerated_rebuilt hproject.noLinks hproject.proper hnames settings hws
    hnodup hroom
  have hfits := fits_routableDirs hparts hroom.tree
  have hsteady := hregenerated.steady_aliases (List.prefix_append _ _) hproject.isAbsolute hrootUp
    hpath hproject.outside
  have hagain := sees_findContainer hregenerated.noLinks' hrootUp hfits
  rw [containerOf_again hregenerated hrootUp hfits hpath] at hagain
  rw [hafter.tree_eq]
  refine ⟨hafter.fails_eq.trans hfails₂, ⟨parts, hparts, hpath, hregenerated, hfits⟩,
    fun r htree hcalm' haliases => ?_⟩
  obtain ⟨r₁, hr₁, hafter₁⟩ := hagain.exists_eq_ok htree
  rw [← hafter₁.tree_eq, ← hs₁.tree_eq] at hsteady
  obtain ⟨r₂, hr₂, htreeR, hfailsR⟩ := hfetch.again hfetched hsteady
    ((hafter₁.aliases_eq.trans haliases).trans hafter.aliases_eq)
  rw [run_eq_renew hr₁ hr₂ hplan, hpath]
  obtain ⟨r', hr', hafter'⟩ := (exact_renew settings hregenerated.noLinks' hup
    hnew.noOldTrees_rebuilt hws hnodup r₂ (htreeR.trans hafter₁.tree_eq)
      (fun before c => by rw [hfailsR, hafter₁.fails_eq, hcalm' before c])).1 (hroom.again hnew)
  exact ⟨r', hr', hafter'.tree_eq.trans rebuilt_rebuilt⟩

end Runs

end Generation

end CronWrap
