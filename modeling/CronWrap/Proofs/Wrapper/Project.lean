import CronWrap.Proofs.Wrapper.Again

/-! A generation for a project: what it looks at, what it leaves, and that doing it again changes
nothing. -/
namespace CronWrap

open FileTree Session Workspace

namespace Generation

variable {t t' : FileTree} {root : Path} {settings : Settings} {fetch : Session AliasTable}
  {s s' : SessionState} {g : Generation}

/-- What is looked at before anything is done: the call sites, and whether there is a tree from
before. -/
def survey (settings : Settings) (root : Path) : Session (List CallSite × Bool) := do
  let container ← findContainer root
  let files ←
    sourceFiles root settings.scanDirs (some container) settings.exclude settings.nestedGitignore
  let sites ← CallSite.scan settings root files
  return (sites, ← exists? container)

theorem ofProject_eq (settings : Settings) (root : Path) (fetch : Session AliasTable) :
    ofProject settings root fetch = survey settings root >>= fun found =>
      if found.1.isEmpty && !found.2 then do
        note (nothingNote settings)
        return none
      else some <$> run settings root fetch found.1 := by
  simp only [ofProject, survey, bind_assoc, pure_bind]

theorem looks_survey (settings : Settings) (root : Path) : Looks (survey settings root) :=
  (looks_findContainer root).bind fun _ => (looks_sourceFiles _ _ _ _ _).bind fun _ =>
    (CallSite.looks_scan _ _ _).bind fun _ => (looks_exists? _).bind fun _ => looks_pure _

theorem of_sees_survey {found : List CallSite × Bool}
    (h : Sees t (survey settings root) (.ok found)) :
    ∃ files, Sees t (findContainer root) (.ok (containerOf t root)) ∧
      Sees t (sourceFiles root settings.scanDirs (some (containerOf t root)) settings.exclude
        settings.nestedGitignore) (.ok files) ∧
      Sees t (CallSite.scan settings root files) (.ok found.1) := by
  obtain ⟨container, hcontainer, h⟩ := h.of_bind_looks (looks_findContainer root) fun _ =>
    (looks_sourceFiles _ _ _ _ _).bind fun _ => (CallSite.looks_scan _ _ _).bind fun _ =>
      (looks_exists? _).bind fun _ => looks_pure _
  obtain rfl := eq_containerOf_of_sees hcontainer
  obtain ⟨files, hfiles, h⟩ := h.of_bind_looks (looks_sourceFiles _ _ _ _ _) fun _ =>
    (CallSite.looks_scan _ _ _).bind fun _ => (looks_exists? _).bind fun _ => looks_pure _
  obtain ⟨sites, hsites, h⟩ := h.of_bind_looks (CallSite.looks_scan _ _ _) fun _ =>
    (looks_exists? _).bind fun _ => looks_pure _
  obtain ⟨there, -, h⟩ := h.of_bind_looks (looks_exists? _) fun _ => looks_pure _
  cases h.unique (sees_pure t _)
  exact ⟨files, hcontainer, hfiles, hsites⟩

/-- After a generation the same call sites are found, and there is a tree. -/
theorem Repeatable.sees_survey_again {found : List CallSite × Bool} {parts : List String}
    (hproject : Repeatable settings root t)
    (h : Regenerated (root.segments ++ parts) t t')
    (hpath : containerOf t root = treePath root.anchor (root.segments ++ parts))
    (hfits : ∀ d ∈ Layout.routableDirs root, d.Fits)
    (hfound : Sees t (survey settings root) (.ok found)) :
    Sees t' (survey settings root) (.ok (found.1, true)) := by
  obtain ⟨files, -, hfiles, hsites⟩ := of_sees_survey hfound
  have hup : ".." ∉ root.segments := fun hmem => (hproject.isName _ hmem).2 rfl
  have hroot : root.segments <+: root.segments ++ parts := List.prefix_append _ _
  have hdirs : ∀ d ∈ settings.scanDirs, ".." ∉ (root / d).segments := fun d hd hmem =>
    (Path.mem_segments_div hmem).elim hup (hproject.scanDirs d hd).1
  have hshort : ∀ d ∈ settings.scanDirs, (root / d).Short := fun d hd n hn =>
    (Path.mem_segments_div hn).elim ((h.fits_of_above hroot).short n)
      ((hproject.scanDirs d hd).2 n)
  have hagain := sees_findContainer h.noLinks' hup hfits
  rw [containerOf_again h hup hfits hpath, hpath] at hagain
  rw [hpath] at hfiles
  have hfiles' := h.sees_sourceFiles_again hroot hup hdirs hshort hfiles
  have hsites' := (h.steady_scan hup hdirs hfiles settings).sees hsites
  have htree := isSome_of_isDirAt h.tree
  have hthere : Sees t' (exists? (treePath root.anchor (root.segments ++ parts)) : Session _)
      (.ok true) := by
    have hupTree : ".." ∉ treePlace (root.segments ++ parts) := fun hmem =>
      (h.proper'.isName htree _ hmem).2 rfl
    have hfitsTree : (Path.mk root.anchor (treePlace (root.segments ++ parts))).Fits :=
      h.fits_of_above_tree List.prefix_rfl
    have hexists := sees_exists? h.noLinks' hupTree (.inl hfitsTree.short)
    rw [if_pos hfitsTree, htree] at hexists
    exact hexists
  exact hagain.bind (hfiles'.bind (hsites'.bind (hthere.bind (sees_pure t' _))))

/-- What a generation for a project leaves, wherever it succeeds: the tree of the wrappers that are
planned for what is found. -/
theorem of_ofProject_eq_ok (hquiet : Quiet fetch) (hroot : IsRoot s.tree root)
    (h : ofProject settings root fetch s = .ok (some g) s') :
    ∃ found, Sees s.tree (survey settings root) (.ok found) ∧
      (∃ s₁ table s₂, s₁.tree = s.tree ∧ fetch s₁ = .ok table s₂ ∧
        Wrapper.plan found.1 (containerOf s.tree root) table = .ok g.wrappers) ∧
      s'.tree.get? (containerPlace s.tree root) = some (contents settings g.wrappers) := by
  rw [ofProject_eq] at h
  obtain ⟨found, s₁, hsurvey, h⟩ := exists_of_bind_eq_ok h
  obtain ⟨hseen, hs₁⟩ := (looks_survey settings root).of_eq_ok hsurvey
  split at h
  · cases h
  · obtain ⟨g', s₂, hrun, h⟩ := exists_of_bind_eq_ok h
    cases h
    obtain ⟨_, -, -, hsites⟩ := of_sees_survey hseen
    rw [← hs₁.tree_eq] at hroot hseen ⊢
    have htriple := triple_run settings hquiet (CallSite.no_slash_of_sees_scan hsites) hroot s₁ rfl
    rw [hrun] at htriple
    obtain ⟨hcontainer, ⟨table, s₃, hfetched, hplan⟩, hrenewed, -⟩ := htriple
    rw [hcontainer] at hplan
    exact ⟨found, hseen, ⟨s₁, table, s₃, rfl, hfetched, hplan⟩, hrenewed⟩

/-- A generation for a project that succeeded can be repeated at once: it gives the same, and no file is
other than before. -/
theorem ofProject_again {found : Option Generation} (hproject : Repeatable settings root s.tree)
    (hfetch : IsFetch root fetch) (hcalm : Calm s)
    (h : ofProject settings root fetch s = .ok found s') :
    ∃ s'', ofProject settings root fetch s' = .ok found s'' ∧ s''.tree = s'.tree := by
  rw [ofProject_eq] at h ⊢
  obtain ⟨seen, s₁, hsurvey, h⟩ := exists_of_bind_eq_ok h
  obtain ⟨hseen, hs₁⟩ := (looks_survey settings root).of_eq_ok hsurvey
  split at h
  · -- Nothing was done, so all is seen as before.
    rename_i hnothing
    obtain ⟨hdone, hs'⟩ := ((looks_note (nothingNote settings)).bind fun _ => looks_pure none).of_eq_ok h
    obtain ⟨s₂, hs₂, hafter₂⟩ := hseen.exists_eq_ok (hs'.tree_eq.trans hs₁.tree_eq)
    obtain ⟨s₃, hs₃, hafter₃⟩ := hdone.exists_eq_ok (hafter₂.tree_eq.trans hs₁.tree_eq.symm)
    rw [bind_of_eq_ok hs₂, if_pos hnothing]
    exact ⟨s₃, hs₃, hafter₃.tree_eq.trans hs'.tree_eq.symm⟩
  · obtain ⟨g, s₂, hrun, h⟩ := exists_of_bind_eq_ok h
    cases h
    obtain ⟨_, -, -, hsites⟩ := of_sees_survey hseen
    rw [← hs₁.tree_eq] at hproject hseen
    obtain ⟨hfails, ⟨parts, -, hpath, hregenerated, hfits⟩, hagain⟩ := run_again hproject hfetch
      (hs₁.calm hcalm) (CallSite.no_slash_of_sees_scan hsites) hrun
    obtain ⟨s₃, hs₃, hafter⟩ :=
      (hproject.sees_survey_again hregenerated hpath hfits hseen).exists_eq_ok rfl
    have hcalm₃ : Calm s₃ := fun before c => by
      rw [hafter.fails_eq, hfails, hs₁.fails_eq, hcalm before c]
    obtain ⟨s₄, hs₄, htree⟩ := hagain s₃ hafter.tree_eq hcalm₃ hafter.aliases_eq
    rw [bind_of_eq_ok hs₃, if_neg (by simp)]
    exact ⟨s₄, bind_of_eq_ok hs₄, htree⟩

/-- A project with one page, in which a call is found. -/
theorem ofProject_again_of_page :
    let root : Path := ⟨.root, ["p"]⟩
    let page := "import \x7b cronStart \x7d from \"workflow-cron-start\"\ncronStart(job, [])\n"
    let s : SessionState := { tree := FileTree.empty.set (.ofText page) ["p", "app", "page.ts"] }
    Repeatable {} root s.tree ∧ IsFetch root (AliasCache.fetch root) ∧ Calm s ∧
      ∃ g s', (ofProject {} root (AliasCache.fetch root) : Session _) s = .ok (some g) s' ∧
        ∃ s'', (ofProject {} root (AliasCache.fetch root) : Session _) s' = .ok (some g) s'' ∧
          s''.tree = s'.tree := by
  intro root page s
  have hold : Staging.NoOldTrees (treePath root.anchor ["p", "app"])
      (s.tree.entriesAt ["p", "app"]) := by
    intro n u hn hu
    obtain ⟨before, after, hentries, -⟩ := List.lookup_eq_some_iff.mp hu
    have hpage : s.tree.entriesAt ["p", "app"] = [("page.ts", .ofText page)] := rfl
    have hmem : (n, u) ∈ s.tree.entriesAt ["p", "app"] := by simp [hentries]
    rw [hpage, List.mem_singleton] at hmem
    cases hmem
    rfl
  have hextends : ExtendsOutside s.tree root := by
    have hnone : AliasConfig.effective? s.tree root = none := by decide +kernel
    intro config hconfig
    rw [hnone] at hconfig
    cases hconfig
  have hproject : Repeatable {} root s.tree :=
    { noLinks := noLinks_empty.set (noLinks_ofText page) _
      proper := proper_empty.set (proper_ofText page) (by decide)
      isAbsolute := rfl
      isName := by decide
      scanDirs := by decide +kernel
      onlyNew := ⟨hold, by decide +kernel⟩
      outside := hextends }
  have hfetch : IsFetch root (AliasCache.fetch root) := .inr rfl
  have hcalm : Calm s := fun _ _ => rfl
  have hpasses : Passes (ofProject {} root (AliasCache.fetch root)) s fun found _ => found.isSome := by
    decide +kernel
  obtain ⟨found, s', hrun, hfound⟩ := exists_eq_ok_of_passes hpasses
  obtain ⟨g, rfl⟩ := Option.isSome_iff_exists.mp hfound
  exact ⟨hproject, hfetch, hcalm, g, s', hrun, ofProject_again hproject hfetch hcalm hrun⟩

theorem exists_refused (h : Passes (ofProject settings root fetch) s fun found s' =>
      found.isSome && !Passes (ofProject settings root fetch) s' fun _ _ => true) :
    ∃ g s', ofProject settings root fetch s = .ok (some g) s' ∧
      ∃ e s'', ofProject settings root fetch s' = .error e s'' := by
  obtain ⟨found, s', hrun, hfound⟩ := exists_eq_ok_of_passes h
  rw [Bool.and_eq_true, Bool.not_eq_true'] at hfound
  obtain ⟨g, rfl⟩ := Option.isSome_iff_exists.mp hfound.1
  exact ⟨g, s', hrun, exists_eq_error_of_not_passes hfound.2⟩

/-- A project whose aliases are configured in the generated tree, which the first generation takes away;
and two in which a name that is too long stands in a directory that the first generation makes, as that of
a directory to scan or as what the aliases extend. -/
theorem ofProject_differs_again :
    let root : Path := ⟨.root, ["p"]⟩
    let page : FileTree := .ofText ("import \x7b cronStart \x7d from \"workflow-cron-start\"\n" ++
      "import \x7b job \x7d from \"../src/job\"\ncronStart(job, [])\n")
    let base := "\x7b\"compilerOptions\": \x7b\"paths\": \x7b\"@/*\": [\"./src/*\"]\x7d\x7d\x7d"
    let configured : SessionState := { tree := .dir [("p", .dir [
      ("tsconfig.json", .ofText "\x7b\"extends\": \"./app/cron-wrappers/base.json\"\x7d"),
      ("app", .dir [("page.ts", page), ("cron-wrappers", .dir [("base.json", .ofText base)])])])] }
    let plain : SessionState := { tree := .dir [("p", .dir [("lib", .dir [("page.ts", page)])])] }
    let long := List.replicate 64 '😀'
    let far : Settings := { scanDirs := ["lib", "src/app/" ++ String.ofList long] }
    let near : Settings := { scanDirs := ["lib"] }
    let extended : SessionState := { tree := .dir [("p", .dir [("lib", .dir [("page.ts", page)]),
      ("tsconfig.json", .file (Text.encodeUtf8
        ("\x7b\"extends\": \"./src/app/".toList ++ long ++ "\"\x7d".toList)))])] }
    (∃ g s', (ofProject {} root (AliasTable.load root) : Session _) configured = .ok (some g) s' ∧
      ¬ ∃ g' s'', (ofProject {} root (AliasTable.load root) : Session _) s' = .ok (some g') s'' ∧
        s''.tree = s'.tree) ∧
    (∃ g s', (ofProject far root (AliasTable.load root) : Session _) plain = .ok (some g) s' ∧
      ∃ e s'', (ofProject far root (AliasTable.load root) : Session _) s' = .error e s'') ∧
    ∃ g s', (ofProject near root (AliasTable.load root) : Session _) extended = .ok (some g) s' ∧
      ∃ e s'', (ofProject near root (AliasTable.load root) : Session _) s' = .error e s'' := by
  intro root page base configured plain long far near extended
  constructor
  · let site : CallSite := ⟨"job", "../src/job", ⟨.root, ["p", "app", "page.ts"]⟩, none⟩
    let container : Path := ⟨.root, ["p", "app", "cron-wrappers"]⟩
    let wrapper (origin : String) : Wrapper :=
      ⟨"job", "__cron__job", "trigger-job", container / "trigger-job/workflow.ts", origin, none⟩
    have hpasses : Passes (ofProject {} root (AliasTable.load root)) configured fun found s' =>
        found.map (·.wrappers) = some [wrapper "@/job"] && containerOf s'.tree root = container &&
        containerPlace s'.tree root = container.segments &&
        Passes (survey {} root) s' (fun seen _ => seen = ([site], true)) &&
        Passes (AliasTable.load root) s' fun table _ => table = ⟨root, []⟩ := by
      decide +kernel
    obtain ⟨found, s', hrun, hfound⟩ := exists_eq_ok_of_passes hpasses
    simp only [Bool.and_eq_true, decide_eq_true_eq] at hfound
    obtain ⟨⟨⟨⟨hwrappers, hcontainer⟩, hplace⟩, hsurvey⟩, hload⟩ := hfound
    obtain ⟨g, rfl, hg⟩ := Option.map_eq_some_iff.mp hwrappers
    refine ⟨g, s', hrun, ?_⟩
    rintro ⟨g', s'', hagain, htree⟩
    have hquiet := AliasTable.quiet_load root
    have hroot : ∀ t, IsRoot t root := fun t => .inl (by decide)
    obtain ⟨-, -, -, hfirst⟩ := of_ofProject_eq_ok hquiet (hroot _) hrun
    obtain ⟨seen, hseen, ⟨s₁, table, s₂, hs₁, hfetched, hplan⟩, hsecond⟩ :=
      of_ofProject_eq_ok hquiet (hroot _) hagain
    obtain ⟨seen', s₃, hs₃, hseen'⟩ := exists_eq_ok_of_passes hsurvey
    obtain ⟨table', s₄, hs₄, htable'⟩ := exists_eq_ok_of_passes hload
    rw [decide_eq_true_eq] at hseen' htable'
    cases hseen.unique ((looks_survey {} root).of_eq_ok hs₃).1
    have hsees := ((AliasTable.looks_load root).of_eq_ok hfetched).1
    rw [hs₁] at hsees
    cases hsees.unique ((AliasTable.looks_load root).of_eq_ok hs₄).1
    have hnow : Wrapper.plan [site] container ⟨root, []⟩ = .ok [wrapper "../../../src/job"] := by
      decide +kernel
    rw [hseen', htable', hcontainer, hnow, Except.ok.injEq] at hplan
    have hplace' : containerPlace configured.tree root = container.segments := by decide +kernel
    rw [hplace', hg] at hfirst
    rw [hplace, htree, hfirst, ← hplan, Option.some.injEq] at hsecond
    have hmodule : ∀ origin, (contents {} [wrapper origin]).get? [Layout.triggerDir "job",
        Layout.moduleFile Layout.schedulerModule] =
          some (.ofText ((wrapper origin).schedulerText {})) := by
      intro origin
      have hplaced : (wrapper origin).IsPlaced := ⟨rfl, rfl, (by decide : '/' ∉ "job".toList)⟩
      exact get?_contents_module {} (by simpa using hplaced : ∀ w ∈ [wrapper origin], w.IsPlaced) (by simp)
        List.mem_cons_self
    have htext := hmodule "@/job"
    rw [hsecond, hmodule] at htext
    rw [Option.some.injEq, FileTree.ofText_inj] at htext
    exact absurd htext (by decide +kernel)
  · have hfar : Passes (ofProject far root (AliasTable.load root)) plain fun found s' =>
        found.isSome &&
          !Passes (ofProject far root (AliasTable.load root)) s' fun _ _ => true := by
      decide +kernel
    have hnear : Passes (ofProject near root (AliasTable.load root)) extended fun found s' =>
        found.isSome &&
          !Passes (ofProject near root (AliasTable.load root)) s' fun _ _ => true := by
      decide +kernel
    exact ⟨exists_refused hfar, exists_refused hnear⟩

end Generation

end CronWrap
