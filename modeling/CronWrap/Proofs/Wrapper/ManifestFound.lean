import CronWrap.Proofs.Wrapper.Again
import CronWrap.Proofs.Wrapper.Landing
import CronWrap.Proofs.Wrapper.ManifestText

/-! The manifest that a generation wrote is found again. -/
namespace CronWrap

open FileTree Session Workspace

namespace Session

/-- What is caught is thrown again. -/
theorem eq_ok_of_tryCatch {α : Type} {x : Session α} {h : Failure → Session α} {s s' : SessionState}
    {a : α} (hx : tryCatch x h s = .ok a s') (hh : ∀ e s a' s', h e s ≠ .ok a' s') :
    x s = .ok a s' := by
  change EStateM.tryCatch x h s = _ at hx
  unfold EStateM.tryCatch at hx
  cases hxs : x s with
  | ok b s₁ =>
    rw [hxs] at hx
    exact hx
  | error e s₁ =>
    rw [hxs] at hx
    exact absurd hx (hh e _ a s')

/-- A file is written only if its path is not too long. -/
theorem size_of_write {p : Path} {content : Text.Bytes} {s s' : SessionState}
    (h : Session.write p content s = .ok () s') : p.toString.utf8ByteSize ≤ maxPath := by
  have htriple := triple_write p content s.tree s.failed s ⟨rfl, rfl⟩
  rw [h] at htriple
  obtain ⟨place, found, hfind, -⟩ := htriple
  by_contra hlong
  rw [FileTree.find, if_pos (by omega)] at hfind
  cases hfind

end Session

namespace Manifest

theorem lookup_map_pair {α β : Type} (key : α → String) (value : α → β) (l : List α) (k : String) :
    (l.map fun a => (key a, value a)).lookup k = (l.find? (key · = k)).map value := by
  induction l with
  | nil => rfl
  | cons a l ih =>
    rw [List.map_cons, List.lookup_cons, List.find?_cons, ih]
    by_cases h : key a = k
    · simp [h]
    · simp [h, beq_eq_false_iff_ne.2 (Ne.symm h)]

theorem nodup_ofWrappers (ws : List Wrapper) : ((ofWrappers ws).map (·.1)).Nodup :=
  nodup_collectFields _

/-- Each function has the last of its entries. -/
theorem lookup_ofWrappers (ws : List Wrapper) (f : String) :
    (ofWrappers ws).sorted.lookup f =
      (ws.reverse.find? (·.functionName = f)).map fun w => ⟨w.name, w.directory⟩ := by
  rw [lookup_sorted (nodup_ofWrappers ws), ofWrappers, lookup_collectFields, ← List.map_reverse,
    lookup_map_pair]

theorem mem_keys_ofWrappers (ws : List Wrapper) (f : String) :
    f ∈ (ofWrappers ws).sorted.map (·.1) ↔ f ∈ ws.map (·.functionName) := by
  rw [← not_iff_not, ← Wrapper.lookup_eq_none_iff_keys, lookup_ofWrappers]
  simp

/-- Where no name occurs twice, each wrapper is the last of its name. -/
theorem lookup_ofWrappers_of_mem {ws : List Wrapper} (h : (ws.map (·.functionName)).Nodup)
    {w : Wrapper} (hw : w ∈ ws) :
    (ofWrappers ws).sorted.lookup w.functionName = some ⟨w.name, w.directory⟩ := by
  have hkeys : ((ws.map fun w => (w.functionName, ManifestEntry.mk w.name w.directory)).map
      (·.1)).Nodup := by
    rw [List.map_map]
    exact h
  rw [lookup_sorted (nodup_ofWrappers ws), ofWrappers, collectFields_of_nodup hkeys]
  exact (mem_iff_lookup_of_nodup hkeys).mp (List.mem_map_of_mem hw)

end Manifest

namespace Generation

variable {t t' : FileTree} {root : Path} {settings : Settings} {ws : List Wrapper}
  {anchor : Anchor} {dir : List String}

/-! ## The two places for a generated tree -/

def srcApp (root : Path) : Path := ⟨root.anchor, root.segments ++ ["src", "app"]⟩

def app (root : Path) : Path := ⟨root.anchor, root.segments ++ ["app"]⟩

/-- The first of the two that is there is for the generated tree, or else the first. -/
theorem findContainer_eq (root : Path) : (findContainer root : Session _) = (do
    let found ← isDir (srcApp root)
    if found then return treePath root.anchor (root.segments ++ ["src", "app"])
    let found ← isDir (app root)
    return treePath root.anchor (root.segments ++ if found then ["app"] else ["src", "app"])) := by
  have hsrc := containerIn_eq root ["src", "app"]
  have happ := containerIn_eq root ["app"]
  have hnone : Layout.containerIn root none = treePath root.anchor (root.segments ++ ["src", "app"]) :=
    hsrc
  rw [findContainer, Layout.routableDirs, Layout.routableRoots]
  simp only [List.map_cons, List.map_nil, List.findM?, bind_assoc]
  refine bind_congr fun found => ?_
  cases found with
  | true => simp [hsrc]
  | false =>
    simp only [Bool.false_eq_true, if_false, bind_assoc]
    refine bind_congr fun found => ?_
    cases found <;> simp [happ, hnone]

/-- How the place was found. -/
theorem cases_findContainer {c : Path} (h : Sees t (findContainer root : Session _) (.ok c)) :
    ∃ found, Sees t (isDir (srcApp root) : Session _) (.ok found) ∧
      (found = true ∧ c = treePath root.anchor (root.segments ++ ["src", "app"]) ∨
        found = false ∧ ∃ found, Sees t (isDir (app root) : Session _) (.ok found) ∧
          c = treePath root.anchor (root.segments ++ if found then ["app"] else ["src", "app"])) := by
  rw [findContainer_eq] at h
  obtain ⟨found, hsrc, h⟩ := h.of_bind_looks (looks_isDir _) fun found => by
    cases found with
    | true => exact looks_pure _
    | false => exact (looks_isDir _).bind fun _ => looks_pure _
  refine ⟨found, hsrc, ?_⟩
  cases found with
  | true => exact .inl ⟨rfl, Except.ok.inj (h.unique (sees_pure t _))⟩
  | false =>
    obtain ⟨found, happ, h⟩ := h.of_bind_looks (looks_isDir _) fun _ => looks_pure _
    exact .inr ⟨rfl, found, happ, Except.ok.inj (h.unique (sees_pure t _))⟩

theorem sees_findContainer_of_srcApp (h : t.hasDir (srcApp root)) :
    Sees t (findContainer root : Session _)
      (.ok (treePath root.anchor (root.segments ++ ["src", "app"]))) := by
  rw [findContainer_eq]
  exact (sees_isDir_of_hasDir h).bind (sees_pure t _)

theorem sees_findContainer_of_app (h : Sees t (isDir (srcApp root) : Session _) (.ok false))
    (happ : t.hasDir (app root)) :
    Sees t (findContainer root : Session _) (.ok (treePath root.anchor (root.segments ++ ["app"]))) := by
  rw [findContainer_eq]
  exact h.bind ((sees_isDir_of_hasDir happ).bind (sees_pure t _))

/-! ## The place is found again -/

section Again

variable {ds : List (String × FileTree)}

theorem hasDir_of_landed {parts : List String}
    (h : Staging.Landed t t' (treePath root.anchor (root.segments ++ parts)) (.dir ds))
    {found : Bool} (hseen : Sees t (isDir (Path.mk root.anchor (root.segments ++ parts)) : Session _)
      (.ok found)) : t'.hasDir ⟨root.anchor, root.segments ++ parts⟩ := by
  obtain ⟨p, hreach, hdir, -⟩ := h.reaches
  obtain ⟨-, u, hfind⟩ := find?_of_sees_isDir hseen
  exact hreach.hasDir hdir (size_of_find? hfind)

/-- The place of the new tree is that which is found next, if `src/app` does not come to be a directory
by that. -/
theorem sees_findContainer_again {c : Path} (h : Sees t (findContainer root : Session _) (.ok c))
    (hlanded : Staging.Landed t t' c (.dir ds))
    (hsteady : t.hasDir (app root) → Steady t t' (isDir (srcApp root) : Session _)) :
    Sees t' (findContainer root : Session _) (.ok c) := by
  obtain ⟨found, hsrc, ⟨-, rfl⟩ | ⟨rfl, found, happ, rfl⟩⟩ := cases_findContainer h
  · exact sees_findContainer_of_srcApp (hasDir_of_landed hlanded hsrc)
  · cases found with
    | true =>
      obtain ⟨hdir, -⟩ := find?_of_sees_isDir happ
      exact sees_findContainer_of_app ((hsteady hdir.symm).sees hsrc) (hasDir_of_landed hlanded happ)
    | false => exact sees_findContainer_of_srcApp (hasDir_of_landed hlanded hsrc)

/-- If neither `src` nor `src/app` is a link, a generated tree in `app` does not change whether there
is a directory `src/app`. -/
theorem steady_srcApp
    (hlanded : Staging.Landed t t' (treePath root.anchor (root.segments ++ ["app"])) (.dir ds))
    (hseen : Sees t (isDir (srcApp root) : Session _) (.ok false)) (happ : t.hasDir (app root))
    (hsrc : t.hasLink ⟨root.anchor, root.segments ++ ["src"]⟩ = false)
    (hlink : t.hasLink (srcApp root) = false) :
    Steady t t' (isDir (srcApp root) : Session _) := by
  obtain ⟨q, ⟨hq, hdir⟩, ⟨hq', hdir'⟩, hsame⟩ := hlanded.beside (by decide) happ
  obtain ⟨hno, u, hfind⟩ := find?_of_sees_isDir hseen
  have hsize : (srcApp root).toString.utf8ByteSize ≤ maxPath := size_of_find? hfind
  have hsize' : (Path.mk root.anchor (root.segments ++ ["src"])).toString.utf8ByteSize ≤ maxPath := by
    have hne : ["app"] ≠ [] := by simp
    have hle := Path.utf8ByteSize_toString_le root.anchor (root.segments ++ ["src"]) hne
    rw [List.append_assoc] at hle
    have hmax : 1 ≤ maxPath := by decide
    exact hle.trans (max_le hmax hsize)
  have hentries : ∀ n ∈ ["src", "app"], n ≠ Layout.containerName ∧
      Staging.isRetired ⟨root.anchor, root.segments ++ ["app"] ++ [Layout.containerName]⟩ n = false :=
    fun n hn => ⟨(by decide : ∀ n ∈ ["src", "app"], n ≠ Layout.containerName) n hn,
      Staging.not_isRetired_of_visible _
        ((by decide : ∀ n ∈ ["src", "app"], n.toList.head? ≠ some '.') n hn)⟩
  have hsrcStraight : Straight t false q ["src"] := (straight_nil t true q).concat "src"
  have happStraight : Straight t false q ["src", "app"] :=
    (hsrcStraight.followed (hq.target?_eq_none hsrcStraight (by simp) (by decide) (by decide)
      hsize' hsrc)).concat "app"
  have hstraight := happStraight.followed
    (hq.target?_eq_none happStraight (by simp) (by decide) (by decide) hsize hlink)
  have hstraight' : Straight t' true q ["src", "app"] :=
    hstraight.congr fun r hr hne => hsame r hne fun n hn => hentries n (hr.subset hn)
  have hlook : t.find? true (srcApp root) = _ :=
    hq.find? hstraight (.inr rfl) (by decide) (by decide) hsize
  have hlook' : t'.find? true (srcApp root) = _ :=
    hq'.find? hstraight' (.inr rfl) (by decide) (by decide) hsize
  have hend : t'.get? (q ++ ["src", "app"]) = t.get? (q ++ ["src", "app"]) := by
    refine (hsame _ (by simp) hentries).resolve_right fun h => ?_
    obtain ⟨es, hes⟩ := isDirAt_iff.mp h.1
    rw [hasDir, hlook, hes] at hno
    cases hno
  have hseen' := sees_isDir_of_find? hlook'
  have hkind : t'.hasDir (srcApp root) = t.hasDir (srcApp root) := by
    rw [hasDir, hasDir, hlook, hlook', hend]
  rw [hkind, ← hno] at hseen'
  exact ⟨_, hseen, hseen'⟩

end Again

/-! ## The manifest in its place -/

/-- In a generated tree that was made the path of the manifest is not too long: it is shorter than the
one to which the manifest was written. -/
theorem size_of_replace {s s' : SessionState}
    (h : (Staging.replace (treePath anchor dir) (writeTree settings ws) : Session Unit) s =
      .ok () s') :
    (Path.mk anchor (dir ++ [Layout.containerName, Layout.manifestFile])).toString.utf8ByteSize ≤
      maxPath := by
  have hslash : '/' ∉ (treePath anchor dir).name.toList := by
    rw [name_treePath]
    decide
  have hparent : (treePath anchor dir).parent = ⟨anchor, dir⟩ := Staging.parent_entry _ _ _
  unfold Staging.replace at h
  rw [hparent] at h
  obtain ⟨_, s₁, -, h⟩ := exists_of_bind_eq_ok h
  obtain ⟨_, s₂, -, h⟩ := exists_of_bind_eq_ok h
  obtain ⟨staging, s₃, hunused, h⟩ := exists_of_bind_eq_ok h
  obtain ⟨_, s₄, -, h⟩ := exists_of_bind_eq_ok h
  have h := eq_ok_of_tryCatch h fun e => bind_throw_ne_ok _ e
  obtain ⟨_, s₅, h, -⟩ := exists_of_bind_eq_ok h
  obtain ⟨taken, s₆, -, hunused⟩ := exists_of_bind_eq_ok (f := fun taken => pure
    (Path.mk anchor dir / freshName (Staging.stagingHead (treePath anchor dir)) taken)) hunused
  -- The manifest was written there.
  unfold writeTree at h
  obtain ⟨_, s₇, -, h⟩ := exists_of_bind_eq_ok h
  obtain ⟨_, s₈, -, h⟩ := exists_of_bind_eq_ok h
  obtain ⟨_, s₉, h, -⟩ := exists_of_bind_eq_ok h
  cases hunused
  have hsize := size_of_write h
  have hst := utf8ByteSize_freshName anchor dir taken
  have hname : Layout.containerName.utf8ByteSize = 13 := rfl
  rw [Path.div_of_isSegment _ (Staging.isSegment_stagingName hslash _),
    Path.div_of_isSegment _ (by decide), List.append_assoc] at hsize
  exact (Path.utf8ByteSize_toString_rename anchor dir [Layout.manifestFile] (by omega)).trans hsize

theorem get?_contents_manifest (settings : Settings) (hws : ∀ w ∈ ws, w.IsPlaced) :
    (contents settings ws).get? [Layout.manifestFile] =
      some (.ofText (Manifest.ofWrappers ws).text) := by
  rw [get?_cons, contents, entries_dir, List.lookup_append,
    lookup_start settings hws _ (by decide) (by decide)]
  rfl

theorem sees_read_manifest
    (h : Staging.Landed t t' (treePath anchor dir) (contents settings ws)) (hws : ∀ w ∈ ws, w.IsPlaced)
    (hsize : (Path.mk anchor (dir ++ [Layout.containerName, Layout.manifestFile])).toString.utf8ByteSize ≤
      maxPath) :
    Sees t' (Workspace.read (treePath anchor dir / Layout.manifestFile) : Session _)
      (.ok (Text.encodeUtf8 (Manifest.ofWrappers ws).text.toList)) := by
  obtain ⟨p, hreach, hdir, hcontents⟩ := h.reaches
  have hfile : t'.get? (p ++ [Layout.containerName, Layout.manifestFile]) =
      some (.ofText (Manifest.ofWrappers ws).text) := by
    have happ : p ++ [Layout.containerName, Layout.manifestFile] =
        p ++ [Layout.containerName] ++ [Layout.manifestFile] := by simp
    rw [happ, get?_append, hcontents]
    exact get?_contents_manifest settings hws
  have hstraight : Straight t' true p [Layout.containerName, Layout.manifestFile] := by
    have htree : Straight t' true p [Layout.containerName] :=
      ((straight_nil t' true p).concat Layout.containerName).followed fun u hu => by
        cases hcontents.symm.trans hu
        rfl
    refine (htree.concat Layout.manifestFile).followed fun u hu => ?_
    cases hfile.symm.trans hu
    rfl
  have hfind : t'.find? true ⟨anchor, dir ++ [Layout.containerName, Layout.manifestFile]⟩ = _ :=
    hreach.find? hstraight (.inr rfl) (by decide) (by decide) hsize
  rw [hfile] at hfind
  obtain ⟨place, hfind⟩ := exists_find_of_find? hfind
  have hpath : treePath anchor dir / Layout.manifestFile =
      ⟨anchor, dir ++ [Layout.containerName, Layout.manifestFile]⟩ := by
    rw [treePath, Path.div_of_isSegment _ (by decide), List.append_assoc]
    rfl
  rw [hpath]
  exact sees_read_of_find hfind

theorem sees_load (h : Sees t' (findContainer root : Session _) (.ok (treePath anchor dir)))
    (hread : Sees t' (Workspace.read (treePath anchor dir / Layout.manifestFile) : Session _)
      (.ok (Text.encodeUtf8 (Manifest.ofWrappers ws).text.toList))) :
    Sees t' (Manifest.load root : Session _) (.ok (some (Manifest.ofWrappers ws).sorted)) := by
  have hm := Manifest.ofBytes?_text (m := Manifest.ofWrappers ws) (Manifest.nodup_ofWrappers ws)
  have hsome : Sees t' (some <$> Workspace.read (treePath anchor dir / Layout.manifestFile) :
      Session (Option Text.Bytes))
      (.ok (some (Text.encodeUtf8 (Manifest.ofWrappers ws).text.toList))) := by
    rw [map_eq_pure_bind]
    exact hread.bind (sees_pure t' _)
  have hpath : Sees t' (Manifest.path root : Session _)
      (.ok (treePath anchor dir / Layout.manifestFile)) := h.bind (sees_pure t' _)
  rw [← hm]
  exact hpath.bind (hsome.unhandled.bind (sees_pure t' _))

/-- A run that comes to an end has put the tree of the planned wrappers where the container is found,
and its manifest has a path that is not too long. -/
theorem exists_landed_of_run {settings : Settings} {root : Path} {fetch : Session AliasTable}
    {sites : List CallSite} (hquiet : Quiet fetch) (hsites : ∀ c ∈ sites, '/' ∉ c.functionName.toList)
    {s s' : SessionState} {g : Generation} (hrun : run settings root fetch sites s = .ok g s') :
    ∃ parts, Sees s.tree (findContainer root : Session _)
        (.ok (treePath root.anchor (root.segments ++ parts))) ∧
      Staging.Landed s.tree s'.tree (treePath root.anchor (root.segments ++ parts))
        (contents settings g.wrappers) ∧
      (∀ w ∈ g.wrappers, w.IsPlaced) ∧
      (Path.mk root.anchor (root.segments ++ parts ++
        [Layout.containerName, Layout.manifestFile])).toString.utf8ByteSize ≤ maxPath ∧
      ∃ s₁ table s₂, s₁.tree = s.tree ∧ fetch s₁ = .ok table s₂ ∧
        Wrapper.plan sites g.container table = .ok g.wrappers := by
  obtain ⟨container, s₁, table, s₂, ws, hcontainer, hfetched, hplan, hrenew⟩ :=
    exists_of_run_eq_ok hrun
  obtain ⟨hseen, hs₁⟩ := (looks_findContainer root).of_eq_ok hcontainer
  obtain ⟨hws, -⟩ := isPlaced_plan hsites hplan
  have htree : s₂.tree = s.tree := by
    have hfetch := triple_fetch hquiet s₁ s₁ rfl
    rw [hfetched] at hfetch
    rw [hfetch.2, hs₁.tree_eq]
  obtain ⟨_, s₃, hreplace, hend⟩ := exists_of_bind_eq_ok hrenew
  obtain ⟨parts, -, hpath⟩ := exists_parts s.tree root
  obtain rfl := eq_containerOf_of_sees hseen
  have htreePath : containerOf s.tree root = treePath root.anchor (root.segments ++ parts) := hpath
  rw [htreePath] at hseen hreplace
  have hafter : g = ⟨containerOf s.tree root, ws⟩ ∧ s'.tree = s₃.tree := by
    obtain ⟨_, s₄, hnote, hpure⟩ := exists_of_bind_eq_ok hend
    cases hnote
    cases hpure
    exact ⟨rfl, rfl⟩
  obtain ⟨rfl, htree'⟩ := hafter
  have hlanded := Staging.landed_of_replace (builds_writeTree hws) (by decide) (by decide) rfl hreplace
  rw [htree, ← htree'] at hlanded
  exact ⟨parts, hseen, hlanded, hws, size_of_replace hreplace, s₁, table, s₂, hs₁.tree_eq, hfetched,
    hplan⟩

/-- After a run the manifest is found that the run wrote, if `src/app` is not made a directory by what
is written into `app`. This does not happen unless one of `src` and `src/app` is a link. In any manifest
that is read back each function has the last of its entries. -/
theorem load_of_run (settings : Settings) {root : Path} {fetch : Session AliasTable}
    {sites : List CallSite} (hquiet : Quiet fetch) (hsites : ∀ c ∈ sites, '/' ∉ c.functionName.toList)
    {s s' : SessionState} {g : Generation} (hrun : run settings root fetch sites s = .ok g s') :
    (s.tree.hasDir (app root) → s.tree.hasLink ⟨root.anchor, root.segments ++ ["src"]⟩ = false →
      s.tree.hasLink (srcApp root) = false →
      Steady s.tree s'.tree (isDir (srcApp root) : Session _)) ∧
    ((s.tree.hasDir (app root) → Steady s.tree s'.tree (isDir (srcApp root) : Session _)) →
      ∃ m s'', (Manifest.load root : Session _) s' = .ok (some m) s'' ∧ (m.map (·.1)).Nodup ∧
        (∀ f, f ∈ m.map (·.1) ↔ f ∈ g.wrapperNames.map (·.1)) ∧
        (∃ s₁ table s₂, s₁.tree = s.tree ∧ fetch s₁ = .ok table s₂ ∧
          Wrapper.plan sites g.container table = .ok g.wrappers) ∧
        ∀ w ∈ g.wrappers, m.lookup w.functionName = some ⟨w.name, w.directory⟩) ∧
    ∀ ws, ∃ m, Manifest.ofBytes? (Text.encodeUtf8 (Manifest.ofWrappers ws).text.toList) = some m ∧
      (m.map (·.1)).Nodup ∧
      ∀ f, m.lookup f =
        (ws.reverse.find? (·.functionName = f)).map fun w => ⟨w.name, w.directory⟩ := by
  obtain ⟨parts, hseen, hlanded, hws, hsize, s₁, table, s₂, hs₁, hfetched, hplan⟩ :=
    exists_landed_of_run hquiet hsites hrun
  refine ⟨fun happ hsrc hlink => ?_, fun hsteady => ?_, fun ws => ?_⟩
  · obtain ⟨found, hfound, ⟨rfl, hc⟩ | ⟨rfl, found, hseenApp, hc⟩⟩ := cases_findContainer hseen
    · obtain rfl := List.append_cancel_left (treePath_inj hc)
      exact ⟨.ok true, hfound, sees_isDir_of_hasDir (hasDir_of_landed hlanded hfound)⟩
    · obtain ⟨rfl, -⟩ := find?_of_sees_isDir hseenApp
      rw [happ] at hc
      obtain rfl := List.append_cancel_left (treePath_inj hc)
      exact steady_srcApp hlanded hfound happ hsrc hlink
  · have hagain := sees_findContainer_again hseen hlanded hsteady
    have hload := sees_load hagain (sees_read_manifest hlanded hws hsize)
    obtain ⟨s'', hs'', -⟩ := hload.exists_eq_ok rfl
    refine ⟨_, s'', hs'', Manifest.nodup_sorted (Manifest.nodup_ofWrappers g.wrappers), fun f => ?_,
      ⟨s₁, table, s₂, hs₁, hfetched, hplan⟩, fun w hw => ?_⟩
    · rw [Manifest.mem_keys_ofWrappers, wrapperNames, List.map_map]
      rfl
    · exact Manifest.lookup_ofWrappers_of_mem (Wrapper.nodup_names_plan hplan) hw
  · exact ⟨_, Manifest.ofBytes?_text (Manifest.nodup_ofWrappers ws),
      Manifest.nodup_sorted (Manifest.nodup_ofWrappers ws), Manifest.lookup_ofWrappers ws⟩

/-- A run in a project in which `app` is there, and `src` without another. -/
theorem load_of_run_in_app :
    let root : Path := ⟨.root, ["p"]⟩
    let s : SessionState := { tree := .dir [("p", .dir [("app", .empty), ("src", .empty)])] }
    let fetch : Session AliasTable := AliasTable.load root
    let site : CallSite := ⟨"job", "./jobs", ⟨.root, ["p", "app", "page.ts"]⟩, none⟩
    ∃ g s', run {} root fetch [site] s = .ok g s' ∧
      g.wrappers.map (·.functionName) = ["job"] ∧
      ∃ m s'', (Manifest.load root : Session _) s' = .ok (some m) s'' ∧
        ∀ w ∈ g.wrappers, m.lookup w.functionName = some ⟨w.name, w.directory⟩ := by
  intro root s fetch site
  have hpasses : Passes (run {} root fetch [site]) s fun g _ =>
      g.wrappers.map (·.functionName) = ["job"] := by decide +kernel
  obtain ⟨g, s', hrun, hnames⟩ := exists_eq_ok_of_passes hpasses
  obtain ⟨hsteady, hload, -⟩ := load_of_run {} (AliasTable.quiet_load root) (by decide) hrun
  obtain ⟨m, s'', hm, -, -, -, hlookup⟩ :=
    hload fun happ => hsteady happ (by decide +kernel) (by decide +kernel)
  exact ⟨g, s', hrun, by simpa using hnames, m, s'', hm, hlookup⟩

/-- The generated tree in `app` makes a directory of `src/app`, which is a link to that tree. The
manifest is then looked for there. -/
theorem load_none_of_link_to_tree :
    let root : Path := ⟨.root, ["p"]⟩
    let s : SessionState := { tree := .dir [("p", .dir
      [("app", .empty), ("src", .dir [("app", .link "../app/cron-wrappers")])])] }
    let fetch : Session AliasTable := AliasTable.load root
    let site : CallSite := ⟨"job", "./jobs", ⟨.root, ["p", "app", "page.ts"]⟩, none⟩
    ∃ g s' s'', run {} root fetch [site] s = .ok g s' ∧ g.wrapperNames = [("job", "__cron__job")] ∧
      (Manifest.load root : Session _) s' = .ok none s'' := by
  intro root s fetch site
  have hpasses : Passes (run {} root fetch [site]) s fun g s' =>
      g.wrapperNames = [("job", "__cron__job")] &&
        Passes (Manifest.load root) s' fun found _ => found.isNone := by decide +kernel
  obtain ⟨g, s', hrun, htest⟩ := exists_eq_ok_of_passes hpasses
  rw [Bool.and_eq_true, decide_eq_true_eq] at htest
  obtain ⟨found, s'', hload, hnone⟩ := exists_eq_ok_of_passes htest.2
  rw [Option.isNone_iff_eq_none] at hnone
  subst hnone
  exact ⟨g, s', s'', hrun, htest.1, hload⟩

end Generation

end CronWrap
