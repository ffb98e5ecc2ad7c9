import CronWrap.Proofs.Wrapper.Contents
import CronWrap.Proofs.Wrapper.Rebuild

/-! The tree of a generation is written exactly if its paths fit. -/
namespace CronWrap.Generation

open FileTree Session Workspace

/-- The places of the files that belong to the wrappers. -/
def filePlaces (ws : List Wrapper) : List Place :=
  [Layout.gitignoreFile] ::
    ws.map (fun w => [w.directory, Layout.moduleFile Layout.schedulerModule]) ++
    [[Layout.manifestFile], [Layout.moduleFile Layout.discoveryModule]]

theorem noLinks_ofText (s : String) : NoLinks (.ofText s) := noLinks_file _

theorem lookup_entries {ds : List (String × FileTree)} {n : String} (h : ds.lookup n = none)
    (settings : Settings) {ws : List Wrapper} (hn : n ∉ ws.map (·.directory)) :
    (ds ++ ws.map (Wrapper.entry settings)).lookup n = none := by
  rw [List.lookup_append, h, Option.none_or, List.lookup_eq_none_iff]
  intro e he
  obtain ⟨w, hw, rfl⟩ := List.mem_map.mp he
  rw [bne_iff_ne]
  rintro rfl
  exact hn (List.mem_map_of_mem hw)

theorem noLinks_entry (settings : Settings) (w : Wrapper) : NoLinks (w.entry settings).2 :=
  noLinks_empty.append (noLinks_ofText (w.schedulerText settings)) _

theorem noLinks_entries {ds : List (String × FileTree)} (h : NoLinks (.dir ds))
    (settings : Settings) (ws : List Wrapper) :
    NoLinks (.dir (ds ++ ws.map (Wrapper.entry settings))) := by
  induction ws generalizing ds with
  | nil => simpa using h
  | cons w ws ih =>
    have hnext := ih (h.append (noLinks_entry settings w) w.directory)
    rw [List.append_assoc] at hnext
    exact hnext

section Exact

variable {t : FileTree} (anchor : Anchor) {dir : List String} {es ds : List (String × FileTree)}
  {x name : String} (ht : NoLinks t) (hes : NoLinks (.dir es)) (hup : ".." ∉ dir)
  (hx : es.lookup x = none) (hxup : x ≠ "..")

include ht hes hup hx hxup

theorem exact_writeText (hds : NoLinks (.dir ds)) (hname : Path.IsSegment name) (hne : name ≠ "..")
    (hnew : ds.lookup name = none) (text : String) :
    Exact (t.withEntries dir (es ++ [(x, .dir ds)]))
      (writeText (Path.mk anchor (dir ++ [x]) / name) text.toList)
      (Path.mk anchor (dir ++ x :: [name])).Fits ()
      (t.withEntries dir (es ++ [(x, .dir (ds ++ [(name, .ofText text)]))])) := by
  have hpath : Path.mk anchor (dir ++ [x]) / name = ⟨anchor, dir ++ x :: [name]⟩ := by
    rw [Path.div_of_isSegment _ hname, List.append_assoc]
    rfl
  have habsent : (FileTree.dir ds).get? [name] = none := by simp [hnew]
  rw [hpath, ← set_last hnew]
  exact exact_write_inside anchor ht hes hup hx hds (by simp) (by simp [Ne.symm hxup, Ne.symm hne]) rfl
    (by simp [isDirAt, habsent]) _

theorem exact_writeWrapper (hds : NoLinks (.dir ds)) {w : Wrapper} (hw : w.IsPlaced)
    (hnew : ds.lookup w.directory = none) (settings : Settings) :
    Exact (t.withEntries dir (es ++ [(x, .dir ds)]))
      (writeWrapper settings ⟨anchor, dir ++ [x]⟩ w)
      (Path.mk anchor
        (dir ++ x :: [w.directory, Layout.moduleFile Layout.schedulerModule])).Fits ()
      (t.withEntries dir (es ++ [(x, .dir (ds ++ [w.entry settings]))])) := by
  have hne : w.directory ≠ ".." := hw.ne (by decide)
  have hmodule : ".." ≠ Layout.moduleFile Layout.schedulerModule := by decide
  have hmake := exact_makeDir_inside anchor ht hes hup hx hds (by simp : [w.directory] ≠ [])
    (by simp [Ne.symm hxup, Ne.symm hne]) rfl (by simp [hnew])
  have hmade : ((FileTree.dir ds).set .empty [w.directory]).get? [w.directory] = some .empty :=
    get?_set_self _ _ _
  have hfree : ((FileTree.dir ds).set .empty [w.directory]).get?
      [w.directory, Layout.moduleFile Layout.schedulerModule] = none :=
    get?_set_append _ _ [w.directory] [Layout.moduleFile Layout.schedulerModule]
  have hwrite : Exact _ (writeText (Path.mk anchor (dir ++ x :: [w.directory,
      Layout.moduleFile Layout.schedulerModule])) (w.schedulerText settings).toList) _ () _ :=
    exact_write_inside anchor ht hes hup hx (hds.set noLinks_empty [w.directory])
      (by simp : [w.directory, Layout.moduleFile Layout.schedulerModule] ≠ [])
      (by simp [Ne.symm hxup, Ne.symm hne, hmodule]) (isDirAt_iff.mpr ⟨[], hmade⟩)
      (by rw [isDirAt, hfree]; rfl) _
  rw [← set_entry hnew, writeWrapper]
  simp only [hw.div_directory, hw.div_module]
  refine Exact.congr (hmake.bind fun _ => hwrite) ⟨fun h => h.2, fun h => ⟨?_, h⟩⟩
  have hmodule : (Path.mk anchor (dir ++ x :: [w.directory] ++
      [Layout.moduleFile Layout.schedulerModule])).Fits := by
    rw [List.append_assoc]
    exact h
  exact hmodule.above

theorem exact_writeWrappers (settings : Settings) {ws : List Wrapper} (hds : NoLinks (.dir ds))
    (hws : ∀ w ∈ ws, w.IsPlaced) (hnodup : (ws.map (·.directory)).Nodup)
    (hnew : ∀ w ∈ ws, ds.lookup w.directory = none) :
    Exact (t.withEntries dir (es ++ [(x, .dir ds)]))
      (ws.forM (writeWrapper settings ⟨anchor, dir ++ [x]⟩))
      (∀ w ∈ ws, (Path.mk anchor
        (dir ++ x :: [w.directory, Layout.moduleFile Layout.schedulerModule])).Fits) ()
      (t.withEntries dir (es ++ [(x, .dir (ds ++ ws.map (Wrapper.entry settings)))])) := by
  let tree (done : List Wrapper) : FileTree :=
    t.withEntries dir (es ++ [(x, .dir (ds ++ done.map (Wrapper.entry settings)))])
  have hround : ∀ done w rest, ws = done ++ w :: rest →
      Exact (tree done) (writeWrapper settings ⟨anchor, dir ++ [x]⟩ w)
        (Path.mk anchor
          (dir ++ x :: [w.directory, Layout.moduleFile Layout.schedulerModule])).Fits ()
        (tree (done ++ [w])) := by
    intro done w rest hall
    have hw : w ∈ ws := by simp [hall]
    have hother : w.directory ∉ done.map (·.directory) := by
      rw [hall, List.map_append, List.map_cons, List.nodup_append] at hnodup
      exact fun hmem => hnodup.2.2 _ hmem _ List.mem_cons_self rfl
    have h := exact_writeWrapper anchor ht hes hup hx hxup
      (noLinks_entries hds settings done) (hws w hw) (lookup_entries (hnew w hw) settings hother)
      settings
    rw [List.append_assoc] at h
    simp only [tree, List.map_append]
    exact h
  simpa [tree] using exact_forM ws hround

/-- The tree is written exactly if the paths of all its files fit. -/
theorem exact_writeTree (settings : Settings) {ws : List Wrapper} (hws : ∀ w ∈ ws, w.IsPlaced)
    (hnodup : (ws.map (·.directory)).Nodup) :
    Exact (t.withEntries dir (es ++ [(x, .empty)])) (writeTree settings ws ⟨anchor, dir ++ [x]⟩)
      (∀ r ∈ filePlaces ws, (Path.mk anchor (dir ++ x :: r)).Fits) ()
      (t.withEntries dir (es ++ [(x, contents settings ws)])) := by
  have hstart := exact_writeText anchor ht hes hup hx hxup noLinks_empty
    (by decide : Path.IsSegment Layout.gitignoreFile) (by decide) rfl Layout.gitignoreContent
  rw [List.nil_append] at hstart
  have hlinks : NoLinks (.dir [(Layout.gitignoreFile, .ofText Layout.gitignoreContent)]) :=
    noLinks_empty.append (noLinks_ofText _) _
  have hwrappers := exact_writeWrappers anchor ht hes hup hx hxup settings
    hlinks hws hnodup fun w hw => by
      have hne := (hws w hw).ne (s := Layout.gitignoreFile) (by decide)
      simp [List.lookup_cons, beq_eq_false_iff_ne.2 hne]
  have hlinks' := noLinks_entries hlinks settings ws
  have hfree := lookup_start settings hws Layout.manifestFile (by decide) (by decide)
  have hmanifest := exact_writeText anchor ht hes hup hx hxup hlinks'
    (by decide : Path.IsSegment Layout.manifestFile) (by decide) hfree (Manifest.ofWrappers ws).text
  have hfree' := lookup_start settings hws (Layout.moduleFile Layout.discoveryModule) (by decide)
    (by decide)
  have hdiscovery := exact_writeText anchor ht hes hup hx hxup
    (hlinks'.append (noLinks_ofText (Manifest.ofWrappers ws).text) Layout.manifestFile)
    (by decide : Path.IsSegment (Layout.moduleFile Layout.discoveryModule)) (by decide)
    ((lookup_append_of_ne (by decide) _ _).trans hfree') (Wrapper.discoveryText ws)
  have hcontents : contents settings ws = .dir ([(Layout.gitignoreFile,
      .ofText Layout.gitignoreContent)] ++ ws.map (Wrapper.entry settings) ++
      [(Layout.manifestFile, .ofText (Manifest.ofWrappers ws).text)] ++
      [(Layout.moduleFile Layout.discoveryModule, .ofText (Wrapper.discoveryText ws))]) := by
    simp [contents]
  rw [hcontents, writeTree]
  have hend := hmanifest.bind (f := fun _ => writeText _ _) fun _ => hdiscovery
  have hrest := hwrappers.bind (f := fun _ => writeText _ _ >>= fun _ => writeText _ _)
    fun _ => hend
  refine Exact.congr (hstart.bind fun _ => hrest) ?_
  simp only [filePlaces, List.cons_append, List.forall_mem_cons, List.forall_mem_append,
    List.forall_mem_map, List.not_mem_nil, false_implies, implies_true, and_true]

end Exact

end CronWrap.Generation
