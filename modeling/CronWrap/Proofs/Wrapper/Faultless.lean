import CronWrap.Proofs.Files.Failed
import CronWrap.Proofs.Wrapper.Replace

/-! What a replacement leaves, beside the new tree and elsewhere, when no operation fails. -/
namespace CronWrap.Staging

open FileTree Session Workspace

/-- The path of what has a name beside a directory. -/
def beside (target : Path) (n : String) : Path :=
  ⟨target.parent.anchor, target.parent.segments ++ [n]⟩

/-- Nothing failed but the removal of what has the name of an old tree and is no directory; `found`
tells what there was beside the target. -/
def Faultless (target : Path) (found : String → Option FileTree) (failed : List Change) : Prop :=
  ∀ c ∈ failed, ∃ n u, c = .remove (beside target n) ∧ found n = some u ∧ u.isDir = false

theorem hereditary_faultless (target : Path) (found : String → Option FileTree) :
    Hereditary (Faultless target found) :=
  fun _ _ hsub h c hc => h c (hsub hc)

theorem Faultless.isDir_eq_false {target : Path} {found : String → Option FileTree}
    {failed : List Change} (h : Faultless target found failed) {n : String}
    (hn : .remove (beside target n) ∈ failed) : ∃ u, found n = some u ∧ u.isDir = false := by
  obtain ⟨m, u, heq, hu, hdir⟩ := h _ hn
  have hm : n = m := by simpa [beside] using heq
  exact ⟨u, hm ▸ hu, hdir⟩

/-- What is left beside a directory when the old trees of these names are gone. -/
def without (names : List String) (found : String → Option FileTree) (n : String) :
    Option FileTree :=
  if n ∈ names ∧ (found n).any FileTree.isDir then none else found n

theorem without_of_not_isDir {names : List String} {found : String → Option FileTree} {n : String}
    (h : (found n).any FileTree.isDir = false) : without names found n = found n := by
  simp [without, h]

theorem without_same {names : List String} {found : String → Option FileTree} {n : String}
    {u v : FileTree} (hu : found n = some u) (hv : without names found n = some v) : u = v := by
  unfold without at hv
  split at hv
  · cases hv
  · exact Option.some.inj (hu.symm.trans hv)

/-- What is left beside a directory after a sweep. -/
def swept (target : Path) (found : String → Option FileTree) (n : String) : Option FileTree :=
  if isRetired target n ∧ (found n).any FileTree.isDir then none else found n

section Sweep

variable {b : FileTree} {p : Place} {es : List (String × FileTree)} {anchor : Anchor}
  {dir : List String} {c : String} {found : String → Option FileTree}

/-- The old trees of these names are gone from a directory. -/
def SweptOf (b : FileTree) (p : Place) (found : String → Option FileTree) (names : List String)
    (s : SessionState) : Prop :=
  ∃ fs : List (String × FileTree), (∀ n, fs.lookup n = without names found n) ∧
    Holds (b.withEntries p fs) 0 s

variable (hreach : Reaches (b.withEntries p es) dir p) (hfound : ∀ n, es.lookup n = found n)

include hreach hfound

theorem triple_sweep_one (names : List String) {x : String} (hx : x ≠ "..") :
    Triple (SweptOf b p found names) (ignoring (Session.removeTree ⟨anchor, dir ++ [x]⟩))
      (fun _ s => Faultless ⟨anchor, dir ++ [c]⟩ found s.failed →
        SweptOf b p found (names ++ [x]) s) fun _ => True := by
  refine triple_of_exists fun fs => triple_of_forall fun hfs => ?_
  have hsame : ∀ n u v, es.lookup n = some u → fs.lookup n = some v → u = v := by
    intro n u v hu hv
    rw [hfound] at hu
    rw [hfs] at hv
    exact without_same hu hv
  refine Triple.tryCatch (triple_removeTree_beside hreach hsame hx |>.weaken (fun _ h => h) ?_
    fun _ h => h) fun e => triple_pure _ ?_
  · rintro _ s ⟨⟨ds, hds⟩, hs⟩ -
    refine ⟨_, fun n => ?_, hs⟩
    rw [lookup_filter_ne, hfs]
    by_cases hn : n = x
    · subst hn
      have hdir : found n = some (.dir ds) := by
        rw [hfs] at hds
        unfold without at hds
        split at hds
        · cases hds
        · exact hds
      simp [without, hdir, FileTree.isDir]
    · simp [without, hn]
  · rintro s ⟨hs, hfailed⟩ hfaultless
    have hremove : Change.remove (beside ⟨anchor, dir ++ [c]⟩ x) ∈ s.failed := by
      rwa [beside, parent_entry]
    obtain ⟨u, hu, hdir⟩ := hfaultless.isDir_eq_false hremove
    refine ⟨fs, fun n => ?_, hs⟩
    rw [hfs]
    by_cases hn : n = x
    · rw [hn, without_of_not_isDir (by simp [hu, hdir]), without_of_not_isDir (by simp [hu, hdir])]
    · simp [without, hn]

variable (anchor c) in
theorem triple_sweep_all (names done : List String) (hnames : ∀ x ∈ names, x ≠ "..") :
    Triple (fun s => Faultless ⟨anchor, dir ++ [c]⟩ found s.failed → SweptOf b p found done s)
      (names.forM fun x => ignoring (Session.removeTree ⟨anchor, dir ++ [x]⟩))
      (fun _ s => Faultless ⟨anchor, dir ++ [c]⟩ found s.failed →
        SweptOf b p found (done ++ names) s) fun _ => True := by
  induction names generalizing done with
  | nil =>
    rw [List.append_nil]
    exact triple_pure _ fun _ h => h
  | cons x names ih =>
    have hrest := ih (done ++ [x]) fun y hy => hnames y (List.mem_cons_of_mem x hy)
    rw [List.append_assoc] at hrest
    refine Triple.bind ?_ fun _ => hrest
    exact triple_while_allowed (hereditary_faultless _ _) (remembers_removeTree _).ignoring
      (triple_sweep_one hreach hfound done (hnames x List.mem_cons_self))

omit hreach in
theorem without_filter_isRetired (target : Path) :
    without ((es.map (·.1)).filter (isRetired target)) found = swept target found := by
  funext n
  have hmem : (found n).any FileTree.isDir → n ∈ es.map (·.1) := by
    rw [← hfound]
    intro h
    cases hu : es.lookup n with
    | none => simp [hu] at h
    | some u =>
      obtain ⟨before, after, rfl, -⟩ := List.lookup_eq_some_iff.mp hu
      simp
  by_cases hdir : (found n).any FileTree.isDir
  · simp [without, swept, hdir, hmem hdir]
  · simp [without, swept, hdir]

/-- A sweep in which no operation fails removes the old trees, and nothing else. -/
theorem triple_sweep_faultless :
    Triple (Holds (b.withEntries p es) 0) (sweep (Path.mk anchor (dir ++ [c])))
      (fun _ s => Faultless ⟨anchor, dir ++ [c]⟩ found s.failed →
        ∃ fs : List (String × FileTree),
          (∀ n, fs.lookup n = swept ⟨anchor, dir ++ [c]⟩ found n) ∧ Holds (b.withEntries p fs) 0 s)
      fun _ => True := by
  unfold sweep
  simp only [parent_entry]
  refine ((triple_names hreach fun _ _ _ hu hv => Option.some.inj (hu.symm.trans hv)).weaken
    (fun _ h => h) (fun _ _ h => h) fun _ _ => trivial).bind fun names => triple_of_forall ?_
  rintro rfl
  have hall := triple_sweep_all anchor c hreach hfound
    ((es.map (·.1)).filter (isRetired ⟨anchor, dir ++ [c]⟩)) []
    fun x hx => ne_parent_of_isRetired (List.mem_filter.mp hx).2
  rw [List.nil_append] at hall
  refine hall.weaken (fun s hs _ => ⟨es, fun n => ?_, hs.2⟩) ?_ fun _ h => h
  · simp [without, hfound]
  · intro _ s hs hfaultless
    obtain ⟨fs, hfs, hs⟩ := hs hfaultless
    exact ⟨fs, without_filter_isRetired hfound _ ▸ hfs, hs⟩

end Sweep

/-! ## Swap -/

section Swap

variable {b d : FileTree} {p : Place} {es fs : List (String × FileTree)} {anchor : Anchor}
  {dir : List String} {c st : String} {found : String → Option FileTree}

/-- There is a new tree under a name, and under the others what was found. -/
def Placed (b : FileTree) (p : Place) (fs : List (String × FileTree)) (c : String) (d : FileTree)
    (s : SessionState) : Prop :=
  ∃ gs : List (String × FileTree), (∀ n, gs.lookup n = if n = c then some d else fs.lookup n) ∧
    Holds (b.withEntries p gs) 0 s

/-- The old tree does not stay, as it is a directory and its removal does not fail. -/
theorem triple_discard_faultless {gs : List (String × FileTree)} {x : String}
    (hreach : Reaches (b.withEntries p es) dir p)
    (hsame : ∀ n u v, es.lookup n = some u → gs.lookup n = some v → u = v) (hxup : x ≠ "..")
    (hfile : ∀ u, found x = some u → u.isDir) (note? : Failure → LogEntry) :
    Triple (Holds (b.withEntries p gs) 0)
      (tryCatch (Session.removeTree ⟨anchor, dir ++ [x]⟩) fun (e : Failure) => note (note? e))
      (fun _ s => Faultless ⟨anchor, dir ++ [c]⟩ found s.failed →
        Holds (b.withEntries p (gs.filter (·.1 ≠ x))) 0 s) fun _ => True := by
  refine Triple.tryCatch ((triple_removeTree_beside hreach hsame hxup).weaken (fun _ h => h)
    (fun _ s hs _ => hs.2) fun s hs => hs.2) fun e => ?_
  intro s hfailed hfaultless
  have hremove : Change.remove (beside ⟨anchor, dir ++ [c]⟩ x) ∈ s.failed := by
    rwa [beside, parent_entry]
  obtain ⟨u, hu, hdir⟩ := hfaultless.isDir_eq_false hremove
  rw [hfile u hu] at hdir
  cases hdir

variable (hreach : Reaches (b.withEntries p fs) dir p) (hst : fs.lookup st = none) (hne : st ≠ c)
  (hup : st ≠ "..") (hc : c ≠ "..") (hslash : '/' ∉ c.toList)
  (hfiles : ∀ n u, found n = some u → u.isDir = false → fs.lookup n = some u)

include hreach hst hne hup hc hslash hfiles

theorem triple_swap_over_faultless :
    Triple (Holds (b.withEntries p (setField fs st d)) 0)
      (do
        let retired ← Workspace.unused (Path.mk anchor dir) (retiredHead ⟨anchor, dir ++ [c]⟩)
        Session.rename ⟨anchor, dir ++ [c]⟩ retired
        tryCatch (Session.rename ⟨anchor, dir ++ [st]⟩ ⟨anchor, dir ++ [c]⟩) fun (e : Failure) => do
          Session.rename retired ⟨anchor, dir ++ [c]⟩
          throw e
        tryCatch (Session.removeTree retired) fun (e : Failure) => note (leftoverNote retired e))
      (fun _ s => Faultless ⟨anchor, dir ++ [c]⟩ found s.failed → Placed b p fs c d s)
      fun _ => True := by
  have hsame := eq_of_lookup_setField hst d
  have hnew : (setField fs st d).lookup st = some d := by simp
  have hname : '/' ∉ (Path.mk anchor (dir ++ [c])).name.toList := by rwa [name_entry]
  have hretired := isRetired_freshName ⟨anchor, dir ++ [c]⟩ ((setField fs st d).map (·.1))
  have hxup := ne_parent_of_isRetired hretired
  have hx := lookup_freshName (retiredHead ⟨anchor, dir ++ [c]⟩) (setField fs st d)
  refine ((triple_unused hreach hsame (isSegment_retiredName hname _)).weaken (fun _ h => h)
    (fun _ _ h => h) fun _ _ => trivial).bind fun retired => triple_of_forall ?_
  rintro rfl
  generalize freshName (retiredHead ⟨anchor, dir ++ [c]⟩) ((setField fs st d).map (·.1)) = x at *
  refine triple_of_forall fun hreach₀ => ?_
  refine ((triple_rename_beside hreach hsame hc hxup).weaken (fun _ h => h)
    (fun _ _ h => h.2) fun _ _ => trivial).bind fun _ => ?_
  refine triple_of_exists fun old => triple_of_forall fun hold => ?_
  have hcx : c ≠ x := by
    rintro rfl
    rw [hold] at hx
    cases hx
  refine ((triple_put hreach₀ hnew hold hx hne hup hc hxup).weaken (fun _ h => h)
    (fun _ _ h => h) fun _ _ => trivial).bind fun _ => triple_of_forall fun hreach₁ => ?_
  have hfree : (moved (setField fs st d) c x old).lookup c = none := by
    rw [lookup_moved, if_neg hcx, if_pos rfl]
  have hxfs : fs.lookup x = none := by
    rw [lookup_setField] at hx
    split at hx
    · cases hx
    · exact hx
  have hdir : ∀ u, found x = some u → u.isDir := by
    intro u hu
    cases hdir : u.isDir with
    | true => rfl
    | false =>
      rw [hfiles x u hu hdir] at hxfs
      cases hxfs
  refine (triple_discard_faultless (c := c) hreach₁ (same_moved hfree) hxup hdir _).weaken
    (fun _ h => h) ?_ fun _ h => h
  intro _ s hs hfaultless
  refine ⟨_, fun n => ?_, hs hfaultless⟩
  rw [lookup_filter_ne]
  by_cases hn : n = c
  · rw [if_pos hn, hn, if_neg hcx, lookup_moved, if_pos rfl]
  · rw [if_neg hn]
    by_cases hnx : n = x
    · rw [if_pos hnx, hnx, hxfs]
    · rw [if_neg hnx, lookup_swapped hst hn hnx]

/-- A swap in which no operation fails puts the new tree in its place and leaves nothing else. -/
theorem triple_swap_faultless :
    Triple (Holds (b.withEntries p (setField fs st d)) 0)
      (swap (Path.mk anchor (dir ++ [st])) ⟨anchor, dir ++ [c]⟩)
      (fun _ s => Faultless ⟨anchor, dir ++ [c]⟩ found s.failed → Placed b p fs c d s)
      fun _ => True := by
  unfold swap
  rw [parent_entry]
  refine (((quiet_exists? _).holds _ 0).weaken (fun _ h => h) (fun _ _ h => h)
    fun _ _ => trivial).bind fun exists_ => ?_
  split
  · exact triple_swap_over_faultless hreach hst hne hup hc hslash hfiles
  · refine (triple_rename_beside hreach (eq_of_lookup_setField hst d) hup hc).weaken (fun _ h => h)
      ?_ fun _ _ => trivial
    rintro _ s ⟨-, u, hu, hs⟩ -
    rw [lookup_setField, if_pos rfl] at hu
    cases hu
    refine ⟨moved (setField fs st d) st c d, fun n => ?_, hs⟩
    by_cases hn : n = c
    · rw [hn, lookup_moved, if_pos rfl, if_pos rfl]
    · rw [lookup_moved_new hst hn, if_neg hn]

end Swap

/-! ## Replacement -/

theorem remembers_swap (staging target : Path) : Remembers (swap staging target : Session Unit) := by
  unfold swap
  refine (quiet_exists? target).remembers.bind fun exists_ => ?_
  split
  · refine (quiet_unused _ _).remembers.bind fun retired => (remembers_rename _ _).bind fun _ => ?_
    refine Remembers.bind ?_ fun _ => ?_
    · exact (remembers_rename _ _).tryCatch fun e =>
        (remembers_rename _ _).bind fun _ => (quiet_throw e).remembers
    · exact (remembers_removeTree _).tryCatch fun e => (quiet_note _).remembers
  · exact remembers_rename _ _

section Replace

variable {b new : FileTree} {p : Place} {es : List (String × FileTree)} {anchor : Anchor}
  {dir : List String} {c : String} {build : Path → Session Unit}
  {found : String → Option FileTree}

/-- What is beside a directory after a replacement: the new tree, no old ones, and all else. -/
def replacedEntry (target : Path) (new : FileTree) (found : String → Option FileTree) (n : String) :
    Option FileTree :=
  if n = target.name then some new else swept target found n

theorem swept_of_not_isDir {target : Path} {n : String} {u : FileTree} (hu : found n = some u)
    (hdir : u.isDir = false) : swept target found n = some u := by
  simp [swept, hu, hdir]

theorem swept_same {target : Path} {n : String} {u v : FileTree} (hu : found n = some u)
    (hv : swept target found n = some v) : u = v := by
  unfold swept at hv
  split at hv
  · cases hv
  · exact Option.some.inj (hu.symm.trans hv)

/-- The part that follows when the old trees are gone. -/
theorem triple_install_faultless {fs : List (String × FileTree)} (hbuild : Builds build new)
    (hreach : Reaches (b.withEntries p es) dir p) (hfound : ∀ n, es.lookup n = found n)
    (hfs : ∀ n, fs.lookup n = swept ⟨anchor, dir ++ [c]⟩ found n) (hc : c ≠ "..")
    (hslash : '/' ∉ c.toList) :
    Triple (Holds (b.withEntries p fs) 0)
      (do
        let staging ← Workspace.unused (Path.mk anchor dir) (stagingHead ⟨anchor, dir ++ [c]⟩)
        Session.makeDir staging
        tryCatch
          (do
            build staging
            swap staging ⟨anchor, dir ++ [c]⟩)
          fun (e : Failure) => do
            ignoring (Session.removeTree staging)
            throw e)
      (fun _ s => Faultless ⟨anchor, dir ++ [c]⟩ found s.failed → Placed b p fs c new s)
      fun _ => True := by
  have hsame : ∀ n u v, es.lookup n = some u → fs.lookup n = some v → u = v := by
    intro n u v hu hv
    rw [hfound] at hu
    rw [hfs] at hv
    exact swept_same hu hv
  have hname : '/' ∉ (Path.mk anchor (dir ++ [c])).name.toList := by rwa [name_entry]
  have hst := lookup_freshName (stagingHead ⟨anchor, dir ++ [c]⟩) fs
  have hne := freshName_stagingHead_ne ⟨anchor, dir ++ [c]⟩ (fs.map (·.1))
  have hup := freshName_stagingHead_ne_parent ⟨anchor, dir ++ [c]⟩ (fs.map (·.1))
  rw [name_entry] at hne
  refine ((triple_unused hreach hsame (isSegment_stagingName hname _)).weaken (fun _ h => h)
    (fun _ _ h => h) fun _ _ => trivial).bind fun staging => triple_of_forall ?_
  rintro rfl
  generalize freshName (stagingHead ⟨anchor, dir ++ [c]⟩) (fs.map (·.1)) = st at *
  refine triple_of_forall fun hreach₁ => ?_
  refine ((triple_makeDir_beside hreach₁ hup).weaken (fun _ h => h) (fun _ _ h => h.2)
    fun _ _ => trivial).bind fun _ => ?_
  have hfiles : ∀ n u, found n = some u → u.isDir = false → fs.lookup n = some u :=
    fun n u hu hdir => (hfs n).trans (swept_of_not_isDir hu hdir)
  refine Triple.tryCatch (((hbuild hreach₁ hst hup).weaken (fun _ h => h) (fun _ _ h => h)
    fun _ _ => trivial).bind fun _ =>
      triple_swap_faultless hreach₁ hst hne hup hc hslash hfiles) fun e => ?_
  exact Triple.bind (Q := fun _ _ => True)
    (fun s _ => by cases ignoring (Session.removeTree ⟨anchor, dir ++ [st]⟩) s <;> trivial)
    fun _ => triple_throw e fun _ h => h

theorem remembers_install (hbuild : ∀ q, Remembers (build q)) (anchor : Anchor) (dir : List String)
    (head : String) (target : Path) :
    Remembers (do
      let staging ← Workspace.unused (Path.mk anchor dir) head
      Session.makeDir staging
      tryCatch
        (do
          build staging
          swap staging target)
        fun (e : Failure) => do
          ignoring (Session.removeTree staging)
          throw e) := by
  refine (quiet_unused _ _).remembers.bind fun staging => (remembers_makeDir _).bind fun _ => ?_
  exact ((hbuild staging).bind fun _ => remembers_swap staging target).tryCatch fun e =>
    (remembers_removeTree _).ignoring.bind fun _ => (quiet_throw e).remembers

/-- A replacement in which no operation fails: the part that follows when there is a directory for the
old and the new. -/
theorem triple_replace_in_faultless (hbuild : Builds build new) (hrem : ∀ q, Remembers (build q))
    (hreach : Reaches (b.withEntries p es) dir p) (hfound : ∀ n, es.lookup n = found n)
    (hc : c ≠ "..") (hslash : '/' ∉ c.toList) :
    Triple (Holds (b.withEntries p es) 0)
      (do
        sweep ⟨anchor, dir ++ [c]⟩
        let staging ← Workspace.unused (Path.mk anchor dir) (stagingHead ⟨anchor, dir ++ [c]⟩)
        Session.makeDir staging
        tryCatch
          (do
            build staging
            swap staging ⟨anchor, dir ++ [c]⟩)
          fun (e : Failure) => do
            ignoring (Session.removeTree staging)
            throw e)
      (fun _ s => Faultless ⟨anchor, dir ++ [c]⟩ found s.failed →
        ∃ gs : List (String × FileTree),
          (∀ n, gs.lookup n = replacedEntry ⟨anchor, dir ++ [c]⟩ new found n) ∧
          s.tree = b.withEntries p gs)
      fun _ => True := by
  refine (triple_sweep_faultless hreach hfound).bind fun _ => ?_
  refine triple_while_allowed (hereditary_faultless _ _) (remembers_install hrem anchor dir _ _) ?_
  refine triple_of_exists fun fs => triple_of_forall fun hfs => ?_
  refine (triple_install_faultless hbuild hreach hfound hfs hc hslash).weaken (fun _ h => h) ?_
    fun _ h => h
  intro _ s hs hfaultless
  obtain ⟨gs, hgs, htree, -⟩ := hs hfaultless
  exact ⟨gs, fun n => by rw [hgs, replacedEntry, name_entry, hfs], htree⟩

end Replace

end CronWrap.Staging
