import CronWrap.Proofs.Files.MakeDirs
import CronWrap.Proofs.Wrapper.Swap

/-! A directory is replaced as a whole or not at all. -/
namespace CronWrap.Staging

open FileTree Session Workspace

/-- What may go wrong in a replacement without leaving traces: one write or move, the making of
directories, and the removal of old trees. -/
structure Tolerable (target : Path) (failed : List Change) : Prop where
  steps : failed.countP isStep ≤ 1
  removals : ∀ p, .remove p ∈ failed → p.parent = target.parent ∧ isRetired target p.name

/-- In an empty directory without others below, the action makes a certain tree, or fails and leaves
some tree. -/
def Builds (build : Path → Session Unit) (new : FileTree) : Prop :=
  ∀ {b : FileTree} {p : Place} {es : List (String × FileTree)} {anchor : Anchor}
    {dir : List String} {x : String}, Reaches (b.withEntries p es) dir p → es.lookup x = none →
      x ≠ ".." →
      Triple (Holds (b.withEntries p (setField es x .empty)) 0) (build ⟨anchor, dir ++ [x]⟩)
        (fun _ => Holds (b.withEntries p (setField es x new)) 0)
        (fun s => ∃ d, Holds (b.withEntries p (setField es x d)) 0 s)

variable {b new : FileTree} {p : Place} {es : List (String × FileTree)} {anchor : Anchor}
  {dir : List String} {c st : String} {build : Path → Session Unit}

/-- The new tree is removed after a failure. -/
theorem triple_unstage (hreach : Reaches (b.withEntries p es) dir p) (hst : es.lookup st = none)
    (hup : st ≠ "..") (hkept : isRetired ⟨anchor, dir ++ [c]⟩ st = false) (e : Failure)
    (Q : Unit → SessionState → Prop) :
    Triple (fun s => ∃ d, Restored b p (setField es st d) s)
      (do
        ignoring (Session.removeTree ⟨anchor, dir ++ [st]⟩)
        throw e)
      Q
      (fun s => Tolerable ⟨anchor, dir ++ [c]⟩ s.failed →
        ∃ fs, (∀ n, fs.lookup n = es.lookup n) ∧ Holds (b.withEntries p fs) 0 s) := by
  refine Triple.bind (triple_ignoring (triple_of_exists fun d => triple_or ?_ ?_))
    fun _ => triple_throw e fun _ h => h
  · refine triple_of_exists fun fs => triple_of_forall fun hfs => ?_
    have hsame : ∀ n u v, es.lookup n = some u → fs.lookup n = some v → u = v := by
      intro n u v hu hv
      rw [hfs] at hv
      exact eq_of_lookup_setField hst d n u v hu hv
    refine (triple_removeTree_beside hreach hsame hup).weaken (fun _ h => h) ?_ ?_
    · refine fun _ s hs _ => ⟨_, fun n => ?_, hs.2⟩
      rw [lookup_filter_ne, hfs, lookup_setField]
      by_cases hn : n = st
      · rw [if_pos hn, hn, hst]
      · rw [if_neg hn, if_neg hn]
    · intro s hs htolerable
      have hretired := (htolerable.removals _ hs.2).2
      rw [name_entry, hkept] at hretired
      cases hretired
  · refine (triple_removeTree_of_failed 2 _).weaken (fun _ h => h) ?_ ?_
    · rintro _ s ⟨t, hs⟩ htolerable
      exact absurd htolerable.steps (by have := hs.2; omega)
    · rintro s ⟨t, hs⟩ htolerable
      exact absurd htolerable.steps (by have := hs.2; omega)

/-- The part of a replacement that follows when there is a directory for the new tree. -/
theorem triple_stage (hbuild : Builds build new) (hreach : Reaches (b.withEntries p es) dir p)
    (hst : es.lookup st = none) (hne : st ≠ c) (hup : st ≠ "..") (hc : c ≠ "..")
    (hslash : '/' ∉ c.toList) (hkept : isRetired ⟨anchor, dir ++ [c]⟩ st = false) :
    Triple (Holds (b.withEntries p (setField es st .empty)) 0)
      (tryCatch
        (do
          build ⟨anchor, dir ++ [st]⟩
          swap (Path.mk anchor (dir ++ [st])) ⟨anchor, dir ++ [c]⟩)
        fun (e : Failure) => do
          ignoring (Session.removeTree ⟨anchor, dir ++ [st]⟩)
          throw e)
      (fun _ => Swapped ⟨anchor, dir ++ [c]⟩ b p es new)
      (fun s => Tolerable ⟨anchor, dir ++ [c]⟩ s.failed →
        ∃ fs, (∀ n, fs.lookup n = es.lookup n) ∧ Holds (b.withEntries p fs) 0 s) := by
  refine Triple.tryCatch (((hbuild hreach hst hup).weaken (fun _ h => h) (fun _ _ h => h)
    fun s ⟨d, hs⟩ => ⟨d, restored_of_holds hs⟩).bind fun _ => ?_)
    fun e => triple_unstage hreach hst hup hkept e _
  exact (triple_swap hreach hst hne hup hc hslash).weaken (fun _ h => h) (fun _ _ h => h)
    fun s hs => ⟨new, hs⟩

/-- Beside a directory only old trees are not the same. -/
def SameBeside (target : Path) (p : Place) (a b : FileTree) : Prop :=
  ∀ n, n ≠ target.name → isRetired target n = false → b.get? (p ++ [n]) = a.get? (p ++ [n])

/-- The part that follows when there is a directory for the old and the new. -/
theorem triple_replace_in (hbuild : Builds build new) (hreach : Reaches (b.withEntries p es) dir p)
    (hc : c ≠ "..") (hslash : '/' ∉ c.toList) :
    Triple (Holds (b.withEntries p es) 0)
      (do
        sweep ⟨anchor, dir ++ [c]⟩
        let staging ← Workspace.unused (Path.mk anchor dir) (stagingHead ⟨anchor, dir ++ [c]⟩)
        Session.makeDir staging
        tryCatch
          (do
            build staging
            swap staging ⟨anchor, dir ++ [c]⟩)
          fun (e : Failure) => do
            ignoring (Session.removeTree staging)
            throw e)
      (fun _ => Swapped ⟨anchor, dir ++ [c]⟩ b p es new)
      (fun s => Tolerable ⟨anchor, dir ++ [c]⟩ s.failed →
        ∃ fs, (∀ n, isRetired ⟨anchor, dir ++ [c]⟩ n = false → fs.lookup n = es.lookup n) ∧
          Holds (b.withEntries p fs) 0 s) := by
  refine ((triple_sweep hreach).weaken (fun _ h => h) (fun _ _ h => h)
    fun s hs _ => ⟨es, fun _ _ => rfl, hs⟩).bind fun _ => ?_
  refine triple_of_exists fun fs => triple_of_forall fun hswept => ?_
  have hkept : ∀ s, Holds (b.withEntries p fs) 0 s → Tolerable ⟨anchor, dir ++ [c]⟩ s.failed →
      ∃ fs, (∀ n, isRetired ⟨anchor, dir ++ [c]⟩ n = false → fs.lookup n = es.lookup n) ∧
        Holds (b.withEntries p fs) 0 s :=
    fun s hs _ => ⟨fs, hswept.eq, hs⟩
  have hname : '/' ∉ (Path.mk anchor (dir ++ [c])).name.toList := by rwa [name_entry]
  have hst := lookup_freshName (stagingHead ⟨anchor, dir ++ [c]⟩) fs
  have hstaging := not_isRetired_freshName ⟨anchor, dir ++ [c]⟩ (fs.map (·.1))
  have hne := freshName_stagingHead_ne ⟨anchor, dir ++ [c]⟩ (fs.map (·.1))
  have hup := freshName_stagingHead_ne_parent ⟨anchor, dir ++ [c]⟩ (fs.map (·.1))
  rw [name_entry] at hne
  refine ((triple_unused hreach hswept.same (isSegment_stagingName hname _)).weaken (fun _ h => h)
    (fun _ _ h => h) hkept).bind fun staging => triple_of_forall ?_
  rintro rfl
  generalize freshName (stagingHead ⟨anchor, dir ++ [c]⟩) (fs.map (·.1)) = st at *
  refine triple_of_forall fun hreach₁ => ?_
  refine ((triple_makeDir_beside hreach₁ hup).weaken (fun _ h => h) (fun _ _ h => h.2) hkept).bind
    fun _ => ?_
  refine (triple_stage hbuild hreach₁ hst hne hup hc hslash hstaging).weaken (fun _ h => h) ?_ ?_
  · rintro _ s ⟨gs, hnew, hgs, hstays, hs⟩
    refine ⟨gs, hnew, fun n hn hretired => (hgs n hn hretired).trans (hswept.eq n hretired),
      fun hdir => ?_, hs⟩
    obtain ⟨ks, hks, hentries⟩ := hstays hdir
    exact ⟨ks, hks, fun n u hu => (hentries n u hu).imp_left (hswept.of_some n u)⟩
  · intro s hs htolerable
    obtain ⟨gs, hgs, hs⟩ := hs htolerable
    exact ⟨gs, fun n hretired => (hgs n).trans (hswept.eq n hretired), hs⟩

/-- A replacement that succeeds leaves exactly the new tree, and one that fails leaves what was there.
Of what is beside it only old trees come or go. -/
theorem triple_replace (hbuild : Builds build new) {t : FileTree}
    (hdir : Makeable t ⟨anchor, dir⟩) (hc : c ≠ "..") (hslash : '/' ∉ c.toList) :
    Triple (fun s => s.tree = t) (replace (Path.mk anchor (dir ++ [c])) build)
      (fun _ s => s.tree.get? ((t.walk true maxLinks none [] dir).place ++ [c]) = some new ∧
        SameBeside ⟨anchor, dir ++ [c]⟩ (t.walk true maxLinks none [] dir).place t s.tree)
      (fun s => Tolerable ⟨anchor, dir ++ [c]⟩ s.failed →
        s.tree.get? ((t.walk true maxLinks none [] dir).place ++ [c]) =
          t.get? ((t.walk true maxLinks none [] dir).place ++ [c]) ∧
        SameBeside ⟨anchor, dir ++ [c]⟩ (t.walk true maxLinks none [] dir).place t s.tree) := by
  unfold replace
  rw [parent_entry]
  refine ((triple_makeDirs hdir).weaken (fun s hs => (⟨hs, Nat.zero_le _⟩ : Holds t 0 s))
    (fun _ _ h => h) ?_).bind fun _ => ?_
  · rintro s ⟨t', hsame, rfl, -⟩ -
    exact ⟨hsame _ (by simp), fun n _ _ => hsame _ (by simp)⟩
  · refine triple_of_exists fun t₁ => triple_of_forall fun hmade => ?_
    obtain ⟨p, es, hreach, hes⟩ := hmade.dir
    have hplace : (t.walk true maxLinks none [] dir).place = p := by
      have hsame := hmade.place_eq [] (by simp)
      rw [List.append_nil] at hsame
      rw [← hsame, hreach.place_eq]
    have hentry : ∀ n, es.lookup n = t.get? (p ++ [n]) := by
      intro n
      have hsame := hmade.same [] (by simp) [n] (by simp)
      rw [List.append_nil, hplace, eq_withEntries hes, get?_withEntries] at hsame
      exact hsame
    rw [hplace]
    rw [eq_withEntries hes] at hreach ⊢
    refine (triple_replace_in hbuild hreach hc hslash).weaken (fun _ h => h) ?_ ?_
    · rintro _ s ⟨fs, hnew, hfs, -, htree, -⟩
      rw [name_entry] at hnew hfs
      rw [SameBeside, htree, name_entry]
      refine ⟨by rw [get?_withEntries, hnew], fun n hn hretired => ?_⟩
      rw [get?_withEntries, hfs n hn hretired, hentry]
    · intro s hs htolerable
      obtain ⟨fs, hfs, htree, -⟩ := hs htolerable
      have hc' := not_isRetired_name ⟨anchor, dir ++ [c]⟩
      rw [name_entry] at hc'
      rw [SameBeside, htree]
      refine ⟨by rw [get?_withEntries, hfs c hc', hentry], fun n _ hretired => ?_⟩
      rw [get?_withEntries, hfs n hretired, hentry]

end CronWrap.Staging
