import CronWrap.Proofs.Files.ExactEntries
import CronWrap.Proofs.Wrapper.Swap

/-! The replacement of a directory when no change is made to fail: exactly when it succeeds, and what it
leaves. -/
namespace CronWrap.Staging

open FileTree Session Workspace

variable {t new : FileTree} {anchor : Anchor} {dir : List String} {c st : String}
  {es : List (String × FileTree)}

/-- What has the name of an old tree is no directory. -/
def NoOldTrees (target : Path) (es : List (String × FileTree)) : Prop :=
  ∀ n u, isRetired target n → es.lookup n = some u → u.isDir = false

/-- What is left beside the new tree of something in its place: a file, which is not removed. -/
def leftover (old : Option FileTree) (x : String) : List (String × FileTree) :=
  ((old.filter (!·.isDir)).map (x, ·)).toList

/-- The entries with a new tree under a name, and what was there moved to another name if it is not
removed. -/
def replaced (es : List (String × FileTree)) (c x : String) (new : FileTree) :
    List (String × FileTree) :=
  es.filter (·.1 ≠ c) ++ leftover (es.lookup c) x ++ [(c, new)]

section Exact

variable (ht : NoLinks t) (hes : NoLinks (.dir es)) (hup : ".." ∉ dir)

include ht hes hup

theorem exact_sweep (hold : NoOldTrees ⟨anchor, dir ++ [c]⟩ es) :
    Exact (t.withEntries dir es) (sweep (Path.mk anchor (dir ++ [c])))
      (Path.mk anchor dir).Fits () (t.withEntries dir es) := by
  unfold sweep
  simp only [parent_entry]
  refine ((exact_names_of_entries anchor ht hes hup).bind (d := True) fun _ => ?_).congr (by simp)
  have hround : ∀ n ∈ (es.map (·.1)).filter (isRetired ⟨anchor, dir ++ [c]⟩),
      Exact (t.withEntries dir es) (ignoring (Session.removeTree ⟨anchor, dir ++ [n]⟩)) True ()
        (t.withEntries dir es) := by
    intro n hn
    obtain ⟨hname, hretired⟩ := List.mem_filter.mp hn
    obtain ⟨u, hu⟩ := exists_lookup_of_mem hname
    exact (fails_removeTree_entry anchor ht hes hup hu (hold n u hretired hu)
      (ne_parent_of_isRetired hretired)).handled fun _ => exact_pure _ _
  exact (exact_forM _ fun _ n _ hn => hround n (by simp [hn])).congr (by simp)

variable (hst : es.lookup st = none) (hstup : st ≠ "..") (hc : c ≠ "..") (hne : st ≠ c)
  (hslash : '/' ∉ c.toList) (hnew : NoLinks new)

include hst hstup hc hne hslash hnew

/-- A swap where something is in the place of the new tree. -/
theorem exact_swap_over {old : FileTree} (hlookup : es.lookup c = some old) {x : String}
    (hx : x = freshName (retiredHead ⟨anchor, dir ++ [c]⟩) (es.map (·.1) ++ [st])) :
    Exact (t.withEntries dir (es ++ [(st, new)]))
      (do
        let retired ← Workspace.unused (Path.mk anchor dir) (retiredHead ⟨anchor, dir ++ [c]⟩)
        Session.rename ⟨anchor, dir ++ [c]⟩ retired
        tryCatch (Session.rename ⟨anchor, dir ++ [st]⟩ ⟨anchor, dir ++ [c]⟩) fun (e : Failure) => do
          Session.rename retired ⟨anchor, dir ++ [c]⟩
          throw e
        tryCatch (Session.removeTree retired) fun (e : Failure) => note (leftoverNote retired e))
      ((Path.mk anchor (dir ++ [st])).Fits ∧ (Path.mk anchor (dir ++ [c])).Fits ∧
        (Path.mk anchor (dir ++ [x])).Fits) ()
      (t.withEntries dir (replaced es c x new)) := by
  have hes₁ := hes.append hnew st
  have hname : '/' ∉ (Path.mk anchor (dir ++ [c])).name.toList := by rwa [name_entry]
  have hseg := isSegment_retiredName hname ((es ++ [(st, new)]).map (·.1))
  have hretired := isRetired_freshName ⟨anchor, dir ++ [c]⟩ ((es ++ [(st, new)]).map (·.1))
  have hfree := lookup_freshName (retiredHead ⟨anchor, dir ++ [c]⟩) (es ++ [(st, new)])
  have hunused := exact_unused anchor ht hes₁ hup _ hseg
  have hmap : (es ++ [(st, new)]).map (·.1) = es.map (·.1) ++ [st] := by simp
  rw [hmap, ← hx] at hseg hretired hfree hunused
  have hxup := ne_parent_of_isRetired hretired
  have hxst : x ≠ st := by
    rintro rfl
    rw [lookup_append_last hst] at hfree
    cases hfree
  rw [lookup_append_of_ne hxst] at hfree
  have hcx : c ≠ x := by
    rintro rfl
    rw [hlookup] at hfree
    cases hfree
  -- The entries besides the three that move.
  have hbase : ∀ n, es.lookup n = none → (es.filter (·.1 ≠ c)).lookup n = none := by
    intro n hn
    rw [lookup_filter_ne, hn, ite_self]
  have hbasec : (es.filter (·.1 ≠ c)).lookup c = none := by rw [lookup_filter_ne, if_pos rfl]
  have hlinks := hes.filter c
  have haway := exact_rename_entry anchor ht hes₁ hup (x := c) (y := x) (u := old)
    (by rw [lookup_append_of_ne (Ne.symm hne), hlookup]) hc
    (by rw [lookup_append_of_ne hxst, hfree]) hxup
  rw [filter_append_of_ne hne] at haway
  have hput := exact_rename_entry anchor ht
    ((hlinks.append hnew st).append (hes.lookup hlookup) x) hup (x := st) (y := c) (u := new)
    (by rw [lookup_append_of_ne (Ne.symm hxst), lookup_append_last (hbase st hst)]) hstup
    (by rw [lookup_append_of_ne hcx, lookup_append_of_ne (Ne.symm hne), hbasec]) hc
  rw [filter_append_of_ne hxst, filter_append_last (hbase st hst)] at hput
  have hlinks' := (hlinks.append (hes.lookup hlookup) x).append hnew c
  have hlast : (es.filter (·.1 ≠ c) ++ [(x, old)] ++ [(c, new)]).lookup x = some old := by
    rw [lookup_append_of_ne (Ne.symm hcx), lookup_append_last (hbase x hfree)]
  have hdiscard : (Path.mk anchor (dir ++ [x])).Fits →
      Exact (t.withEntries dir (es.filter (·.1 ≠ c) ++ [(x, old)] ++ [(c, new)]))
        (tryCatch (Session.removeTree ⟨anchor, dir ++ [x]⟩)
          fun (e : Failure) => note (leftoverNote ⟨anchor, dir ++ [x]⟩ e)) True ()
        (t.withEntries dir (replaced es c x new)) := by
    intro hfits
    rw [replaced, hlookup]
    cases hold : old.isDir with
    | false =>
      have hleft : leftover (some old) x = [(x, old)] := by simp [leftover, hold]
      rw [hleft]
      exact (fails_removeTree_entry anchor ht hlinks' hup hlast hold hxup).handled fun e =>
        exact_of_sees_ok (sees_note _ _)
    | true =>
      have hleft : leftover (some old) x = [] := by simp [leftover, hold]
      cases old with
      | dir ds =>
        have h := exact_removeTree_entry anchor ht hlinks' hup hlast hxup
        rw [filter_append_of_ne hcx, filter_append_last (hbase x hfree)] at h
        rw [hleft, List.append_nil]
        exact h.unhandled hfits
      | file content => cases hold
      | link target => cases hold
  refine (hunused.bind fun _ => haway.bind fun haway => (hput.givingUp ?_).bind fun _ =>
    hdiscard haway.2).congr ?_
  · exact fun e => bind_throw_ne_ok _ e
  · have habove : (Path.mk anchor (dir ++ [c])).Fits → (Path.mk anchor dir).Fits := Path.Fits.above
    tauto

/-- A swap succeeds exactly if the paths fit from which and to which it moves something. -/
theorem exact_swap {x : String}
    (hx : x = freshName (retiredHead ⟨anchor, dir ++ [c]⟩) (es.map (·.1) ++ [st])) :
    Exact (t.withEntries dir (es ++ [(st, new)]))
      (swap (Path.mk anchor (dir ++ [st])) ⟨anchor, dir ++ [c]⟩)
      ((Path.mk anchor (dir ++ [st])).Fits ∧ (Path.mk anchor (dir ++ [c])).Fits ∧
        ((es.lookup c).isSome → (Path.mk anchor (dir ++ [x])).Fits)) ()
      (t.withEntries dir (replaced es c x new)) := by
  have hes₁ := hes.append hnew st
  have hlinks := ht.withEntries hes₁ dir
  have hthere : (es ++ [(st, new)]).lookup c = es.lookup c :=
    lookup_append_of_ne (Ne.symm hne) es new
  have hknown : Known (t.withEntries dir (es ++ [(st, new)])) ⟨anchor, dir ++ [c]⟩ := by
    refine .inr ?_
    rw [List.dropLast_concat]
    exact isDirAt_withEntries
  have hexists := sees_exists? (p := ⟨anchor, dir ++ [c]⟩) hlinks (by simp [hup, Ne.symm hc]) hknown
  rw [get?_withEntries, hthere] at hexists
  unfold swap
  rw [parent_entry]
  cases hlookup : es.lookup c with
  | some old =>
    rw [hlookup] at hexists
    refine ((exact_of_sees hexists).bind fun _ =>
      exact_swap_over ht hes hup hst hstup hc hne hslash hnew hlookup hx).congr ?_
    simp only [Option.isSome_some]
    tauto
  | none =>
    rw [hlookup] at hexists
    have hmoved : (es ++ [(st, new)]).filter (·.1 ≠ st) ++ [(c, new)] = replaced es c x new := by
      rw [filter_append_last hst, replaced, hlookup, filter_of_lookup_eq_none hlookup]
      simp [leftover]
    have hrename := exact_rename_entry anchor ht hes₁ hup
      (lookup_append_last hst new) hstup (hthere.trans hlookup) hc
    rw [hmoved] at hrename
    refine ((exact_of_sees hexists).bind fun _ => hrename).congr ?_
    simp only [Option.isSome_none, Bool.false_eq_true, false_implies]
    tauto

end Exact

/-- The name under which a replacement makes the new tree. -/
def stagingName (target : Path) (es : List (String × FileTree)) : String :=
  freshName (stagingHead target) (es.map (·.1))

/-- The name to which a replacement moves what is in the place of the new tree. -/
def retiredName (target : Path) (es : List (String × FileTree)) : String :=
  freshName (retiredHead target) (es.map (·.1) ++ [stagingName target es])

/-- A replacement succeeds exactly if directories can be made to its place, the new tree can be made
beside it, and the paths fit from which and to which something is moved. -/
theorem exact_replace (ht : NoLinks t) (hup : ".." ∉ dir) (hc : c ≠ "..") (hslash : '/' ∉ c.toList)
    (hnew : NoLinks new) (hold : NoOldTrees ⟨anchor, dir ++ [c]⟩ (t.entriesAt dir))
    (hst : st = stagingName ⟨anchor, dir ++ [c]⟩ (t.entriesAt dir)) {x : String}
    (hx : x = retiredName ⟨anchor, dir ++ [c]⟩ (t.entriesAt dir)) {build : Path → Session Unit}
    {B : Prop} (hbuild : Exact (t.withEntries dir (t.entriesAt dir ++ [(st, .empty)]))
      (build ⟨anchor, dir ++ [st]⟩) B () (t.withEntries dir (t.entriesAt dir ++ [(st, new)]))) :
    Exact t (replace (Path.mk anchor (dir ++ [c])) build)
      ((Clear t dir ∧ B) ∧ (Path.mk anchor (dir ++ [st])).Fits ∧
        (Path.mk anchor (dir ++ [c])).Fits ∧
        (((t.entriesAt dir).lookup c).isSome → (Path.mk anchor (dir ++ [x])).Fits)) ()
      (t.withEntries dir (replaced (t.entriesAt dir) c x new)) := by
  have hmade := exact_makeDirs anchor ht hup
  rw [withDir] at hmade
  have hes := ht.entriesAt dir
  generalize t.entriesAt dir = es at *
  have hname : '/' ∉ (Path.mk anchor (dir ++ [c])).name.toList := by rwa [name_entry]
  have hfree := lookup_freshName (stagingHead ⟨anchor, dir ++ [c]⟩) es
  have hne := freshName_stagingHead_ne ⟨anchor, dir ++ [c]⟩ (es.map (·.1))
  have hstup := freshName_stagingHead_ne_parent ⟨anchor, dir ++ [c]⟩ (es.map (·.1))
  have hseg := isSegment_stagingName hname (es.map (·.1))
  have hunused := exact_unused anchor ht hes hup _ hseg
  rw [retiredName, ← hst] at hx
  rw [stagingName] at hst
  rw [name_entry] at hne
  rw [← hst] at hfree hne hstup hunused
  have hstage := (hbuild.bind (f := fun _ => swap (Path.mk anchor (dir ++ [st])) _) fun _ =>
    exact_swap ht hes hup hfree hstup hc hne hslash hnew hx).givingUp
      (h := fun e => do ignoring (Session.removeTree ⟨anchor, dir ++ [st]⟩); throw e)
      fun e => bind_throw_ne_ok _ e
  unfold replace
  rw [parent_entry]
  refine (hmade.bind fun _ => (exact_sweep ht hes hup hold).bind fun _ => hunused.bind fun _ =>
    (exact_makeDir_entry anchor ht hes hup hfree hstup).bind fun _ => hstage).congr ?_
  have habove : (Path.mk anchor (dir ++ [c])).Fits → (Path.mk anchor dir).Fits := Path.Fits.above
  tauto

end CronWrap.Staging
