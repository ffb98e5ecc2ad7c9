import CronWrap.Proofs.Files.Straight
import CronWrap.Proofs.Wrapper.Rebuilt

/-! Where a new tree has come to be after a replacement, whatever there was before. -/
namespace CronWrap

open FileTree Session Workspace

namespace Staging

variable {t t' new : FileTree} {anchor : Anchor} {dir : List String} {c : String}
  {build : Path → Session Unit}

theorem triple_true {α : Type} {P : SessionState → Prop} (x : Session α) :
    Triple P x (fun _ _ => True) fun _ => True :=
  fun s _ => by cases x s <;> trivial

/-- Directories that are there are not made again. -/
theorem triple_makeDirs_any (p : Path) :
    Triple (fun s => s.tree = t) (makeDirs p : Session Unit) (fun _ s => t.hasDir p → s.tree = t)
      fun _ => True := by
  by_cases h : t.hasDir p
  · have hdirs : ∀ d ∈ p.lineage, t.hasDir d := by
      intro d hd
      obtain ⟨segs, hsegs, rfl⟩ := List.mem_map.mp hd
      obtain ⟨rest, hrest⟩ := Path.prefix_of_mem_beginnings hsegs
      have hp : t.hasDir ⟨p.anchor, segs ++ rest⟩ := by rwa [hrest]
      by_cases hne : rest = []
      · rwa [hne, List.append_nil] at hp
      · exact hasDir_of_append hne hp
    exact (triple_makeDirs_there (n := 0) hdirs).weaken (fun s hs => ⟨hs, Nat.zero_le _⟩)
      (fun _ s hs _ => hs.1) fun _ _ => trivial
  · exact (triple_true _).weaken (fun _ hs => hs) (fun _ _ _ hdir => absurd hdir h) fun _ hs => hs

/-- The names in a directory are told only if the path leads to it. -/
theorem triple_names_any (p : Path) (t : FileTree) :
    Triple (fun s => s.tree = t) (Session.names p)
      (fun _ _ => ∃ q es, Reaches t p.segments q ∧ t.get? q = some (.dir es)) fun _ => True := by
  refine triple_of_eq fun s hs => ((triple_find true p t s.failed).weaken ?_ (fun _ _ h => h)
    fun _ _ => trivial).bind ?_
  · rintro _ rfl
    exact ⟨hs, rfl⟩
  rintro ⟨place, found⟩
  refine triple_of_forall fun hfind => ?_
  cases found with
  | none => exact triple_throw _ fun _ _ => trivial
  | some u =>
    cases u with
    | dir es =>
      obtain ⟨k, hleads⟩ := leads_of_find_dir hfind
      obtain ⟨-, hfound⟩ := find_eq_ok hfind
      have hreach : Reaches t p.segments place := ⟨k, hleads, by simp [← hfound]⟩
      exact triple_pure _ fun _ _ => ⟨place, es, hreach, hfound.symm⟩
    | file content => exact triple_throw _ fun _ _ => trivial
    | link target => exact triple_throw _ fun _ _ => trivial

/-- A replacement that comes to an end has put the new tree into a directory to which the path leads,
also if that had to be made. -/
theorem triple_replace_any (hbuild : Builds build new) (hc : c ≠ "..") (hslash : '/' ∉ c.toList)
    (t : FileTree) :
    Triple (fun s => s.tree = t) (replace (Path.mk anchor (dir ++ [c])) build)
      (fun _ s => ∃ b p es, (t.hasDir ⟨anchor, dir⟩ → b.withEntries p es = t) ∧
        Swapped ⟨anchor, dir ++ [c]⟩ b p es new s) fun _ => True := by
  unfold replace
  rw [parent_entry]
  refine (triple_makeDirs_any _).bind fun _ => triple_of_eq fun s hs => ?_
  by_cases hreached : ∃ p es, Reaches s.tree dir p ∧ s.tree.get? p = some (.dir es)
  · obtain ⟨p, es, hreach, hes⟩ := hreached
    rw [eq_withEntries hes] at hreach
    refine (triple_replace_in (c := c) hbuild hreach hc hslash).weaken ?_
      (fun _ s' hs' => ⟨_, p, es, fun h => ?_, hs'⟩) fun _ _ => trivial
    · rintro _ rfl
      exact ⟨eq_withEntries hes, Nat.zero_le _⟩
    · rw [← eq_withEntries hes, hs h]
  · -- The sweep looks at the names in the directory.
    refine Triple.bind (Q := fun _ _ => False) ?_ fun _ _ h => h.elim
    unfold sweep
    simp only [parent_entry]
    refine ((triple_names_any ⟨anchor, dir⟩ s.tree).weaken ?_ (fun _ _ h => h) fun _ h => h).bind
      fun _ _ h => absurd h hreached
    rintro _ rfl
    rfl

/-- The new tree is in the directory to which the segments lead. If they led to one before, it is that
one, and what is beside the new tree is as before, but for old trees. -/
def Landed (t t' : FileTree) (target : Path) (new : FileTree) : Prop :=
  ∃ b p es fs, (t.hasDir target.parent → b.withEntries p es = t) ∧ t' = b.withEntries p fs ∧
    fs.lookup target.name = some new ∧
    (∀ n, n ≠ target.name → isRetired target n = false → fs.lookup n = es.lookup n) ∧
    Stays b target.parent.segments p target.name es fs

theorem landed_of_replace (hbuild : Builds build new) (hc : c ≠ "..") (hslash : '/' ∉ c.toList)
    (hnew : new.isDir) {s s' : SessionState}
    (h : replace (Path.mk anchor (dir ++ [c])) build s = .ok () s') :
    Landed s.tree s'.tree ⟨anchor, dir ++ [c]⟩ new := by
  have hreplace : Triple _ (replace (Path.mk anchor (dir ++ [c])) build) _ _ :=
    triple_replace_any hbuild hc hslash s.tree
  have htriple := hreplace s rfl
  rw [h] at htriple
  obtain ⟨b, p, es, hbefore, fs, hlookup, hbeside, hstays, htree, -⟩ := htriple
  rw [← parent_entry anchor dir c] at hbefore
  exact ⟨b, p, es, fs, hbefore, htree, hlookup, hbeside, hstays hnew⟩

theorem Landed.reaches {ds : List (String × FileTree)}
    (h : Landed t t' ⟨anchor, dir ++ [c]⟩ (.dir ds)) :
    ∃ p, Reaches t' dir p ∧ t'.isDirAt p ∧ t'.get? (p ++ [c]) = some (.dir ds) := by
  obtain ⟨b, p, es, fs, -, rfl, hnew, -, ks, hreach, hks⟩ := h
  rw [name_entry] at hnew hks
  rw [parent_entry] at hreach
  exact ⟨p, hreach.extend (extends_of_kept (fun n u hu => (hks n u hu).2) hnew),
    isDirAt_withEntries, by rw [get?_withEntries, hnew]⟩

/-- Beside a directory on whose path the new tree lies all is as before, but for directories in which
something changed. -/
theorem Landed.beside {a : String} {ds : List (String × FileTree)}
    (h : Landed t t' ⟨anchor, dir ++ [a] ++ [c]⟩ (.dir ds)) (ha : a ≠ "..")
    (hdir : t.hasDir ⟨anchor, dir ++ [a]⟩) :
    ∃ q, (Reaches t dir q ∧ t.isDirAt q) ∧ (Reaches t' dir q ∧ t'.isDirAt q) ∧
      ∀ names, names ≠ [] →
        (∀ n ∈ names, n ≠ c ∧ isRetired ⟨anchor, dir ++ [a] ++ [c]⟩ n = false) →
        t'.get? (q ++ names) = t.get? (q ++ names) ∨
          t.isDirAt (q ++ names) ∧ t'.isDirAt (q ++ names) := by
  obtain ⟨b, p, es, fs, hbefore, rfl, hnew, hsame, ks, hreach, hks⟩ := h
  rw [name_entry] at hnew hks hsame
  rw [parent_entry] at hreach hbefore
  obtain rfl := hbefore hdir
  obtain ⟨q, hq, hdirq, hstep⟩ := hreach.above ha
  have hext : Extends (b.withEntries p ks) (b.withEntries p es) := by
    refine fun r u hu => extendsCommon_withEntries (fun n u _ hu _ => ?_) r u u hu hu
    exact ⟨u, (hks n u hu).1, fun r v hv => ⟨v, hv, rfl, id⟩⟩
  have hext' := extends_of_kept (b := b) (p := p) (fun n u hu => (hks n u hu).2) hnew
  refine ⟨q, ⟨hq.extend hext, hext.isDirAt hdirq⟩, ⟨hq.extend hext', hext'.isDirAt hdirq⟩,
    fun names hne hnames => ?_⟩
  rcases get?_withEntries_cases b p (q ++ names) with ⟨n, r, he⟩ | hdirs | hother
  · left
    have hentry : fs.lookup n = es.lookup n := by
      rcases List.append_eq_append_iff.mp he with ⟨m, rfl, rfl⟩ | ⟨m, rfl, hm⟩
      · have hn := hnames n (by simp)
        exact hsame n hn.1 hn.2
      · cases m with
        | nil =>
          rw [List.nil_append] at hm
          have hn := hnames n (by simp [← hm])
          exact hsame n hn.1 hn.2
        | cons n' m =>
          -- The place is under an entry, which is the same, or empty: but a step went on from there.
          obtain ⟨rfl, -⟩ := List.cons_eq_cons.mp hm
          rw [List.append_assoc, List.cons_append, get?_withEntries_cons] at hstep
          cases hlookup : ks.lookup n with
          | none => simp [hlookup] at hstep
          | some u =>
            rw [hlookup, Option.bind_some] at hstep
            obtain ⟨hes, ⟨-, rfl⟩ | ⟨-, hfs⟩⟩ := hks n u hlookup
            · cases m <;> cases hstep
            · rw [hes, hfs]
    rw [he, get?_withEntries_cons, get?_withEntries_cons, hentry]
  · right
    exact ⟨isDirAt_iff.mpr (hdirs es), isDirAt_iff.mpr (hdirs fs)⟩
  · left
    rw [hother, hother]

end Staging

end CronWrap
