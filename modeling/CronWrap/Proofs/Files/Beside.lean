import CronWrap.Proofs.Files.Entries
import CronWrap.Proofs.Files.Fresh
import CronWrap.Proofs.Files.Reach
import CronWrap.Proofs.Files.Triple

/-! Operations on the entries of one directory. -/
namespace CronWrap.Session

open FileTree Workspace

/-- The changes of which a run may fail in one: what is written, and what is moved. -/
def isStep : Change → Bool
  | .write _ => true
  | .rename _ _ => true
  | _ => false

/-- The state has this tree, and at least so many steps have failed. -/
def Holds (t : FileTree) (n : Nat) (s : SessionState) : Prop :=
  s.tree = t ∧ n ≤ s.failed.countP isStep

theorem triple_of_at {α : Type} {t : FileTree} {n : Nat} {x : Session α}
    {Q : α → SessionState → Prop} {E : SessionState → Prop}
    (h : ∀ failed, n ≤ failed.countP isStep → Triple (At t failed) x Q E) :
    Triple (Holds t n) x Q E :=
  fun s hs => h s.failed hs.2 s ⟨hs.1, rfl⟩

theorem Quiet.holds {α : Type} {x : Session α} (h : Quiet x) (t : FileTree) (n : Nat) :
    Triple (Holds t n) x (fun _ => Holds t n) (Holds t n) := by
  refine triple_of_at fun failed hn => (h t failed).weaken (fun _ hs => hs) ?_ ?_
  · rintro _ s ⟨ht, rfl⟩
    exact ⟨ht, hn⟩
  · rintro s ⟨ht, rfl⟩
    exact ⟨ht, hn⟩

section Holds

variable {t : FileTree} {n : Nat} {failed : List Change} {c : Change} {s : SessionState}

theorem Holds.of_at (hn : n ≤ failed.countP isStep) (h : At t failed s) : Holds t n s :=
  ⟨h.1, h.2 ▸ hn⟩

theorem Holds.of_failed (hn : n ≤ failed.countP isStep) (h : At t (c :: failed) s) :
    Holds t n s := by
  refine ⟨h.1, ?_⟩
  rw [h.2, List.countP_cons]
  omega

theorem Holds.of_failed_step (hn : n ≤ failed.countP isStep) (hc : isStep c)
    (h : At t (c :: failed) s) : Holds t (n + 1) s := by
  refine ⟨h.1, ?_⟩
  rw [h.2, List.countP_cons_of_pos hc]
  omega

end Holds

/-- Removing does not undo that steps have failed. -/
theorem triple_removeTree_of_failed (n : Nat) (x : Path) :
    Triple (fun s => ∃ t, Holds t n s) (removeTree x) (fun _ s => ∃ t, Holds t n s)
      (fun s => ∃ t, Holds t n s) := by
  refine triple_of_exists fun t => triple_of_at fun failed hn => ?_
  refine (triple_removeTree x t failed).weaken (fun _ h => h) ?_ fun s hs => ⟨t, .of_failed hn hs⟩
  rintro _ s ⟨place, es, -, hs⟩
  exact ⟨_, .of_at hn hs⟩

section Entries

variable {b : FileTree} {p : Place} {es fs : List (String × FileTree)} {anchor : Anchor}
  {dir : List String} {n : Nat}

theorem triple_names (hreach : Reaches (b.withEntries p es) dir p)
    (hsame : ∀ n u v, es.lookup n = some u → fs.lookup n = some v → u = v) :
    Triple (Holds (b.withEntries p fs) n) (names ⟨anchor, dir⟩)
      (fun r s => r = fs.map (·.1) ∧ Reaches (b.withEntries p fs) dir p ∧
        Holds (b.withEntries p fs) n s)
      (Holds (b.withEntries p fs) n) := by
  refine triple_of_at fun failed hn => ?_
  refine ((triple_find true _ _ failed).weaken (fun _ h => h) (fun _ _ h => h)
    fun _ => .of_at hn).bind ?_
  rintro ⟨place, found⟩
  refine triple_of_forall fun hfind => ?_
  cases found with
  | none => exact triple_throw _ fun _ => .of_at hn
  | some u =>
    obtain ⟨-, hu, hreach'⟩ := hreach.find_dir (agrees_withEntries hsame) hfind
    rw [get?_withEntries_self] at hu
    cases hu
    exact triple_pure _ fun s hs => ⟨rfl, hreach', .of_at hn hs⟩

theorem triple_unused (hreach : Reaches (b.withEntries p es) dir p)
    (hsame : ∀ n u v, es.lookup n = some u → fs.lookup n = some v → u = v) {head : String}
    (hseg : Path.IsSegment (freshName head (fs.map (·.1)))) :
    Triple (Holds (b.withEntries p fs) n) (unused (Path.mk anchor dir) head)
      (fun r s => r = ⟨anchor, dir ++ [freshName head (fs.map (·.1))]⟩ ∧
        Reaches (b.withEntries p fs) dir p ∧ Holds (b.withEntries p fs) n s)
      (Holds (b.withEntries p fs) n) := by
  refine (triple_names hreach hsame).bind fun taken => triple_of_forall ?_
  rintro rfl
  exact triple_pure _ fun s hs => ⟨Path.div_of_isSegment _ hseg, hs⟩

/-- A directory that is made was not there before. -/
theorem triple_makeDir_beside (hreach : Reaches (b.withEntries p es) dir p) {x : String}
    (hx : x ≠ "..") :
    Triple (Holds (b.withEntries p es) n) (makeDir ⟨anchor, dir ++ [x]⟩)
      (fun _ s => es.lookup x = none ∧ Holds (b.withEntries p (setField es x .empty)) n s)
      (Holds (b.withEntries p es) n) := by
  refine triple_of_at fun failed hn => (triple_makeDir _ _ failed).weaken (fun _ h => h) ?_
    fun _ => .of_failed hn
  rintro _ s ⟨place, hfind, hs⟩
  obtain ⟨rfl, hfound, -⟩ := hreach.find_entry (.refl _) hfind hx
  rw [get?_withEntries] at hfound
  rw [withEntries_set] at hs
  exact ⟨hfound.symm, .of_at hn hs⟩

/-- An entry that is moved beside itself keeps what is under it, and takes the place only of what gives
way to it. -/
theorem triple_rename_over (hreach : Reaches (b.withEntries p es) dir p)
    (hsame : ∀ n u v, es.lookup n = some u → fs.lookup n = some v → u = v) {x y : String}
    (hx : x ≠ "..") (hy : y ≠ "..") :
    Triple (Holds (b.withEntries p fs) n) (rename ⟨anchor, dir ++ [x]⟩ ⟨anchor, dir ++ [y]⟩)
      (fun _ s => Reaches (b.withEntries p fs) dir p ∧ ∃ u, fs.lookup x = some u ∧
        (∀ v, fs.lookup y = some v → yields u v = .ok ()) ∧
        Holds (b.withEntries p (setField (fs.filter (·.1 ≠ x)) y u)) n s)
      (Holds (b.withEntries p fs) (n + 1)) := by
  refine triple_of_at fun failed hn => (triple_rename _ _ _ failed).weaken (fun _ h => h) ?_
    fun _ => .of_failed_step hn rfl
  rintro _ s ⟨place, u, newPlace, there, hfind, hfind', hyields, hs⟩
  have hagree := agrees_withEntries (t := b) (p := p) hsame
  obtain ⟨rfl, hfound, hreach'⟩ := hreach.find_entry hagree hfind hx
  obtain ⟨rfl, hthere, -⟩ := hreach.find_entry hagree hfind' hy
  rw [get?_withEntries] at hfound hthere
  rw [withEntries_erase, withEntries_set] at hs
  refine ⟨hreach', u, hfound.symm, fun v hv => ?_, .of_at hn hs⟩
  rwa [hthere, hv] at hyields

theorem triple_rename_beside (hreach : Reaches (b.withEntries p es) dir p)
    (hsame : ∀ n u v, es.lookup n = some u → fs.lookup n = some v → u = v) {x y : String}
    (hx : x ≠ "..") (hy : y ≠ "..") :
    Triple (Holds (b.withEntries p fs) n) (rename ⟨anchor, dir ++ [x]⟩ ⟨anchor, dir ++ [y]⟩)
      (fun _ s => Reaches (b.withEntries p fs) dir p ∧ ∃ u, fs.lookup x = some u ∧
        Holds (b.withEntries p (setField (fs.filter (·.1 ≠ x)) y u)) n s)
      (Holds (b.withEntries p fs) (n + 1)) :=
  (triple_rename_over hreach hsame hx hy).weaken (fun _ h => h)
    (fun _ _ ⟨hreach', u, hu, _, hs⟩ => ⟨hreach', u, hu, hs⟩) fun _ h => h

/-- Only a directory is removed, and what could not be removed is remembered. -/
theorem triple_removeTree_beside (hreach : Reaches (b.withEntries p es) dir p)
    (hsame : ∀ n u v, es.lookup n = some u → fs.lookup n = some v → u = v) {x : String}
    (hx : x ≠ "..") :
    Triple (Holds (b.withEntries p fs) n) (removeTree ⟨anchor, dir ++ [x]⟩)
      (fun _ s => (∃ ds, fs.lookup x = some (.dir ds)) ∧
        Holds (b.withEntries p (fs.filter (·.1 ≠ x))) n s)
      (fun s => Holds (b.withEntries p fs) n s ∧ .remove ⟨anchor, dir ++ [x]⟩ ∈ s.failed) := by
  refine triple_of_at fun failed hn => (triple_removeTree _ _ failed).weaken (fun _ h => h) ?_ ?_
  · rintro _ s ⟨place, ds, hfind, hs⟩
    obtain ⟨rfl, hfound, -⟩ := hreach.find_entry (agrees_withEntries hsame) hfind hx
    rw [get?_withEntries] at hfound
    rw [withEntries_erase] at hs
    exact ⟨⟨ds, hfound.symm⟩, .of_at hn hs⟩
  · intro s hs
    refine ⟨.of_failed hn hs, ?_⟩
    rw [hs.2]
    exact List.mem_cons_self

end Entries

end CronWrap.Session
