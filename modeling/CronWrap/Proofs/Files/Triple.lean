import CronWrap.Files.Session
import Mathlib.Tactic.Common

/-! Hoare triples for work on a file tree in memory. -/
namespace CronWrap.Session

open Workspace
open Text (Bytes)

/-- Started where `P` holds, an action ends where `Q` holds, or fails where `E` holds. -/
def Triple {α : Type} (P : SessionState → Prop) (x : Session α) (Q : α → SessionState → Prop)
    (E : SessionState → Prop) : Prop :=
  ∀ s, P s → match x s with
    | .ok a s' => Q a s'
    | .error _ s' => E s'

section Rules

variable {α β : Type} {P P' : SessionState → Prop} {Q Q' : α → SessionState → Prop}
  {R : β → SessionState → Prop} {E E' : SessionState → Prop} {x : Session α} {f : α → Session β}

theorem Triple.weaken (h : Triple P x Q E) (hP : ∀ s, P' s → P s) (hQ : ∀ a s, Q a s → Q' a s)
    (hE : ∀ s, E s → E' s) : Triple P' x Q' E' := by
  intro s hs
  have hx := h s (hP s hs)
  split
  · rename_i a s' he
    rw [he] at hx
    exact hQ a s' hx
  · rename_i e s' he
    rw [he] at hx
    exact hE s' hx

theorem triple_pure (a : α) (h : ∀ s, P s → Q a s) : Triple P (pure a) Q E := h

theorem triple_throw (e : Failure) (h : ∀ s, P s → E s) : Triple P (throw e : Session α) Q E := h

theorem Triple.bind (hx : Triple P x Q E) (hf : ∀ a, Triple (Q a) (f a) R E) :
    Triple P (x >>= f) R E := by
  intro s hs
  have hq := hx s hs
  change match EStateM.bind x f s with
    | .ok b s' => R b s'
    | .error _ s' => E s'
  unfold EStateM.bind
  cases he : x s with
  | ok a s' =>
    rw [he] at hq
    exact hf a s' hq
  | error e s' =>
    rw [he] at hq
    exact hq

theorem Triple.tryCatch {h : Failure → Session α} (hx : Triple P x Q E')
    (hh : ∀ e, Triple E' (h e) Q E) : Triple P (tryCatch x h) Q E := by
  intro s hs
  have hq := hx s hs
  change match EStateM.tryCatch x h s with
    | .ok a s' => Q a s'
    | .error _ s' => E s'
  unfold EStateM.tryCatch
  cases he : x s with
  | ok a s' =>
    rw [he] at hq
    exact hq
  | error e s' =>
    rw [he] at hq
    exact hh e s' hq

theorem triple_ignoring {x : Session Unit} {I : SessionState → Prop}
    (h : Triple P x (fun _ => I) I) : Triple P (ignoring x) (fun _ => I) E :=
  h.tryCatch fun _ => triple_pure _ fun _ hs => hs

/-- A loop keeps what each round keeps. -/
theorem triple_forM {γ : Type} {I : SessionState → Prop} {g : γ → Session PUnit} (l : List γ)
    (hg : ∀ a ∈ l, Triple I (g a) (fun _ => I) E) : Triple I (l.forM g) (fun _ => I) E := by
  induction l with
  | nil => exact triple_pure _ fun _ h => h
  | cons a l ih =>
    exact (hg a List.mem_cons_self).bind fun _ => ih fun b hb => hg b (List.mem_cons_of_mem _ hb)

theorem triple_forM_append {γ : Type} {I : SessionState → Prop} {R : PUnit → SessionState → Prop}
    {g : γ → Session PUnit} {as bs : List γ} (h : Triple P (as.forM g) (fun _ => I) E)
    (h' : Triple I (bs.forM g) R E) : Triple P ((as ++ bs).forM g) R E := by
  have happ : (as ++ bs).forM g = (do as.forM g; bs.forM g) := List.forM_append
  rw [happ]
  exact h.bind fun _ => h'

/-- What holds whatever the state is may be assumed. -/
theorem triple_of_forall {p : Prop} (h : p → Triple P x Q E) : Triple (fun s => p ∧ P s) x Q E :=
  fun s hs => h hs.1 s hs.2

theorem triple_or (h : Triple P x Q E) (h' : Triple P' x Q E) :
    Triple (fun s => P s ∨ P' s) x Q E :=
  fun s hs => hs.elim (h s) (h' s)

/-- It is enough to look at each of the states in which an action may start. -/
theorem triple_of_eq (h : ∀ s, P s → Triple (· = s) x Q E) : Triple P x Q E :=
  fun s hs => h s hs s rfl

theorem triple_of_exists {ι : Type} {F : ι → SessionState → Prop} (h : ∀ i, Triple (F i) x Q E) :
    Triple (fun s => ∃ i, F i s) x Q E :=
  fun s ⟨i, hs⟩ => h i s hs

end Rules

/-! ## What an action does to the tree -/

/-- The state has this tree, and these changes have failed so far. -/
def At (t : FileTree) (failed : List Change) (s : SessionState) : Prop :=
  s.tree = t ∧ s.failed = failed

/-- An action that changes nothing in the tree. -/
def Quiet {α : Type} (x : Session α) : Prop :=
  ∀ t failed, Triple (At t failed) x (fun _ => At t failed) (At t failed)

section Quiet

variable {α β : Type} {x : Session α} {f : α → Session β}

theorem quiet_pure (a : α) : Quiet (pure a : Session α) := fun _ _ => triple_pure a fun _ h => h

theorem quiet_throw (e : Failure) : Quiet (throw e : Session α) :=
  fun _ _ => triple_throw e fun _ h => h

theorem Quiet.bind (hx : Quiet x) (hf : ∀ a, Quiet (f a)) : Quiet (x >>= f) :=
  fun t failed => (hx t failed).bind fun a => hf a t failed

theorem Quiet.tryCatch {h : Failure → Session α} (hx : Quiet x) (hh : ∀ e, Quiet (h e)) :
    Quiet (tryCatch x h) :=
  fun t failed => (hx t failed).tryCatch fun e => hh e t failed

theorem quiet_fail (cause : FileCause) (p : Path) : Quiet (fail cause p : Session α) :=
  quiet_throw _

theorem quiet_note (e : LogEntry) : Quiet (note e : Session Unit) := fun _ _ _ h => h

end Quiet

theorem triple_get (t : FileTree) (failed : List Change) :
    Triple (At t failed) (getThe SessionState : Session SessionState)
      (fun s s' => At t failed s ∧ s' = s) (At t failed) :=
  fun _ hs => ⟨hs, rfl⟩

/-- Finding tells what is in the tree. -/
theorem triple_find (last : Bool) (p : Path) (t : FileTree) (failed : List Change) :
    Triple (At t failed) (find last p)
      (fun r s => t.find last p = .ok r ∧ At t failed s) (At t failed) := by
  refine (triple_get t failed).bind fun s => triple_of_forall ?_
  rintro ⟨rfl, rfl⟩
  cases hfind : s.tree.find last p with
  | ok found => exact triple_pure found fun _ h => ⟨rfl, h ▸ ⟨rfl, rfl⟩⟩
  | error cause => exact triple_throw _ fun _ h => h ▸ ⟨rfl, rfl⟩

theorem triple_find? (last : Bool) (p : Path) (s : SessionState) :
    Triple (· = s) (find? last p)
      (fun r s' => s.tree.find? last p = .ok r ∧ s' = s) (· = s) := by
  refine Triple.bind (Q := fun r s' => r = s ∧ s' = s) ?_ fun r => triple_of_forall ?_
  · rintro _ rfl
    exact ⟨rfl, rfl⟩
  · rintro rfl
    cases hfind : r.tree.find? last p with
    | ok found => exact triple_pure found fun _ h => ⟨rfl, h⟩
    | error cause => exact triple_throw _ fun _ h => h

theorem quiet_find (last : Bool) (p : Path) : Quiet (find last p) :=
  fun t failed => (triple_find last p t failed).weaken (fun _ h => h) (fun _ _ h => h.2) fun _ h => h

theorem quiet_find? (last : Bool) (p : Path) : Quiet (find? last p) :=
  fun _ _ => triple_of_eq fun s hs => (triple_find? last p s).weaken (fun _ h => h)
    (fun _ _ h => h.2 ▸ hs) fun _ h => h ▸ hs

theorem quiet_names (p : Path) : Quiet (names p) := by
  refine (quiet_find true p).bind fun r => ?_
  split
  · exact quiet_pure _
  · exact quiet_fail _ p
  · exact quiet_fail _ p

theorem quiet_unused (directory : Path) (head : String) :
    Quiet (Workspace.unused directory head : Session Path) :=
  (quiet_names directory).bind fun _ => quiet_pure _

theorem quiet_attempt (c : Change) (p : Path) : Quiet (attempt c p) := by
  intro t failed
  refine (triple_get t failed).bind fun s => triple_of_forall fun hs => ?_
  refine Triple.bind (Q := fun _ => At t failed) (fun _ _ => hs) fun _ => ?_
  split
  · exact quiet_fail _ _ t failed
  · exact quiet_pure _ t failed

/-- A change that fails leaves the tree as it is, and is remembered. -/
theorem triple_change {c : Change} {p : Path} {action : Session Unit} {t : FileTree}
    {failed : List Change} {Q : Unit → SessionState → Prop}
    (h : Triple (At t failed) action Q (At t failed)) :
    Triple (At t failed) (change c p action) Q (At t (c :: failed)) := by
  refine Triple.tryCatch ((quiet_attempt c p t failed).bind fun _ => h) ?_
  intro e s hs
  exact ⟨hs.1, congrArg (c :: ·) hs.2⟩

theorem triple_fail {α : Type} (cause : FileCause) (p : Path) (t : FileTree)
    (failed : List Change) (Q : α → SessionState → Prop) :
    Triple (At t failed) (fail cause p) Q (At t failed) := fun _ h => h

theorem triple_edit (g : FileTree → FileTree) (t : FileTree) (failed : List Change) :
    Triple (At t failed) (do setTree (g (← getThe SessionState).tree))
      (fun _ => At (g t) failed) (At t failed) := by
  refine (triple_get t failed).bind fun s => triple_of_forall fun hs => ?_
  rintro s' rfl
  exact ⟨congrArg g hs.1, hs.2⟩

theorem triple_write (p : Path) (content : Bytes) (t : FileTree) (failed : List Change) :
    Triple (At t failed) (write p content)
      (fun _ s => ∃ place found, t.find true p = .ok (place, found) ∧
        found.any (·.isDir) = false ∧ At (t.set (.file content) place) failed s)
      (At t (.write p :: failed)) := by
  refine triple_change ((triple_find true p t failed).bind fun r => ?_)
  refine triple_of_forall fun hfind => ?_
  obtain ⟨place, found⟩ := r
  by_cases hdir : found.any (·.isDir)
  · simp only [hdir, if_true]
    exact (triple_fail _ p t failed fun _ _ => False).bind fun _ _ h => h.elim
  · simp only [hdir]
    refine (triple_edit (·.set (.file content) place) t failed).weaken (fun _ h => h)
      (fun _ s h => ?_) fun _ h => h
    exact ⟨place, found, hfind, by simpa using hdir, h⟩

theorem triple_makeDir (p : Path) (t : FileTree) (failed : List Change) :
    Triple (At t failed) (makeDir p)
      (fun _ s => ∃ place, t.find false p = .ok (place, none) ∧ At (t.set .empty place) failed s)
      (At t (.makeDir p :: failed)) := by
  refine triple_change ((triple_find false p t failed).bind fun r => ?_)
  refine triple_of_forall fun hfind => ?_
  obtain ⟨place, found⟩ := r
  cases found with
  | some u => exact (triple_fail _ p t failed fun _ _ => False).bind fun _ _ h => h.elim
  | none =>
    refine (triple_edit (·.set .empty place) t failed).weaken (fun _ h => h) (fun _ s h => ?_)
      fun _ h => h
    exact ⟨place, hfind, h⟩

theorem triple_rename (p q : Path) (t : FileTree) (failed : List Change) :
    Triple (At t failed) (rename p q)
      (fun _ s => ∃ place source newPlace there, t.find false p = .ok (place, some source) ∧
        t.find false q = .ok (newPlace, there) ∧
        there.elim (.ok ()) (yields source) = .ok () ∧
        At ((t.erase place).set source newPlace) failed s)
      (At t (.rename p q :: failed)) := by
  refine triple_change ((triple_find false p t failed).bind fun r => ?_)
  refine triple_of_forall fun hfind => ?_
  obtain ⟨place, found⟩ := r
  refine (triple_find false q t failed).bind fun r => triple_of_forall fun hfind' => ?_
  obtain ⟨newPlace, there⟩ := r
  cases found with
  | none => exact triple_fail _ p t failed _
  | some source =>
    cases hyields : there.elim (.ok ()) (yields source) with
    | error cause =>
      simp only [hyields]
      exact triple_fail _ p t failed _
    | ok =>
      simp only [hyields]
      refine (triple_edit (fun t => (t.erase place).set source newPlace) t failed).weaken
        (fun _ h => h) (fun _ s h => ?_) fun _ h => h
      exact ⟨place, source, newPlace, there, hfind, hfind', hyields, h⟩

theorem triple_removeTree (p : Path) (t : FileTree) (failed : List Change) :
    Triple (At t failed) (removeTree p)
      (fun _ s => ∃ place es, t.find false p = .ok (place, some (.dir es)) ∧
        At (t.erase place) failed s)
      (At t (.remove p :: failed)) := by
  refine triple_change ((triple_find false p t failed).bind fun r => ?_)
  refine triple_of_forall fun hfind => ?_
  obtain ⟨place, found⟩ := r
  cases found with
  | none => exact triple_fail _ p t failed _
  | some u =>
    cases u with
    | dir es =>
      refine (triple_edit (·.erase place) t failed).weaken (fun _ h => h) (fun _ s h => ?_)
        fun _ h => h
      exact ⟨place, es, hfind, h⟩
    | file content => exact triple_fail _ p t failed _
    | link target => exact triple_fail _ p t failed _

end CronWrap.Session
