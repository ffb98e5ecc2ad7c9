import CronWrap.Proofs.Files.Triple

/-! A change that failed stays on record, so what is on record in the end limits what can have failed
before. -/
namespace CronWrap.Session

open Workspace
open Text (Bytes)

/-- These changes are among those that failed. -/
def Failed (failed : List Change) (s : SessionState) : Prop := failed ⊆ s.failed

/-- An action that takes no failed change off the record. -/
def Remembers {α : Type} (x : Session α) : Prop :=
  ∀ failed, Triple (Failed failed) x (fun _ => Failed failed) (Failed failed)

section Rules

variable {α β : Type} {x : Session α} {f : α → Session β}

theorem Quiet.remembers (h : Quiet x) : Remembers x := by
  intro failed
  refine triple_of_eq fun s hs => (h s.tree s.failed).weaken ?_ ?_ ?_
  · rintro _ rfl
    exact ⟨rfl, rfl⟩
  · exact fun _ s' hs' => fun c hc => by rw [hs'.2]; exact hs hc
  · exact fun s' hs' => fun c hc => by rw [hs'.2]; exact hs hc

theorem Remembers.bind (hx : Remembers x) (hf : ∀ a, Remembers (f a)) : Remembers (x >>= f) :=
  fun failed => (hx failed).bind fun a => hf a failed

theorem Remembers.tryCatch {h : Failure → Session α} (hx : Remembers x)
    (hh : ∀ e, Remembers (h e)) : Remembers (tryCatch x h) :=
  fun failed => (hx failed).tryCatch fun e => hh e failed

theorem Remembers.ignoring {x : Session Unit} (hx : Remembers x) : Remembers (ignoring x) :=
  hx.tryCatch fun _ => (quiet_pure ()).remembers

theorem Remembers.forM {γ : Type} {g : γ → Session PUnit} (l : List γ)
    (hg : ∀ a ∈ l, Remembers (g a)) : Remembers (l.forM g) :=
  fun failed => triple_forM l fun a ha => hg a ha failed

theorem Remembers.change {c : Change} {p : Path} {action : Session Unit} (h : Remembers action) :
    Remembers (change c p action) := by
  refine Remembers.tryCatch ((quiet_attempt c p).remembers.bind fun _ => h) fun e => ?_
  refine Remembers.bind (fun failed s hs => ?_) fun _ => (quiet_throw e).remembers
  exact List.subset_cons_of_subset c hs

end Rules

theorem remembers_edit (g : FileTree → FileTree) :
    Remembers (do setTree (g (← getThe SessionState).tree)) := fun _ _ hs => hs

theorem remembers_write (p : Path) (content : Bytes) : Remembers (write p content) := by
  refine .change ((quiet_find true p).remembers.bind fun r => ?_)
  obtain ⟨place, found⟩ := r
  dsimp only
  split
  · exact (quiet_fail _ p).remembers.bind fun _ => remembers_edit (·.set (.file content) place)
  · exact remembers_edit (·.set (.file content) place)

theorem remembers_makeDir (p : Path) : Remembers (makeDir p) := by
  refine .change ((quiet_find false p).remembers.bind fun r => ?_)
  obtain ⟨place, found⟩ := r
  dsimp only
  split
  · exact (quiet_fail _ p).remembers.bind fun _ => remembers_edit (·.set .empty place)
  · exact remembers_edit (·.set .empty place)

theorem remembers_rename (p q : Path) : Remembers (rename p q) := by
  refine .change ((quiet_find false p).remembers.bind fun r =>
    (quiet_find false q).remembers.bind fun r' => ?_)
  obtain ⟨place, found⟩ := r
  cases found with
  | none => exact (quiet_fail _ p).remembers
  | some source =>
    dsimp only
    split
    · exact remembers_edit fun t => (t.erase place).set source r'.1
    · exact (quiet_fail _ p).remembers

theorem remembers_removeTree (p : Path) : Remembers (removeTree p) := by
  refine .change ((quiet_find false p).remembers.bind fun r => ?_)
  obtain ⟨place, found⟩ := r
  match found with
  | some (.dir _) => exact remembers_edit (·.erase place)
  | some (.file _) | some (.link _) | none => exact (quiet_fail _ p).remembers

/-! ## Runs of which only certain changes failed -/

/-- What is said of the failed changes is said of fewer, too. -/
def Hereditary (allowed : List Change → Prop) : Prop :=
  ∀ failed failed', failed ⊆ failed' → allowed failed' → allowed failed

/-- A condition that holds as long as only allowed changes have failed is kept by an action that keeps
it then: where others have failed, they stay on record. -/
theorem triple_while_allowed {α : Type} {allowed : List Change → Prop} (h : Hereditary allowed)
    {P : SessionState → Prop} {x : Session α} {Q : α → SessionState → Prop} (hrem : Remembers x)
    (hx : Triple P x (fun a s => allowed s.failed → Q a s) fun _ => True) :
    Triple (fun s => allowed s.failed → P s) x (fun a s => allowed s.failed → Q a s)
      fun _ => True := by
  intro s hs
  by_cases hallowed : allowed s.failed
  · exact hx s (hs hallowed)
  · have hkept := hrem s.failed s fun _ hc => hc
    cases hxs : x s with
    | ok a s' =>
      rw [hxs] at hkept
      exact fun hallowed' => absurd (h _ _ hkept hallowed') hallowed
    | error e s' => trivial

end CronWrap.Session
