import CronWrap.Proofs.Files.Entries
import CronWrap.Proofs.Files.Look

/-! Work on a tree without links in which no change is made to fail: exactly when it succeeds, and what
it leaves. -/
namespace CronWrap.Session

open Workspace FileTree
open Text (Bytes)

/-- No change is made to fail. -/
def Calm (s : SessionState) : Prop := ∀ before c, s.fails before c = false

/-- The later state has this tree, and but for the records of what was done all is as before. -/
structure After (s : SessionState) (t : FileTree) (s' : SessionState) : Prop where
  tree_eq : s'.tree = t
  fails_eq : s'.fails = s.fails
  aliases_eq : s'.aliases = s.aliases

theorem After.trans {s s' s'' : SessionState} {t t' : FileTree} (h : After s t s')
    (h' : After s' t' s'') : After s t' s'' :=
  ⟨h'.tree_eq, h'.fails_eq.trans h.fails_eq, h'.aliases_eq.trans h.aliases_eq⟩

theorem After.calm {s s' : SessionState} {t : FileTree} (h : After s t s') (hs : Calm s) :
    Calm s' := by
  intro before c
  rw [h.fails_eq]
  exact hs before c

/-- Where the tree is `t` the action succeeds exactly if the condition holds, and then gives this value
and leaves the tree `t'`. -/
def Exact {α : Type} (t : FileTree) (x : Session α) (c : Prop) (a : α) (t' : FileTree) : Prop :=
  ∀ s, s.tree = t → Calm s →
    (c → ∃ s', x s = .ok a s' ∧ After s t' s') ∧ ∀ b s', x s = .ok b s' → c

/-- Where the tree is `t` the action fails and leaves it. -/
def Fails {α : Type} (t : FileTree) (x : Session α) : Prop :=
  ∀ s, s.tree = t → Calm s → ∃ e s', x s = .error e s' ∧ After s t s'

section Rules

variable {α β : Type} {x : Session α} {f : α → Session β} {c d : Prop} {a : α} {b : β}
  {t t' t'' : FileTree}

theorem bind_of_eq_ok {s s₁ : SessionState} (h : x s = .ok a s₁) : (x >>= f) s = f a s₁ := by
  change EStateM.bind x f s = _
  rw [EStateM.bind, h]

theorem exists_of_bind_eq_ok {s s' : SessionState} (h : (x >>= f) s = .ok b s') :
    ∃ a s₁, x s = .ok a s₁ ∧ f a s₁ = .ok b s' := by
  cases hx : x s with
  | ok a s₁ => exact ⟨a, s₁, rfl, (bind_of_eq_ok hx).symm.trans h⟩
  | error e s₁ =>
    change EStateM.bind x f s = _ at h
    rw [EStateM.bind, hx] at h
    cases h

/-- What a run that succeeds shows. -/
theorem Exact.of_eq_ok (h : Exact t x c a t') {s s' : SessionState} (hs : s.tree = t)
    (hcalm : Calm s) {b : α} (hx : x s = .ok b s') : c ∧ b = a ∧ After s t' s' := by
  have hc := (h s hs hcalm).2 b s' hx
  obtain ⟨s'', hx', hs''⟩ := (h s hs hcalm).1 hc
  rw [hx] at hx'
  cases hx'
  exact ⟨hc, rfl, hs''⟩

theorem Exact.congr (h : Exact t x c a t') (hc : c ↔ d) : Exact t x d a t' :=
  fun s hs hcalm => ⟨fun h' => (h s hs hcalm).1 (hc.mpr h'),
    fun b s' hx => hc.mp ((h s hs hcalm).2 b s' hx)⟩

/-- The value and the tree matter only if the condition holds. -/
theorem Exact.value {a' : α} (h : Exact t x c a t') (ha : c → a' = a ∧ t'' = t') :
    Exact t x c a' t'' := by
  refine fun s hs hcalm => ⟨fun hc => ?_, (h s hs hcalm).2⟩
  obtain ⟨rfl, rfl⟩ := ha hc
  exact (h s hs hcalm).1 hc

theorem exact_pure (t : FileTree) (a : α) : Exact t (pure a) True a t :=
  fun s hs _ => ⟨fun _ => ⟨s, rfl, hs, rfl, rfl⟩, fun _ _ _ => trivial⟩

theorem Exact.bind (hx : Exact t x c a t') (hf : c → Exact t' (f a) d b t'') :
    Exact t (x >>= f) (c ∧ d) b t'' := by
  intro s hs hcalm
  refine ⟨fun ⟨hc, hd⟩ => ?_, fun b' s'' h => ?_⟩
  · obtain ⟨s', hxs, hs'⟩ := (hx s hs hcalm).1 hc
    obtain ⟨s'', hfs, hs''⟩ := (hf hc s' hs'.tree_eq (hs'.calm hcalm)).1 hd
    exact ⟨s'', (bind_of_eq_ok hxs).trans hfs, hs'.trans hs''⟩
  · obtain ⟨a', s', hxs, h⟩ := exists_of_bind_eq_ok h
    obtain ⟨hc, rfl, hs'⟩ := hx.of_eq_ok hs hcalm hxs
    exact ⟨hc, (hf hc s' hs'.tree_eq (hs'.calm hcalm)).2 b' s'' h⟩

/-- An action that always succeeds goes before. -/
theorem Exact.then (hx : Exact t x True a t') (hf : Exact t' (f a) c b t'') :
    Exact t (x >>= f) c b t'' :=
  (hx.bind fun _ => hf).congr (by simp)

/-- A handler that gives up does not help. -/
theorem Exact.givingUp {h : Failure → Session α} (hx : Exact t x c a t')
    (hh : ∀ e s a' s', h e s ≠ .ok a' s') : Exact t (tryCatch x h) c a t' := by
  intro s hs hcalm
  refine ⟨fun hc => ?_, fun a' s'' hr => ?_⟩
  · obtain ⟨s', hxs, hs'⟩ := (hx s hs hcalm).1 hc
    refine ⟨s', ?_, hs'⟩
    change EStateM.tryCatch x h s = _
    rw [EStateM.tryCatch, hxs]
  · change EStateM.tryCatch x h s = _ at hr
    unfold EStateM.tryCatch at hr
    cases hxs : x s with
    | ok a₁ s₁ => exact (hx s hs hcalm).2 a₁ s₁ hxs
    | error e s₁ =>
      rw [hxs] at hr
      exact absurd hr (hh e _ a' s'')

theorem bind_throw_ne_ok (x : Session PUnit) (e : Failure) (s : SessionState) (a : α)
    (s' : SessionState) : (x >>= fun _ => (throw e : Session α)) s ≠ .ok a s' := by
  intro h
  obtain ⟨-, s₁, -, h⟩ := exists_of_bind_eq_ok h
  cases h

/-- A handler is not asked after a success. -/
theorem Exact.unhandled {h : Failure → Session α} (hx : Exact t x c a t') (hc : c) :
    Exact t (tryCatch x h) True a t' := by
  intro s hs hcalm
  obtain ⟨s', hxs, hs'⟩ := (hx s hs hcalm).1 hc
  refine ⟨fun _ => ⟨s', ?_, hs'⟩, fun _ _ _ => trivial⟩
  change EStateM.tryCatch x h s = _
  rw [EStateM.tryCatch, hxs]

theorem Fails.handled {h : Failure → Session α} (hx : Fails t x)
    (hh : ∀ e, Exact t (h e) c a t') : Exact t (tryCatch x h) c a t' := by
  intro s hs hcalm
  obtain ⟨e, s', hxs, hs'⟩ := hx s hs hcalm
  have hrun : tryCatch x h s = h e s' := by
    change EStateM.tryCatch x h s = _
    rw [EStateM.tryCatch, hxs]
    rfl
  have hexact := hh e s' hs'.tree_eq (hs'.calm hcalm)
  refine ⟨fun hc => ?_, fun a' s'' hr => hexact.2 a' s'' (hrun ▸ hr)⟩
  obtain ⟨s'', hhs, hs''⟩ := hexact.1 hc
  exact ⟨s'', hrun.trans hhs, hs'.trans hs''⟩

/-- A run that succeeds and only looks. -/
theorem Looks.of_eq_ok (hx : Looks x) {s s' : SessionState} (h : x s = .ok a s') :
    Sees s.tree x (.ok a) ∧ After s s.tree s' := by
  obtain ⟨r, hr, -⟩ := hx s.tree
  obtain ⟨rfl, log, rfl⟩ := hr.of_eq_ok rfl h
  exact ⟨hr, rfl, rfl, rfl⟩

/-- What is seen is the outcome of a run. -/
theorem Sees.exists_eq_ok (h : Sees t x (.ok a)) {s : SessionState} (hs : s.tree = t) :
    ∃ s', x s = .ok a s' ∧ After s t s' := by
  obtain ⟨log, hx⟩ := h s hs
  exact ⟨_, hx, hs, rfl, rfl⟩

theorem exact_of_sees {q : Prop} [Decidable q] {e : Failure}
    (h : Sees t x (if q then .ok a else .error e)) : Exact t x q a t := by
  intro s hs _
  obtain ⟨log, hx⟩ := h s hs
  refine ⟨fun hq => ?_, fun b s' hb => ?_⟩
  · rw [if_pos hq] at hx
    exact ⟨_, hx, hs, rfl, rfl⟩
  · by_contra hq
    rw [if_neg hq, hb] at hx
    cases hx

theorem exact_of_sees_ok (h : Sees t x (.ok a)) : Exact t x True a t := by
  intro s hs _
  obtain ⟨log, hx⟩ := h s hs
  exact ⟨fun _ => ⟨_, hx, hs, rfl, rfl⟩, fun _ _ _ => trivial⟩

theorem fails_of_sees {e : Failure} (h : Sees t x (.error e)) : Fails t x := by
  intro s hs _
  obtain ⟨log, hx⟩ := h s hs
  exact ⟨e, _, hx, hs, rfl, rfl⟩

theorem Exact.of_fails (h : Fails t x) (a : α) (t' : FileTree) : Exact t x False a t' := by
  intro s hs hcalm
  obtain ⟨e, s', hx, -⟩ := h s hs hcalm
  refine ⟨False.elim, fun b s'' hb => ?_⟩
  rw [hx] at hb
  cases hb

/-- A loop succeeds exactly if each round does, given the tree that the rounds before it leave. -/
theorem exact_forM {γ : Type} {g : γ → Session PUnit} {c : γ → Prop} {tree : List γ → FileTree}
    (l : List γ) (hg : ∀ done i rest, l = done ++ i :: rest →
      Exact (tree done) (g i) (c i) () (tree (done ++ [i]))) :
    Exact (tree []) (l.forM g) (∀ i ∈ l, c i) () (tree l) := by
  have hrest : ∀ rest done, l = done ++ rest →
      Exact (tree done) (rest.forM g) (∀ i ∈ rest, c i) () (tree l) := by
    intro rest
    induction rest with
    | nil =>
      rintro done rfl
      rw [List.append_nil]
      exact (exact_pure _ _).congr (by simp)
    | cons i rest ih =>
      intro done hl
      have hnext := ih (done ++ [i]) (by simp [hl])
      exact ((hg done i rest hl).bind (f := fun _ => rest.forM g) fun _ => hnext).congr (by simp)
  exact hrest l [] rfl

end Rules

/-! ## Changes -/

section Changes

variable {t t' : FileTree} {p q : Path} {c : Change} {P : Prop} {action : Session Unit}

theorem exact_setTree (t t' : FileTree) : Exact t (setTree t') True () t' :=
  fun _ _ _ => ⟨fun _ => ⟨_, rfl, rfl, rfl, rfl⟩, fun _ _ _ => trivial⟩

theorem exact_edit (g : FileTree → FileTree) (t : FileTree) :
    Exact t (do setTree (g (← getThe SessionState).tree)) True () (g t) := by
  intro s hs hcalm
  have h := exact_setTree t (g s.tree) s hs hcalm
  rw [hs] at h
  subst hs
  exact h

theorem exact_attempt (t : FileTree) (c : Change) (p : Path) : Exact t (attempt c p) True () t := by
  intro s hs hcalm
  have hx : attempt c p s = .ok () { s with attempted := c :: s.attempted } := by
    change (if s.fails s.attempted c then fail .refused p else pure PUnit.unit : Session Unit) _ = _
    rw [hcalm s.attempted c]
    rfl
  exact ⟨fun _ => ⟨_, hx, hs, rfl, rfl⟩, fun _ _ _ => trivial⟩

theorem exact_change (h : Exact t action P () t') (c : Change) (p : Path) :
    Exact t (change c p action) P () t' :=
  Exact.givingUp ((exact_attempt t c p).then h) fun e => bind_throw_ne_ok _ e

theorem fails_change (h : Fails t action) (c : Change) (p : Path) :
    Fails t (change c p action) := by
  intro s hs hcalm
  obtain ⟨s₁, hx, hs₁⟩ := (exact_attempt t c p s hs hcalm).1 trivial
  obtain ⟨e, s₂, hx', hs₂⟩ := h s₁ hs₁.tree_eq (hs₁.calm hcalm)
  have hafter := hs₁.trans hs₂
  refine ⟨e, { s₂ with failed := c :: s₂.failed }, ?_, hafter.1, hafter.2, hafter.3⟩
  have hrun : (do attempt c p; action : Session Unit) s = .error e s₂ := by
    change EStateM.bind (attempt c p) (fun _ => action) s = _
    rw [EStateM.bind, hx]
    exact hx'
  change EStateM.tryCatch (do attempt c p; action : Session Unit) _ s = _
  rw [EStateM.tryCatch, hrun]
  rfl

theorem exact_write_of_find {place : Place} {old : Bytes}
    (h : t.find true p = .ok (place, some (.file old))) (content : Bytes) :
    Exact t (Session.write p content) True () (t.set (.file content) place) := by
  have hfind := sees_find t true p
  rw [h] at hfind
  exact exact_change ((exact_of_sees_ok hfind).then (exact_edit (·.set (.file content) place) t)) _ _

variable (ht : NoLinks t) (hup : ".." ∉ p.segments)

include ht hup

/-- A path of which the directory is there is found, unless it does not fit. -/
theorem exact_find (hparent : p.segments ≠ [] → t.isDirAt p.segments.dropLast) (last : Bool) :
    Exact t (find last p) p.Fits (p.segments, t.get? p.segments) t := by
  have h := sees_find t last p
  by_cases hfits : p.Fits
  · rw [ht.find hup hfits hparent last] at h
    exact (exact_of_sees_ok h).congr (by simp [hfits])
  · refine fun s hs _ => ⟨fun hf => absurd hf hfits, fun found s' hx => ?_⟩
    obtain ⟨hfound, -⟩ := h.of_eq_ok hs hx
    cases hfind : t.find last p with
    | error cause =>
      rw [hfind] at hfound
      cases hfound
    | ok r => exact (ht.of_find hup hfind).2.2.1

theorem exact_write (hparent : p.segments ≠ [] → t.isDirAt p.segments.dropLast)
    (hfile : t.isDirAt p.segments = false) (content : Bytes) :
    Exact t (Session.write p content) p.Fits () (t.set (.file content) p.segments) := by
  refine exact_change (((exact_find ht hup hparent true).bind (d := True) fun _ => ?_).congr
    (by simp)) _ _
  rw [isDirAt] at hfile
  simp only [hfile]
  exact exact_edit (·.set (.file content) p.segments) t

theorem exact_makeDir (hparent : t.isDirAt p.segments.dropLast)
    (habsent : t.get? p.segments = none) :
    Exact t (Session.makeDir p) p.Fits () (t.set .empty p.segments) := by
  refine exact_change (((exact_find ht hup (fun _ => hparent) false).bind (d := True)
    fun _ => ?_).congr (by simp)) _ _
  rw [habsent]
  exact exact_edit (·.set .empty p.segments) t

/-- What is there already is not made. -/
theorem exact_makeDir_of_isSome (hsome : (t.get? p.segments).isSome) (t' : FileTree) :
    Exact t (Session.makeDir p) False () t' := by
  refine exact_change (((exact_find ht hup (parent_of_isSome hsome) false).bind (d := False)
    fun _ => ?_).congr (by simp)) _ _
  obtain ⟨u, hu⟩ := Option.isSome_iff_exists.mp hsome
  rw [hu]
  exact Exact.of_fails (fails_of_sees (sees_throw t (.file ⟨.exists, p⟩)).bind_error) () t'

theorem exact_rename (hq : ".." ∉ q.segments) {u : FileTree}
    (hsource : t.get? p.segments = some u) (hparent : t.isDirAt q.segments.dropLast)
    (habsent : t.get? q.segments = none) :
    Exact t (Session.rename p q) (p.Fits ∧ q.Fits) ()
      ((t.erase p.segments).set u q.segments) := by
  refine exact_change ((exact_find ht hup (parent_of_isSome (by simp [hsource])) false).bind
    fun _ => ((exact_find ht hq (fun _ => hparent) false).bind (d := True) fun _ => ?_).congr
      (by simp)) _ _
  rw [hsource, habsent]
  exact exact_edit (fun t => (t.erase p.segments).set u q.segments) t

theorem exact_removeTree {es : List (String × FileTree)}
    (hdir : t.get? p.segments = some (.dir es)) :
    Exact t (Session.removeTree p) p.Fits () (t.erase p.segments) := by
  refine exact_change (((exact_find ht hup (parent_of_isSome (by simp [hdir])) false).bind
    (d := True) fun _ => ?_).congr (by simp)) _ _
  rw [hdir]
  exact exact_edit (·.erase p.segments) t

/-- A file is not removed. -/
theorem fails_removeTree {u : FileTree} (hfile : t.get? p.segments = some u)
    (hdir : u.isDir = false) : Fails t (Session.removeTree p) := by
  refine fails_change ?_ _ _
  have hfind := sees_find t false p
  rw [ht.find_of_isSome hup (by simp [hfile])] at hfind
  split at hfind
  · rw [hfile] at hfind
    cases u with
    | dir es => cases hdir
    | file content => exact fails_of_sees (hfind.bind (sees_throw t (.file ⟨.notADirectory, p⟩)))
    | link target => exact fails_of_sees (hfind.bind (sees_throw t (.file ⟨.notADirectory, p⟩)))
  · exact fails_of_sees hfind.bind_error

theorem exact_names {es : List (String × FileTree)} (hdir : t.get? p.segments = some (.dir es)) :
    Exact t (Workspace.names p : Session _) p.Fits (es.map (·.1)) t := by
  refine ((exact_find ht hup (parent_of_isSome (by simp [hdir])) true).bind (d := True)
    fun _ => ?_).congr (by simp)
  rw [hdir]
  exact exact_pure t _

end Changes

/-! ## Runs that pass a test -/

section Passes

/-- The run succeeds, and what it gives and leaves passes a test. -/
def Passes {α : Type} (x : Session α) (s : SessionState) (test : α → SessionState → Bool) : Bool :=
  match x s with
  | .ok a s' => test a s'
  | .error _ _ => false

variable {α : Type} {x : Session α} {s : SessionState} {test : α → SessionState → Bool}

theorem exists_eq_ok_of_passes (h : Passes x s test) : ∃ a s', x s = .ok a s' ∧ test a s' := by
  unfold Passes at h
  split at h
  · exact ⟨_, _, ‹_›, h⟩
  · cases h

theorem Looks.sees_of_passes [DecidableEq α] (hx : Looks x) {t : FileTree} {a : α}
    (h : Passes x { tree := t } fun b _ => b = a) : Sees t x (.ok a) := by
  obtain ⟨b, s', hrun, hb⟩ := exists_eq_ok_of_passes h
  obtain rfl := of_decide_eq_true hb
  exact (hx.of_eq_ok hrun).1

theorem exists_eq_error_of_not_passes (h : Passes x s (fun _ _ => true) = false) :
    ∃ e s', x s = .error e s' := by
  unfold Passes at h
  split at h
  · cases h
  · exact ⟨_, _, ‹_›⟩

end Passes

end CronWrap.Session
