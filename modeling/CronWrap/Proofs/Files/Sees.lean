import CronWrap.Files.Session
import Mathlib.Tactic.Common

/-! Actions that only look at the files: what they tell is a matter of the tree. -/
namespace CronWrap.Session

open Workspace

/-- Where the tree is this one, the action has this outcome, and changes nothing but the log. -/
def Sees {α : Type} (t : FileTree) (x : Session α) (r : Except Failure α) : Prop :=
  ∀ s, s.tree = t → ∃ log, x s = match r with
    | .ok a => .ok a { s with log := log }
    | .error e => .error e { s with log := log }

section Rules

variable {α β : Type} {t : FileTree} {x : Session α} {f : α → Session β} {a : α} {e : Failure}
  {r : Except Failure α} {r' : Except Failure β}

theorem sees_pure (t : FileTree) (a : α) : Sees t (pure a) (.ok a) := fun s _ => ⟨s.log, rfl⟩

theorem sees_throw (t : FileTree) (e : Failure) : Sees t (throw e : Session α) (.error e) :=
  fun s _ => ⟨s.log, rfl⟩

theorem sees_note (t : FileTree) (entry : LogEntry) : Sees t (note entry : Session Unit) (.ok ()) :=
  fun s _ => ⟨s.log ++ [entry], rfl⟩

theorem Sees.bind (hx : Sees t x (.ok a)) (hf : Sees t (f a) r') : Sees t (x >>= f) r' := by
  intro s hs
  obtain ⟨log, hx⟩ := hx s hs
  obtain ⟨log', hf⟩ := hf { s with log := log } hs
  refine ⟨log', ?_⟩
  change EStateM.bind x f s = _
  rw [EStateM.bind, hx]
  cases r' with
  | ok b => exact hf
  | error e => exact hf

theorem Sees.bind_error (hx : Sees t x (.error e)) : Sees t (x >>= f) (.error e) := by
  intro s hs
  obtain ⟨log, hx⟩ := hx s hs
  refine ⟨log, ?_⟩
  change EStateM.bind x f s = _
  rw [EStateM.bind, hx]

theorem Sees.unhandled {h : Failure → Session α} (hx : Sees t x (.ok a)) :
    Sees t (tryCatch x h) (.ok a) := by
  intro s hs
  obtain ⟨log, hx⟩ := hx s hs
  refine ⟨log, ?_⟩
  change EStateM.tryCatch x h s = _
  rw [EStateM.tryCatch, hx]

theorem Sees.handled {h : Failure → Session α} (hx : Sees t x (.error e))
    (hh : Sees t (h e) r) : Sees t (tryCatch x h) r := by
  intro s hs
  obtain ⟨log, hx⟩ := hx s hs
  obtain ⟨log', hh⟩ := hh { s with log := log } hs
  refine ⟨log', ?_⟩
  change EStateM.tryCatch x h s = _
  rw [EStateM.tryCatch, hx]
  cases r with
  | ok a => exact hh
  | error e' => exact hh

/-- What is seen is known from any one run. -/
theorem Sees.of_eq_ok (h : Sees t x r) {s s' : SessionState} (hs : s.tree = t)
    (hx : x s = .ok a s') : r = .ok a ∧ ∃ log, s' = { s with log := log } := by
  obtain ⟨log, hr⟩ := h s hs
  rw [hx] at hr
  cases r with
  | ok b =>
    cases hr
    exact ⟨rfl, log, rfl⟩
  | error e => cases hr

theorem Sees.unique {r' : Except Failure α} (h : Sees t x r) (h' : Sees t x r') : r = r' := by
  obtain ⟨log, hr⟩ := h { tree := t } rfl
  obtain ⟨log', hr'⟩ := h' { tree := t } rfl
  rw [hr] at hr'
  cases r <;> cases r' <;> cases hr' <;> rfl

theorem Sees.eq_ok (h : Sees t x (.ok a)) {s : SessionState} (hs : s.tree = t) :
    ∃ log, x s = .ok a { s with log := log } := h s hs

end Rules

/-! ## Seeing the same in two trees -/

/-- The action sees the same in both trees. -/
def Steady {α : Type} (t t' : FileTree) (x : Session α) : Prop := ∃ r, Sees t x r ∧ Sees t' x r

section Steady

variable {α β : Type} {t t' : FileTree} {x : Session α} {f : α → Session β}

theorem steady_pure (a : α) : Steady t t' (pure a : Session α) :=
  ⟨.ok a, sees_pure t a, sees_pure t' a⟩

theorem steady_throw (e : Failure) : Steady t t' (throw e : Session α) :=
  ⟨.error e, sees_throw t e, sees_throw t' e⟩

theorem steady_note (entry : LogEntry) : Steady t t' (note entry : Session Unit) :=
  ⟨.ok (), sees_note t entry, sees_note t' entry⟩

theorem Steady.bind (hx : Steady t t' x) (hf : ∀ a, Sees t x (.ok a) → Steady t t' (f a)) :
    Steady t t' (x >>= f) := by
  obtain ⟨r, hr, hr'⟩ := hx
  cases r with
  | ok a =>
    obtain ⟨r', hf, hf'⟩ := hf a hr
    exact ⟨r', hr.bind hf, hr'.bind hf'⟩
  | error e => exact ⟨.error e, hr.bind_error, hr'.bind_error⟩

theorem Steady.handled {h : Failure → Session α} (hx : Steady t t' x)
    (hh : ∀ e, Steady t t' (h e)) : Steady t t' (tryCatch x h) := by
  obtain ⟨r, hr, hr'⟩ := hx
  cases r with
  | ok a => exact ⟨.ok a, hr.unhandled, hr'.unhandled⟩
  | error e =>
    obtain ⟨r', hh, hh'⟩ := hh e
    exact ⟨r', hr.handled hh, hr'.handled hh'⟩

theorem Steady.symm (h : Steady t t' x) : Steady t' t x := by
  obtain ⟨r, h, h'⟩ := h
  exact ⟨r, h', h⟩

theorem Steady.sees {r : Except Failure α} (h : Steady t t' x) (hr : Sees t x r) :
    Sees t' x r := by
  obtain ⟨r', h, h'⟩ := h
  rwa [hr.unique h]

theorem steady_mapM {γ : Type} {g : γ → Session β} {l : List γ} (hg : ∀ c ∈ l, Steady t t' (g c)) :
    Steady t t' (l.mapM g) := by
  induction l with
  | nil =>
    rw [List.mapM_nil]
    exact steady_pure []
  | cons c l ih =>
    rw [List.mapM_cons]
    refine (hg c List.mem_cons_self).bind fun b _ => ?_
    exact (ih fun d hd => hg d (List.mem_cons_of_mem _ hd)).bind fun bs _ => steady_pure _

theorem steady_findM? {γ : Type} {g : γ → Session Bool} {l : List γ}
    (hg : ∀ c ∈ l, Steady t t' (g c)) : Steady t t' (l.findM? g) := by
  induction l with
  | nil => exact steady_pure none
  | cons c l ih =>
    refine (hg c List.mem_cons_self).bind fun found _ => ?_
    cases found with
    | true => exact steady_pure (some c)
    | false => exact ih fun d hd => hg d (List.mem_cons_of_mem _ hd)

theorem steady_forM {γ : Type} {g : γ → Session PUnit} {l : List γ} (hg : ∀ c ∈ l, Steady t t' (g c)) :
    Steady t t' (l.forM g) := by
  induction l with
  | nil => exact steady_pure _
  | cons c l ih =>
    exact (hg c List.mem_cons_self).bind fun _ _ => ih fun d hd => hg d (List.mem_cons_of_mem _ hd)

theorem filterAuxM_cons {γ : Type} (g : γ → Session Bool) (c : γ) (l acc : List γ) :
    List.filterAuxM g (c :: l) acc =
      g c >>= fun b => List.filterAuxM g l (cond b (c :: acc) acc) := rfl

theorem filterM_eq {γ : Type} (g : γ → Session Bool) (l : List γ) :
    l.filterM g = List.filterAuxM g l [] >>= fun found => pure found.reverse := rfl

theorem steady_filterAuxM {γ : Type} {g : γ → Session Bool} {l : List γ}
    (hg : ∀ c ∈ l, Steady t t' (g c)) (acc : List γ) : Steady t t' (List.filterAuxM g l acc) := by
  induction l generalizing acc with
  | nil => exact steady_pure acc
  | cons c l ih =>
    rw [filterAuxM_cons]
    exact (hg c List.mem_cons_self).bind fun b _ =>
      ih (fun d hd => hg d (List.mem_cons_of_mem _ hd)) _

theorem steady_filterM {γ : Type} {g : γ → Session Bool} {l : List γ}
    (hg : ∀ c ∈ l, Steady t t' (g c)) : Steady t t' (l.filterM g) := by
  rw [filterM_eq]
  exact (steady_filterAuxM hg []).bind fun found _ => steady_pure _

end Steady

/-! ## Seeing the same in one tree -/

/-- Both actions see the same in the tree. -/
def Alike {α : Type} (t : FileTree) (x y : Session α) : Prop := ∃ r, Sees t x r ∧ Sees t y r

section Alike

variable {α β γ : Type} {t : FileTree} {x y : Session α} {f g : α → Session β}

theorem Alike.bind (hx : Alike t x y) (hf : ∀ a, Sees t x (.ok a) → Alike t (f a) (g a)) :
    Alike t (x >>= f) (y >>= g) := by
  obtain ⟨r, hr, hr'⟩ := hx
  cases r with
  | ok a =>
    obtain ⟨r', hf, hg⟩ := hf a hr
    exact ⟨r', hr.bind hf, hr'.bind hg⟩
  | error e => exact ⟨.error e, hr.bind_error, hr'.bind_error⟩

theorem alike_mapM {g h : γ → Session β} {l : List γ} (hl : ∀ c ∈ l, Alike t (g c) (h c)) :
    Alike t (l.mapM g) (l.mapM h) := by
  induction l with
  | nil =>
    rw [List.mapM_nil, List.mapM_nil]
    exact ⟨.ok [], sees_pure t [], sees_pure t []⟩
  | cons c l ih =>
    rw [List.mapM_cons, List.mapM_cons]
    refine (hl c List.mem_cons_self).bind fun b _ => ?_
    exact (ih fun d hd => hl d (List.mem_cons_of_mem _ hd)).bind fun bs _ =>
      ⟨.ok (b :: bs), sees_pure t _, sees_pure t _⟩

theorem Alike.sees_iff (h : Alike t x y) {r : Except Failure α} : Sees t x r ↔ Sees t y r := by
  obtain ⟨r', hx, hy⟩ := h
  refine ⟨fun hr => ?_, fun hr => ?_⟩
  · rwa [hr.unique hx]
  · rwa [hr.unique hy]

end Alike

/-! ## Lists -/

section Lists

variable {α β γ : Type} {t : FileTree}

theorem Sees.of_bind {x : Session α} {f : α → Session β} {b : β} (hx : Steady t t x)
    (hf : ∀ a, Sees t x (.ok a) → Steady t t (f a)) (h : Sees t (x >>= f) (.ok b)) :
    ∃ a, Sees t x (.ok a) ∧ Sees t (f a) (.ok b) := by
  obtain ⟨r, hr, -⟩ := hx
  cases r with
  | error e => cases h.unique hr.bind_error
  | ok a =>
    obtain ⟨r', hr', -⟩ := hf a hr
    obtain rfl := h.unique (hr.bind hr')
    exact ⟨a, hr, hr'⟩

theorem sees_mapM {g : γ → Session β} {h : γ → β} {l : List γ}
    (hg : ∀ c ∈ l, Sees t (g c) (.ok (h c))) : Sees t (l.mapM g) (.ok (l.map h)) := by
  induction l with
  | nil =>
    rw [List.mapM_nil]
    exact sees_pure t []
  | cons c l ih =>
    rw [List.mapM_cons]
    have hrest := ih fun d hd => hg d (List.mem_cons_of_mem _ hd)
    exact (hg c List.mem_cons_self).bind (hrest.bind (sees_pure t _))

theorem sees_notes (t : FileTree) (log : Log) :
    Sees t (log.forM note : Session Unit) (.ok ()) := by
  induction log with
  | nil => exact sees_pure t ()
  | cons entry log ih => exact (sees_note t entry).bind ih

/-- A list is seen where each of its items is, and then has what is seen of them. -/
theorem exists_sees_mapM {g : γ → Session β} {l : List γ}
    (h : ∀ c ∈ l, ∃ b, Sees t (g c) (.ok b)) :
    ∃ bs, Sees t (l.mapM g) (.ok bs) ∧ ∀ b, b ∈ bs ↔ ∃ c ∈ l, Sees t (g c) (.ok b) := by
  induction l with
  | nil =>
    refine ⟨[], ?_, by simp⟩
    rw [List.mapM_nil]
    exact sees_pure t []
  | cons c l ih =>
    obtain ⟨b, hb⟩ := h c List.mem_cons_self
    obtain ⟨bs, hbs, hmem⟩ := ih fun d hd => h d (List.mem_cons_of_mem _ hd)
    refine ⟨b :: bs, ?_, fun a => ?_⟩
    · rw [List.mapM_cons]
      exact hb.bind (hbs.bind (sees_pure t _))
    · have hhead : a = b ↔ Sees t (g c) (.ok a) := by
        refine ⟨fun ha => ha ▸ hb, fun ha => ?_⟩
        cases ha.unique hb
        rfl
      simp [hmem, hhead]

/-- Where a list is seen each of its items is. -/
theorem Sees.of_mapM {g : γ → Session β} {l : List γ} {bs : List β}
    (hg : ∀ c ∈ l, Steady t t (g c)) (h : Sees t (l.mapM g) (.ok bs)) :
    ∀ c ∈ l, ∃ b, Sees t (g c) (.ok b) := by
  induction l generalizing bs with
  | nil => simp
  | cons c l ih =>
    have hl : ∀ d ∈ l, Steady t t (g d) := fun d hd => hg d (List.mem_cons_of_mem _ hd)
    rw [List.mapM_cons] at h
    obtain ⟨b, hb, h⟩ := h.of_bind (hg c List.mem_cons_self) fun _ _ =>
      (steady_mapM hl).bind fun _ _ => steady_pure _
    obtain ⟨bs', hbs, -⟩ := h.of_bind (steady_mapM hl) fun _ _ => steady_pure _
    exact List.forall_mem_cons.mpr ⟨⟨b, hb⟩, ih hl hbs⟩

theorem Sees.mem_mapM_iff {g : γ → Session β} {l : List γ} {bs : List β}
    (hg : ∀ c ∈ l, Steady t t (g c)) (h : Sees t (l.mapM g) (.ok bs)) {b : β} :
    b ∈ bs ↔ ∃ c ∈ l, Sees t (g c) (.ok b) := by
  obtain ⟨bs', hbs, hmem⟩ := exists_sees_mapM (h.of_mapM hg)
  cases h.unique hbs
  exact hmem b

/-- Each item of a list is seen, or the whole list fails as one of them does. -/
theorem sees_mapM_or_fails {g : γ → Session β} {l : List γ} (hg : ∀ c ∈ l, Steady t t (g c)) :
    (∀ c ∈ l, ∃ b, Sees t (g c) (.ok b)) ∨
      ∃ c ∈ l, ∃ e, Sees t (g c) (.error e) ∧ Sees t (l.mapM g) (.error e) := by
  induction l with
  | nil => simp
  | cons c l ih =>
    simp only [List.mapM_cons]
    obtain ⟨r, hr, -⟩ := hg c List.mem_cons_self
    cases r with
    | error e => exact .inr ⟨c, List.mem_cons_self, e, hr, hr.bind_error⟩
    | ok b =>
      rcases ih fun d hd => hg d (List.mem_cons_of_mem _ hd) with hall | ⟨d, hd, e, hfails, hrest⟩
      · exact .inl (List.forall_mem_cons.mpr ⟨⟨b, hr⟩, hall⟩)
      · exact .inr ⟨d, List.mem_cons_of_mem _ hd, e, hfails, hr.bind hrest.bind_error⟩

/-- A test that asks for more than another one leaves of what that one leaves. -/
theorem filterM_and (g : γ → Session Bool) (q : γ → Bool) (l : List γ) :
    l.filterM (fun c => do return (← g c) && q c) = do return (← l.filterM g).filter q := by
  have haux : ∀ acc, List.filterAuxM (fun c => do return (← g c) && q c) l (acc.filter q) = do
      return (← List.filterAuxM g l acc).filter q := by
    induction l with
    | nil =>
      intro acc
      simp only [List.filterAuxM, pure_bind]
    | cons c l ih =>
      intro acc
      simp only [filterAuxM_cons, bind_assoc, pure_bind]
      refine bind_congr fun b => ?_
      have hkept : cond (b && q c) (c :: acc.filter q) (acc.filter q) =
          (cond b (c :: acc) acc).filter q := by
        cases b <;> cases hq : q c <;> simp [hq]
      rw [hkept, ih]
  have hall := haux []
  rw [List.filter_nil] at hall
  simp only [filterM_eq, hall, bind_assoc, pure_bind, List.filter_reverse]

theorem sees_filterM {g : γ → Session Bool} {h : γ → Bool} {l : List γ}
    (hg : ∀ c ∈ l, Sees t (g c) (.ok (h c))) : Sees t (l.filterM g) (.ok (l.filter h)) := by
  have haux : ∀ acc, Sees t (List.filterAuxM g l acc) (.ok ((l.filter h).reverse ++ acc)) := by
    induction l with
    | nil => exact fun acc => sees_pure t acc
    | cons c l ih =>
      intro acc
      have hrest := ih (fun d hd => hg d (List.mem_cons_of_mem _ hd)) (cond (h c) (c :: acc) acc)
      have hfound : (l.filter h).reverse ++ cond (h c) (c :: acc) acc =
          ((c :: l).filter h).reverse ++ acc := by
        cases hc : h c <;> simp [hc]
      rw [hfound] at hrest
      rw [filterAuxM_cons]
      exact (hg c List.mem_cons_self).bind hrest
  have hall := (haux []).bind (f := fun found => pure found.reverse) (sees_pure t _)
  rw [filterM_eq]
  simpa using hall

theorem sees_findM? {g : γ → Session Bool} {h : γ → Bool} {l : List γ}
    (hg : ∀ c ∈ l, Sees t (g c) (.ok (h c))) : Sees t (l.findM? g) (.ok (l.find? h)) := by
  induction l with
  | nil => exact sees_pure t none
  | cons c l ih =>
    refine (hg c List.mem_cons_self).bind ?_
    rw [List.find?_cons]
    cases h c with
    | true => exact sees_pure t (some c)
    | false => exact ih fun d hd => hg d (List.mem_cons_of_mem _ hd)

theorem Sees.of_filterM {g : γ → Session Bool} {l : List γ} {found : List γ}
    (hg : ∀ c ∈ l, Steady t t (g c)) (h : Sees t (l.filterM g) (.ok found)) :
    ∀ c ∈ l, ∃ b, Sees t (g c) (.ok b) := by
  rw [filterM_eq] at h
  obtain ⟨all, hall, -⟩ := h.of_bind (steady_filterAuxM hg []) fun _ _ => steady_pure _
  clear h
  generalize ([] : List γ) = acc at hall
  induction l generalizing acc with
  | nil => simp
  | cons c l ih =>
    have hl : ∀ d ∈ l, Steady t t (g d) := fun d hd => hg d (List.mem_cons_of_mem _ hd)
    rw [filterAuxM_cons] at hall
    obtain ⟨b, hb, hall⟩ := hall.of_bind (hg c List.mem_cons_self) fun _ _ =>
      steady_filterAuxM hl _
    exact List.forall_mem_cons.mpr ⟨⟨b, hb⟩, ih hl _ hall⟩

theorem Sees.mem_filterM_iff {g : γ → Session Bool} {l : List γ} {found : List γ}
    (hg : ∀ c ∈ l, Steady t t (g c)) (h : Sees t (l.filterM g) (.ok found)) {c : γ} :
    c ∈ found ↔ c ∈ l ∧ Sees t (g c) (.ok true) := by
  have htests := h.of_filterM hg
  choose! test htest using htests
  cases h.unique (sees_filterM htest)
  rw [List.mem_filter]
  refine and_congr_right fun hc => ⟨fun htrue => htrue ▸ htest c hc, fun htrue => ?_⟩
  exact (Except.ok.inj (htrue.unique (htest c hc))).symm

end Lists

end CronWrap.Session
