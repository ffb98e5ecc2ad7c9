import CronWrap.Proofs.Syntax.Placed
import CronWrap.Syntax.Grammar.Basic

/-! Readers of which all nodes lie in order over the text, between the place where they begin and
the place where they stop. -/
namespace CronWrap.Syntax

open Node Reader

/-! ## Ways of going on -/

-- A node starts at its first token, behind the gap. A reader that may take nothing begins no node
-- by itself: the reader after it tells where the node starts. The pieces of templates and markup
-- begin with text that counts as gap elsewhere, so that of them only the place behind the token
-- before is known.

/-- How a reader goes on from a place. -/
inductive Mode
  /-- It takes the next token. -/
  | takes
  /-- It takes the next token, or nothing. -/
  | mayTake
  /-- It goes on right behind the token before. -/
  | follows

namespace Mode

/-- The nodes lie in order on the way from one place to another. -/
def Fits : Mode → Cursor → List Node → Cursor → Prop
  | takes, c, ns, d => InOrder c.start d.stop ns
  | mayTake, c, ns, d => d = c ∧ ns = [] ∨ InOrder c.start d.stop ns
  | follows, c, ns, d => InOrder c.stop d.stop ns

def andThen : Mode → Mode → Mode
  | takes, _ => takes
  | mayTake, m => m
  | follows, _ => follows

variable {source : List Char} {m m' : Mode} {c d e : Cursor} {ns ms : List Node}

theorem Fits.mayTake_of_takes (h : takes.Fits c ns d) : mayTake.Fits c ns d := .inr h

theorem Fits.follows (hc : c.IsPlace source) (h : m.Fits c ns d) : follows.Fits c ns d := by
  cases m with
  | takes => exact InOrder.mono h hc.stop_le_start (Nat.le_refl _)
  | mayTake =>
    rcases h with ⟨rfl, rfl⟩ | h
    · exact Nat.le_refl d.stop
    · exact InOrder.mono h hc.stop_le_start (Nat.le_refl _)
  | follows => exact h

theorem Fits.andThen (hc : c.IsPlace source) (hd : d.IsPlace source) (h : m.Fits c ns d)
    (h' : m'.Fits d ms e) : (m.andThen m').Fits c (ns ++ ms) e := by
  cases m with
  | takes => exact InOrder.append h (h'.follows hd)
  | mayTake =>
    rcases h with ⟨rfl, rfl⟩ | h
    · exact h'
    · have hall := InOrder.append h (h'.follows hd)
      cases m' with
      | takes => exact hall
      | mayTake => exact .inr hall
      | follows => exact hall.mono hc.stop_le_start (Nat.le_refl _)
  | follows => exact InOrder.append h (h'.follows hd)

end Mode

/-! ## Values that hold nodes -/

class HasNodes (α : Type) where
  nodesOf : α → List Node

namespace HasNodes

instance : HasNodes Node := ⟨fun n => [n]⟩

instance : HasNodes Unit := ⟨fun _ => []⟩

instance : HasNodes Bool := ⟨fun _ => []⟩

instance : HasNodes Nat := ⟨fun _ => []⟩

instance : HasNodes Char := ⟨fun _ => []⟩

instance : HasNodes String := ⟨fun _ => []⟩

variable {α β : Type} [HasNodes α] [HasNodes β]

instance : HasNodes (List α) := ⟨fun l => l.flatMap nodesOf⟩

instance : HasNodes (Option α) := ⟨fun o => o.toList.flatMap nodesOf⟩

instance : HasNodes (α × β) := ⟨fun p => nodesOf p.1 ++ nodesOf p.2⟩

end HasNodes

open HasNodes

/-- On the way from one place to another nodes are found in order, of which the predicate holds, and
the value is made of them and of those that were there before. -/
def Gathers {α : Type} [HasNodes α] (source : List Char) (P : Node → Prop) (m : Mode)
    (before : List Node) (c : Cursor) (a : α) (d : Cursor) : Prop :=
  d.IsPlace source ∧ ∃ found, (nodesOf a).Sublist (before ++ found) ∧ m.Fits c found d ∧
    ∀ n ∈ found, P n

/-- So it is with all that the reader takes. -/
class Finds {α : Type} [HasNodes α] (source : List Char) (P : Node → Prop) (m : Mode)
    (before : List Node) (r : Reader α) : Prop where
  out : ∀ c, c.IsPlace source → ∀ a d, r c = some (a, d) → Gathers source P m before c a d

/-- The reader lays out the nodes of a tree. -/
abbrev Lays {α : Type} [HasNodes α] (source : List Char) (m : Mode) (before : List Node)
    (r : Reader α) : Prop :=
  Finds source (IsLaid source) m before r

theorem nodesOf_list (ns : List Node) : nodesOf ns = ns := by simp [nodesOf]

section Gathers

variable {α β : Type} [HasNodes α] [HasNodes β] {source : List Char} {P : Node → Prop} {m : Mode}
  {before : List Node} {c d : Cursor}

theorem Gathers.mono {a : α} {b : β} (h : Gathers source P m before c a d)
    (hsub : (nodesOf b).Sublist (nodesOf a)) : Gathers source P m before c b d := by
  obtain ⟨hd, found, hall, hrest⟩ := h
  exact ⟨hd, found, hsub.trans hall, hrest⟩

theorem Gathers.weaken {Q : Node → Prop} {a : α} (h : Gathers source P m before c a d)
    (hPQ : ∀ n, P n → Q n) : Gathers source Q m before c a d := by
  obtain ⟨hd, found, hsub, hfits, hall⟩ := h
  exact ⟨hd, found, hsub, hfits, fun n hn => hPQ n (hall n hn)⟩

/-- What is read counts the same whatever was there before. -/
theorem Gathers.alone {a : α} (h : Gathers source P m [] c a d) :
    Gathers source P m before c a d := by
  obtain ⟨hd, found, hsub, hrest⟩ := h
  exact ⟨hd, found, hsub.trans (List.sublist_append_right before found), hrest⟩

/-- The nodes that come next in the text lie within it. -/
theorem Gathers.inOrder {ns : List Node} (h : Gathers source P .takes [] c ns d) :
    InOrder c.start d.stop ns ∧ ∀ n ∈ ns, P n := by
  obtain ⟨-, found, hsub, hfits, hall⟩ := h
  rw [List.nil_append, nodesOf_list] at hsub
  exact ⟨InOrder.sublist hfits hsub, fun n hn => hall n (hsub.subset hn)⟩

/-- A node of the value lies where it was read. -/
theorem Gathers.bounds {a : α} {n : Node} (h : Gathers source P .takes [] c a d)
    (hn : n ∈ nodesOf a) : c.start ≤ n.start ∧ n.start ≤ n.stop ∧ n.stop ≤ d.stop ∧ P n := by
  obtain ⟨-, found, hsub, hfits, hall⟩ := h
  have hmem : n ∈ found := hsub.subset hn
  obtain ⟨hstart, hle, hstop⟩ := InOrder.bounds hfits hmem
  exact ⟨hstart, hle, hstop, hall n hmem⟩

/-- A node over all that is taken. -/
theorem Gathers.span {k : Kind} {ns : List Node} (h : Gathers source P .takes [] c ns d)
    (hnode : P (.mk k ⟨c.start, d.stop⟩ ns)) :
    Gathers source P .takes before c (Node.mk k ⟨c.start, d.stop⟩ ns) d :=
  ⟨h.1, [.mk k ⟨c.start, d.stop⟩ ns], List.sublist_append_right _ _,
    ⟨Nat.le_refl _, h.inOrder.1.le, Nat.le_refl _⟩, List.forall_mem_singleton.mpr hnode⟩

theorem Gathers.spanPlain [Covers source P] {k : Kind} [hk : k.IsPlain] {ns : List Node}
    (h : Gathers source P .takes [] c ns d) :
    Gathers source P .takes before c (Node.mk k ⟨c.start, d.stop⟩ ns) d :=
  h.span (Covers.plain source hk h.inOrder.1 h.inOrder.2)

end Gathers

/-- The value ends the list of nodes, which `rest` comes before. -/
class Draws {α : Type} [HasNodes α] (before : List Node) (a : α) (rest : outParam (List Node)) :
    Prop where
  out : (rest ++ nodesOf a).Sublist before

/-- Values without nodes. -/
class HasNoNodes (α : Type) [HasNodes α] : Prop where
  nodesOf_eq : ∀ a : α, nodesOf a = []

namespace HasNoNodes

instance : HasNoNodes Unit := ⟨fun _ => rfl⟩

instance : HasNoNodes Bool := ⟨fun _ => rfl⟩

instance : HasNoNodes Nat := ⟨fun _ => rfl⟩

instance : HasNoNodes Char := ⟨fun _ => rfl⟩

instance : HasNoNodes String := ⟨fun _ => rfl⟩

variable {α : Type} [HasNodes α] [h : HasNoNodes α]

instance : HasNoNodes (List α) :=
  ⟨fun _ => List.flatMap_eq_nil_iff.mpr fun a _ => h.nodesOf_eq a⟩

instance : HasNoNodes (Option α) :=
  ⟨fun _ => List.flatMap_eq_nil_iff.mpr fun a _ => h.nodesOf_eq a⟩

end HasNoNodes

section Draws

variable {α β : Type} [HasNodes α] [HasNodes β] {before mid rest : List Node}

instance (priority := high) Draws.last {a : α} : Draws (before ++ nodesOf a) a before :=
  ⟨List.Sublist.refl _⟩

instance (priority := low) Draws.skip {a : α} {b : β} [h : Draws before b rest] :
    Draws (before ++ nodesOf a) b rest :=
  ⟨h.out.trans (List.sublist_append_left _ _)⟩

instance Draws.nothing [h : HasNoNodes α] {a : α} : Draws before a before :=
  ⟨by rw [h.nodesOf_eq, List.append_nil]⟩

instance : Draws before ([] : List α) before := ⟨by simp [nodesOf]⟩

instance : Draws before (none : Option α) before := ⟨by simp [nodesOf]⟩

theorem Draws.trans {ns ms : List Node} (hm : (mid ++ ms).Sublist before)
    (hn : (rest ++ ns).Sublist mid) : (rest ++ (ns ++ ms)).Sublist before := by
  rw [← List.append_assoc]
  exact (hn.append (List.Sublist.refl ms)).trans hm

instance {a : α} {l : List α} [hl : Draws before l mid] [ha : Draws mid a rest] :
    Draws before (a :: l) rest :=
  ⟨Draws.trans hl.out ha.out⟩

instance {l l' : List α} [hl' : Draws before l' mid] [hl : Draws mid l rest] :
    Draws before (l ++ l') rest := by
  refine ⟨?_⟩
  simpa only [nodesOf, List.flatMap_append] using Draws.trans hl'.out hl.out

instance {a : α} {b : β} [hb : Draws before b mid] [ha : Draws mid a rest] :
    Draws before (a, b) rest :=
  ⟨Draws.trans hb.out ha.out⟩

theorem Draws.mono {a : α} {b : β} (h : Draws before a rest)
    (hsub : (nodesOf b).Sublist (nodesOf a)) : Draws before b rest :=
  ⟨(hsub.append_left rest).trans h.out⟩

instance {l : List (List α)} [h : Draws before l rest] : Draws before l.flatten rest :=
  h.mono (by simp only [nodesOf, List.flatten_eq_flatMap, List.flatMap_assoc, id_eq,
    List.Sublist.refl])

instance {a : α} [h : Draws before a rest] : Draws before (some a) rest :=
  h.mono (by simp [nodesOf])

instance {o : Option α} [h : Draws before o rest] : Draws before o.toList rest :=
  h.mono (List.Sublist.refl _)

instance {o : Option (List α)} [h : Draws before o rest] : Draws before (o.getD []) rest :=
  h.mono (by cases o <;> simp [nodesOf])

instance {l : List (Option α)} [h : Draws before l rest] : Draws before (l.filterMap id) rest := by
  refine h.mono ?_
  induction l with
  | nil => exact List.Sublist.refl _
  | cons o l ih => cases o <;> simp_all [nodesOf]

instance Draws.fst {x : α × β} [h : Draws before x rest] : Draws before x.1 rest :=
  h.mono (List.sublist_append_left _ _)

instance {l : List (List α × β)} [h : Draws before l rest] :
    Draws before (l.flatMap (·.1)) rest := by
  refine h.mono ?_
  induction l with
  | nil => exact List.Sublist.refl _
  | cons x l ih =>
    simp only [nodesOf, List.flatMap_cons, List.flatMap_append] at ih ⊢
    exact (List.sublist_append_left _ _).append ih

instance {o : Option (α × β)} [h : Draws before o rest] : Draws before (o.map (·.1)) rest :=
  h.mono (by cases o <;> simp [nodesOf])

end Draws

/-! ## Readers -/

section Readers

variable {α β : Type} [HasNodes α] [HasNodes β] {source : List Char} {P : Node → Prop} {m m' : Mode}
  {before rest : List Node} {r r' : Reader α}

omit [HasNodes α] [HasNodes β] in
theorem bind_eq_some {f : α → Reader β} {c d : Cursor} {b : β} :
    (r >>= f) c = some (b, d) ↔ ∃ a c', r c = some (a, c') ∧ f a c' = some (b, d) := by
  change (r c).bind (fun x => f x.1 x.2) = some (b, d) ↔ _
  simp only [Option.bind_eq_some_iff, Prod.exists]

omit [HasNodes α] in
theorem or_eq_some_of_orElse {c : Cursor} {x : α × Cursor} (h : (r <|> r') c = some x) :
    r c = some x ∨ r' c = some x := by
  change (r c <|> r' c) = some x at h
  cases hread : r c with
  | none => exact .inr (by rwa [hread] at h)
  | some y => exact .inl (by rwa [hread] at h)

omit [HasNodes α] [HasNodes β] in
theorem bind_of_eq_some {f : α → Reader β} {c d : Cursor} {a : α} (h : r c = some (a, d)) :
    (r >>= f) c = f a d := by
  change (r c).bind _ = _
  rw [h]
  rfl

omit [HasNodes α] [HasNodes β] in
theorem bind_eq_none {f : α → Reader β} {c : Cursor} (h : r c = none) : (r >>= f) c = none := by
  change (r c).bind _ = none
  rw [h]
  rfl

omit [HasNodes α] in
theorem orElse_eq_none {c : Cursor} (h : r c = none) (h' : r' c = none) :
    (r <|> r') c = none := by
  change (r c <|> r' c) = none
  rw [h, h']
  rfl

theorem Finds.weaken (h : Finds source P m before r)
    (hfit : ∀ c ns d, c.IsPlace source → m.Fits c ns d → m'.Fits c ns d) :
    Finds source P m' before r := by
  refine ⟨fun c hc a d hread => ?_⟩
  obtain ⟨hd, found, hsub, hfits, hlaid⟩ := h.out c hc a d hread
  exact ⟨hd, found, hsub, hfit c found d hc hfits, hlaid⟩

instance (priority := low) Finds.mayTake [h : Finds source P .takes before r] :
    Finds source P .mayTake before r :=
  h.weaken fun _ _ _ _ => Mode.Fits.mayTake_of_takes

instance (priority := low) Finds.follows [h : Finds source P .mayTake before r] :
    Finds source P .follows before r :=
  h.weaken fun _ _ _ hc => Mode.Fits.follows hc

theorem Finds.andThen {f : α → Reader β} (hr : Finds source P m [] r)
    (hf : ∀ a, Finds source P m' (before ++ nodesOf a) (f a)) :
    Finds source P (m.andThen m') before (r >>= f) := by
  refine ⟨fun c hc b d h => ?_⟩
  obtain ⟨a, c', ha, hb⟩ := bind_eq_some.mp h
  obtain ⟨hc', found, hsub, hfits, hlaid⟩ := hr.out c hc a c' ha
  obtain ⟨hd, found', hsub', hfits', hlaid'⟩ := (hf a).out c' hc' b d hb
  refine ⟨hd, found ++ found', ?_, hfits.andThen hc hc' hfits', ?_⟩
  · rw [List.nil_append] at hsub
    rw [← List.append_assoc]
    exact hsub'.trans ((hsub.append_left before).append_right found')
  · intro n hn
    exact (List.mem_append.mp hn).elim (hlaid n) (hlaid' n)

/-- The same behind a token. -/
theorem Finds.opening {f : α → Reader β} (hr : Finds source P .takes [] r)
    (hf : ∀ a, Finds source P .follows (before ++ nodesOf a) (f a)) :
    Finds source P .takes before (r >>= f) :=
  hr.andThen hf

/-- The same behind something that may be missing. -/
theorem Finds.behind {f : α → Reader β} (hr : Finds source P .mayTake [] r)
    (hf : ∀ a, Finds source P m (before ++ nodesOf a) (f a)) : Finds source P m before (r >>= f) :=
  hr.andThen hf

instance finds_bind_takes {f : α → Reader β} [hr : Finds source P .takes [] r]
    [hf : ∀ a, Finds source P .follows (before ++ nodesOf a) (f a)] :
    Finds source P .takes before (r >>= f) :=
  hr.andThen hf

instance finds_bind_thenTakes {f : α → Reader β} [hr : Finds source P .mayTake [] r]
    [hf : ∀ a, Finds source P .takes (before ++ nodesOf a) (f a)] :
    Finds source P .takes before (r >>= f) :=
  hr.andThen hf

instance finds_bind_mayTake {f : α → Reader β} [hr : Finds source P .mayTake [] r]
    [hf : ∀ a, Finds source P .mayTake (before ++ nodesOf a) (f a)] :
    Finds source P .mayTake before (r >>= f) :=
  hr.andThen hf

instance finds_bind_follows {f : α → Reader β} [hr : Finds source P .follows [] r]
    [hf : ∀ a, Finds source P .follows (before ++ nodesOf a) (f a)] :
    Finds source P .follows before (r >>= f) :=
  hr.andThen hf

instance finds_pure {a : α} [h : Draws before a rest] :
    Finds source P .mayTake before (pure a : Reader α) := by
  refine ⟨fun c hc b d hread => ?_⟩
  cases hread
  refine ⟨hc, [], ?_, .inl ⟨rfl, rfl⟩, by simp⟩
  rw [List.append_nil]
  exact (List.sublist_append_right rest _).trans h.out

theorem Finds.or (hr : Finds source P m before r) (hr' : Finds source P m before r') :
    Finds source P m before (r <|> r') := by
  refine ⟨fun c hc a d h => ?_⟩
  rcases or_eq_some_of_orElse h with h | h
  · exact hr.out c hc a d h
  · exact hr'.out c hc a d h

instance finds_orElse [Finds source P m before r] [Finds source P m before r'] :
    Finds source P m before (r <|> r') :=
  Finds.or inferInstance inferInstance

omit [HasNodes α] in
/-- What comes behind a choice comes behind one of the two. -/
theorem Finds.orElse_bind {f : α → Reader β} (hr : Finds source P m before (r >>= f))
    (hr' : Finds source P m before (r' >>= f)) : Finds source P m before ((r <|> r') >>= f) := by
  refine ⟨fun c hc b d h => ?_⟩
  obtain ⟨a, c', ha, hb⟩ := bind_eq_some.mp h
  rcases or_eq_some_of_orElse ha with ha | ha
  · exact hr.out c hc b d (bind_eq_some.mpr ⟨a, c', ha, hb⟩)
  · exact hr'.out c hc b d (bind_eq_some.mpr ⟨a, c', ha, hb⟩)

instance finds_failure : Finds source P m before (failure : Reader α) :=
  ⟨fun _ _ _ _ h => nomatch h⟩

instance finds_ite {q : Prop} [Decidable q] [Finds source P m before r]
    [Finds source P m before r'] : Finds source P m before (if q then r else r') := by
  split <;> infer_instance

instance finds_map {f : α → β} [hr : Finds source P m [] r]
    [hf : ∀ a, Finds source P .mayTake (before ++ nodesOf a) (pure (f a) : Reader β)] :
    Finds source P m before (f <$> r) := by
  have h := hr.andThen hf
  cases m <;> exact h

theorem Finds.alone (h : Finds source P m [] r) : Finds source P m before r :=
  ⟨fun c hc a d hread => (h.out c hc a d hread).alone⟩

instance finds_seqRight_takes {r : Reader β} [hr : Finds source P .takes [] r]
    [hr' : Finds source P .follows [] r'] : Finds source P .takes before (r *> r') :=
  hr.andThen fun _ => hr'.alone

instance finds_seqRight_thenTakes {r : Reader β} [hr : Finds source P .mayTake [] r]
    [hr' : Finds source P .takes [] r'] : Finds source P .takes before (r *> r') :=
  hr.andThen fun _ => hr'.alone

instance finds_seqRight_mayTake {r : Reader β} [hr : Finds source P .mayTake [] r]
    [hr' : Finds source P .mayTake [] r'] : Finds source P .mayTake before (r *> r') :=
  hr.andThen fun _ => hr'.alone

instance finds_seqRight_follows {r : Reader β} [hr : Finds source P .follows [] r]
    [hr' : Finds source P .follows [] r'] : Finds source P .follows before (r *> r') :=
  hr.andThen fun _ => hr'.alone

instance finds_seqLeft {r' : Reader β}
    [Finds source P m before (r >>= fun a => r' >>= fun _ => pure a)] :
    Finds source P m before (r <* r') :=
  inferInstanceAs (Finds source P m before (r >>= fun a => r' >>= fun _ => pure a))

instance finds_discard [hr : Finds source P m [] r] : Finds source P m before (discard r) :=
  inferInstanceAs (Finds source P m before ((fun _ => ()) <$> r))

instance finds_optional [Finds source P .mayTake [] r] :
    Finds source P .mayTake before (optional r) := by
  unfold optional
  infer_instance

/-- What may be missing, and is passed over. -/
theorem Finds.passed (h : Finds source P .mayTake [] r) :
    Finds source P .mayTake before (discard (optional r)) :=
  inferInstance

instance finds_guard {q : Prop} [Decidable q] :
    Finds source P .mayTake before (guard q : Reader Unit) := by
  unfold guard
  infer_instance

instance finds_orM {x y : Reader Bool} [hx : Finds source P .mayTake [] x]
    [hy : Finds source P .mayTake [] y] : Finds source P .mayTake before (x <||> y) := by
  refine hx.andThen fun b => ?_
  split
  · infer_instance
  · exact hy.alone

instance finds_manyUpTo [hm : Finds source P .mayTake [] r] (bound : Nat) :
    Finds source P .mayTake before (manyUpTo r bound) := by
  induction bound generalizing before with
  | zero => exact inferInstanceAs (Finds source P .mayTake before (pure []))
  | succ bound ih =>
    unfold manyUpTo
    infer_instance

instance finds_many [hr : Finds source P .mayTake [] r] : Finds source P .mayTake before (many r) :=
  ⟨fun c => (finds_manyUpTo (c.gap.length + 1)).out c⟩

instance finds_manyUpTo_follows [hm : Finds source P .follows [] r] (bound : Nat) :
    Finds source P .follows before (manyUpTo r bound) := by
  induction bound generalizing before with
  | zero => exact inferInstanceAs (Finds source P .follows before (pure []))
  | succ bound ih =>
    unfold manyUpTo
    infer_instance

instance finds_many_follows [hr : Finds source P .follows [] r] :
    Finds source P .follows before (many r) :=
  ⟨fun c => (finds_manyUpTo_follows (c.gap.length + 1)).out c⟩

instance finds_extendUpTo [HasNoNodes α] {step : α → Reader α}
    [hstep : ∀ a, Finds source P .mayTake [] (step a)] (bound : Nat) (a : α) :
    Finds source P .mayTake before (extendUpTo step bound a) := by
  induction bound generalizing before a with
  | zero => exact inferInstanceAs (Finds source P .mayTake before (pure a))
  | succ bound ih =>
    unfold extendUpTo
    infer_instance

instance finds_extend [HasNoNodes α] {step : α → Reader α}
    [hstep : ∀ a, Finds source P .mayTake [] (step a)] {a : α} :
    Finds source P .mayTake before (extend step a) :=
  ⟨fun c => (finds_extendUpTo (c.gap.length + 1) a).out c⟩

/-- A reader that only looks stays where it is. -/
theorem finds_of_look [hα : HasNoNodes α] {f : Cursor → α} (hr : ∀ c, r c = some (f c, c)) :
    Finds source P .mayTake before r := by
  refine ⟨fun c hc a d h => ?_⟩
  rw [hr, Option.some.injEq, Prod.mk.injEq] at h
  obtain ⟨-, rfl⟩ := h
  refine ⟨hc, [], ?_, .inl ⟨rfl, rfl⟩, by simp⟩
  rw [hα.nodesOf_eq]
  exact List.nil_sublist _

instance finds_ahead [HasNoNodes α] : Finds source P .mayTake before (ahead r) :=
  finds_of_look fun _ => rfl

theorem spanning_eq_some {kind : Kind} {parts : Reader (List Node)} {c d : Cursor} {n : Node}
    (h : spanning kind parts c = some (n, d)) :
    ∃ children, parts c = some (children, d) ∧ n = .mk kind ⟨c.start, d.stop⟩ children := by
  obtain ⟨a, c', hstart, h⟩ := bind_eq_some.mp h
  cases hstart
  obtain ⟨children, c', hparts, h⟩ := bind_eq_some.mp h
  cases h
  exact ⟨children, hparts, rfl⟩

theorem spanning_eq_none {kind : Kind} {parts : Reader (List Node)} {c : Cursor}
    (h : parts c = none) : spanning kind parts c = none := by
  have hstart : Reader.start c = some (c.start, c) := rfl
  rw [Reader.spanning, bind_of_eq_some hstart]
  exact bind_eq_none h

theorem Finds.spanning [Covers source P] {kind : Kind} [kind.IsPlain] {parts : Reader (List Node)}
    (h : Finds source P .takes [] parts) :
    Finds source P .takes before (spanning kind parts) := by
  refine ⟨fun c hc n d hread => ?_⟩
  obtain ⟨children, hparts, rfl⟩ := spanning_eq_some hread
  exact (h.out c hc children d hparts).spanPlain

instance [Covers source P] {kind : Kind} [kind.IsPlain] {parts : Reader (List Node)}
    [Finds source P .takes [] parts] : Finds source P .takes before (spanning kind parts) :=
  Finds.spanning inferInstance

end Readers

end CronWrap.Syntax
