import CronWrap.Proofs.Syntax.Order

/-! Readers that go on from a node to a longer one, which starts where it does. -/
namespace CronWrap.Syntax

open HasNodes Node Reader

/-! ## Where a node starts -/

/-- The node starts with the next token. -/
class StartsHere (source : List Char) (r : Reader Node) : Prop where
  out : ∀ c, c.IsPlace source → ∀ n d, r c = some (n, d) → n.start = c.start

section StartsHere

variable {source : List Char} {r r' : Reader Node}

instance {kind : Kind} {parts : Reader (List Node)} : StartsHere source (spanning kind parts) := by
  refine ⟨fun c _ n d h => ?_⟩
  obtain ⟨_, -, rfl⟩ := spanning_eq_some h
  rfl

instance {parts : Reader (List Node)} : StartsHere source (phrase parts) :=
  inferInstanceAs (StartsHere source (spanning .phrase parts))

instance [hr : StartsHere source r] [hr' : StartsHere source r'] :
    StartsHere source (r <|> r') := by
  refine ⟨fun c hc n d h => ?_⟩
  rcases or_eq_some_of_orElse h with h | h
  · exact hr.out c hc n d h
  · exact hr'.out c hc n d h

instance : StartsHere source failure := ⟨fun _ _ _ _ h => nomatch h⟩

instance {q : Prop} [Decidable q] [StartsHere source r] [StartsHere source r'] :
    StartsHere source (if q then r else r') := by
  split <;> infer_instance

theorem StartsHere.look {α : Type} {r : Reader α} {f : α → Reader Node} {look : Cursor → α}
    (hr : ∀ c, r c = some (look c, c)) (hf : ∀ a, StartsHere source (f a)) :
    StartsHere source (r >>= f) := by
  refine ⟨fun c hc n d h => ?_⟩
  obtain ⟨a, c', ha, hn⟩ := bind_eq_some.mp h
  rw [hr] at ha
  cases ha
  exact (hf _).out c hc n d hn

end StartsHere

/-! ## Readers that go on from a node -/

/-- The node starts where the other one does, and stops before the place that is reached. -/
structure GrewFrom (source : List Char) (e : Node) (c : Cursor) (a : Node) (d : Cursor) : Prop where
  isPlace : d.IsPlace source
  stop_le : c.stop ≤ d.stop
  start_eq : a.start = e.start
  within : a.stop ≤ d.stop
  isLaid : a.IsLaid source

/-- Under the assumption the reader, behind a node and others that come after it, reads on to a node
that starts where the given one does. -/
class Grows (source : List Char) (p : Prop) (e : Node) (before : List Node) (r : Reader Node) :
    Prop where
  out : p → e.IsLaid source → ∀ c, c.IsPlace source → InOrder e.stop c.stop before →
    (∀ n ∈ before, n.IsLaid source) → ∀ a d, r c = some (a, d) → GrewFrom source e c a d

section Grows

variable {α : Type} [HasNodes α] {source : List Char} {p : Prop} {e : Node} {before : List Node}
  {r r' : Reader Node}

instance grows_pure : Grows source p e before (pure e) := by
  refine ⟨fun _ he c hc hin _ a d h => ?_⟩
  cases h
  exact ⟨hc, Nat.le_refl _, rfl, hin.le, he⟩

instance grows_bind {r : Reader α} {f : α → Reader Node} [hr : Lays source .follows [] r]
    [hf : ∀ a, Grows source p e (before ++ nodesOf a) (f a)] :
    Grows source p e before (r >>= f) := by
  refine ⟨fun hp he c hc hin hbefore b d h => ?_⟩
  obtain ⟨a, c', ha, hb⟩ := bind_eq_some.mp h
  obtain ⟨hc', found, hsub, hfits, hlaid⟩ := hr.out c hc a c' ha
  rw [List.nil_append] at hsub
  have hnext : InOrder c.stop c'.stop (nodesOf a) := InOrder.sublist hfits hsub
  have hall : ∀ n ∈ before ++ nodesOf a, n.IsLaid source := fun n hn =>
    (List.mem_append.mp hn).elim (hbefore n) fun hn => hlaid n (hsub.subset hn)
  have hgrew := (hf a).out hp he c' hc' (hin.append hnext) hall b d hb
  exact { hgrew with stop_le := hnext.le.trans hgrew.stop_le }

/-- The same where it takes a look at what was read to see that the node grows. -/
theorem Grows.behind {r : Reader α} {f : α → Reader Node} (hr : Lays source .follows [] r)
    (hf : ∀ a, Grows source p e (before ++ nodesOf a) (f a)) :
    Grows source p e before (r >>= f) :=
  inferInstance

instance grows_orElse [hr : Grows source p e before r] [hr' : Grows source p e before r'] :
    Grows source p e before (r <|> r') := by
  refine ⟨fun hp he c hc hin hbefore a d h => ?_⟩
  rcases or_eq_some_of_orElse h with h | h
  · exact hr.out hp he c hc hin hbefore a d h
  · exact hr'.out hp he c hc hin hbefore a d h

instance grows_failure : Grows source p e before failure := ⟨fun _ _ _ _ _ _ _ _ h => nomatch h⟩

instance grows_ite {q : Prop} [Decidable q] [Grows source p e before r]
    [Grows source p e before r'] : Grows source p e before (if q then r else r') := by
  split <;> infer_instance

/-- A node over the given one and what comes after it. -/
theorem GrewFrom.wrap {k : Kind} {c : Cursor} {cs : List Node} (hc : c.IsPlace source)
    (h : (Node.mk k ⟨e.start, c.stop⟩ cs).IsLaid source) :
    GrewFrom source e c (.mk k ⟨e.start, c.stop⟩ cs) c :=
  ⟨hc, Nat.le_refl _, rfl, Nat.le_refl _, h⟩

theorem Grows.alone (h : Grows source p e [] r) : Grows source p e before r :=
  ⟨fun hp he c hc hin _ => h.out hp he c hc hin.le (by simp)⟩

/-- What is assumed of a node speaks of its start, so that it goes on to hold of the longer one. -/
theorem Grows.andThen {q : Nat → Prop} {f : Node → Reader Node}
    (hr : Grows source (q e.start) e before r)
    (hf : ∀ a : Node, Grows source (q a.start) a [] (f a)) :
    Grows source (q e.start) e before (r >>= f) := by
  refine ⟨fun hp he c hc hin hbefore b d h => ?_⟩
  obtain ⟨a, c', ha, hb⟩ := bind_eq_some.mp h
  have hgrew := hr.out hp he c hc hin hbefore a c' ha
  have hgrew' := (hf a).out (by rwa [hgrew.start_eq]) hgrew.isLaid c' hgrew.isPlace
    hgrew.within (by simp) b d hb
  exact { hgrew' with
    stop_le := hgrew.stop_le.trans hgrew'.stop_le
    start_eq := hgrew'.start_eq.trans hgrew.start_eq }

theorem grows_extendUpTo {q : Nat → Prop} {step : Node → Reader Node}
    (hstep : ∀ e : Node, Grows source (q e.start) e [] (step e)) (bound : Nat) (e : Node) :
    Grows source (q e.start) e [] (extendUpTo step bound e) := by
  induction bound generalizing e with
  | zero => exact grows_pure
  | succ bound ih =>
    have hmore : Grows source (q e.start) e [] (step e >>= extendUpTo step bound) :=
      (hstep e).andThen ih
    unfold extendUpTo
    infer_instance

instance grows_extend {q : Nat → Prop} {step : Node → Reader Node}
    [hstep : ∀ e : Node, Grows source (q e.start) e [] (step e)] :
    Grows source (q e.start) e before (extend step e) :=
  Grows.alone ⟨fun hp he c => (grows_extendUpTo hstep (c.gap.length + 1) e).out hp he c⟩

section Growing

variable {q : Node → Prop} {s : Node → Reader Node} (hr : Lays source .takes [] r)
  (hq : ∀ c, c.IsPlace source → ∀ n d, r c = some (n, d) → q n)
  (hs : ∀ n, Grows source (q n) n [] (s n))

include hr hq hs in
/-- A reader goes on from a node that was read here. -/
theorem exists_grewFrom {c d : Cursor} {b : Node} (hc : c.IsPlace source)
    (h : (r >>= s) c = some (b, d)) :
    ∃ a c', r c = some (a, c') ∧ c.start ≤ a.start ∧ GrewFrom source a c' b d := by
  obtain ⟨a, c', ha, hb⟩ := bind_eq_some.mp h
  have hread := hr.out c hc a c' ha
  obtain ⟨hstart, -, hstop, hlaid⟩ := hread.bounds List.mem_cons_self
  exact ⟨a, c', ha, hstart,
    (hs a).out (hq c hc a c' ha) hlaid c' hread.1 hstop (by simp) b d hb⟩

include hr hq hs in
theorem Lays.growing : Lays source .takes before (r >>= s) := by
  refine ⟨fun c hc b d h => ?_⟩
  obtain ⟨a, c', -, hstart, hgrew⟩ := exists_grewFrom hr hq hs hc h
  refine ⟨hgrew.isPlace, [b], List.sublist_append_right _ _, ?_, by simpa using hgrew.isLaid⟩
  exact ⟨hgrew.start_eq ▸ hstart, hgrew.isLaid.start_le_stop, hgrew.within⟩

include hr hq hs in
theorem StartsHere.growing (hhere : StartsHere source r) : StartsHere source (r >>= s) := by
  refine ⟨fun c hc b d h => ?_⟩
  obtain ⟨a, c', ha, -, hgrew⟩ := exists_grewFrom hr hq hs hc h
  exact hgrew.start_eq.trans (hhere.out c hc a c' ha)

end Growing

end Grows

end CronWrap.Syntax
