import Mathlib.Data.List.Infix
import Mathlib.Tactic.Common
import CronWrap.Syntax.Node

/-! What a visit yields, round by round: the preorder of a tree, in which each node has its place by the
way that leads to it. -/
namespace CronWrap.Syntax

namespace Node

/-! ## Sizes -/

theorem size_eq (n : Node) : n.size = sizeAll n.children + 1 := by
  cases n with
  | mk kind span children => simp only [size, children_mk]

theorem sizeAll_append (ns ms : List Node) : sizeAll (ns ++ ms) = sizeAll ns + sizeAll ms := by
  induction ns with
  | nil => simp [sizeAll]
  | cons n rest ih =>
    simp only [List.cons_append, sizeAll, ih]
    omega

theorem size_le_sizeAll {ns : List Node} {n : Node} (h : n ∈ ns) : n.size ≤ sizeAll ns := by
  induction ns with
  | nil => cases h
  | cons m rest ih =>
    simp only [sizeAll]
    rcases List.mem_cons.mp h with rfl | h
    · omega
    · have := ih h
      omega

theorem sizeAll_eq_zero_iff {ns : List Node} : sizeAll ns = 0 ↔ ns = [] := by
  cases ns with
  | nil => simp [sizeAll]
  | cons n rest =>
    have := size_eq n
    simp [sizeAll, this]

/-- A property of nodes holds if it passes from the children of a node to the node. -/
theorem children_induction {P : Node → Prop} (step : ∀ n, (∀ c ∈ n.children, P c) → P n)
    (n : Node) : P n := by
  induction hsize : n.size using Nat.strongRecOn generalizing n with
  | ind size ih =>
    apply step
    intro c hc
    have hle := size_le_sizeAll hc
    have hn := size_eq n
    exact ih c.size (by omega) c rfl

/-! ## Rounds -/

mutual

/-- A node, and then all that is below each of its children in turn. -/
def preorder : Node → List Node
  | mk kind span children => mk kind span children :: preorderAll children

def preorderAll : List Node → List Node
  | [] => []
  | n :: rest => preorder n ++ preorderAll rest

end

theorem preorder_eq (n : Node) : n.preorder = n :: preorderAll n.children := by
  cases n with
  | mk kind span children => simp only [preorder, children_mk]

theorem preorderAll_eq_flatMap (ns : List Node) : preorderAll ns = ns.flatMap preorder := by
  induction ns with
  | nil => rfl
  | cons n rest ih => rw [preorderAll, ih, List.flatMap_cons]

/-- What a visit has pending after so many rounds. -/
def pendingAfter : Nat → List Node → List Node
  | 0, pending => pending
  | _ + 1, [] => []
  | rounds + 1, n :: pending => pendingAfter rounds (n.children ++ pending)

/-- A visit can be stopped after any round and goes on from what is pending then. -/
theorem visit_add (rounds more : Nat) (ns : List Node) :
    visit (rounds + more) ns = visit rounds ns ++ visit more (pendingAfter rounds ns) := by
  induction rounds generalizing ns with
  | zero => rw [Nat.zero_add, visit, pendingAfter, List.nil_append]
  | succ rounds ih =>
    cases ns with
    | nil =>
      rw [Nat.succ_add]
      cases more <;> rfl
    | cons n rest => rw [Nat.succ_add, visit, visit, pendingAfter, ih, List.cons_append]

/-- In a round the node at the front goes, and its children come in its place: the nodes that are
pending or below one become one less. -/
theorem sizeAll_round (n : Node) (pending : List Node) :
    sizeAll (n.children ++ pending) + 1 = sizeAll (n :: pending) := by
  rw [sizeAll_append, sizeAll, size_eq n]
  omega

/-- The node of a round is the first of those that are pending or below one, in preorder. -/
theorem preorderAll_round (n : Node) (pending : List Node) :
    n :: preorderAll (n.children ++ pending) = preorderAll (n :: pending) := by
  rw [preorderAll, preorder_eq, preorderAll_eq_flatMap (n.children ++ pending), List.flatMap_append,
    ← preorderAll_eq_flatMap, ← preorderAll_eq_flatMap, List.cons_append]

theorem sizeAll_pendingAfter (rounds : Nat) (ns : List Node) :
    sizeAll (pendingAfter rounds ns) = sizeAll ns - rounds := by
  induction rounds generalizing ns with
  | zero => rfl
  | succ rounds ih =>
    cases ns with
    | nil => simp [pendingAfter, sizeAll]
    | cons n rest =>
      have hround := sizeAll_round n rest
      rw [pendingAfter, ih]
      omega

/-- What has been visited and the preorder of what is pending make up the whole preorder. -/
theorem visit_append_preorderAll (rounds : Nat) (ns : List Node) :
    visit rounds ns ++ preorderAll (pendingAfter rounds ns) = preorderAll ns := by
  induction rounds generalizing ns with
  | zero => rw [visit, pendingAfter, List.nil_append]
  | succ rounds ih =>
    cases ns with
    | nil => rfl
    | cons n rest => rw [visit, pendingAfter, List.cons_append, ih, preorderAll_round]

theorem pendingAfter_eq_nil_iff {rounds : Nat} {ns : List Node} :
    pendingAfter rounds ns = [] ↔ sizeAll ns ≤ rounds := by
  rw [← sizeAll_eq_zero_iff, sizeAll_pendingAfter, Nat.sub_eq_zero_iff_le]

theorem visit_eq_preorderAll {rounds : Nat} {ns : List Node} (h : sizeAll ns ≤ rounds) :
    visit rounds ns = preorderAll ns := by
  have hall := visit_append_preorderAll rounds ns
  rwa [pendingAfter_eq_nil_iff.mpr h, preorderAll, List.append_nil] at hall

theorem sizeAll_singleton (n : Node) : sizeAll [n] = n.size := by simp [sizeAll]

theorem visit_eq_preorder {n : Node} {rounds : Nat} (h : n.size ≤ rounds) :
    visit rounds [n] = n.preorder := by
  rw [visit_eq_preorderAll (by rwa [sizeAll_singleton]), preorderAll, preorderAll, List.append_nil]

theorem nodes_eq_preorder (n : Node) : n.nodes = n.preorder := visit_eq_preorder (Nat.le_refl _)

end Node

/-! ## Ways -/

/-- A way down a tree: the number of the child that is taken at each step. -/
abbrev Way := List Nat

namespace Way

/-- The first way leads to a node above that of the second, or they part and the second goes on by a
later child. -/
def Before (v w : Way) : Prop :=
  (v <+: w ∧ v ≠ w) ∨ ∃ u i j, i < j ∧ u ++ [i] <+: v ∧ u ++ [j] <+: w

theorem before_nil {w : Way} (h : w ≠ []) : Before [] w := .inl ⟨List.nil_prefix, h.symm⟩

theorem before_of_lt {i j : Nat} (h : i < j) (v w : Way) : Before (i :: v) (j :: w) :=
  .inr ⟨[], i, j, h, ⟨v, rfl⟩, ⟨w, rfl⟩⟩

theorem Before.cons {v w : Way} (h : Before v w) (i : Nat) : Before (i :: v) (i :: w) := by
  rcases h with ⟨hbegins, hne⟩ | ⟨u, j, k, hjk, hv, hw⟩
  · left
    exact ⟨List.cons_prefix_cons.mpr ⟨rfl, hbegins⟩, fun h => hne (List.cons.inj h).2⟩
  · right
    exact ⟨i :: u, j, k, hjk, List.cons_prefix_cons.mpr ⟨rfl, hv⟩,
      List.cons_prefix_cons.mpr ⟨rfl, hw⟩⟩

theorem Before.ne {v w : Way} (h : Before v w) : v ≠ w := by
  rcases h with ⟨-, hne⟩ | ⟨u, i, j, hij, hv, hw⟩
  · exact hne
  · rintro rfl
    have hparted : u ++ [i] <+: u ++ [j] := List.prefix_of_prefix_length_le hv hw (by simp)
    have hsame := hparted.eq_of_length (by simp)
    have : i = j := by simpa using hsame
    omega

end Way

namespace Node

/-- The node to which a way leads. -/
def at? (n : Node) : Way → Option Node
  | [] => some n
  | i :: way => n.children[i]?.bind (at? · way)

mutual

/-- The ways to the nodes of a tree. -/
def ways : Node → List Way
  | mk _ _ children => [] :: waysFrom 0 children

/-- The ways into trees that are counted from a number on. -/
def waysFrom (number : Nat) : List Node → List Way
  | [] => []
  | n :: rest => (ways n).map (number :: ·) ++ waysFrom (number + 1) rest

end

theorem ways_eq (n : Node) : n.ways = [] :: waysFrom 0 n.children := by
  cases n with
  | mk kind span children => simp only [ways, children_mk]

theorem mem_waysFrom_iff {number : Nat} {ns : List Node} {way : Way} :
    way ∈ waysFrom number ns ↔
      ∃ j inner c, way = (number + j) :: inner ∧ ns[j]? = some c ∧ inner ∈ c.ways := by
  induction ns generalizing number with
  | nil => simp [waysFrom]
  | cons n rest ih =>
    rw [waysFrom, List.mem_append, List.mem_map, ih]
    constructor
    · rintro (⟨inner, hinner, rfl⟩ | ⟨j, inner, c, rfl, hc, hinner⟩)
      · exact ⟨0, inner, n, rfl, rfl, hinner⟩
      · exact ⟨j + 1, inner, c, by rw [Nat.add_right_comm, Nat.add_assoc], hc, hinner⟩
    · rintro ⟨j, inner, c, rfl, hc, hinner⟩
      cases j with
      | zero =>
        cases hc
        exact .inl ⟨inner, hinner, rfl⟩
      | succ j => exact .inr ⟨j, inner, c, by rw [Nat.add_right_comm, Nat.add_assoc], hc, hinner⟩

theorem mem_ways_iff {n : Node} {way : Way} : way ∈ n.ways ↔ (n.at? way).isSome := by
  induction n using children_induction generalizing way with
  | step n ih =>
    rw [ways_eq, List.mem_cons, mem_waysFrom_iff]
    cases way with
    | nil => simp [at?]
    | cons i inner =>
      have hchild : ((n.children[i]?).bind (at? · inner)).isSome ↔
          ∃ c, n.children[i]? = some c ∧ inner ∈ c.ways := by
        cases hc : n.children[i]? with
        | none => simp
        | some c => simp [ih c (List.mem_of_getElem? hc)]
      rw [at?, hchild]
      simp

theorem pairwise_waysFrom {number : Nat} {ns : List Node}
    (h : ∀ n ∈ ns, n.ways.Pairwise Way.Before) : (waysFrom number ns).Pairwise Way.Before := by
  induction ns generalizing number with
  | nil => exact List.Pairwise.nil
  | cons n rest ih =>
    rw [waysFrom, List.pairwise_append, List.pairwise_map]
    refine ⟨(h n List.mem_cons_self).imp fun hvw => hvw.cons number,
      ih fun m hm => h m (List.mem_cons_of_mem n hm), ?_⟩
    intro v hv w hw
    obtain ⟨inner, -, rfl⟩ := List.mem_map.mp hv
    obtain ⟨j, inner', c, rfl, -, -⟩ := mem_waysFrom_iff.mp hw
    exact Way.before_of_lt (by omega) _ _

theorem pairwise_ways (n : Node) : n.ways.Pairwise Way.Before := by
  induction n using children_induction with
  | step n ih =>
    rw [ways_eq, List.pairwise_cons]
    refine ⟨fun way hway => ?_, pairwise_waysFrom ih⟩
    obtain ⟨j, inner, c, rfl, -, -⟩ := mem_waysFrom_iff.mp hway
    exact Way.before_nil (List.cons_ne_nil _ _)

theorem map_at?_waysFrom (n : Node) (before : List Node) {ns : List Node}
    (hchildren : n.children = before ++ ns)
    (h : ∀ c ∈ ns, c.ways.map c.at? = c.preorder.map some) :
    (waysFrom before.length ns).map n.at? = (preorderAll ns).map some := by
  induction ns generalizing before with
  | nil => rfl
  | cons c rest ih =>
    have hfirst : (c.ways.map (before.length :: ·)).map n.at? = c.ways.map c.at? := by
      rw [List.map_map]
      refine List.map_congr_left fun way _ => ?_
      rw [Function.comp_apply, at?, hchildren, List.getElem?_append_right (Nat.le_refl _),
        Nat.sub_self]
      rfl
    have hrest := ih (before ++ [c]) (by rw [hchildren, List.append_assoc]; rfl)
      fun d hd => h d (List.mem_cons_of_mem c hd)
    rw [List.length_append, List.length_singleton] at hrest
    rw [waysFrom, List.map_append, hfirst, h c List.mem_cons_self, hrest, preorderAll,
      List.map_append]

/-- The ways lead to the nodes of the preorder, one after the other. -/
theorem map_at?_ways (n : Node) : n.ways.map n.at? = n.preorder.map some := by
  induction n using children_induction with
  | step n ih =>
    have hbelow := map_at?_waysFrom n [] (List.nil_append n.children).symm ih
    rw [ways_eq, preorder_eq, List.map_cons, List.map_cons, ← hbelow]
    rfl

/-- The nodes of a tree with a property, in the order of the tree: all ways that lead to such a node,
each once and one before the other, lead to them. -/
def InTreeOrder (n : Node) (P : Node → Prop) (ds : List Node) : Prop :=
  ∃ ways : List Way, ways.map n.at? = ds.map some ∧
    (∀ way, way ∈ ways ↔ ∃ d, n.at? way = some d ∧ P d) ∧ ways.Nodup ∧ ways.Pairwise Way.Before

theorem inTreeOrder_preorder (n : Node) : n.InTreeOrder (fun _ => True) n.preorder :=
  ⟨n.ways, n.map_at?_ways, fun way => by simp [mem_ways_iff, Option.isSome_iff_exists],
    n.pairwise_ways.imp Way.Before.ne, n.pairwise_ways⟩

theorem InTreeOrder.filter {n : Node} {P Q : Node → Prop} {ds : List Node} (h : n.InTreeOrder P ds)
    {q : Node → Bool} (hq : ∀ d, Q d ↔ P d ∧ q d) : n.InTreeOrder Q (ds.filter q) := by
  obtain ⟨ways, hmap, hmem, hnodup, hpairwise⟩ := h
  let keeps : Option Node → Bool := fun found => found.any q
  refine ⟨ways.filter (keeps ∘ n.at?), ?_, fun way => ?_, hnodup.filter _, hpairwise.filter _⟩
  · calc (ways.filter (keeps ∘ n.at?)).map n.at?
      _ = (ways.map n.at?).filter keeps := List.filter_map.symm
      _ = (ds.map some).filter keeps := by rw [hmap]
      _ = (ds.filter q).map some := List.filter_map
  · rw [List.mem_filter, hmem]
    constructor
    · rintro ⟨⟨d, hd, hP⟩, hkeeps⟩
      exact ⟨d, hd, (hq d).mpr ⟨hP, by simpa [keeps, hd] using hkeeps⟩⟩
    · rintro ⟨d, hd, hQ⟩
      obtain ⟨hP, hkeeps⟩ := (hq d).mp hQ
      exact ⟨⟨d, hd, hP⟩, by simpa [keeps, hd] using hkeeps⟩

end Node

end CronWrap.Syntax
