import CronWrap.Proofs.Syntax.Preorder

/-! The nodes below a node, and where nested nodes lie. -/
namespace CronWrap.Syntax.Node

theorem nodes_eq (n : Node) : n.nodes = n :: n.children.flatMap nodes := by
  rw [funext nodes_eq_preorder, preorder_eq, preorderAll_eq_flatMap]

theorem mem_nodes_iff {n d : Node} : d ∈ n.nodes ↔ d = n ∨ ∃ c ∈ n.children, d ∈ c.nodes := by
  rw [nodes_eq, List.mem_cons, List.mem_flatMap]

theorem self_mem_nodes (n : Node) : n ∈ n.nodes := mem_nodes_iff.mpr (.inl rfl)

theorem mem_nodes_of_mem_children {n c d : Node} (hc : c ∈ n.children) (hd : d ∈ c.nodes) :
    d ∈ n.nodes := mem_nodes_iff.mpr (.inr ⟨c, hc, hd⟩)

theorem mem_nodes_trans {n d e : Node} (hd : d ∈ n.nodes) (he : e ∈ d.nodes) : e ∈ n.nodes := by
  induction n using children_induction with
  | step n ih =>
    rcases mem_nodes_iff.mp hd with rfl | ⟨c, hc, hd⟩
    · exact he
    · exact mem_nodes_of_mem_children hc (ih c hc hd)

/-- The node is among those to which a child of the other one leads. -/
def IsBelow (d n : Node) : Prop := ∃ c ∈ n.children, d ∈ c.nodes

theorem IsBelow.mem_nodes {n d : Node} (h : d.IsBelow n) : d ∈ n.nodes := mem_nodes_iff.mpr (.inr h)

theorem isBelow_of_mem_nodes {n d e : Node} (hd : d ∈ n.nodes) (he : e.IsBelow d) :
    e.IsBelow n := by
  rcases mem_nodes_iff.mp hd with rfl | ⟨c, hc, hd⟩
  · exact he
  · exact ⟨c, hc, mem_nodes_trans hd he.mem_nodes⟩

theorem size_le_of_mem_nodes {n d : Node} (h : d ∈ n.nodes) : d.size ≤ n.size := by
  induction n using children_induction with
  | step n ih =>
    rcases mem_nodes_iff.mp h with rfl | ⟨c, hc, hd⟩
    · exact Nat.le_refl _
    · have hle := size_le_sizeAll hc
      have hn := size_eq n
      have := ih c hc hd
      omega

theorem IsBelow.size_lt {n d : Node} (h : d.IsBelow n) : d.size < n.size := by
  obtain ⟨c, hc, hd⟩ := h
  have hle := size_le_sizeAll hc
  have hn := size_eq n
  have := size_le_of_mem_nodes hd
  omega

theorem not_isBelow_self (n : Node) : ¬ n.IsBelow n := fun h => Nat.lt_irrefl _ h.size_lt

/-! ## Order -/

/-- The nodes lie one behind the other from `lo` to `hi`. -/
def InOrder (lo hi : Nat) : List Node → Prop
  | [] => lo ≤ hi
  | n :: rest => lo ≤ n.start ∧ n.start ≤ n.stop ∧ InOrder n.stop hi rest

instance InOrder.decidable (lo hi : Nat) : (ns : List Node) → Decidable (InOrder lo hi ns)
  | [] => inferInstanceAs (Decidable (lo ≤ hi))
  | n :: rest =>
    have := InOrder.decidable n.stop hi rest
    inferInstanceAs (Decidable (_ ∧ _ ∧ _))

theorem InOrder.le {lo hi : Nat} {ns : List Node} (h : InOrder lo hi ns) : lo ≤ hi := by
  induction ns generalizing lo with
  | nil => exact h
  | cons n rest ih =>
    obtain ⟨hlo, hn, hrest⟩ := h
    have := ih hrest
    omega

theorem InOrder.bounds {lo hi : Nat} {ns : List Node} (h : InOrder lo hi ns) {n : Node}
    (hn : n ∈ ns) : lo ≤ n.start ∧ n.start ≤ n.stop ∧ n.stop ≤ hi := by
  induction ns generalizing lo with
  | nil => cases hn
  | cons m rest ih =>
    obtain ⟨hlo, hm, hrest⟩ := h
    rcases List.mem_cons.mp hn with rfl | hn
    · exact ⟨hlo, hm, hrest.le⟩
    · obtain ⟨hstart, hle, hstop⟩ := ih hrest hn
      exact ⟨by omega, hle, hstop⟩

theorem InOrder.pairwise {lo hi : Nat} {ns : List Node} (h : InOrder lo hi ns) :
    ns.Pairwise fun a b => a.stop ≤ b.start := by
  induction ns generalizing lo with
  | nil => exact List.Pairwise.nil
  | cons n rest ih =>
    obtain ⟨-, -, hrest⟩ := h
    exact List.pairwise_cons.mpr ⟨fun b hb => (hrest.bounds hb).1, ih hrest⟩

theorem InOrder.mono {lo lo' hi hi' : Nat} {ns : List Node} (h : InOrder lo hi ns) (hlo : lo' ≤ lo)
    (hhi : hi ≤ hi') : InOrder lo' hi' ns := by
  induction ns generalizing lo lo' with
  | nil => exact hlo.trans (h.trans hhi)
  | cons n rest ih =>
    obtain ⟨hstart, hn, hrest⟩ := h
    exact ⟨hlo.trans hstart, hn, ih hrest (Nat.le_refl _)⟩

theorem InOrder.append {lo mid hi : Nat} {ns ms : List Node} (hn : InOrder lo mid ns)
    (hm : InOrder mid hi ms) : InOrder lo hi (ns ++ ms) := by
  induction ns generalizing lo with
  | nil => exact hm.mono hn (Nat.le_refl _)
  | cons n rest ih =>
    obtain ⟨hstart, hle, hrest⟩ := hn
    exact ⟨hstart, hle, ih hrest⟩

theorem InOrder.sublist {lo hi : Nat} {ns ms : List Node} (h : InOrder lo hi ms)
    (hsub : ns.Sublist ms) : InOrder lo hi ns := by
  induction hsub generalizing lo with
  | slnil => exact h
  | cons m _ ih =>
    obtain ⟨hstart, hle, hrest⟩ := h
    exact ih (hrest.mono (hstart.trans hle) (Nat.le_refl _))
  | cons_cons m _ ih =>
    obtain ⟨hstart, hle, hrest⟩ := h
    exact ⟨hstart, hle, ih hrest⟩

/-- Wherever children lie in order within their parent, each node lies within all above it. -/
theorem bounds_of_mem_nodes {n : Node} (h : ∀ d ∈ n.nodes, InOrder d.start d.stop d.children)
    {d : Node} (hd : d ∈ n.nodes) : n.start ≤ d.start ∧ d.start ≤ d.stop ∧ d.stop ≤ n.stop := by
  induction n using children_induction with
  | step n ih =>
    have hn := h n n.self_mem_nodes
    rcases mem_nodes_iff.mp hd with rfl | ⟨c, hc, hd⟩
    · exact ⟨Nat.le_refl _, hn.le, Nat.le_refl _⟩
    · obtain ⟨hlo, -, hhi⟩ := hn.bounds hc
      obtain ⟨hstart, hle, hstop⟩ :=
        ih c hc (fun e he => h e (mem_nodes_of_mem_children hc he)) hd
      exact ⟨by omega, hle, by omega⟩

/-- Of two nodes in a visit the later one lies below the earlier one, or behind it. -/
theorem pairwise_isBelow {n : Node} (h : ∀ d ∈ n.nodes, InOrder d.start d.stop d.children) :
    n.nodes.Pairwise fun a b => b.IsBelow a ∨ a.stop ≤ b.start := by
  induction n using children_induction with
  | step n ih =>
    have hchild : ∀ c ∈ n.children, ∀ d ∈ c.nodes, InOrder d.start d.stop d.children :=
      fun c hc d hd => h d (mem_nodes_of_mem_children hc hd)
    rw [nodes_eq, List.pairwise_cons, List.pairwise_flatMap]
    refine ⟨?_, fun c hc => ih c hc (hchild c hc), ?_⟩
    · intro b hb
      exact .inl (List.mem_flatMap.mp hb)
    · refine (h n n.self_mem_nodes).pairwise.imp_of_mem ?_
      intro a b ha hb hab x hx y hy
      obtain ⟨-, -, hxa⟩ := bounds_of_mem_nodes (hchild a ha) hx
      obtain ⟨hby, -, -⟩ := bounds_of_mem_nodes (hchild b hb) hy
      right
      omega

end CronWrap.Syntax.Node
