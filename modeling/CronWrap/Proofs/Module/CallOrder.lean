import CronWrap.Proofs.Conversion.BareCalls
import CronWrap.Proofs.Syntax.Nodes

/-! The order in which the scheduling calls of a module are found. -/
namespace CronWrap.Module

open Syntax

variable {m : Module} {callName : String}

theorem isSome_scheduleCall_iff {n : Node} :
    (m.scheduleCall? callName n).isSome ↔ m.IsBareCall callName n ∧ PassesName n := by
  constructor
  · intro h
    obtain ⟨c, hc⟩ := Option.isSome_iff_exists.mp h
    exact (node_of_scheduleCall hc).2
  · rintro ⟨hbare, hname⟩
    obtain ⟨c, hc⟩ := exists_scheduleCall hbare hname
    exact Option.isSome_iff_exists.mpr ⟨c, hc⟩

theorem map_node_scheduleCalls (m : Module) (callName : String) :
    (m.scheduleCalls callName).map (·.node) =
      m.root.nodes.filter fun n => (m.scheduleCall? callName n).isSome := by
  have hnode : ∀ n, (m.scheduleCall? callName n).map (·.node) =
      Option.guard (fun n => (m.scheduleCall? callName n).isSome) n := by
    intro n
    cases hc : m.scheduleCall? callName n with
    | none => simp [Option.guard, hc]
    | some c => simp [Option.guard, hc, (node_of_scheduleCall hc).1]
  rw [scheduleCalls, List.map_filterMap, ← List.filterMap_eq_filter]
  exact List.filterMap_congr fun n _ => hnode n

theorem inTreeOrder_scheduleCalls (m : Module) (callName : String) :
    m.root.InTreeOrder (fun n => m.IsBareCall callName n ∧ PassesName n)
      ((m.scheduleCalls callName).map (·.node)) := by
  rw [map_node_scheduleCalls, Node.nodes_eq_preorder]
  exact m.root.inTreeOrder_preorder.filter fun n => by
    rw [isSome_scheduleCall_iff, true_and]

theorem pairwise_start_scheduleCalls
    (horder : ∀ n ∈ m.root.nodes, Node.InOrder n.start n.stop n.children) :
    (m.scheduleCalls callName).Pairwise fun a b => a.node.start ≤ b.node.start := by
  rw [← List.pairwise_map (f := fun c : ScheduleCall => c.node) (R := fun a b => a.start ≤ b.start),
    map_node_scheduleCalls]
  refine ((Node.pairwise_isBelow horder).imp_of_mem fun {a b} ha _ hab => ?_).filter _
  rcases hab with hbelow | hbehind
  · exact (Node.bounds_of_mem_nodes (fun d hd => horder d (Node.mem_nodes_trans ha hd))
      hbelow.mem_nodes).1
  · have := (horder a ha).le
    omega

/-- A visit has nothing pending any more after as many rounds as there are nodes, and not before; it
then has yielded the preorder of the tree, each node in the order of the ways to them. So the
scheduling calls are all nodes that are calls of the name and pass a function, however deep, each
once and in that order, in which their beginnings do not go back. -/
theorem scheduleCalls_in_tree_order (m : Module) (callName : String) :
    (∀ rounds, Node.pendingAfter rounds [m.root] = [] ↔ m.root.size ≤ rounds) ∧
      (∀ rounds more, Node.visit (rounds + more) [m.root] =
        Node.visit rounds [m.root] ++ Node.visit more (Node.pendingAfter rounds [m.root])) ∧
      (∀ rounds, m.root.size ≤ rounds → Node.visit rounds [m.root] = m.root.preorder) ∧
      m.root.nodes = m.root.preorder ∧ m.root.InTreeOrder (fun _ => True) m.root.nodes ∧
      m.root.InTreeOrder (fun n => m.IsBareCall callName n ∧ PassesName n)
        ((m.scheduleCalls callName).map (·.node)) ∧
      ((∀ n ∈ m.root.nodes, Node.InOrder n.start n.stop n.children) →
        (m.scheduleCalls callName).Pairwise fun a b => a.node.start ≤ b.node.start) := by
  refine ⟨fun rounds => ?_, fun rounds more => Node.visit_add rounds more _,
    fun rounds => Node.visit_eq_preorder, m.root.nodes_eq_preorder, ?_,
    m.inTreeOrder_scheduleCalls callName, pairwise_start_scheduleCalls⟩
  · rw [Node.pendingAfter_eq_nil_iff, Node.sizeAll_singleton]
  · rw [Node.nodes_eq_preorder]
    exact m.root.inTreeOrder_preorder

/-- Calls in the arguments of calls, one of which is a call of another function. -/
theorem scheduleCalls_in_tree_order_of_nested :
    let source := ("run(f, [run(g, [], \x7b\x7d)])\nother(run(h, run(i, [])))\n" ++
      "run(j, [])\n").toList
    let m := parse (.parse "/app/page.ts") source
    (∀ n ∈ m.root.nodes, Node.InOrder n.start n.stop n.children) ∧
      (m.scheduleCalls "run").map (·.functionName) = ["f", "g", "h", "i", "j"] ∧
      (m.scheduleCalls "run").Pairwise fun a b => a.node.start ≤ b.node.start := by
  intro source m
  have horder : ∀ n ∈ m.root.nodes, Node.InOrder n.start n.stop n.children := by decide +kernel
  have hcalls : (m.scheduleCalls "run").map (·.functionName) = ["f", "g", "h", "i", "j"] := by
    decide +kernel
  obtain ⟨-, -, -, -, -, -, hstart⟩ := scheduleCalls_in_tree_order m "run"
  exact ⟨horder, hcalls, hstart horder⟩

end CronWrap.Module
