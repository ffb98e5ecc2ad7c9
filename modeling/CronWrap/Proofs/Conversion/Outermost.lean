import CronWrap.Proofs.Conversion.BareCalls
import CronWrap.Proofs.Conversion.TextTree

/-! Which calls a conversion replaces: of calls that lie in each other the outer ones. -/
namespace CronWrap

open Syntax

/-! ## Calls in calls -/

namespace ScheduleCall

/-- The call is below the other one in the tree. -/
def LiesIn (c d : ScheduleCall) : Prop := c.node.IsBelow d.node

/-- The later call lies in the earlier one, or behind it. -/
def Follows (a b : ScheduleCall) : Prop := b.LiesIn a ∨ a.node.stop ≤ b.node.start

/-- A call that is not kept lies in the one that was kept before it. -/
theorem exists_outermostFrom {kept : ScheduleCall} {cs : List ScheduleCall}
    (h : (kept :: cs).Pairwise Follows) :
    ∀ c ∈ cs, ∃ d ∈ kept :: outermostFrom kept.node.stop cs, c = d ∨ c.LiesIn d := by
  induction cs generalizing kept with
  | nil => simp
  | cons c rest ih =>
    obtain ⟨hkept, hrest⟩ := List.pairwise_cons.mp h
    simp only [outermostFrom]
    split
    · rename_i hstart
      have hinside : c.LiesIn kept := (hkept c List.mem_cons_self).resolve_right (by omega)
      have hothers : (kept :: rest).Pairwise Follows :=
        List.pairwise_cons.mpr ⟨fun d hd => hkept d (List.mem_cons_of_mem c hd), hrest.of_cons⟩
      exact List.forall_mem_cons.mpr ⟨⟨kept, List.mem_cons_self, .inr hinside⟩, ih hothers⟩
    · refine List.forall_mem_cons.mpr ⟨⟨c, by simp, .inl rfl⟩, fun d hd => ?_⟩
      obtain ⟨e, he, hd⟩ := ih hrest d hd
      exact ⟨e, List.mem_cons_of_mem kept he, hd⟩

theorem exists_outermost {cs : List ScheduleCall} (h : cs.Pairwise Follows) {c : ScheduleCall}
    (hc : c ∈ cs) : ∃ d ∈ outermost cs, c = d ∨ c.LiesIn d := by
  cases cs with
  | nil => cases hc
  | cons first rest =>
    have hfirst : outermost (first :: rest) = first :: outermostFrom first.node.stop rest := by
      simp [outermost, outermostFrom]
    rw [hfirst]
    rcases List.mem_cons.mp hc with rfl | hc
    · exact ⟨c, List.mem_cons_self, .inl rfl⟩
    · exact exists_outermostFrom h c hc

/-- The calls that are kept lie one behind the other. -/
theorem pairwise_outermostFrom (stop : Nat) {cs : List ScheduleCall}
    (h : ∀ c ∈ cs, c.node.start ≤ c.node.stop) :
    (∀ c ∈ outermostFrom stop cs, stop ≤ c.node.start) ∧
      (outermostFrom stop cs).Pairwise fun a b => a.node.stop ≤ b.node.start := by
  induction cs generalizing stop with
  | nil => simp [outermostFrom]
  | cons c rest ih =>
    have hrest : ∀ c ∈ rest, c.node.start ≤ c.node.stop :=
      fun d hd => h d (List.mem_cons_of_mem c hd)
    simp only [outermostFrom]
    split
    · exact ih stop hrest
    · rename_i hstart
      obtain ⟨hbehind, hpairwise⟩ := ih c.node.stop hrest
      have hc := h c List.mem_cons_self
      refine ⟨?_, List.pairwise_cons.mpr ⟨hbehind, hpairwise⟩⟩
      intro d hd
      rcases List.mem_cons.mp hd with rfl | hd
      · omega
      · have := hbehind d hd
        omega

/-! ## Calls of one tree -/

/-- The call takes a part of the text that the other one takes. -/
def IsWithin (c d : ScheduleCall) : Prop := d.node.start ≤ c.node.start ∧ c.node.stop ≤ d.node.stop

/-- Calls as they come in one tree: each takes some text, a later one lies in an earlier one or behind
it, and what lies in another call is within its range. -/
structure InOneTree (cs : List ScheduleCall) : Prop where
  wide : ∀ c ∈ cs, c.node.start < c.node.stop
  follows : cs.Pairwise Follows
  within : ∀ c ∈ cs, ∀ d ∈ cs, c.LiesIn d → c.IsWithin d

namespace InOneTree

variable {cs : List ScheduleCall}

theorem sublist {cs' : List ScheduleCall} (h : InOneTree cs) (hsub : cs'.Sublist cs) :
    InOneTree cs' where
  wide c hc := h.wide c (hsub.subset hc)
  follows := h.follows.sublist hsub
  within c hc d hd := h.within c (hsub.subset hc) d (hsub.subset hd)

theorem nodup_nodes (h : InOneTree cs) : (cs.map (·.node)).Nodup := by
  rw [List.Nodup, List.pairwise_map]
  refine h.follows.imp_of_mem fun {a b} ha _ hab hsame => ?_
  rcases hab with hin | hbehind
  · rw [LiesIn, hsame] at hin
    exact b.node.not_isBelow_self hin
  · have := h.wide a ha
    rw [← hsame] at hbehind
    omega

theorem pairwise_outermost (h : InOneTree cs) :
    (outermost cs).Pairwise fun a b => a.node.stop ≤ b.node.start :=
  (pairwise_outermostFrom 0 fun c hc => Nat.le_of_lt (h.wide c hc)).2

/-- No two calls that are kept have room for one call. -/
theorem eq_of_isWithin (h : InOneTree cs) {c d e : ScheduleCall} (hc : c ∈ cs)
    (hd : d ∈ outermost cs) (he : e ∈ outermost cs) (hcd : c.IsWithin d) (hce : c.IsWithin e) :
    e = d := by
  by_contra hne
  have hapart := h.pairwise_outermost.or_of_ne he hd hne
  have hwide := h.wide c hc
  obtain ⟨hdstart, hdstop⟩ := hcd
  obtain ⟨hestart, hestop⟩ := hce
  omega

/-- The calls that are kept are those that lie in no other one. -/
theorem mem_outermost_iff (h : InOneTree cs) {c : ScheduleCall} (hc : c ∈ cs) :
    c ∈ outermost cs ↔ ∀ d ∈ cs, ¬ c.LiesIn d := by
  constructor
  · intro hkept d hd hin
    -- What `d` lies in is kept as `c` is, and has room for `c`, so that it is `c`.
    obtain ⟨e, he, hde⟩ := exists_outermost h.follows hd
    have hce : c.LiesIn e := by
      rcases hde with rfl | hde
      · exact hin
      · exact Node.isBelow_of_mem_nodes hde.mem_nodes hin
    have hsub := (outermostFrom_sublist 0 cs).subset he
    obtain rfl := h.eq_of_isWithin hc hkept he ⟨Nat.le_refl _, Nat.le_refl _⟩
      (h.within c hc e hsub hce)
    exact e.node.not_isBelow_self hce
  · intro houter
    obtain ⟨d, hd, rfl | hin⟩ := exists_outermost h.follows hc
    · exact hd
    · exact absurd hin (houter d ((outermostFrom_sublist 0 cs).subset hd))

/-- A call that is dropped lies in one that is kept, and in no other one of these. -/
theorem exists_around (h : InOneTree cs) {c : ScheduleCall} (hc : c ∈ cs)
    (hdropped : c ∉ outermost cs) :
    ∃ d ∈ outermost cs, c.LiesIn d ∧ c.IsWithin d ∧
      ∀ e ∈ outermost cs, c.LiesIn e ∨ c.IsWithin e → e = d := by
  obtain ⟨d, hd, rfl | hin⟩ := exists_outermost h.follows hc
  · exact absurd hd hdropped
  have hwithin : ∀ e ∈ outermost cs, c.LiesIn e → c.IsWithin e := fun e he hce =>
    h.within c hc e ((outermostFrom_sublist 0 cs).subset he) hce
  refine ⟨d, hd, hin, hwithin d hd hin, fun e he hce => ?_⟩
  exact h.eq_of_isWithin hc hd he (hwithin d hd hin) (hce.elim (hwithin e he) id)

end InOneTree

end ScheduleCall

/-! ## Calls of a module -/

namespace Module

variable {m : Module} {callName : String}

section Order

variable (horder : ∀ n ∈ m.root.nodes, Node.InOrder n.start n.stop n.children)

include horder

theorem call_bounds_of_inOrder (hname : callName ≠ "") {c : ScheduleCall}
    (hc : c ∈ m.scheduleCalls callName) :
    c.node ∈ m.root.nodes ∧ c.node.kind = .call ∧ c.node.start < c.node.stop := by
  obtain ⟨n, hn, hfound⟩ := List.mem_filterMap.mp hc
  obtain ⟨rfl, ⟨hkind, callee, hcallee, -, htext⟩, -⟩ := node_of_scheduleCall hfound
  refine ⟨hn, hkind, ?_⟩
  have hlt := IsOrderly.start_lt_stop_of_text (htext ▸ hname)
  obtain ⟨rest, hchildren⟩ := List.head?_eq_some_iff.mp hcallee
  obtain ⟨hlo, -, hhi⟩ := (horder c.node hn).bounds (n := callee) (by simp [hchildren])
  omega

theorem pairwise_follows (callName : String) :
    (m.scheduleCalls callName).Pairwise ScheduleCall.Follows := by
  rw [scheduleCalls, List.pairwise_filterMap]
  refine (Node.pairwise_isBelow horder).imp ?_
  intro a b hab c hc d hd
  obtain ⟨rfl, -⟩ := node_of_scheduleCall hc
  obtain ⟨rfl, -⟩ := node_of_scheduleCall hd
  exact hab

theorem inOneTree_scheduleCalls (hname : callName ≠ "") :
    ScheduleCall.InOneTree (m.scheduleCalls callName) where
  wide c hc := (call_bounds_of_inOrder horder hname hc).2.2
  follows := pairwise_follows horder callName
  within c _ d hd hin := by
    have hroot := (call_bounds_of_inOrder horder hname hd).1
    obtain ⟨hstart, -, hstop⟩ := Node.bounds_of_mem_nodes
      (fun n hn => horder n (Node.mem_nodes_trans hroot hn)) hin.mem_nodes
    exact ⟨hstart, hstop⟩

/-- Every call that could be converted is, or lies in one that is. -/
theorem exists_convertedCall {c : ScheduleCall} (hc : c ∈ m.scheduleCalls callName)
    (hconvertible : c.isConvertible) :
    ∃ outer ∈ m.convertedCalls callName, c = outer ∨ c.LiesIn outer :=
  ScheduleCall.exists_outermost ((pairwise_follows horder callName).sublist List.filter_sublist)
    (List.mem_filter.mpr ⟨hc, hconvertible⟩)

end Order

/-- Where children lie in order within their parents, the calls that are converted are, in the order
of the text, exactly the convertible ones that lie in no other convertible one. They are apart, and
each of the others lies in exactly one of them, in the tree and by its range of the text. A name, which
in valid settings is an identifier, gives each call its width. -/
theorem outermost_convertible
    (horder : ∀ n ∈ m.root.nodes, Node.InOrder n.start n.stop n.children) (hname : callName ≠ "") :
    let cs := (m.scheduleCalls callName).filter (·.isConvertible)
    let kept := ScheduleCall.outermost cs
    m.convertedCalls callName = kept ∧ (cs.map (·.node)).Nodup ∧ kept.Sublist cs ∧
      (∀ c ∈ cs, c ∈ kept ↔ ∀ d ∈ cs, ¬ c.LiesIn d) ∧
      kept.Pairwise (fun a b => a.node.stop ≤ b.node.start) ∧
      ∀ c ∈ cs, c ∉ kept → ∃ d ∈ kept, c.LiesIn d ∧ c.IsWithin d ∧
        ∀ e ∈ kept, c.LiesIn e ∨ c.IsWithin e → e = d := by
  intro cs kept
  have htree : ScheduleCall.InOneTree cs :=
    (inOneTree_scheduleCalls horder hname).sublist List.filter_sublist
  exact ⟨rfl, htree.nodup_nodes, ScheduleCall.outermostFrom_sublist 0 cs,
    fun c hc => htree.mem_outermost_iff hc, htree.pairwise_outermost,
    fun c hc hdropped => htree.exists_around hc hdropped⟩

/-- Calls in calls, three deep, of which one with two arguments is no convertible one. -/
theorem outermost_convertible_of_nested :
    let source := ("run(f, [run(g, [run(h, [], \x7b\x7d)], \x7b\x7d), run(i, j)], \x7b\x7d)\n" ++
      "run(k, [run(l, a, b)], \x7b\x7d)").toList
    let m := parse (.parse "/app/page.ts") source
    let cs := (m.scheduleCalls "run").filter (·.isConvertible)
    let kept := ScheduleCall.outermost cs
    (∀ n ∈ m.root.nodes, Node.InOrder n.start n.stop n.children) ∧ "run" ≠ "" ∧
      cs.map (·.functionName) = ["f", "g", "h", "k", "l"] ∧
      kept.map (·.functionName) = ["f", "k"] ∧
      ∀ c ∈ cs, c ∉ kept → ∃ d ∈ kept, c.LiesIn d ∧ c.IsWithin d ∧
        ∀ e ∈ kept, c.LiesIn e ∨ c.IsWithin e → e = d := by
  intro source m cs kept
  have horder : ∀ n ∈ m.root.nodes, Node.InOrder n.start n.stop n.children :=
    (isOrderly_parse _ source).inOrder
  obtain ⟨hcs, hkept⟩ : cs.map (·.functionName) = ["f", "g", "h", "k", "l"] ∧
      kept.map (·.functionName) = ["f", "k"] := by decide +kernel
  obtain ⟨-, -, -, -, -, haround⟩ := outermost_convertible horder (by decide : "run" ≠ "")
  exact ⟨horder, by decide, hcs, hkept, haround⟩

end Module

end CronWrap
