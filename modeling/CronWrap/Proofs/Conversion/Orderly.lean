import Mathlib.Data.List.TakeWhile
import Mathlib.Tactic.MkIffOfInductiveProp
import CronWrap.Conversion.Module
import CronWrap.Proofs.Conversion.WrapperImports
import CronWrap.Proofs.Lists
import CronWrap.Proofs.Syntax.Nodes

/-! Where the calls and the imports of a module lie, and how far their edits reach. -/

namespace CronWrap

open Syntax

/-- What a removal takes with it behind a statement. -/
def isSeparator (c : Char) : Bool := c = ' ' || c = '\t' || c = ';' || c = '\r' || c = '\n'

/-- A syntax tree over the text: children lie in order within their parents, imports hold no calls, and
neither an import nor a call starts at a separator. -/
@[mk_iff]
structure Module.IsNested (m : Module) : Prop where
  within : m.root.stop ≤ m.source.length
  inOrder : ∀ n ∈ m.root.nodes, Node.InOrder n.start n.stop n.children
  callFree : ∀ i ∈ m.imports, ∀ n ∈ i.nodes, n.kind ≠ .call
  starts : ∀ n ∈ m.root.nodes, n.kind = .call ∨ n.kind = .importStatement →
    m.source[n.start]?.any isSeparator = false

instance (m : Module) : Decidable m.IsNested := decidable_of_iff _ (Module.isNested_iff m).symm

/-- The tree is no call as a whole too, and in an import the default comes before the list of names. -/
@[mk_iff]
structure Module.IsOrderly (m : Module) : Prop extends m.IsNested where
  root : m.root.kind ≠ .call
  clauses : ∀ i ∈ m.imports, ∀ single ∈ Module.defaultImport? i, ∀ named ∈ Module.namedImports? i,
    single.stop ≤ named.start

instance (m : Module) : Decidable m.IsOrderly := decidable_of_iff _ (Module.isOrderly_iff m).symm

namespace Module

/-! ## Behind a statement -/

def isGap (c : Char) : Bool := c = ' ' || c = '\t'

/-- What goes behind a statement, at the beginning of a text: all blanks, a semicolon that follows
them, and a line break that follows these. -/
inductive IsTrail : List Char → List Char → Prop
  | mk {blanks mark lineBreak rest : List Char} (hblanks : ∀ c ∈ blanks, isGap c)
      (hall : (mark ++ (lineBreak ++ rest)).head?.any isGap = false)
      (hmark : mark = [';'] ∨ mark = [] ∧ (lineBreak ++ rest).head? ≠ some ';')
      (hbreak : lineBreak = ['\r', '\n'] ∨ lineBreak = ['\n'] ∨
        lineBreak = [] ∧ ¬ ['\r', '\n'] <+: rest ∧ ¬ ['\n'] <+: rest) :
      IsTrail (blanks ++ (mark ++ (lineBreak ++ rest))) (blanks ++ (mark ++ lineBreak))

theorem exists_mark (cs : List Char) :
    ∃ mark rest, cs = mark ++ rest ∧ mark.length = (if cs.head? = some ';' then 1 else 0) ∧
      (mark = [';'] ∨ mark = [] ∧ rest.head? ≠ some ';') := by
  by_cases h : cs.head? = some ';'
  · obtain ⟨rest, rfl⟩ := List.head?_eq_some_iff.mp h
    exact ⟨[';'], rest, rfl, by simp, .inl rfl⟩
  · exact ⟨[], cs, rfl, by simp [h], .inr ⟨rfl, h⟩⟩

theorem exists_lineBreak (cs : List Char) :
    ∃ lineBreak rest, cs = lineBreak ++ rest ∧
      lineBreak.length = (match cs with
        | '\r' :: '\n' :: _ => 2
        | '\n' :: _ => 1
        | _ => 0) ∧
      (lineBreak = ['\r', '\n'] ∨ lineBreak = ['\n'] ∨
        lineBreak = [] ∧ ¬ ['\r', '\n'] <+: rest ∧ ¬ ['\n'] <+: rest) := by
  split
  · rename_i rest
    exact ⟨['\r', '\n'], rest, rfl, rfl, .inl rfl⟩
  · rename_i rest
    exact ⟨['\n'], rest, rfl, rfl, .inr (.inl rfl)⟩
  · rename_i hreturn hnewline
    refine ⟨[], cs, rfl, rfl, .inr (.inr ⟨rfl, ?_, ?_⟩)⟩
    · rintro ⟨rest, rfl⟩
      exact hreturn rest rfl
    · rintro ⟨rest, rfl⟩
      exact hnewline rest rfl

theorem exists_trail (source : List Char) (stop : Nat) :
    ∃ trail, IsTrail (source.drop stop) trail ∧ removalEnd source stop = stop + trail.length := by
  let text := source.drop stop
  let blanks := text.takeWhile isGap
  have hbehind : text.drop blanks.length = text.dropWhile isGap :=
    List.drop_length_takeWhile isGap text
  have htext : text = blanks ++ text.dropWhile isGap := List.takeWhile_append_dropWhile.symm
  have hend : removalEnd source stop = stop + blanks.length +
      (if (text.dropWhile isGap).head? = some ';' then 1 else 0) +
      (match (text.dropWhile isGap).drop
          (if (text.dropWhile isGap).head? = some ';' then 1 else 0) with
        | '\r' :: '\n' :: _ => 2
        | '\n' :: _ => 1
        | _ => 0) := by
    rw [← hbehind]
    rfl
  have hall : (text.dropWhile isGap).head?.any isGap = false := by
    have hnot := List.head?_dropWhile_not isGap text
    cases hhead : (text.dropWhile isGap).head? with
    | none => rfl
    | some c => simpa [hhead] using hnot
  obtain ⟨mark, behind, hmark, hmarkLength, hmarkCases⟩ := exists_mark (text.dropWhile isGap)
  obtain ⟨lineBreak, rest, rfl, hbreakLength, hbreakCases⟩ := exists_lineBreak behind
  have hdrop : (text.dropWhile isGap).drop mark.length = lineBreak ++ rest := by
    rw [hmark, List.drop_left]
  rw [← hmarkLength, hdrop, ← hbreakLength] at hend
  refine ⟨blanks ++ (mark ++ lineBreak), ?_, ?_⟩
  · change IsTrail text _
    rw [htext, hmark]
    exact .mk (fun c hc => List.mem_takeWhile_imp hc) (hmark ▸ hall) hmarkCases hbreakCases
  · rw [hend, List.length_append, List.length_append]
    omega

theorem IsTrail.isPrefix {text trail : List Char} (h : IsTrail text trail) : trail <+: text := by
  obtain @⟨blanks, mark, lineBreak, rest, -, -, -, -⟩ := h
  exact ⟨rest, by simp only [List.append_assoc]⟩

theorem IsTrail.isSeparator_of_mem {text trail : List Char} (h : IsTrail text trail) {c : Char}
    (hc : c ∈ trail) : isSeparator c = true := by
  obtain ⟨hblanks, -, hmark, hbreak⟩ := h
  simp only [List.mem_append] at hc
  rcases hc with hc | hc | hc
  · have hgap := hblanks c hc
    simp only [isGap, Bool.or_eq_true, decide_eq_true_eq] at hgap
    rcases hgap with rfl | rfl <;> rfl
  · rcases hmark with rfl | ⟨rfl, -⟩
    · rw [List.mem_singleton.mp hc]
      rfl
    · cases hc
  · rcases hbreak with rfl | rfl | ⟨rfl, -⟩
    · simp only [List.mem_cons, List.not_mem_nil, or_false] at hc
      rcases hc with rfl | rfl <;> rfl
    · rw [List.mem_singleton.mp hc]
      rfl
    · cases hc

/-- The text begins with `n` separators. -/
def BeginsSeparated (cs : List Char) (n : Nat) : Prop :=
  n ≤ cs.length ∧ ∀ c ∈ cs.take n, isSeparator c = true

theorem exists_removalEnd (source : List Char) (stop : Nat) :
    ∃ n, removalEnd source stop = stop + n ∧ BeginsSeparated (source.drop stop) n := by
  obtain ⟨trail, htrail, hend⟩ := exists_trail source stop
  refine ⟨trail.length, hend, htrail.isPrefix.length_le, ?_⟩
  rw [← List.prefix_iff_eq_take.mp htrail.isPrefix]
  exact fun c hc => htrail.isSeparator_of_mem hc

theorem le_removalEnd (source : List Char) (stop : Nat) : stop ≤ removalEnd source stop := by
  obtain ⟨n, hend, -⟩ := exists_removalEnd source stop
  omega

theorem removalEnd_le_length {source : List Char} {stop : Nat} (h : stop ≤ source.length) :
    removalEnd source stop ≤ source.length := by
  obtain ⟨n, hend, hn, -⟩ := exists_removalEnd source stop
  rw [List.length_drop] at hn
  omega

/-- A removal stops before whatever does not start at a separator. -/
theorem removalEnd_le {source : List Char} {stop start : Nat} (hle : stop ≤ start)
    (hstart : source[start]?.any isSeparator = false) : removalEnd source stop ≤ start := by
  obtain ⟨n, hend, hn, htaken⟩ := exists_removalEnd source stop
  by_contra hlt
  rw [List.length_drop] at hn
  have hin : start < source.length := by omega
  have hmem : source[start] ∈ (source.drop stop).take n := by
    apply List.mem_take_iff_getElem.mpr
    exact ⟨start - stop, by simp; omega, by simp [Nat.add_sub_cancel' hle]⟩
  rw [List.getElem?_eq_getElem hin, Option.any_some, htaken _ hmem] at hstart
  cases hstart

/-! ## Calls and imports -/

theorem mem_imports_iff {m : Module} {i : Node} :
    i ∈ m.imports ↔ i ∈ m.root.children ∧ i.kind = .importStatement := by
  simp [imports]

/-- An import of `module` with a local name in its list of names. -/
def Lists (m : Module) (name module : String) (i : Node) : Prop :=
  m.importSource? i = some module ∧ ∃ s ∈ specifiers i, (m.specifierNames s).2 = name

/-- What an import lists besides a local name. -/
def others (m : Module) (name : String) (i : Node) : List Node :=
  (specifiers i).filter fun s => (m.specifierNames s).2 ≠ name

theorem length_others_eq_iff {m : Module} {name : String} {i : Node} :
    (m.others name i).length = (specifiers i).length ↔
      ∀ s ∈ specifiers i, (m.specifierNames s).2 ≠ name := by
  simp [others, List.length_filter_eq_length_iff]

/-- A name is taken out of a list of names that has it: as a part of the list, together with the
list behind a default import, or with the statement. -/
theorem removal_cases (m : Module) (name module : String) (i : Node) :
    (¬ m.Lists name module i ∧ m.removal name module i = .nothing) ∨
      m.Lists name module i ∧ ∃ named ∈ namedImports? i,
        (m.others name i ≠ [] ∧ m.removal name module i =
          .specifiers ⟨named.start, named.stop, m.listText (m.others name i)⟩) ∨
        (m.others name i = [] ∧ ∃ single ∈ defaultImport? i,
          m.removal name module i = .specifiers ⟨single.stop, named.stop, []⟩) ∨
        (m.others name i = [] ∧ defaultImport? i = none ∧
          m.removal name module i = .statement ⟨i.start, removalEnd m.source i.stop, []⟩) := by
  by_cases hsource : m.importSource? i ≠ some module
  · exact .inl ⟨fun h => hsource h.1, if_pos hsource⟩
  simp only [removal, if_neg hsource]
  rw [← others]
  cases hnamed : namedImports? i with
  | none =>
    left
    refine ⟨?_, rfl⟩
    rintro ⟨-, s, hs, -⟩
    simp [specifiers, hnamed] at hs
  | some named =>
    by_cases hlength : (m.others name i).length = (specifiers i).length
    · left
      refine ⟨?_, if_pos hlength⟩
      rintro ⟨-, s, hs, hname⟩
      exact length_others_eq_iff.mp hlength s hs hname
    · have hlisted : ∃ s ∈ specifiers i, (m.specifierNames s).2 = name := by
        simpa [length_others_eq_iff] using hlength
      refine .inr ⟨⟨not_not.mp hsource, hlisted⟩, named, rfl, ?_⟩
      simp only [if_neg hlength]
      by_cases hothers : m.others name i = []
      · rw [hothers]
        cases hsingle : defaultImport? i with
        | none => exact .inr (.inr ⟨rfl, rfl, rfl⟩)
        | some single => exact .inr (.inl ⟨rfl, single, rfl, rfl⟩)
      · exact .inl ⟨hothers, if_pos (by simp [hothers])⟩

namespace IsOrderly

variable {m : Module}

theorem bounds (hm : m.IsOrderly) {n : Node} (hn : n ∈ m.root.nodes) :
    n.start ≤ n.stop ∧ n.stop ≤ m.source.length := by
  obtain ⟨-, hle, hstop⟩ := Node.bounds_of_mem_nodes hm.inOrder hn
  exact ⟨hle, hstop.trans hm.within⟩

theorem import_mem_nodes {i : Node} (hi : i ∈ m.imports) : i ∈ m.root.nodes :=
  Node.mem_nodes_of_mem_children (mem_imports_iff.mp hi).1 i.self_mem_nodes

theorem import_bounds (hm : m.IsOrderly) {i n : Node} (hi : i ∈ m.imports) (hn : n ∈ i.nodes) :
    i.start ≤ n.start ∧ n.start ≤ n.stop ∧ n.stop ≤ i.stop :=
  Node.bounds_of_mem_nodes
    (fun d hd => hm.inOrder d (Node.mem_nodes_trans (import_mem_nodes hi) hd)) hn

/-- Each import ends, with all that is removed together with it, before the next one. -/
theorem pairwise_imports (hm : m.IsOrderly) :
    m.imports.Pairwise fun a b => removalEnd m.source a.stop ≤ b.start := by
  have hchildren := (hm.inOrder m.root m.root.self_mem_nodes).pairwise
  have himports : m.imports.Pairwise fun a b => a.stop ≤ b.start :=
    hchildren.sublist List.filter_sublist
  refine himports.imp_of_mem ?_
  intro a b _ hb hab
  have hkind := (mem_imports_iff.mp hb).2
  exact removalEnd_le hab (hm.starts b (import_mem_nodes hb) (.inr hkind))

/-- A call lies before an import or behind all that is removed with the import. -/
theorem call_apart (hm : m.IsOrderly) {n i : Node} (hn : n ∈ m.root.nodes) (hcall : n.kind = .call)
    (hi : i ∈ m.imports) : n.stop ≤ i.start ∨ removalEnd m.source i.stop ≤ n.start := by
  obtain ⟨hchild, hkind⟩ := mem_imports_iff.mp hi
  rcases Node.mem_nodes_iff.mp hn with rfl | ⟨c, hc, hnc⟩
  · exact absurd hcall hm.root
  · -- The call is below another statement of the module.
    have hne : c ≠ i := by
      rintro rfl
      exact hm.callFree c hi n hnc hcall
    have hroot := hm.inOrder m.root m.root.self_mem_nodes
    obtain ⟨hstart, -, hstop⟩ := Node.bounds_of_mem_nodes
      (fun d hd => hm.inOrder d (Node.mem_nodes_of_mem_children hc hd)) hnc
    rcases hroot.pairwise.or_of_ne hc hchild hne with h | h
    · left
      omega
    · right
      exact removalEnd_le (by omega) (hm.starts n hn (.inl hcall))

/-! ## What an import loses -/

theorem mem_of_childOf {kind : Kind} {n c : Node} (h : c ∈ childOf? kind n) :
    c ∈ n.children ∧ c.kind = kind := by
  have hkind := List.find?_some h
  exact ⟨List.mem_of_find?_eq_some h, by simpa using hkind⟩

theorem start_lt_stop_of_text {source : List Char} {n : Node} (h : n.text source ≠ "") :
    n.start < n.stop := by
  by_contra hle
  have hempty : n.stop - n.start = 0 := by omega
  exact h (by simp [Node.text, Node.chars, hempty])

theorem start_lt_stop_of_stringValue {source : List Char} {n : Node}
    (h : n.stringValue source ≠ "") : n.start < n.stop := by
  by_contra hle
  have hempty : n.stop - n.start = 0 := by omega
  exact h (by simp [Node.stringValue, Node.chars, hempty, Node.unquote])

/-- A specifier with a local name takes some text. -/
theorem specifier_start_lt_stop (hm : m.IsOrderly) {s : Node} (hs : s ∈ m.root.nodes)
    (hname : (m.specifierNames s).2 ≠ "") : s.start < s.stop := by
  have hin := hm.inOrder s hs
  unfold specifierNames at hname
  split at hname
  · have htext : s.text m.source ≠ "" := by
      intro hempty
      have hnil : s.chars m.source = [] := by simpa [Node.text] using hempty
      exact hname (by simp [hnil, Text.trim, Text.dropBlanks])
    exact start_lt_stop_of_text htext
  · rename_i name rest hchildren
    rw [hchildren] at hin
    -- The local name is the text of the second part, or of the only one.
    have hpart : ∃ part ∈ s.children, part.start < part.stop := by
      cases rest with
      | nil =>
        refine ⟨name, by simp [hchildren], ?_⟩
        simp only [List.head?_nil, Option.map_none, Option.getD_none] at hname
        split at hname
        · exact start_lt_stop_of_stringValue hname
        · exact start_lt_stop_of_text hname
      | cons second more =>
        exact ⟨second, by simp [hchildren], start_lt_stop_of_text hname⟩
    obtain ⟨part, hpart, hlt⟩ := hpart
    rw [hchildren] at hpart
    obtain ⟨hlo, -, hhi⟩ := hin.bounds hpart
    omega

theorem default_bounds (hm : m.IsOrderly) {i single : Node} (hi : i ∈ m.imports)
    (hsingle : defaultImport? i = some single) :
    i.start ≤ single.start ∧ single.start ≤ single.stop ∧ single.stop ≤ i.stop := by
  obtain ⟨clause, hclause, hchild⟩ := Option.bind_eq_some_iff.mp hsingle
  apply hm.import_bounds hi
  exact Node.mem_nodes_of_mem_children (mem_of_childOf hclause).1
    (Node.mem_nodes_of_mem_children (mem_of_childOf hchild).1 single.self_mem_nodes)

/-- Where the list of names of an import lies. -/
theorem named_bounds (hm : m.IsOrderly) {i named : Node} (hi : i ∈ m.imports)
    (hnamed : namedImports? i = some named) :
    i.start ≤ named.start ∧ named.stop ≤ i.stop ∧
      ∀ s ∈ specifiers i, s ∈ m.root.nodes ∧ named.start ≤ s.start ∧ s.stop ≤ named.stop := by
  obtain ⟨clause, hclause, hlist⟩ := Option.bind_eq_some_iff.mp hnamed
  have hclause' := (mem_of_childOf hclause).1
  have hlist' := (mem_of_childOf hlist).1
  have hmem : named ∈ i.nodes := Node.mem_nodes_of_mem_children hclause'
    (Node.mem_nodes_of_mem_children hlist' named.self_mem_nodes)
  have hroot := Node.mem_nodes_trans (import_mem_nodes hi) hmem
  obtain ⟨hlo, -, hhi⟩ := hm.import_bounds hi hmem
  refine ⟨hlo, hhi, ?_⟩
  intro s hs
  simp only [specifiers, hnamed, List.mem_filter] at hs
  obtain ⟨hstart, -, hstop⟩ := (hm.inOrder named hroot).bounds hs.1
  exact ⟨Node.mem_nodes_trans hroot (Node.mem_nodes_of_mem_children hs.1 s.self_mem_nodes),
    hstart, hstop⟩

/-- The edit that takes a name out of an import is within it, together with what is removed behind
it, and takes some text. -/
theorem removal_bounds (hm : m.IsOrderly) {name module : String} (hname : name ≠ "") {i : Node}
    (hi : i ∈ m.imports) :
    (∀ e, m.removal name module i = .specifiers e →
      i.start ≤ e.start ∧ e.start < e.stop ∧ e.stop ≤ i.stop) ∧
    (∀ e, m.removal name module i = .statement e →
      e.start = i.start ∧ e.start < e.stop ∧ e.stop = removalEnd m.source i.stop) := by
  rcases m.removal_cases name module i with ⟨-, h⟩ | ⟨⟨-, s, hs, hlocal⟩, named, hnamed, hcases⟩
  · simp [h]
  · obtain ⟨hlo, hhi, hspecifiers⟩ := hm.named_bounds hi hnamed
    obtain ⟨hroot, hstart, hstop⟩ := hspecifiers s hs
    -- The specifier that goes takes some text of the list of names.
    have hlt := hm.specifier_start_lt_stop hroot (hlocal ▸ hname)
    rcases hcases with ⟨-, h⟩ | ⟨-, single, hsingle, h⟩ | ⟨-, -, h⟩
    · simp only [h, Removal.specifiers.injEq, reduceCtorEq, false_implies, implies_true, and_true]
      rintro e rfl
      exact ⟨hlo, by simp only; omega, hhi⟩
    · have hbefore := hm.clauses i hi single hsingle named hnamed
      have hwithin := hm.default_bounds hi hsingle
      simp only [h, Removal.specifiers.injEq, reduceCtorEq, false_implies, implies_true, and_true]
      rintro e rfl
      exact ⟨by simp only; omega, by simp only; omega, hhi⟩
    · have hend := le_removalEnd m.source i.stop
      simp only [h, Removal.statement.injEq, reduceCtorEq, false_implies, implies_true, true_and]
      rintro e rfl
      exact ⟨rfl, by simp only; omega, rfl⟩

end IsOrderly

end Module
end CronWrap
