import CronWrap.Proofs.Syntax.Nodes
import CronWrap.Proofs.Syntax.Words

/-! Trees of which all nodes are in their places over the text. -/
namespace CronWrap.Syntax

namespace Node

/-- At the index no space and no semicolon comes. -/
def OpensAt (source : List Char) (i : Nat) : Prop :=
  ∀ x ∈ source[i]?, isSpace x = false ∧ x ≠ ';'

/-- The node is the word with which its place starts. -/
structure IsWord (source : List Char) (n : Node) : Prop where
  lt : n.start < n.stop
  chars_eq : n.chars source = wordOf (source.drop n.start)

/-- No call is in the tree. -/
def IsCallFree (n : Node) : Prop := ∀ d ∈ n.nodes, d.kind ≠ .call

/-- What is to be seen of order at one node of a tree over the text. -/
structure IsPlaced (source : List Char) (n : Node) : Prop where
  inOrder : InOrder n.start n.stop n.children
  opens : n.kind = .call ∨ n.kind = .importStatement → OpensAt source n.start
  callFree : n.kind = .importStatement → n.IsCallFree
  /-- Of what an import takes, only the first can be a name. -/
  clause : n.kind = .importClause → ∀ d ∈ n.children.tail, d.kind ≠ .identifier
  name : n.kind = .identifier → n.IsWord source

/-- All nodes of the tree are in their places. -/
def IsLaid (source : List Char) (n : Node) : Prop := ∀ d ∈ n.nodes, d.IsPlaced source

variable {source : List Char} {n : Node}

theorem IsLaid.isPlaced (h : n.IsLaid source) : n.IsPlaced source := h n n.self_mem_nodes

theorem IsLaid.start_le_stop (h : n.IsLaid source) : n.start ≤ n.stop := h.isPlaced.inOrder.le

theorem isLaid_iff : n.IsLaid source ↔ n.IsPlaced source ∧ ∀ c ∈ n.children, c.IsLaid source := by
  constructor
  · exact fun h => ⟨h.isPlaced, fun c hc d hd => h d (mem_nodes_of_mem_children hc hd)⟩
  · rintro ⟨hn, hchildren⟩ d hd
    rcases mem_nodes_iff.mp hd with rfl | ⟨c, hc, hd⟩
    · exact hn
    · exact hchildren c hc d hd

end Node

/-- The kinds of nodes of which nothing but order is asked. -/
class Kind.IsPlain (k : Kind) : Prop where
  ne_call : k ≠ .call
  ne_import : k ≠ .importStatement
  ne_clause : k ≠ .importClause
  ne_name : k ≠ .identifier

namespace Kind

instance : IsPlain .program := ⟨by decide, by decide, by decide, by decide⟩

instance : IsPlain .namedImports := ⟨by decide, by decide, by decide, by decide⟩

instance : IsPlain .importSpecifier := ⟨by decide, by decide, by decide, by decide⟩

instance : IsPlain .arguments := ⟨by decide, by decide, by decide, by decide⟩

instance : IsPlain .string := ⟨by decide, by decide, by decide, by decide⟩

instance : IsPlain .array := ⟨by decide, by decide, by decide, by decide⟩

instance : IsPlain .object := ⟨by decide, by decide, by decide, by decide⟩

instance : IsPlain .phrase := ⟨by decide, by decide, by decide, by decide⟩

end Kind

namespace Node

variable {source : List Char} {s : Span} {cs : List Node}

theorem isLaid_call (hopens : OpensAt source s.start) (hcs : InOrder s.start s.stop cs)
    (hlaid : ∀ c ∈ cs, c.IsLaid source) : (mk .call s cs).IsLaid source :=
  isLaid_iff.mpr ⟨⟨hcs, fun _ => hopens, nofun, nofun, nofun⟩, hlaid⟩

/-- A predicate that passes from children in order to the nodes that hold no more than them. -/
class Covers (source : List Char) (P : Node → Prop) : Prop where
  plain : ∀ {k : Kind} {s : Span} {cs : List Node}, k.IsPlain → InOrder s.start s.stop cs →
    (∀ c ∈ cs, P c) → P (.mk k s cs)
  clause : ∀ {s : Span} {cs : List Node}, (∀ d ∈ cs.tail, d.kind ≠ .identifier) →
    InOrder s.start s.stop cs → (∀ c ∈ cs, P c) → P (.mk .importClause s cs)
  name : ∀ {s : Span}, (mk .identifier s []).IsWord source → P (.mk .identifier s [])

instance : Covers source (IsLaid source) where
  plain hk hcs hlaid := by
    refine isLaid_iff.mpr ⟨⟨hcs, ?_, ?_, ?_, ?_⟩, hlaid⟩
    · exact fun h => (h.elim hk.ne_call hk.ne_import).elim
    · exact fun h => absurd h hk.ne_import
    · exact fun h => absurd h hk.ne_clause
    · exact fun h => absurd h hk.ne_name
  clause htail hcs hlaid := isLaid_iff.mpr ⟨⟨hcs, nofun, nofun, fun _ => htail, nofun⟩, hlaid⟩
  name hword := isLaid_iff.mpr ⟨⟨hword.lt.le, nofun, nofun, nofun, fun _ => hword⟩, by simp⟩

theorem isLaid_mk {k : Kind} [hk : k.IsPlain] (hcs : InOrder s.start s.stop cs)
    (hlaid : ∀ c ∈ cs, c.IsLaid source) : (mk k s cs).IsLaid source :=
  Covers.plain source hk hcs hlaid

/-- The same, and no call is in the tree. -/
def IsLaidCallFree (source : List Char) (n : Node) : Prop := n.IsLaid source ∧ n.IsCallFree

theorem isCallFree_mk {k : Kind} (hk : k ≠ .call) (hcs : ∀ c ∈ cs, c.IsCallFree) :
    (mk k s cs).IsCallFree := by
  intro d hd
  rcases mem_nodes_iff.mp hd with rfl | ⟨c, hc, hd⟩
  · exact hk
  · exact hcs c hc d hd

instance : Covers source (IsLaidCallFree source) where
  plain hk hcs hall := ⟨Covers.plain source hk hcs fun c hc => (hall c hc).1,
    isCallFree_mk hk.ne_call fun c hc => (hall c hc).2⟩
  clause htail hcs hall := ⟨Covers.clause source htail hcs fun c hc => (hall c hc).1,
    isCallFree_mk nofun fun c hc => (hall c hc).2⟩
  name hword := ⟨Covers.name hword, isCallFree_mk nofun (by simp)⟩

end Node

end CronWrap.Syntax
