/-! Syntax trees of modules, with the places of their nodes counted in characters. -/
namespace CronWrap.Syntax

/-- What a node is. Only what imports and calls are made of is told apart; any other construct is a
`phrase` with its parts as children. -/
inductive Kind
  | program
  | importStatement
  | importClause
  | namedImports
  | importSpecifier
  | call
  | arguments
  | identifier
  | string
  | array
  | object
  | phrase
  deriving DecidableEq, Repr, Inhabited

/-- The characters from `start` up to, but not including, `stop`. -/
structure Span where
  start : Nat
  stop : Nat
  deriving DecidableEq, Repr, Inhabited

inductive Node
  | mk (kind : Kind) (span : Span) (children : List Node)
  deriving Repr, Inhabited

namespace Node

def kind : Node → Kind
  | mk kind _ _ => kind

def span : Node → Span
  | mk _ span _ => span

def children : Node → List Node
  | mk _ _ children => children

def start (n : Node) : Nat := n.span.start

def stop (n : Node) : Nat := n.span.stop

@[simp] theorem kind_mk (k : Kind) (s : Span) (cs : List Node) : (mk k s cs).kind = k := rfl

@[simp] theorem span_mk (k : Kind) (s : Span) (cs : List Node) : (mk k s cs).span = s := rfl

@[simp] theorem children_mk (k : Kind) (s : Span) (cs : List Node) :
    (mk k s cs).children = cs := rfl

mutual

def size : Node → Nat
  | mk _ _ children => sizeAll children + 1

def sizeAll : List Node → Nat
  | [] => 0
  | n :: rest => size n + sizeAll rest

end

/-- Visits the pending nodes, each one before its children, which come before the other pending
nodes; it stops after `budget` nodes. -/
def visit : Nat → List Node → List Node
  | 0, _ => []
  | _, [] => []
  | budget + 1, n :: pending => n :: visit budget (n.children ++ pending)

/-- A node and all nodes below it, in document order. -/
def nodes (n : Node) : List Node := visit n.size [n]

/-- The piece of the module's text that a node covers. -/
def chars (source : List Char) (n : Node) : List Char :=
  (source.drop n.start).take (n.stop - n.start)

def text (source : List Char) (n : Node) : String := String.ofList (n.chars source)

/-- The content of a string literal; any other text stands for itself. -/
def unquote (cs : List Char) : List Char :=
  match cs, cs.getLast? with
  | q :: _ :: _, some l =>
    if (q = '"' || q = '\'') && l = q then (cs.drop 1).dropLast else cs
  | _, _ => cs

def stringValue (source : List Char) (n : Node) : String := String.ofList (unquote (n.chars source))

end Node

end CronWrap.Syntax
