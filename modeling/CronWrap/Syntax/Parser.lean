import CronWrap.Syntax.Grammar.Statements

/-! Parsing a module. Every text has a tree: what makes no sense leaves no nodes. -/
namespace CronWrap.Syntax

open Reader

/-- One level of the grammar over the levels below it. -/
def Grammar.rule (g : Grammar) : Goal → Reader Node
  | .statement => g.statementRule
  | .expression => g.sequence
  | .assignment => g.assignmentRule true
  | .branch => g.assignmentRule false
  | .operand => g.operandRule true true
  | .constructed => g.operandRule true false
  | .type => g.wholeType
  | .element => g.markup

/-- Reads a construct that is at most `depth` levels deep. -/
def readGoal (dialect : Dialect) : Nat → Goal → Reader Node
  | 0, _ => failure
  | depth + 1, goal => Grammar.rule ⟨dialect, readGoal dialect depth⟩ goal

/-- More levels than a text of this length can have: each character opens four at most. -/
def depthFor (source : List Char) : Nat := 4 * source.length + 8

/-- The syntax tree of a module. -/
def parse (dialect : Dialect) (source : List Char) : Node :=
  let grammar : Grammar := ⟨dialect, readGoal dialect (depthFor source)⟩
  let statements := (pieces grammar.statement (pure false)) (Cursor.ofSource source)
  .mk .program ⟨0, source.length⟩ ((statements.map (·.1)).getD [])

end CronWrap.Syntax
