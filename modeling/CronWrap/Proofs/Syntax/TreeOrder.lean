import CronWrap.Proofs.Syntax.Growth
import CronWrap.Proofs.Syntax.TokenOrder
import CronWrap.Syntax.Parser

/-! The nodes of a syntax tree lie in order over the text, for every text. -/
namespace CronWrap.Syntax

open HasNodes Node Reader

set_option synthInstance.maxSize 512

variable {source : List Char} {before : List Node}

/-- What the grammar reads in nested places lies in order. -/
class Grammar.IsLaying (source : List Char) (g : Grammar) : Prop where
  read : ∀ goal, Lays source .takes [] (g.read goal)

namespace Grammar

variable {g : Grammar} [hg : g.IsLaying source]

instance (goal : Goal) : Lays source .takes before (g.read goal) := (hg.read goal).alone
instance : Lays source .takes before g.statement := (hg.read _).alone
instance : Lays source .takes before g.expression := (hg.read _).alone
instance : Lays source .takes before g.assignment := (hg.read _).alone
instance : Lays source .takes before g.operand := (hg.read _).alone
instance : Lays source .takes before g.type := (hg.read _).alone
instance : Lays source .takes before g.element := (hg.read _).alone

/-! ## Types -/

instance : Lays source .takes before (typeArguments g) := by unfold typeArguments; infer_instance
instance : Lays source .takes before (typeParameter g) := by unfold typeParameter; infer_instance
instance : Lays source .takes before (typeParameters g) := by unfold typeParameters; infer_instance
instance : Lays source .takes before (resultType g) := by unfold resultType; infer_instance

instance : Lays source .takes before (signatureParameter g) := by
  unfold signatureParameter
  infer_instance

instance : Lays source .takes before (functionType g) := by unfold functionType; infer_instance
instance : Lays source .takes before (namedType g) := by unfold namedType; infer_instance
instance : Lays source .takes before (importType g) := by unfold importType; infer_instance
instance : Lays source .takes before (typeQuery g) := by unfold typeQuery; infer_instance

instance : Lays source .takes before typePrefix := by
  unfold typePrefix
  refine Finds.opening inferInstance fun _ => ?_
  refine Finds.behind inferInstance fun _ => ?_
  refine Finds.behind inferInstance fun c => ?_
  split <;> infer_instance

instance (functions : Bool) : Lays source .takes before (primaryType g functions) := by
  unfold primaryType
  refine Finds.behind inferInstance fun c => ?_
  split <;> infer_instance

instance (functions : Bool) : Lays source .takes before (postfixType g functions) := by
  unfold postfixType
  infer_instance

instance (functions : Bool) : Lays source .takes before (alternatives g functions) := by
  unfold alternatives
  infer_instance

instance : Lays source .takes before (wholeType g) := by unfold wholeType; infer_instance

/-! ## Lists of items, templates and calls -/

instance : Lays source .follows before (substitution g) := by
  unfold substitution
  refine Finds.behind inferInstance fun c => ?_
  dsimp only
  split <;> infer_instance

instance : Lays source .takes before (template g) := by unfold template; infer_instance
instance : Lays source .takes before (item g) := by unfold item; infer_instance
instance : Lays source .mayTake before (items g) := by unfold items; infer_instance
instance : Lays source .takes before (array g) := by unfold array; infer_instance

/-- Arguments are a node over all that is taken. -/
theorem argumentList_eq_some {c d : Cursor} {args : Node} {closed : Bool}
    (h : argumentList g c = some ((args, closed), d)) :
    ∃ found, (do mark '('; let found ← items g; return (found, ← close ')')) c =
        some ((found, closed), d) ∧
      args = .mk .arguments ⟨c.start, d.stop⟩ found := by
  obtain ⟨_, _, hstart, h⟩ := bind_eq_some.mp h
  cases hstart
  obtain ⟨u, c₁, hmark, h⟩ := bind_eq_some.mp h
  obtain ⟨found, c₂, hitems, h⟩ := bind_eq_some.mp h
  obtain ⟨_, _, hclose, h⟩ := bind_eq_some.mp h
  cases h
  exact ⟨found, bind_eq_some.mpr ⟨u, c₁, hmark, bind_eq_some.mpr ⟨found, c₂, hitems,
    bind_eq_some.mpr ⟨closed, d, hclose, rfl⟩⟩⟩, rfl⟩

instance : Lays source .takes before (argumentList g) := by
  refine ⟨fun c hc ⟨args, closed⟩ d h => ?_⟩
  obtain ⟨found, hread, rfl⟩ := argumentList_eq_some h
  have hlays : Lays source .takes []
      (do mark '('; let found ← items g; return (found, ← close ')')) := inferInstance
  have hfound : Gathers source (IsLaid source) .takes [] c found d :=
    (hlays.out c hc (found, closed) d hread).mono (List.sublist_append_left _ _)
  have hnode : Gathers source (IsLaid source) .takes before c
      (Node.mk .arguments ⟨c.start, d.stop⟩ found) d := hfound.spanPlain
  exact hnode.mono (by simp [nodesOf])

/-- A call starts with what is called. -/
instance {callee : Node} :
    Grows source (OpensAt source callee.start) callee before (callOf g callee) := by
  refine Grows.alone ⟨fun hopens hcallee c hc hin _ n d h => ?_⟩
  obtain ⟨⟨args, closed⟩, c', hargs, h⟩ := bind_eq_some.mp h
  cases h
  have hlays : Lays source .takes [] (argumentList g) := inferInstance
  have hread := hlays.out c hc _ d hargs
  obtain ⟨hstart, hle, hstop, hlaid⟩ := hread.bounds (n := args) List.mem_cons_self
  have hbehind := hc.stop_le_start.trans hstart
  have hparts : InOrder callee.start d.stop [callee, args] :=
    ⟨Nat.le_refl _, hcallee.start_le_stop, hin.le.trans hbehind, hle, hstop⟩
  have hall : ∀ n ∈ [callee, args], n.IsLaid source := by simp [hcallee, hlaid]
  have hnode : (Node.mk (if closed then .call else .phrase) ⟨callee.start, d.stop⟩
      [callee, args]).IsLaid source := by
    cases closed with
    | true => exact isLaid_call hopens hparts hall
    | false =>
      change (Node.mk .phrase _ _).IsLaid source
      exact isLaid_mk hparts hall
  have hwrap := GrewFrom.wrap hread.1 hnode
  exact { hwrap with stop_le := hbehind.trans (hle.trans hstop) }

/-! ## Applications -/

instance : Lays source .mayTake before endsTypeArguments := by
  unfold endsTypeArguments
  refine Finds.behind inferInstance fun c => ?_
  split <;> infer_instance

section Applications

variable {e : Node} {p : Prop}

instance grows_applied {parts rest : List Node} [h : Draws before parts rest] :
    Grows source p e before (applied e parts) := by
  refine ⟨fun _ he c hc hin hbefore a d hread => ?_⟩
  cases hread
  have hsub : parts.Sublist before := by
    have hout := h.out
    rw [nodesOf_list] at hout
    exact (List.sublist_append_right rest parts).trans hout
  exact GrewFrom.wrap hc (isLaid_mk ⟨Nat.le_refl _, he.start_le_stop, hin.sublist hsub⟩
    (List.forall_mem_cons.mpr ⟨he, fun n hn => hbefore n (hsub.subset hn)⟩))

instance : Grows source p e before (memberAccess e) := by unfold memberAccess; infer_instance
instance : Grows source p e before (indexed g e) := by unfold indexed; infer_instance
instance : Grows source p e before (tagged g e) := by unfold tagged; infer_instance

instance (calls : Bool) :
    Grows source (OpensAt source e.start) e before (withTypeArguments g calls e) := by
  unfold withTypeArguments
  refine Grows.behind inferInstance fun _ => ?_
  refine Grows.behind inferInstance fun c => ?_
  split <;> infer_instance

instance : Grows source (OpensAt source e.start) e before (optionalAccess g e) := by
  unfold optionalAccess
  refine Grows.behind inferInstance fun _ => ?_
  refine Grows.behind inferInstance fun c => ?_
  split <;> infer_instance

instance (calls : Bool) :
    Grows source (OpensAt source e.start) e before (application g calls e) := by
  unfold application
  refine Grows.behind inferInstance fun c => ?_
  split <;> infer_instance

end Applications

/-! ## Markup -/

instance : Lays source .takes before markupName := by unfold markupName; infer_instance
instance : Lays source .takes before (embedded g) := by unfold embedded; infer_instance

instance : Lays source .takes before (attributeValue g) := by
  unfold attributeValue
  refine Finds.behind inferInstance fun c => ?_
  split <;> infer_instance

instance : Lays source .takes before (markupAttribute g) := by
  unfold markupAttribute
  infer_instance

instance : Lays source .follows before (markupChild g) := by
  unfold markupChild
  refine Finds.behind inferInstance fun c => ?_
  dsimp only
  split <;> infer_instance

instance : Lays source .follows before (markupContent g) := by
  unfold markupContent
  dsimp only
  infer_instance

instance : Lays source .takes before (markup g) := by
  unfold markup
  dsimp only
  infer_instance

/-! ## Functions, objects and classes -/

/-- A name with what is applied to it, again and again and then once more, past something that
leaves no nodes. -/
theorem Lays.applying {skipped : Reader Unit} {step last : Node → Reader Node}
    (hskipped : Lays source .follows [] skipped)
    (hstep : ∀ e : Node, Grows source (OpensAt source e.start) e [] (step e))
    (hlast : ∀ e : Node, Grows source (OpensAt source e.start) e [] (last e)) :
    Lays source .takes before (do
      let name ← identifier
      let e ← extend step name
      skipped
      return [← last e]) := by
  have htail : ∀ e : Node, Grows source (OpensAt source e.start) e []
      (skipped >>= fun _ => last e) :=
    fun e => Grows.behind hskipped fun _ => (hlast e).alone
  have hname : Lays source .takes []
      (identifier >>= fun e => extend step e >>= fun e => skipped >>= fun _ => last e) :=
    Lays.growing (q := fun n => OpensAt source n.start) inferInstance
      (fun _ hc _ _ h => opensAt_identifier hc h)
      fun n => Grows.andThen (grows_extend (q := OpensAt source)) htail
  have hlist : Lays source .takes before
      ((identifier >>= fun e => extend step e >>= fun e => skipped >>= fun _ => last e) >>=
        fun n => pure [n]) := inferInstance
  simpa only [bind_assoc] using hlist

instance : Lays source .takes before (decorator g) := by
  unfold decorator
  refine Finds.spanning (Finds.opening inferInstance fun _ => ?_)
  refine Finds.behind inferInstance fun parenthesized => ?_
  split
  · infer_instance
  · refine Finds.follows (h := Finds.mayTake (h := Lays.applying inferInstance (fun e => ?_)
      fun e => inferInstance))
    exact inferInstanceAs (Grows source (OpensAt source e.start) e [] (do
      operator "."
      discard word
      applied e []))

instance : Lays source .takes before (memberName g) := by unfold memberName; infer_instance
instance : Lays source .takes before (block g) := by unfold block; infer_instance

instance : Lays source .takes before (binding g) := by
  unfold binding
  refine Finds.behind inferInstance fun c => ?_
  split <;> infer_instance

instance : Lays source .mayTake before ( annotation g) := by unfold annotation; infer_instance
instance : Lays source .mayTake before (initializer g) := by unfold initializer; infer_instance
instance : Lays source .takes before (parameter g) := by unfold parameter; infer_instance
instance : Lays source .takes before (functionTail g) := by unfold functionTail; infer_instance
instance : Lays source .takes before (function g) := by unfold function; infer_instance
instance : Lays source .takes before (property g) := by unfold property; infer_instance
instance : Lays source .takes before (object g) := by unfold object; infer_instance
instance : Lays source .takes before (indexSignature g) := by unfold indexSignature; infer_instance

instance : Lays source .takes before (member g) := by
  unfold member
  -- A lone semicolon is a member, so that what comes first differs from case to case.
  refine Finds.spanning (Finds.orElse_bind ?_ ?_)
  · simp only [seqRight_eq_bind, bind_assoc, pure_bind, if_true]
    infer_instance
  · simp only [pure_bind, Bool.false_eq_true, if_false]
    refine Finds.orElse_bind ?_ ?_
    · simp only [bind_map_left]
      infer_instance
    · simp only [pure_bind]
      refine Finds.behind inferInstance fun _ => ?_
      refine Finds.behind inferInstance fun _ => ?_
      refine Finds.behind inferInstance fun _ => ?_
      refine Finds.opening inferInstance fun _ => ?_
      refine Finds.behind inferInstance fun _ => ?_
      refine Finds.behind inferInstance fun _ => Finds.behind inferInstance fun _ => ?_
      split <;> infer_instance

instance : Lays source .mayTake before (heritage g) := by unfold heritage; infer_instance
instance : Lays source .takes before (classRule g) := by unfold classRule; infer_instance

/-! ## Operands -/

instance : Lays source .takes before (arrowBody g) := by unfold arrowBody; infer_instance

instance (typed : Bool) : Lays source .takes before (arrowTail g typed) := by
  unfold arrowTail
  infer_instance

instance : Lays source .takes before (coverItem g) := by unfold coverItem; infer_instance
instance : Lays source .takes before (coverList g) := by unfold coverList; infer_instance

instance (typed : Bool) : Lays source .takes before (parenthesized g typed) := by
  unfold parenthesized
  infer_instance

instance : Lays source .takes before (genericArrow g) := by unfold genericArrow; infer_instance

instance : Lays source .mayTake before opensGenericArrow := by
  unfold opensGenericArrow
  infer_instance

instance : Lays source .takes before (angled g) := by
  unfold angled
  split <;> infer_instance

instance : Lays source .takes before (asyncArrow g) := by unfold asyncArrow; infer_instance

instance grows_arrow {e body : Node} :
    Grows source True e (before ++ nodesOf body)
      (pure (.mk .phrase ⟨e.start, body.stop⟩ [e, body])) := by
  refine ⟨fun _ he c hc hin hbefore a d h => ?_⟩
  cases h
  have hbody : InOrder e.stop c.stop [body] := hin.sublist (List.sublist_append_right _ _)
  obtain ⟨hstart, hle, hstop⟩ := hbody
  have hlaid := hbefore body (List.mem_append_right _ List.mem_cons_self)
  exact ⟨hc, Nat.le_refl _, rfl, hstop, isLaid_mk
    ⟨Nat.le_refl _, he.start_le_stop, hstart, hle, Nat.le_refl _⟩ (by simp [he, hlaid])⟩

instance : Lays source .takes before (named g) := by
  unfold named
  exact Lays.growing (q := fun _ => True) inferInstance (fun _ _ _ _ _ => trivial)
    fun _ => inferInstance

instance : Lays source .takes before (construction g) := by unfold construction; infer_instance

instance : Lays source .takes before (worded g) := by
  unfold worded
  refine Finds.behind inferInstance fun c => ?_
  split <;> infer_instance

instance (typed : Bool) : Lays source .takes before (head g typed) := by
  unfold head
  refine Finds.behind inferInstance fun c => ?_
  split <;> infer_instance

/-! ## Where an operand starts -/

instance : StartsHere source identifier := by unfold identifier; infer_instance

instance : StartsHere source (named g) := by
  unfold named
  exact StartsHere.growing (q := fun _ => True) inferInstance
    (fun _ _ _ _ _ => trivial) (fun _ => inferInstance) inferInstance

instance : StartsHere source (angled g) := by
  unfold angled
  split
  · unfold genericArrow
    infer_instance
  · refine StartsHere.look (fun _ => rfl) fun _ => ?_
    unfold genericArrow markup
    infer_instance

instance : StartsHere source (worded g) := by
  unfold worded
  refine StartsHere.look (fun _ => rfl) fun _ => ?_
  unfold function classRule construction asyncArrow
  split <;> infer_instance

instance (typed : Bool) : StartsHere source (head g typed) := by
  unfold head
  refine StartsHere.look (fun _ => rfl) fun _ => ?_
  unfold parenthesized array object Reader.string template
  split <;> infer_instance

omit hg in
theorem worded_semicolon {c : Cursor} {cs : List Char} (hcs : c.rest = ';' :: cs) :
    worded g c = none := by
  have hpeek : peekWord c = some ("", c) := by rw [peekWord, hcs, wordOf_semicolon]
  have hnamed : worded g c = named g c := by
    rw [worded, bind_of_eq_some hpeek]
    rfl
  rw [hnamed, named]
  exact bind_eq_none (identifier_semicolon hcs)

omit hg in
/-- No operand starts with a semicolon. -/
theorem head_semicolon {typed : Bool} {c : Cursor} {cs : List Char} (hcs : c.rest = ';' :: cs) :
    head g typed c = none := by
  have hnext : next? c = some (some ';', c) := by rw [next?, hcs, List.head?_cons]
  have hhead : head g typed c = (phrase (number *> pure []) <|> worded g) c := by
    rw [head, bind_of_eq_some hnext]
    rfl
  have hnumber : (number *> pure [] : Reader (List Node)) c = none := by
    rw [seqRight_eq_bind]
    exact bind_eq_none (number_semicolon hcs)
  rw [hhead]
  exact orElse_eq_none (spanning_eq_none hnumber) (worded_semicolon hcs)

theorem opensAt_head {typed : Bool} {c d : Cursor} {n : Node} (hc : c.IsPlace source)
    (h : head g typed c = some (n, d)) : OpensAt source n.start := by
  have hhere : StartsHere source (head g typed) := inferInstance
  rw [hhere.out c hc n d h]
  refine opensAt_of_head hc fun cs hcs => ?_
  rw [head_semicolon hcs] at h
  cases h

instance (typed calls : Bool) : Lays source .takes before (operandRule g typed calls) := by
  unfold operandRule
  exact Lays.growing (q := fun n => OpensAt source n.start) inferInstance
    (fun _ hc _ _ h => opensAt_head hc h) fun n => grows_extend (q := OpensAt source)

/-! ## Expressions -/

instance : Lays source .takes before (prefixed g) := by unfold prefixed; infer_instance
instance : Lays source .takes before (yielded g) := by unfold yielded; infer_instance

/-- Words and operators before an operand belong to the node. -/
instance (typed : Bool) : Lays source .takes before (unary g typed) := by
  unfold unary
  refine Finds.or inferInstance ⟨fun c hc n d h => ?_⟩
  obtain ⟨_, _, hstart, h⟩ := bind_eq_some.mp h
  cases hstart
  obtain ⟨prefixes, c₁, hprefixes, h⟩ := bind_eq_some.mp h
  obtain ⟨e, c₂, he, h⟩ := bind_eq_some.mp h
  have hlays : Lays source .takes [] (many (prefixed g) >>= fun _ => operandRule g typed true) :=
    inferInstance
  have hread := hlays.out c hc e c₂ (bind_eq_some.mpr ⟨prefixes, c₁, hprefixes, he⟩)
  split at h
  · cases h
    exact hread.alone
  · cases h
    have hparts : Gathers source (IsLaid source) .takes [] c [e] d :=
      hread.mono (by simp [nodesOf])
    exact hparts.spanPlain

instance : Lays source .takes before (operation g) := by unfold operation; infer_instance

instance (typed : Bool) : Lays source .takes before (branches g typed) := by
  unfold branches
  refine Finds.opening inferInstance fun _ => ?_
  refine Finds.behind inferInstance fun c => ?_
  dsimp only
  split <;> infer_instance

instance (typed : Bool) : Lays source .takes before (assignmentRule g typed) := by
  unfold assignmentRule
  refine Lays.growing (q := fun _ => True) inferInstance (fun _ _ _ _ _ => trivial) fun first => ?_
  refine Grows.behind inferInstance fun others => Grows.behind inferInstance fun choice => ?_
  split
  · infer_instance
  · exact inferInstanceAs
      (Grows source True first _ (applied first (others.flatten ++ choice.getD [])))

instance : Lays source .takes before (sequence g) := by
  unfold sequence
  refine Lays.growing (q := fun _ => True) inferInstance (fun _ _ _ _ _ => trivial) fun first => ?_
  refine Grows.behind inferInstance fun others => ?_
  split
  · infer_instance
  · exact grows_applied

/-! ## Statements -/

instance : Lays source .takes before (blockRule g) := by unfold blockRule; infer_instance
instance : Lays source .takes before (condition g) := by unfold condition; infer_instance
instance : Lays source .takes before (declarator g) := by unfold declarator; infer_instance

instance : Lays source .takes before (variableList g) := by
  unfold variableList
  refine Finds.opening inferInstance fun _ => ?_
  refine Finds.behind inferInstance fun _ => ?_
  refine Finds.behind inferInstance fun c => ?_
  dsimp only
  split <;> infer_instance

instance : Lays source .takes before (choice g) := by unfold choice; infer_instance

instance : Lays source .takes before (eachHead g) := by
  unfold eachHead
  refine Finds.behind (Finds.passed ?_) fun _ => inferInstance
  refine Finds.behind inferInstance fun _ => ?_
  refine Finds.behind inferInstance fun _ => ?_
  refine Finds.behind inferInstance fun c => ?_
  split <;> infer_instance

instance : Lays source .takes before (countingHead g) := by unfold countingHead; infer_instance
instance : Lays source .takes before (forLoop g) := by unfold forLoop; infer_instance
instance (w : String) : Lays source .takes before (headed g w) := by unfold headed; infer_instance
instance : Lays source .takes before (doLoop g) := by unfold doLoop; infer_instance
instance : Lays source .takes before (caseClause g) := by unfold caseClause; infer_instance
instance : Lays source .takes before (switch g) := by unfold switch; infer_instance
instance : Lays source .takes before (catchClause g) := by unfold catchClause; infer_instance
instance : Lays source .takes before (attempt g) := by unfold attempt; infer_instance
instance : Lays source .takes before (leaving g) := by unfold leaving; infer_instance
instance : Lays source .takes before jump := by unfold jump; infer_instance
instance : Lays source .takes before (labelled g) := by unfold labelled; infer_instance
instance : Lays source .takes before (typeAlias g) := by unfold typeAlias; infer_instance
instance : Lays source .takes before (interface g) := by unfold interface; infer_instance
instance : Lays source .takes before (enumeration g) := by unfold enumeration; infer_instance
instance : Lays source .takes before (moduleBody g) := by unfold moduleBody; infer_instance
instance : Lays source .takes before (qualified g) := by unfold qualified; infer_instance
instance : Lays source .takes before (annotated g) := by unfold annotated; infer_instance
instance : Lays source .takes before exportList := by unfold exportList; infer_instance

instance : Lays source .takes before (exportStatement g) := by
  unfold exportStatement
  infer_instance

instance : Lays source .takes before (expressionStatement g) := by
  unfold expressionStatement
  infer_instance

instance : Lays source .takes before (wordedStatement g) := by
  unfold wordedStatement
  refine Finds.behind inferInstance fun c => ?_
  split <;> infer_instance

/-- A statement that is no more than a semicolon takes the semicolon. -/
theorem gathers_semicolon {c d : Cursor} {cs : List Char} {n : Node} (hc : c.IsPlace source)
    (hcs : c.rest = ';' :: cs) (h : phrase (semicolon *> pure []) c = some (n, d)) :
    Gathers source (IsLaid source) .takes before c n d := by
  obtain ⟨ns, hparts, rfl⟩ := spanning_eq_some h
  obtain ⟨_, c', hsemicolon, hparts⟩ := bind_eq_some.mp (seqRight_eq_bind semicolon _ ▸ hparts)
  rw [semicolon_eq_some hcs] at hsemicolon
  cases hsemicolon
  cases hparts
  have hgathers : Gathers source (IsLaid source) .takes [] c ([] : List Node) (c.advance 1) :=
    ⟨hc.advance 1, [], List.nil_sublist _, Nat.le_add_right _ _, by simp⟩
  exact hgathers.spanPlain

instance : Lays source .takes before (statementRule g) := by
  refine ⟨fun c hc n d h => ?_⟩
  obtain ⟨x, c', hx, h⟩ := bind_eq_some.mp h
  cases hx
  generalize hhead : c.rest.head? = next at h
  split at h
  · cases h
  · exact Finds.out c hc n d h
  · obtain ⟨cs, hcs⟩ := List.head?_eq_some_iff.mp hhead
    exact gathers_semicolon hc hcs h
  · exact Finds.out c hc n d h
  · exact Finds.out c hc n d h

/-! ## Trees -/

theorem isLaying_readGoal (source : List Char) (dialect : Dialect) (depth : Nat) :
    (⟨dialect, readGoal dialect depth⟩ : Grammar).IsLaying source := by
  induction depth with
  | zero => exact ⟨fun goal => inferInstanceAs (Lays source .takes [] failure)⟩
  | succ depth ih =>
    refine ⟨fun goal => ?_⟩
    cases goal <;> simp only [readGoal, rule] <;> infer_instance

end Grammar

/-- A tree over the whole text, of what a reader takes of it. -/
theorem isLaid_program {statements : Reader (List Node)}
    (hread : Lays source .follows [] statements) :
    (Node.mk .program ⟨0, source.length⟩
      (((statements (Cursor.ofSource source)).map (·.1)).getD [])).IsLaid source := by
  cases h : statements (Cursor.ofSource source) with
  | none => exact isLaid_mk (Nat.zero_le _) (by simp)
  | some x =>
    obtain ⟨ns, d⟩ := x
    obtain ⟨hd, found, hsub, hfits, hall⟩ :=
      hread.out _ (Cursor.isPlace_ofSource source) ns d h
    rw [List.nil_append, nodesOf_list] at hsub
    have hin : InOrder (Cursor.ofSource source).stop d.stop ns := InOrder.sublist hfits hsub
    exact isLaid_mk (hin.mono (Nat.zero_le _) (hd.stop_le_start.trans hd.start_le))
      fun n hn => hall n (hsub.subset hn)

/-- Everywhere in the tree of a text, the nodes are in their places. -/
theorem isLaid_parse (dialect : Dialect) (source : List Char) :
    (parse dialect source).IsLaid source := by
  have hgrammar := Grammar.isLaying_readGoal source dialect (depthFor source)
  exact isLaid_program inferInstance

/-- Every name in the tree of a text is the word with which its place starts. -/
theorem isWord_of_mem_parse {dialect : Dialect} {n : Node} (hn : n ∈ (parse dialect source).nodes)
    (hkind : n.kind = .identifier) : n.IsWord source :=
  (isLaid_parse dialect source n hn).name hkind

end CronWrap.Syntax
