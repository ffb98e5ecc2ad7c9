import CronWrap.Proofs.Syntax.Order
import CronWrap.Syntax.Grammar.Functions
import CronWrap.Syntax.Grammar.Imports

/-! Tokens, and the constructs without expressions in them, lie in order over the text. -/
namespace CronWrap.Syntax

open HasNodes Node Reader

set_option synthInstance.maxSize 512

variable {source : List Char} {P : Node → Prop} {before : List Node}

/-! ## Tokens -/

instance : Finds source P .mayTake before start := finds_of_look fun _ => rfl
instance : Finds source P .mayTake before stop := finds_of_look fun _ => rfl
instance : Finds source P .mayTake before rest := finds_of_look fun _ => rfl
instance : Finds source P .mayTake before gap := finds_of_look fun _ => rfl
instance : Finds source P .mayTake before broken := finds_of_look fun _ => rfl
instance : Finds source P .mayTake before next? := finds_of_look fun _ => rfl
instance : Finds source P .mayTake before atEnd := finds_of_look fun _ => rfl
instance : Finds source P .mayTake before peekWord := finds_of_look fun _ => rfl
instance : Finds source P .mayTake before peekOperator := finds_of_look fun _ => rfl

instance (n : Nat) : Finds source P .takes before (advance n) := by
  refine ⟨fun c hc a d h => ?_⟩
  cases h
  exact ⟨hc.advance n, [], List.nil_sublist _, Nat.le_add_right _ _, by simp⟩

instance (n : Nat) : Finds source P .follows before (advanceRaw n) := by
  refine ⟨fun c hc a d h => ?_⟩
  cases h
  exact ⟨hc.advanceRaw n, [], List.nil_sublist _, Nat.le_add_right _ _, by simp⟩

instance : Finds source P .takes before word := by
  refine ⟨fun c hc w d h => ?_⟩
  obtain rfl := word_eq_some h
  exact ⟨hc.advance _, [], List.nil_sublist _, Nat.le_add_right _ _, by simp⟩

instance (w : String) : Finds source P .takes before (keyword w) := by
  unfold keyword
  infer_instance

instance (w : String) : Finds source P .mayTake before (acceptKeyword w) := by
  unfold acceptKeyword
  infer_instance

instance (op : String) : Finds source P .takes before (operator op) := by
  unfold operator
  infer_instance

instance (op : String) : Finds source P .mayTake before (acceptOperator op) := by
  unfold acceptOperator
  infer_instance

instance (m : Char) : Finds source P .takes before (mark m) := by unfold mark; infer_instance

instance (m : Char) : Finds source P .mayTake before (acceptMark m) := by
  unfold acceptMark
  infer_instance

instance (m : Char) : Finds source P .mayTake before (close m) := by unfold close; infer_instance

/-! ## Texts that start with a semicolon -/

theorem wordOf_semicolon (cs : List Char) : wordOf (';' :: cs) = [] := by
  simp [wordOf, wordLengthUpTo, isWordPart, isPunctuation]

theorem word_semicolon {c : Cursor} {cs : List Char} (hcs : c.rest = ';' :: cs) :
    word c = none := by
  simp [word, hcs, wordOf_semicolon]

theorem numberLength_semicolon (cs : List Char) : numberLength (';' :: cs) = 0 := by
  unfold numberLength
  split
  · rename_i heq
    cases heq
  · simp [numberLength.decimal, digitRun]

theorem number_semicolon {c : Cursor} {cs : List Char} (hcs : c.rest = ';' :: cs) :
    number c = none := by
  have hrest : Reader.rest c = some (c.rest, c) := rfl
  rw [number, bind_of_eq_some hrest, hcs, numberLength_semicolon]
  exact bind_eq_none rfl

theorem semicolon_eq_some {c : Cursor} {cs : List Char} (hcs : c.rest = ';' :: cs) :
    semicolon c = some ((), c.advance 1) := by
  have hmark : mark ';' c = some ((), c.advance 1) :=
    bind_eq_some.mpr ⟨some ';', c, by rw [next?, hcs, List.head?_cons], rfl⟩
  have haccept : acceptMark ';' c = some (true, c.advance 1) := by
    have htaken : (mark ';' *> pure true : Reader Bool) c = some (true, c.advance 1) := by
      rw [seqRight_eq_bind]
      exact bind_eq_some.mpr ⟨(), _, hmark, rfl⟩
    change ((mark ';' *> pure true : Reader Bool) c <|> _) = _
    rw [htaken]
    rfl
  change ((fun _ => ()) <$> acceptMark ';' : Reader Unit) c = _
  rw [map_eq_pure_bind]
  exact bind_eq_some.mpr ⟨true, _, haccept, rfl⟩

theorem opensAt_of_head {c : Cursor} (hc : c.IsPlace source) (h : ∀ cs, c.rest ≠ ';' :: cs) :
    OpensAt source c.start := by
  intro x hx
  have hhead : c.rest.head? = some x := by
    rw [hc.isIn.rest_eq, List.head?_drop]
    exact hx
  refine ⟨hc.not_isSpace x hhead, ?_⟩
  rintro rfl
  obtain ⟨cs, hcs⟩ := List.head?_eq_some_iff.mp hhead
  exact h cs hcs

theorem opensAt_of_word {c d : Cursor} {w : String} (hc : c.IsPlace source)
    (h : word c = some (w, d)) : OpensAt source c.start := by
  refine opensAt_of_head hc fun cs hcs => ?_
  rw [word_semicolon hcs] at h
  cases h

/-! ## Names -/

theorem identifier_eq_some {c d : Cursor} {n : Node} (h : identifier c = some (n, d)) :
    ∃ w, word c = some (w, d) ∧ n = .mk .identifier ⟨c.start, d.stop⟩ [] := by
  obtain ⟨ns, hparts, rfl⟩ := spanning_eq_some h
  obtain ⟨w, c', hw, hparts⟩ := bind_eq_some.mp (seqRight_eq_bind word _ ▸ hparts)
  cases hparts
  exact ⟨w, hw, rfl⟩

theorem identifier_semicolon {c : Cursor} {cs : List Char} (hcs : c.rest = ';' :: cs) :
    identifier c = none := by
  refine spanning_eq_none ?_
  rw [seqRight_eq_bind]
  exact bind_eq_none (word_semicolon hcs)

theorem opensAt_identifier {c d : Cursor} {n : Node} (hc : c.IsPlace source)
    (h : identifier c = some (n, d)) : OpensAt source n.start := by
  obtain ⟨w, hw, rfl⟩ := identifier_eq_some h
  exact opensAt_of_word hc hw

/-- A name is the word with which its place starts. -/
theorem isWord_of_word {c d : Cursor} {w : String} (hc : c.IsPlace source)
    (h : word c = some (w, d)) :
    (Node.mk .identifier ⟨c.start, d.stop⟩ []).IsWord source := by
  have hne : wordOf c.rest ≠ [] := by
    intro hnil
    simp [word, hnil] at h
  have hrest := hc.isIn.rest_eq
  have htake := take_length_wordOf c.rest
  have hlength : (c.rest.take (wordOf c.rest).length).length = (wordOf c.rest).length := by
    rw [htake]
  obtain rfl := word_eq_some h
  have hstop : (c.advance (wordOf c.rest).length).stop = c.start + (wordOf c.rest).length := by
    simp only [Cursor.advance, Cursor.after, hlength]
  constructor
  · have hpos := List.length_pos_iff.mpr hne
    change c.start < (c.advance (wordOf c.rest).length).stop
    omega
  · change (source.drop c.start).take ((c.advance (wordOf c.rest).length).stop - c.start) =
      wordOf (source.drop c.start)
    rw [hstop, Nat.add_sub_cancel_left, ← hrest, htake]

/-! ## Readers that the rules share -/

section Covers

variable [Covers source P]

instance : Finds source P .takes before identifier := by
  refine ⟨fun c hc n d h => ?_⟩
  obtain ⟨w, hw, rfl⟩ := identifier_eq_some h
  have hword : Finds source P .takes [] word := inferInstance
  have hgathers : Gathers source P .takes [] c ([] : List Node) d :=
    (hword.out c hc w d hw).mono (List.nil_sublist _)
  exact hgathers.span (Covers.name (isWord_of_word hc hw))

instance : Finds source P .takes before Reader.string := by
  unfold Reader.string
  refine Finds.spanning (Finds.behind inferInstance fun cs => ?_)
  split
  · refine Finds.behind inferInstance fun _ => ?_
    split <;> infer_instance
  · infer_instance

instance : Finds source P .takes before number := by unfold number; infer_instance

instance : Finds source P .takes before regex := by
  unfold regex
  refine Finds.behind inferInstance fun cs => ?_
  split
  · split <;> infer_instance
  · infer_instance

instance : Finds source P .takes before skipToken := by unfold skipToken; infer_instance

instance : Finds source P .mayTake before semicolon := by unfold semicolon; infer_instance

instance {α : Type} [HasNodes α] {r : Reader α} [hr : Finds source P .mayTake [] r] :
    Finds source P .mayTake before (commaSeparated r) := by
  unfold commaSeparated
  infer_instance

instance {parts : Reader (List Node)} [Finds source P .takes [] parts] :
    Finds source P .takes before (phrase parts) :=
  Finds.spanning inferInstance

instance (m : Char) : Finds source P .mayTake before (atMark m) := by unfold atMark; infer_instance

instance (w : String) : Finds source P .mayTake before (atKeyword w) := by
  unfold atKeyword
  infer_instance

instance {piece : Reader Node} {isStop : Reader Bool} [hpiece : Finds source P .mayTake [] piece]
    [Finds source P .mayTake [] isStop] : Finds source P .mayTake before (pieces piece isStop) := by
  unfold pieces
  infer_instance

instance : Finds source P .takes before plainTemplate := by
  unfold plainTemplate
  refine Finds.behind inferInstance fun c => ?_
  split <;> infer_instance

instance (depth : Nat) : Finds source P .takes before (bracketToken depth) := by
  unfold bracketToken
  refine Finds.behind inferInstance fun c => ?_
  split <;> infer_instance

instance : Finds source P .takes before balanced := by unfold balanced; infer_instance
instance : Finds source P .takes before qualifiedName := by unfold qualifiedName; infer_instance

instance : Finds source P .mayTake before atMemberName := by
  unfold atMemberName
  refine Finds.behind inferInstance fun c => ?_
  split <;> infer_instance

instance (words : List String) : Finds source P .mayTake before (modifiers words) := by
  unfold modifiers
  infer_instance

/-! ## Imports -/

instance : Finds source P .follows before statementEnd := by unfold statementEnd; infer_instance

instance : Finds source P .mayTake before typeOnly := by
  unfold typeOnly
  refine Finds.passed ?_
  refine Finds.behind inferInstance fun _ => ?_
  refine Finds.behind inferInstance fun _ => ?_
  refine Finds.behind inferInstance fun c => ?_
  split <;> infer_instance

instance : Finds source P .takes before exportName := by unfold exportName; infer_instance
instance : Finds source P .takes before renamed := by unfold renamed; infer_instance

instance : Finds source P .takes before importSpecifier := by
  unfold importSpecifier
  infer_instance

instance : Finds source P .takes before namedImports := by unfold namedImports; infer_instance

instance : Finds source P .takes before namespaceImport := by
  unfold namespaceImport
  infer_instance

theorem kind_spanning {kind : Kind} {parts : Reader (List Node)} {c d : Cursor} {n : Node}
    (h : spanning kind parts c = some (n, d)) : n.kind = kind := by
  obtain ⟨_, -, rfl⟩ := spanning_eq_some h
  rfl

/-- A list of names or a namespace is no name. -/
theorem kind_listed {c d : Cursor} {n : Node}
    (h : (namedImports <|> namespaceImport) c = some (n, d)) : n.kind ≠ .identifier := by
  rcases or_eq_some_of_orElse h with h | h <;> rw [kind_spanning h] <;> decide

/-- Of what an import takes, only the first can be a name. -/
theorem Finds.clause {parts : Reader (List Node)} (h : Finds source P .takes [] parts)
    (htail : ∀ c ns d, parts c = some (ns, d) → ∀ n ∈ ns.tail, n.kind ≠ .identifier) :
    Finds source P .takes before (Reader.spanning .importClause parts) := by
  refine ⟨fun c hc n d hread => ?_⟩
  obtain ⟨ns, hparts, rfl⟩ := spanning_eq_some hread
  have hgathers := h.out c hc ns d hparts
  exact hgathers.span
    (Covers.clause source (htail c ns d hparts) hgathers.inOrder.1 hgathers.inOrder.2)

instance : Finds source P .takes before importClause := by
  unfold importClause
  -- Whether a name comes first decides whether the rest has to take a token.
  refine Finds.clause (Finds.orElse_bind ?_ ?_) fun c ns d h => ?_
  · simp only [bind_map_left]
    infer_instance
  · simp only [pure_bind]
    infer_instance
  · obtain ⟨single, c₁, -, h⟩ := bind_eq_some.mp h
    cases single with
    | none =>
      obtain ⟨listed, c₂, -, h⟩ := bind_eq_some.mp h
      cases h
      simp
    | some name =>
      obtain ⟨more, c₂, -, h⟩ := bind_eq_some.mp h
      cases more with
      | false =>
        cases h
        simp
      | true =>
        obtain ⟨listed, c₃, hlisted, h⟩ := bind_eq_some.mp h
        cases h
        simpa using kind_listed hlisted

instance : Finds source P .mayTake before importAttributes := by
  unfold importAttributes
  infer_instance

instance : Finds source P .takes before fromModule := by unfold fromModule; infer_instance
instance : Finds source P .takes before importRequire := by unfold importRequire; infer_instance
instance : Finds source P .takes before importAlias := by unfold importAlias; infer_instance

end Covers

/-- An import has no call in it, and starts with a word. -/
theorem Lays.importing {parts : Reader (List Node)}
    (h : Finds source (IsLaidCallFree source) .takes [] parts)
    (hopens : ∀ c, c.IsPlace source → ∀ ns d, parts c = some (ns, d) → OpensAt source c.start) :
    Lays source .takes before (Reader.spanning .importStatement parts) := by
  refine ⟨fun c hc n d hread => ?_⟩
  obtain ⟨ns, hparts, rfl⟩ := spanning_eq_some hread
  have hgathers := h.out c hc ns d hparts
  obtain ⟨hin, hall⟩ := hgathers.inOrder
  have hfree : ∀ n ∈ ns, n.IsCallFree := fun n hn => (hall n hn).2
  have hplaced : (Node.mk .importStatement ⟨c.start, d.stop⟩ ns).IsPlaced source :=
    ⟨hin, fun _ => hopens c hc ns d hparts, fun _ => isCallFree_mk nofun hfree, nofun, nofun⟩
  have hlaid : Gathers source (IsLaid source) .takes [] c ns d :=
    hgathers.weaken fun n hn => hn.1
  exact hlaid.span (isLaid_iff.mpr ⟨hplaced, hlaid.inOrder.2⟩)

instance : Lays source .takes before importStatement := by
  unfold importStatement
  refine Lays.importing inferInstance fun c hc ns d h => ?_
  obtain ⟨_, _, h, -⟩ := bind_eq_some.mp h
  obtain ⟨_, _, h, -⟩ := bind_eq_some.mp h
  exact opensAt_of_word hc h

end CronWrap.Syntax
