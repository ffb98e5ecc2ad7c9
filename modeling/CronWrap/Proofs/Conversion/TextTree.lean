import CronWrap.Proofs.Conversion.Orderly
import CronWrap.Proofs.Syntax.TreeOrder

/-! The tree that is read from a text is an orderly one, and its names are not blank. -/
namespace CronWrap

open Syntax
open Text (isBlank)

/-! ## Words -/

/-- A blank is a control, or separates tokens. -/
theorem lt_or_isSpace_of_isBlank {c : Char} (h : isBlank c) : c.toNat < 0x20 ∨ isSpace c := by
  simp only [isBlank, Text.inRanges, Text.blankRanges, List.any_cons, List.any_nil, Bool.or_eq_true,
    Bool.and_eq_true, decide_eq_true_eq, Bool.false_eq_true, or_false] at h
  simp only [isSpace, Bool.or_eq_true, Bool.and_eq_true, decide_eq_true_eq, beq_iff_eq]
  omega

theorem not_isWordPart_of_isBlank {c : Char} (h : isBlank c) : isWordPart c = false := by
  rcases lt_or_isSpace_of_isBlank h with hlow | hspace
  · simp [isWordPart, Nat.not_le.mpr hlow]
  · simp [isWordPart, hspace]

theorem wordLengthUpTo_of_isBlank {c : Char} (h : isBlank c) (bound : Nat) (rest : List Char) :
    wordLengthUpTo bound (c :: rest) = 0 := by
  have hescape : c ≠ '\\' := by
    rintro rfl
    exact absurd h (by decide)
  have hpart := not_isWordPart_of_isBlank h
  unfold wordLengthUpTo
  split <;> simp_all

/-- A word starts with no blank. -/
theorem not_isBlank_of_head_wordOf {cs : List Char} {x : Char} (h : (wordOf cs).head? = some x) :
    ¬ isBlank x := by
  intro hblank
  cases cs with
  | nil => cases h
  | cons c rest =>
    simp only [wordOf] at h
    split at h
    · cases h
    · have hx : c = x := by
        generalize wordLengthUpTo (c :: rest).length (c :: rest) = n at h
        cases n with
        | zero => cases h
        | succ n => simpa using h
      rw [hx, wordLengthUpTo_of_isBlank hblank] at h
      cases h

namespace Module

/-! ## Order -/

theorem isSpace_of_isSeparator {c : Char} (h : isSeparator c = true) :
    isSpace c = true ∨ c = ';' := by
  simp only [isSeparator, Bool.or_eq_true, decide_eq_true_eq] at h
  rcases h with (((rfl | rfl) | rfl) | rfl) | rfl <;> decide

theorem any_isSeparator_of_opensAt {source : List Char} {i : Nat} (h : Node.OpensAt source i) :
    source[i]?.any isSeparator = false := by
  cases hi : source[i]? with
  | none => rfl
  | some c =>
    obtain ⟨hspace, hmark⟩ := h c hi
    rw [Option.any_some, Bool.eq_false_iff]
    intro hseparator
    rcases isSpace_of_isSeparator hseparator with h | h
    · rw [hspace] at h
      cases h
    · exact hmark h

/-- The default comes before the list of names where only the first that an import takes can be a
name. -/
theorem default_before_named {source : List Char} {i single named : Node} (hi : i.IsLaid source)
    (hsingle : defaultImport? i = some single) (hnamed : namedImports? i = some named) :
    single.stop ≤ named.start := by
  obtain ⟨clause, hclause, hchild⟩ := Option.bind_eq_some_iff.mp hsingle
  obtain ⟨clause', hclause', hlist⟩ := Option.bind_eq_some_iff.mp hnamed
  obtain rfl : clause' = clause := by rw [hclause] at hclause'; cases hclause'; rfl
  obtain ⟨hmem, hkind⟩ := IsOrderly.mem_of_childOf hclause
  obtain ⟨hsingle, hname⟩ := IsOrderly.mem_of_childOf hchild
  obtain ⟨hnamed, hnames⟩ := IsOrderly.mem_of_childOf hlist
  have hplaced := (Node.isLaid_iff.mp hi).2 _ hmem |>.isPlaced
  have hpairwise := hplaced.inOrder.pairwise
  have htail := hplaced.clause hkind
  cases hchildren : clause'.children with
  | nil => simp [hchildren] at hsingle
  | cons first rest =>
    rw [hchildren] at hsingle hnamed hpairwise htail
    have hfirst : single = first :=
      (List.mem_cons.mp hsingle).resolve_right fun h => htail single h hname
    have hrest : named ∈ rest := by
      refine (List.mem_cons.mp hnamed).resolve_left fun h => ?_
      rw [h, ← hfirst, hname] at hnames
      cases hnames
    rw [hfirst]
    exact (List.pairwise_cons.mp hpairwise).1 named hrest

/-- The tree that is read from a text is an orderly one, whatever the text is. -/
theorem isOrderly_parse (file : Path) (source : List Char) : (parse file source).IsOrderly := by
  have hlaid : (parse file source).root.IsLaid source := isLaid_parse (.ofFile file) source
  have himport : ∀ i ∈ (parse file source).imports, i.IsLaid source := fun i hi d hd =>
    hlaid d (Node.mem_nodes_trans (IsOrderly.import_mem_nodes hi) hd)
  exact {
    root := nofun
    within := Nat.le_refl _
    inOrder := fun n hn => (hlaid n hn).inOrder
    callFree := fun i hi => (himport i hi).isPlaced.callFree (mem_imports_iff.mp hi).2
    starts := fun n hn hkind => any_isSeparator_of_opensAt ((hlaid n hn).opens hkind)
    clauses := fun i hi single hsingle named hnamed =>
      default_before_named (himport i hi) hsingle hnamed }

/-! ## Names -/

/-- Each name in a tree has a character that is no blank. -/
theorem exists_not_isBlank_of_name {file : Path} {source : List Char} {n : Node}
    (hn : n ∈ (parse file source).root.nodes) (hkind : n.kind = .identifier) :
    ∃ x ∈ n.chars source, ¬ isBlank x := by
  obtain ⟨hlt, hword⟩ : n.IsWord source := isWord_of_mem_parse hn hkind
  obtain ⟨-, hstop⟩ := (isOrderly_parse file source).bounds hn
  have hne : n.chars source ≠ [] := by
    rw [Node.chars, ← List.length_pos_iff, List.length_take, List.length_drop]
    change n.stop ≤ source.length at hstop
    omega
  obtain ⟨x, rest, hx⟩ := List.exists_cons_of_ne_nil hne
  have hhead : (wordOf (source.drop n.start)).head? = some x := by rw [← hword, hx]; rfl
  exact ⟨x, by rw [hx]; exact List.mem_cons_self, not_isBlank_of_head_wordOf hhead⟩

end Module

end CronWrap
