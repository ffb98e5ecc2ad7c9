import CronWrap.Proofs.Conversion.Rewriting
import CronWrap.Proofs.Syntax.Gaps

/-! What follows the new imports of a converted module on their line. -/
namespace CronWrap

open Syntax

namespace Module

/-! ## Behind an import -/

/-- Where the first token behind a place starts. -/
def tokenStart (source : List Char) (p : Nat) : Nat := p + (gapOf (source.drop p)).length

/-- Behind an import and behind all that is removed with it, calls and imports are read from the
first token on; and they do not start directly behind a slash that this token starts with.

This stands for a module that is valid. It is not so of the tree of every text, as the reader passes over
what it cannot read: behind an import it finds the call in `/run(f)`, directly behind the slash. -/
@[mk_iff]
structure IsClear (m : Module) : Prop where
  tokens : ∀ i ∈ m.imports, ∀ p ∈ [i.stop, removalEnd m.source i.stop], ∀ n ∈ m.root.nodes,
    n.kind = .call ∨ n.kind = .importStatement → p ≤ n.start → tokenStart m.source p ≤ n.start
  slashes : ∀ i ∈ m.imports, ∀ p ∈ [i.stop, removalEnd m.source i.stop], ∀ n ∈ m.root.nodes,
    n.kind = .call ∨ n.kind = .importStatement → m.source[tokenStart m.source p]? = some '/' →
      n.start ≠ tokenStart m.source p + 1

instance (m : Module) : Decidable m.IsClear := decidable_of_iff _ (Module.isClear_iff m).symm

/-- The line ends behind a place once the imports are gone that come next: before any token, or
behind the first of them where that is the first token. -/
inductive LineEnds (source : List Char) : Nat → List Node → Prop
  | here {p : Nat} {gone : List Node} (h : LineEndsFirst (source.drop p)) : LineEnds source p gone
  | behind {p : Nat} {g : Node} {gone : List Node} (hnext : tokenStart source p = g.start)
      (h : LineEnds source (removalEnd source g.stop) gone) : LineEnds source p (g :: gone)

theorem lineEnds_iff_of_next {source : List Char} {p : Nat} {g : Node} {gone : List Node}
    (hnext : tokenStart source p = g.start) (hhere : ¬ LineEndsFirst (source.drop p)) :
    LineEnds source p (g :: gone) ↔ LineEnds source (removalEnd source g.stop) gone := by
  constructor
  · intro h
    cases h with
    | here h => exact absurd h hhere
    | behind _ h => exact h
  · exact .behind hnext

theorem not_lineEnds {source : List Char} {p : Nat} {gone : List Node}
    (hhere : ¬ LineEndsFirst (source.drop p))
    (hnext : ∀ g rest, gone = g :: rest → g.start ≠ tokenStart source p) :
    ¬ LineEnds source p gone := by
  intro h
  cases h with
  | here h => exact hhere h
  | behind h _ => exact hnext _ _ rfl h.symm

/-- The edit by which an import goes. -/
def removalOf (m : Module) (g : Node) : Edit := ⟨g.start, removalEnd m.source g.stop, []⟩

/-- A text that starts with a character of a token, whatever comes next. -/
def StartsToken (cs : List Char) : Prop := ∃ c rest, cs = c :: rest ∧ isSpace c = false ∧ c ≠ '/'

/-- Edits behind a place: these imports go, and what else is put in starts with a token. -/
structure AreBehind (m : Module) (gone : List Node) (p : Nat) (es : List Edit) : Prop where
  behind : ∀ e ∈ es, p ≤ e.start
  ascending : es.Pairwise fun a b => a.stop ≤ b.start
  fits : ∀ e ∈ es, e.start < e.stop ∧ e.stop ≤ m.source.length
  starts : ∀ e ∈ es, ∃ n ∈ m.root.nodes,
    (n.kind = .call ∨ n.kind = .importStatement) ∧ n.start = e.start
  removals : ∀ g ∈ gone, m.removalOf g ∈ es
  others : ∀ e ∈ es, (∃ g ∈ gone, e = m.removalOf g) ∨ StartsToken e.text

variable {m : Module} {gone : List Node} {p : Nat} {es : List Edit}

theorem AreBehind.clear (h : m.AreBehind gone p es) (hclear : m.IsClear)
    (hplace : ∃ i ∈ m.imports, p ∈ [i.stop, removalEnd m.source i.stop]) :
    (∀ e ∈ es, tokenStart m.source p ≤ e.start) ∧
      (m.source[tokenStart m.source p]? = some '/' →
        ∀ e ∈ es, e.start ≠ tokenStart m.source p + 1) := by
  obtain ⟨i, hi, hp⟩ := hplace
  constructor
  · intro e he
    obtain ⟨n, hn, hkind, hstart⟩ := h.starts e he
    rw [← hstart]
    exact hclear.tokens i hi p hp n hn hkind (hstart ▸ h.behind e he)
  · intro hslash e he
    obtain ⟨n, hn, hkind, hstart⟩ := h.starts e he
    rw [← hstart]
    exact hclear.slashes i hi p hp n hn hkind hslash

/-- Up to the first token no edit changes the text. -/
theorem weave_eq_gapOf_append (htokens : ∀ e ∈ es, tokenStart m.source p ≤ e.start) :
    Edit.weave m.source p es =
      gapOf (m.source.drop p) ++ Edit.weave m.source (tokenStart m.source p) es := by
  have hgap : Edit.between m.source p (tokenStart m.source p) = gapOf (m.source.drop p) := by
    rw [Edit.between, tokenStart, Nat.add_sub_cancel_left]
    exact (List.prefix_iff_eq_take.mp (List.take_prefix _ _)).symm
  have hle : p ≤ tokenStart m.source p := Nat.le_add_right _ _
  rw [Edit.weave_skip hle htokens, hgap]

/-- Where the text has nothing but blanks and comments there is nothing to edit. -/
theorem AreBehind.eq_nil (h : m.AreBehind gone p es)
    (htokens : ∀ e ∈ es, tokenStart m.source p ≤ e.start)
    (hall : gapOf (m.source.drop p) = m.source.drop p) : es = [] := by
  by_contra hne
  obtain ⟨e, he⟩ := List.exists_mem_of_ne_nil _ hne
  have hfit := h.fits e he
  have hstart := htokens e he
  rw [tokenStart, hall, List.length_drop] at hstart
  omega

/-- The first token stays the first, or gives way to another. -/
theorem AreBehind.isSolid_weave (h : m.AreBehind gone p es) {q : Nat}
    (htokens : ∀ e ∈ es, q ≤ e.start) (hsolid : IsSolid (m.source.drop q))
    (hslash : m.source[q]? = some '/' → ∀ e ∈ es, e.start ≠ q + 1)
    (hfirst : ∀ e ∈ es, e.start = q → StartsToken e.text) :
    IsSolid (Edit.weave m.source q es) := by
  cases es with
  | nil => exact hsolid
  | cons e rest =>
    have hstart := htokens e List.mem_cons_self
    have hfit := h.fits e List.mem_cons_self
    by_cases hat : e.start = q
    · obtain ⟨c, cs, htext, hspace, hne⟩ := hfirst e List.mem_cons_self hat
      rw [Edit.weave, hat, Nat.sub_self, List.take_zero, List.nil_append, htext, List.cons_append]
      exact isSolid_cons_iff.mpr ⟨hspace, fun hc => absurd hc hne⟩
    · have hlt : q < m.source.length := by omega
      have hdrop := List.drop_eq_getElem_cons hlt
      obtain ⟨k, hk⟩ : ∃ k, e.start - q = k + 1 := ⟨e.start - q - 1, by omega⟩
      rw [hdrop, isSolid_cons_iff] at hsolid
      rw [Edit.weave, hdrop, hk, List.take_succ_cons, List.cons_append, List.cons_append,
        isSolid_cons_iff]
      refine ⟨hsolid.1, fun hc => ?_⟩
      -- The character behind the slash is still that of the text.
      have hbehind : e.start ≠ q + 1 :=
        hslash (by rw [List.getElem?_eq_getElem hlt, hc]) e List.mem_cons_self
      have hnext := List.drop_eq_getElem_cons (show q + 1 < m.source.length by omega)
      obtain ⟨j, rfl⟩ : ∃ j, k = j + 1 := ⟨k - 1, by omega⟩
      have hcomment := hsolid.2 hc
      rw [hnext] at hcomment ⊢
      exact hcomment

/-- The first of the edits, when it is an import at the first token that goes. -/
theorem AreBehind.exists_next {g : Node} (h : m.AreBehind (g :: gone) p es)
    (hapart : (g :: gone).Pairwise fun a b => removalEnd m.source a.stop ≤ b.start)
    (htokens : ∀ e ∈ es, g.start ≤ e.start) :
    ∃ rest, es = m.removalOf g :: rest ∧
      m.AreBehind gone (removalEnd m.source g.stop) rest := by
  have hmem := h.removals g List.mem_cons_self
  cases es with
  | nil => cases hmem
  | cons e rest =>
    obtain ⟨hnext, hascending⟩ := List.pairwise_cons.mp h.ascending
    have hfirst : e = m.removalOf g := by
      rcases List.mem_cons.mp hmem with he | he
      · exact he.symm
      · have hstop := hnext _ he
        have hstart := htokens e List.mem_cons_self
        have hfit := h.fits e List.mem_cons_self
        simp only [removalOf] at hstop
        omega
    subst hfirst
    have hfit := h.fits _ List.mem_cons_self
    simp only [removalOf] at hfit
    refine ⟨rest, rfl, hnext, hascending, fun e he => h.fits e (List.mem_cons_of_mem _ he),
      fun e he => h.starts e (List.mem_cons_of_mem _ he), ?_, ?_⟩
    · intro d hd
      rcases List.mem_cons.mp (h.removals d (List.mem_cons_of_mem _ hd)) with he | he
      · have hbehind := (List.pairwise_cons.mp hapart).1 d hd
        have hstart := congrArg Edit.start he
        simp only [removalOf] at hstart
        omega
      · exact he
    · intro e he
      rcases h.others e (List.mem_cons_of_mem _ he) with ⟨d, hd, rfl⟩ | htext
      · rcases List.mem_cons.mp hd with rfl | hd
        · have hbehind := hnext _ he
          simp only [removalOf] at hbehind
          omega
        · exact .inl ⟨d, hd, rfl⟩
      · exact .inr htext

/-- Before the first token a line ends in the text and after the edits alike. Where it does not, the
edits at the token and behind it tell. -/
theorem AreBehind.lineEndsFirst_cases (h : m.AreBehind gone p es)
    (htokens : ∀ e ∈ es, tokenStart m.source p ≤ e.start) :
    (LineEndsFirst (m.source.drop p) ∧ LineEndsFirst (Edit.weave m.source p es)) ∨
      (¬ LineEndsFirst (m.source.drop p) ∧ IsSolid (m.source.drop (tokenStart m.source p)) ∧
        (LineEndsFirst (Edit.weave m.source p es) ↔
          LineEndsFirst (Edit.weave m.source (tokenStart m.source p) es))) := by
  by_cases hall : gapOf (m.source.drop p) = m.source.drop p
  · left
    rw [h.eq_nil htokens hall, Edit.weave]
    exact ⟨.inr hall, .inr hall⟩
  · rw [weave_eq_gapOf_append htokens]
    by_cases hends : (gapOf (m.source.drop p)).any endsLine
    · exact .inl ⟨.inl hends, lineEndsFirst_append_of_lineEnd hall hends _⟩
    · right
      have hhere : ¬ LineEndsFirst (m.source.drop p) := not_or.mpr ⟨hends, hall⟩
      have hsolid := isSolid_drop hall
      rw [List.drop_drop] at hsolid
      exact ⟨hhere, hsolid, lineEndsFirst_append_iff hhere _⟩

/-- What the edits behind a place leave of its line is told by the text: whether the line ends before
the first token, or behind the imports that go from there on. -/
theorem AreBehind.lineEndsFirst_iff (hclear : m.IsClear)
    (hplace : ∃ i ∈ m.imports, p ∈ [i.stop, removalEnd m.source i.stop])
    (hgone : ∀ g ∈ gone, g ∈ m.imports)
    (hapart : gone.Pairwise fun a b => removalEnd m.source a.stop ≤ b.start)
    (h : m.AreBehind gone p es) :
    LineEndsFirst (Edit.weave m.source p es) ↔ LineEnds m.source p gone := by
  induction gone generalizing p es with
  | nil =>
    obtain ⟨htokens, hslash⟩ := h.clear hclear hplace
    rcases h.lineEndsFirst_cases htokens with ⟨hhere, hweave⟩ | ⟨hhere, hsolid, hiff⟩
    · exact iff_of_true hweave (.here hhere)
    · have hfirst : ∀ e ∈ es, e.start = tokenStart m.source p → StartsToken e.text := by
        intro e he _
        rcases h.others e he with ⟨d, hd, -⟩ | htext
        · cases hd
        · exact htext
      rw [hiff]
      refine iff_of_false (not_lineEndsFirst_of_isSolid ?_) (not_lineEnds hhere (by simp))
      exact h.isSolid_weave htokens hsolid hslash hfirst
  | cons g gone ih =>
    obtain ⟨htokens, hslash⟩ := h.clear hclear hplace
    obtain ⟨hnext, hrest⟩ := List.pairwise_cons.mp hapart
    rcases h.lineEndsFirst_cases htokens with ⟨hhere, hweave⟩ | ⟨hhere, hsolid, hiff⟩
    · exact iff_of_true hweave (.here hhere)
    rw [hiff]
    by_cases hat : tokenStart m.source p = g.start
    · -- The import at the first token goes, and what is behind it comes next.
      obtain ⟨rest, rfl, hbehind⟩ := h.exists_next hapart (hat ▸ htokens)
      have hplace' : ∃ i ∈ m.imports, removalEnd m.source g.stop ∈
          [i.stop, removalEnd m.source i.stop] := ⟨g, hgone g List.mem_cons_self, by simp⟩
      have hweave : Edit.weave m.source (tokenStart m.source p) (m.removalOf g :: rest) =
          Edit.weave m.source (removalEnd m.source g.stop) rest := by
        simp [Edit.weave, removalOf, hat]
      rw [hweave, lineEnds_iff_of_next hat hhere]
      exact ih hplace' (fun d hd => hgone d (List.mem_cons_of_mem g hd)) hrest hbehind
    · have hfirst : ∀ e ∈ es, e.start = tokenStart m.source p → StartsToken e.text := by
        intro e he hstart
        rcases h.others e he with ⟨d, hd, rfl⟩ | htext
        · have hfit := h.fits _ (h.removals g List.mem_cons_self)
          have hlo := htokens _ (h.removals g List.mem_cons_self)
          simp only [removalOf] at hfit hlo hstart
          rcases List.mem_cons.mp hd with rfl | hd
          · exact absurd hstart.symm hat
          · have := hnext d hd
            omega
        · exact htext
      refine iff_of_false (not_lineEndsFirst_of_isSolid ?_) (not_lineEnds hhere ?_)
      · exact h.isSolid_weave htokens hsolid hslash hfirst
      · intro d rest hd
        obtain ⟨rfl, -⟩ := List.cons.inj hd
        exact fun he => hat he.symm

/-! ## The edits behind the block -/

theorem isSpace_of_isAlpha {c : Char} (h : c.isAlpha) : isSpace c = false := by
  have hletter : ('A'.val ≤ c.val ∧ c.val ≤ 'Z'.val) ∨ ('a'.val ≤ c.val ∧ c.val ≤ 'z'.val) := by
    rcases Bool.or_eq_true_iff.mp h with hupper | hlower
    · exact .inl (of_decide_eq_true hupper)
    · exact .inr ((Bool.and_eq_true_iff.mp hlower).imp of_decide_eq_true of_decide_eq_true)
  have hletters : 'A'.val.toNat = 65 ∧ 'Z'.val.toNat = 90 ∧ 'a'.val.toNat = 97 ∧
      'z'.val.toNat = 122 := by decide
  have hcode : c.toNat = c.val.toNat := rfl
  simp only [UInt32.le_iff_toNat_le, hletters] at hletter
  simp only [isSpace, hcode, Bool.or_eq_false_iff, Bool.and_eq_false_iff, decide_eq_false_iff_not,
    beq_eq_false_iff_ne]
  omega

theorem startsToken_of_isIdentifier {cs : List Char} (h : Settings.isIdentifier cs) (rest : List Char) :
    StartsToken (cs ++ rest) := by
  cases cs with
  | nil => cases h
  | cons c cs =>
    have hstart : Settings.isIdentifierStart c := (Bool.and_eq_true_iff.mp h).1
    refine ⟨c, cs ++ rest, rfl, ?_, ?_⟩
    · simp only [Settings.isIdentifierStart, Bool.or_eq_true, decide_eq_true_eq] at hstart
      rcases hstart with (hletter | rfl) | rfl
      · exact isSpace_of_isAlpha hletter
      · decide
      · decide
    · rintro rfl
      exact absurd hstart (by decide)

theorem startsToken_edit {settings : Settings} (hstart : Settings.isIdentifier settings.startName.toList)
    {c : ScheduleCall} (hc : c ∈ m.convertedCalls settings.callName) :
    StartsToken (c.edit settings m.source).text := by
  have hconvertible : c.isConvertible := by
    have hmem := (ScheduleCall.outermostFrom_sublist 0 _).subset hc
    exact (List.mem_filter.mp hmem).2
  unfold ScheduleCall.isConvertible at hconvertible
  simp only [ScheduleCall.edit, ScheduleCall.replacement]
  split at hconvertible
  · simp only [String.toList_append, List.append_assoc]
    exact startsToken_of_isIdentifier hstart _
  · cases hconvertible

variable {settings : Settings} {before after : List Node} {last : Node}

/-- An import that goes does so with its trail. -/
theorem loss_eq_statement_iff {i : Node} {e : Edit} :
    m.loss settings i = .statement e ↔ m.Goes settings i ∧ e = m.removalOf i := by
  rw [goes_iff_loss]
  rcases m.loss_cases settings i with
    ⟨-, h⟩ | ⟨-, named, -, ⟨-, h⟩ | ⟨-, single, -, h⟩ | ⟨-, -, h⟩⟩
  · simp [h]
  · simp [h]
  · simp [h]
  · simp [h, removalOf, eq_comm]

/-- The last import that stays is where the block goes. -/
theorem getLast?_surviving (himports : m.imports = before ++ last :: after)
    (hstays : ¬ m.Goes settings last) (hgo : ∀ i ∈ after, m.Goes settings i) :
    (surviving (m.losses settings m.imports)).getLast? =
      some (last, ⟨last.stop, last.stop, []⟩) := by
  have hafter : surviving (m.losses settings after) = [] := by
    rw [surviving, losses, List.filterMap_map, List.filterMap_eq_nil_iff]
    intro i hi
    simp [loss_eq_statement_iff.mpr ⟨hgo i hi, rfl⟩]
  have hlast : surviving (m.losses settings [last]) = [(last, ⟨last.stop, last.stop, []⟩)] := by
    cases hloss : m.loss settings last with
    | nothing => simp [surviving, losses, hloss]
    | specifiers e => simp [surviving, losses, hloss]
    | statement e => exact absurd (loss_eq_statement_iff.mp hloss).1 hstays
  have hsplit : surviving (m.losses settings m.imports) =
      surviving (m.losses settings before) ++ surviving (m.losses settings [last]) ++
        surviving (m.losses settings after) := by
    rw [himports, List.append_cons]
    simp only [surviving, losses, List.map_append, List.filterMap_append]
  rw [hsplit, hafter, hlast, List.append_nil, List.getLast?_concat]

theorem mem_edits_iff {container file : Path} (himports : m.imports = before ++ last :: after)
    (hstays : ¬ m.Goes settings last) (hgo : ∀ i ∈ after, m.Goes settings i) {e : Edit} :
    let calls := m.convertedCalls settings.callName
    let block := "\n".intercalate (m.newImports settings container file (calls.map (·.functionName)))
    e ∈ m.edits settings container file calls
        (calls.length = (m.scheduleCalls settings.callName).length) ↔
      (∃ c ∈ calls, e = c.edit settings m.source) ∨
      (∃ i ∈ m.imports, m.loss settings i = .specifiers e) ∨
      e = ⟨last.stop, last.stop, '\n' :: block.toList⟩ ∨
      ∃ i ∈ m.imports, m.Goes settings i ∧ e = m.removalOf i := by
  intro calls block
  have hlast := getLast?_surviving himports hstays hgo
  have hloss : ∀ i r, (i, r) ∈ m.losses settings m.imports ↔ i ∈ m.imports ∧ m.loss settings i = r := by
    simp [losses]
  have hremoved : e ∈ (removed (m.losses settings m.imports)).map (·.2) ↔
      ∃ i ∈ m.imports, m.Goes settings i ∧ e = m.removalOf i := by
    simp only [List.mem_map, Prod.exists, exists_eq_right, mem_removed_iff, hloss,
      loss_eq_statement_iff]
  rw [edits_eq, removals_eq, insertion_of_getLast? hlast, List.append_assoc, List.mem_append,
    List.mem_append, List.mem_cons, hremoved, mem_shortened_iff]
  simp only [List.mem_map, hloss, eq_comm (b := e)]
  rfl

/-- Where no import stays, the block is in place of the first one. -/
theorem mem_edits_of_goes {container file : Path} {first : Node} {rest : List Node}
    (himports : m.imports = first :: rest) (hgo : ∀ i ∈ m.imports, m.Goes settings i) :
    let calls := m.convertedCalls settings.callName
    let block := "\n".intercalate (m.newImports settings container file (calls.map (·.functionName)))
    ⟨first.start, removalEnd m.source first.stop, block.toList ++ ['\n']⟩ ∈
      m.edits settings container file calls
        (calls.length = (m.scheduleCalls settings.callName).length) := by
  intro calls block
  have hloss : ∀ i ∈ m.imports, m.loss settings i = .statement (m.removalOf i) :=
    fun i hi => loss_eq_statement_iff.mpr ⟨hgo i hi, rfl⟩
  have hnone : surviving (m.losses settings m.imports) = [] := by
    rw [surviving, losses, List.filterMap_map, List.filterMap_eq_nil_iff]
    intro i hi
    simp [hloss i hi]
  have hremoved : removed (m.losses settings m.imports) =
      (first, m.removalOf first) :: removed (m.losses settings rest) := by
    simp [himports, removed, losses, hloss first (by simp [himports])]
  rw [edits_eq, removals_eq, hnone, hremoved]
  exact List.mem_append_right _ List.mem_cons_self

/-- Behind the last import that stays nothing else is edited than calls, and the imports after it,
which go. -/
theorem IsOrderly.edit_behind (hm : m.IsOrderly) (hname : settings.callName ≠ "")
    {container file : Path} (himports : m.imports = before ++ last :: after)
    (hstays : ¬ m.Goes settings last) (hgo : ∀ i ∈ after, m.Goes settings i) {e : Edit}
    (he : e ∈ m.edits settings container file (m.convertedCalls settings.callName)
      ((m.convertedCalls settings.callName).length = (m.scheduleCalls settings.callName).length))
    (hbehind : last.stop ≤ e.start) (hrange : e.start < e.stop) :
    (∃ c ∈ m.convertedCalls settings.callName, e = c.edit settings m.source) ∨
      ∃ g ∈ after, e = m.removalOf g := by
  have hplace : ∀ i ∈ m.imports, removalEnd m.source i.stop ≤ last.start ∨ i = last ∨ i ∈ after := by
    have hpairwise := hm.pairwise_imports
    rw [himports, List.pairwise_append] at hpairwise
    intro i hi
    rw [himports, List.mem_append, List.mem_cons] at hi
    exact hi.imp_left fun hi => hpairwise.2.2 i hi last List.mem_cons_self
  have hlast : last ∈ m.imports := by simp [himports]
  have hbounds := (hm.import_bounds hlast last.self_mem_nodes).2.1
  rcases (mem_edits_iff himports hstays hgo).mp he with
    hcall | ⟨i, hi, hloss⟩ | rfl | ⟨i, hi, hgoes, rfl⟩
  · exact .inl hcall
  · -- An import that is shortened is the last one that stays or comes before it.
    have hwithin := (hm.loss_bounds hname hi).1 e hloss
    have hle := le_removalEnd m.source i.stop
    rcases hplace i hi with hbefore | rfl | hi
    · omega
    · omega
    · rw [loss_eq_statement_iff.mpr ⟨hgo i hi, rfl⟩] at hloss
      cases hloss
  · exact absurd hrange (Nat.lt_irrefl _)
  · simp only [removalOf] at hbehind hrange
    rcases hplace i hi with hbefore | rfl | hi
    · omega
    · exact absurd hgoes hstays
    · exact .inr ⟨i, hi, rfl⟩

/-- Behind the last import that stays, the imports after it go and calls give way to starts. -/
theorem IsOrderly.areBehind (hm : m.IsOrderly) (hname : settings.callName ≠ "")
    (hstart : Settings.isIdentifier settings.startName.toList) {container file : Path}
    (himports : m.imports = before ++ last :: after) (hstays : ¬ m.Goes settings last)
    (hgo : ∀ i ∈ after, m.Goes settings i) {place : Edit} {earlier later : List Edit}
    (hplace : place.start = last.stop ∧ place.stop = last.stop)
    (hperm : (earlier ++ place :: later).Perm (m.edits settings container file
      (m.convertedCalls settings.callName) ((m.convertedCalls settings.callName).length =
        (m.scheduleCalls settings.callName).length)))
    (hascending : (earlier ++ place :: later).Pairwise fun a b => a.stop ≤ b.start) :
    m.AreBehind after last.stop later := by
  have hseparate := hperm.symm.pairwise (hm.edits_separate container file hname) Edit.Separate.symm
  obtain ⟨-, hseparate, -⟩ := List.pairwise_append.mp hseparate
  obtain ⟨-, hlater, hearlier⟩ := List.pairwise_append.mp hascending
  obtain ⟨hbehind, hlater⟩ := List.pairwise_cons.mp hlater
  rw [hplace.2] at hbehind
  have hmem : ∀ e ∈ later, e ∈ earlier ++ place :: later := fun e he => by simp [he]
  -- The place is an empty range, so the ranges of the edits behind it are not.
  have hrange : ∀ e ∈ later, e.start < e.stop := fun e he =>
    ((List.pairwise_cons.mp hseparate).1 e he).2.resolve_left (by omega)
  have hkinds : ∀ e ∈ later, (∃ c ∈ m.convertedCalls settings.callName, e = c.edit settings m.source) ∨
      ∃ g ∈ after, e = m.removalOf g := fun e he =>
    hm.edit_behind hname himports hstays hgo (hperm.subset (hmem e he)) (hbehind e he) (hrange e he)
  have hafter : ∀ g ∈ after, g ∈ m.imports ∧ removalEnd m.source last.stop ≤ g.start := by
    have hpairwise := hm.pairwise_imports
    rw [himports, List.pairwise_append, List.pairwise_cons] at hpairwise
    exact fun g hg => ⟨by simp [himports, hg], hpairwise.2.1.1 g hg⟩
  refine ⟨hbehind, hlater, ?_, ?_, ?_, ?_⟩
  · intro e he
    exact ⟨hrange e he, (hm.edits_fit container file hname e (hperm.subset (hmem e he))).2⟩
  · intro e he
    rcases hkinds e he with ⟨c, hc, rfl⟩ | ⟨g, hg, rfl⟩
    · obtain ⟨hroot, hkind, -⟩ := hm.call_bounds hname ((m.convertedCalls_sublist _).subset hc)
      exact ⟨c.node, hroot, .inl hkind, rfl⟩
    · have hi := (hafter g hg).1
      exact ⟨g, IsOrderly.import_mem_nodes hi, .inr (mem_imports_iff.mp hi).2, rfl⟩
  · intro g hg
    obtain ⟨hi, hnext⟩ := hafter g hg
    have hedit : m.removalOf g ∈ earlier ++ place :: later :=
      hperm.symm.subset ((mem_edits_iff himports hstays hgo).mpr
        (.inr (.inr (.inr ⟨g, hi, hgo g hg, rfl⟩))))
    have hlt : (m.removalOf g).start < (m.removalOf g).stop :=
      ((hm.loss_bounds hname hi).2 _ (loss_eq_statement_iff.mpr ⟨hgo g hg, rfl⟩)).2.1
    have hbehindLast : last.stop ≤ (m.removalOf g).start :=
      (le_removalEnd m.source last.stop).trans hnext
    rcases List.mem_append.mp hedit with he | he
    · have hstop := hearlier _ he place List.mem_cons_self
      omega
    · rcases List.mem_cons.mp he with he | he
      · rw [he] at hlt
        omega
      · exact he
  · intro e he
    rcases hkinds e he with ⟨c, hc, rfl⟩ | ⟨g, hg, rfl⟩
    · exact .inr (startsToken_edit hstart hc)
    · exact .inl ⟨g, hg, rfl⟩

end Module

/-! ## Both sides of an edit -/

namespace Edit

/-- The texts on both sides of an edit after all edits of a list are carried out. -/
inductive Parts (source : List Char) (es : List Edit) (place : Edit) : List Char → List Char → Prop
  | mk {earlier later : List Edit} (hperm : (earlier ++ place :: later).Perm es)
      (hascending : (earlier ++ place :: later).Pairwise fun a b => a.stop ≤ b.start) :
      Parts source es place (weave (source.take place.start) 0 earlier)
        (weave source place.stop later)

theorem exists_parts {source : List Char} {es : List Edit} (hfit : ∀ e ∈ es, e.Fits source)
    (hsep : es.Pairwise Separate) {place : Edit} (hplace : place ∈ es) :
    ∃ left right, Parts source es place left right := by
  obtain ⟨ordered, hperm, hordered⟩ := exists_ordered hfit hsep
  obtain ⟨earlier, later, rfl⟩ := List.append_of_mem (hperm.symm.subset hplace)
  exact ⟨_, _, .mk hperm hordered⟩

theorem Parts.applyAll_eq {source : List Char} {es : List Edit} (hfit : ∀ e ∈ es, e.Fits source)
    (hsep : es.Pairwise Separate) {place : Edit} {left right : List Char}
    (h : Parts source es place left right) :
    applyAll source es = left ++ place.text ++ right := by
  obtain @⟨earlier, later, hperm, hascending⟩ := h
  obtain ⟨hearlier, hlater, hbetween⟩ := List.pairwise_append.mp hascending
  have hfits : ∀ e ∈ earlier ++ place :: later, e.Fits source :=
    fun e he => hfit e (hperm.subset he)
  have hwithin : ∀ e ∈ earlier, 0 ≤ e.start ∧ e.start ≤ e.stop ∧ e.stop ≤ place.start :=
    fun e he => ⟨Nat.zero_le _, (hfits e (by simp [he])).1, hbetween e he place List.mem_cons_self⟩
  have hbehind : ∀ e ∈ place :: later, place.start ≤ e.start := by
    intro e he
    rcases List.mem_cons.mp he with rfl | he
    · exact Nat.le_refl _
    · exact (hfits place (by simp)).1.trans ((List.pairwise_cons.mp hlater).1 e he)
  rw [(applyAll_eq_weave hfit hsep hperm hascending).1,
    weave_append (Nat.zero_le _) hwithin hearlier hbehind, weave, Nat.sub_self, List.take_zero,
    List.nil_append, List.append_assoc]

end Edit

/-! ## The lines of the block -/

/-- Each of the lines, in a block of them with a text behind it, is followed by nothing but blanks and
comments up to a line end or the end of the text. -/
def EachLineEnds (lines : List String) (right : List Char) : Prop :=
  ∀ before line after behind, lines = before ++ line :: after →
    ("\n".intercalate lines).toList ++ right =
      before.flatMap (fun l => l.toList ++ ['\n']) ++ line.toList ++ behind →
    LineEndsFirst behind

/-- All lines but the last are followed by a line end. -/
theorem eachLineEnds_iff {lines : List String} (h : lines ≠ []) (right : List Char) :
    EachLineEnds lines right ↔ LineEndsFirst right := by
  constructor
  · intro hends
    apply hends lines.dropLast (lines.getLast h) [] right (List.dropLast_append_getLast h).symm
    nth_rewrite 1 [← List.dropLast_append_getLast h]
    rw [String.toList_intercalate_lines, List.flatMap_nil, List.append_nil]
  · intro hright before line after behind hlines hbehind
    rw [hlines, String.toList_intercalate_lines, List.append_assoc _ _ right,
      List.append_cancel_left_eq] at hbehind
    subst hbehind
    cases after with
    | nil => exact hright
    | cons next after => exact lineEndsFirst_newline _

theorem Module.newImports_ne_nil (m : Module) (settings : Settings) (container file : Path)
    {functions : List String} (h : functions ≠ []) :
    m.newImports settings container file functions ≠ [] := by
  obtain ⟨f, hf⟩ := List.exists_mem_of_ne_nil _ h
  have hmem : f ∈ distinctFrom [] functions :=
    (mem_distinctFrom_iff _ _ _).mpr ⟨by simp, hf⟩
  apply List.ne_nil_of_mem
  exact List.mem_append_right _ (List.mem_map_of_mem (List.mem_map_of_mem hmem))

/-- A conversion puts the text of each of its edits between what is on its left and on its right. -/
theorem Converted.exists_parts {settings : Settings} {container file : Path} {source : List Char}
    {m : Module} (hfound : Module.ofScheduling? settings file source = some m)
    (hcalls : m.convertedCalls settings.callName ≠ [])
    {place : Edit} :
    let calls := m.convertedCalls settings.callName
    let es := m.edits settings container file calls
      (calls.length = (m.scheduleCalls settings.callName).length)
    place ∈ es → ∃ left right, Edit.Parts m.source es place left right ∧
      (ofSource settings container file source).1.code = left ++ place.text ++ right := by
  intro calls es hplace
  obtain ⟨hm, hname⟩ := Module.isOrderly_of_ofScheduling hfound hcalls
  have hfit : ∀ e ∈ es, e.Fits m.source := hm.edits_fit container file hname
  have hsep : es.Pairwise Edit.Separate := hm.edits_separate container file hname
  obtain ⟨left, right, hparts⟩ := Edit.exists_parts hfit hsep hplace
  refine ⟨left, right, hparts, ?_⟩
  rw [ofSource_eq_applyAll hfound hcalls, hparts.applyAll_eq hfit hsep]

/-- The block of new imports stands behind the last import that stays, and there each of its lines
ends with nothing but blanks and comments behind it exactly if the line of that import does, once the
imports are gone that come next on it. Where no import stays, the block stands in place of the first
one, and all its lines end. -/
theorem Converted.newImports_end_iff {settings : Settings} {file : Path} {source : List Char}
    {m : Module} (hfound : Module.ofScheduling? settings file source = some m) (hclear : m.IsClear)
    (hstart : Settings.isIdentifier settings.startName.toList)
    (hcalls : m.convertedCalls settings.callName ≠ []) (container : Path) :
    let calls := m.convertedCalls settings.callName
    let es := m.edits settings container file calls
      (calls.length = (m.scheduleCalls settings.callName).length)
    let lines := m.newImports settings container file (calls.map (·.functionName))
    let block := ("\n".intercalate lines).toList
    let code := (ofSource settings container file source).1.code
    (∀ before last after, m.imports = before ++ last :: after → ¬ m.Goes settings last →
      (∀ i ∈ after, m.Goes settings i) →
      ∃ left right, Edit.Parts m.source es ⟨last.stop, last.stop, '\n' :: block⟩ left right ∧
        code = left ++ '\n' :: block ++ right ∧
        (EachLineEnds lines right ↔ Module.LineEnds m.source last.stop after)) ∧
    (∀ first rest, m.imports = first :: rest → (∀ i ∈ m.imports, m.Goes settings i) →
      ∃ left right, Edit.Parts m.source es
          ⟨first.start, Module.removalEnd m.source first.stop, block ++ ['\n']⟩ left right ∧
        code = left ++ (block ++ ['\n']) ++ right ∧ EachLineEnds lines ('\n' :: right)) := by
  intro calls es lines block code
  obtain ⟨hm, hname⟩ := Module.isOrderly_of_ofScheduling hfound hcalls
  have hlines : lines ≠ [] :=
    m.newImports_ne_nil settings container file (List.map_eq_nil_iff.not.mpr hcalls)
  constructor
  · intro before last after himports hstays hgo
    have hplace : (⟨last.stop, last.stop, '\n' :: block⟩ : Edit) ∈ es :=
      (Module.mem_edits_iff himports hstays hgo).mpr (.inr (.inr (.inl rfl)))
    obtain ⟨left, right, hparts, hcode⟩ := exists_parts hfound hcalls hplace
    refine ⟨left, right, hparts, hcode, ?_⟩
    obtain @⟨earlier, later, hperm, hascending⟩ := hparts
    have hbehind := hm.areBehind hname hstart himports hstays hgo ⟨rfl, rfl⟩ hperm hascending
    have hmem : ∀ i ∈ last :: after, i ∈ m.imports := fun i hi => by simp [himports, hi]
    have hpairwise := hm.pairwise_imports
    rw [himports, List.pairwise_append, List.pairwise_cons] at hpairwise
    rw [eachLineEnds_iff hlines]
    exact hbehind.lineEndsFirst_iff hclear ⟨last, hmem last List.mem_cons_self, by simp⟩
      (fun g hg => hmem g (List.mem_cons_of_mem last hg)) hpairwise.2.1.2
  · intro first rest himports hgo
    have hplace : (⟨first.start, Module.removalEnd m.source first.stop, block ++ ['\n']⟩ : Edit) ∈ es :=
      Module.mem_edits_of_goes himports hgo
    obtain ⟨left, right, hparts, hcode⟩ := exists_parts hfound hcalls hplace
    refine ⟨left, right, hparts, hcode, ?_⟩
    rw [eachLineEnds_iff hlines]
    exact lineEndsFirst_newline right

theorem Converted.newImports_end_of_page :
    let settings : Settings := {}
    let file := Path.parse "/project/src/app/page.ts"
    let container := Path.parse "/project/src/app/cron-wrappers"
    let source := ("import \x7b job \x7d from \"./jobs\"; /* then */ " ++
      "import \x7b cronStart \x7d from \"workflow-cron-start\"\n\ncronStart(job, [], \x7b\x7d)\n").toList
    let m := Module.parse file source
    let lines := m.newImports settings container file
      ((m.convertedCalls settings.callName).map (·.functionName))
    ∃ left right, (ofSource settings container file source).1.code =
        left ++ '\n' :: ("\n".intercalate lines).toList ++ right ∧
      EachLineEnds lines right := by
  intro settings file container source m lines
  have hfacts : (Mention.mentionsImport source settings.callName settings.callModule ∧
        m.importsName settings.callName settings.callModule) ∧
      m.IsClear ∧ Settings.isIdentifier settings.startName.toList ∧
      m.convertedCalls settings.callName ≠ [] ∧
      ∃ last ∈ m.imports.head?, ∃ gone ∈ m.imports.tail.head?, m.imports.length = 2 ∧
        ¬ m.Goes settings last ∧ m.Goes settings gone ∧
        Module.tokenStart source last.stop = gone.start ∧
        LineEndsFirst (source.drop (Module.removalEnd source gone.stop)) := by decide +kernel
  obtain ⟨hgates, hclear, hstart, hcalls, last, hlast, gone, hgone, hlength, hstays, hgo, hnext,
    hends⟩ := hfacts
  have himports : m.imports = [] ++ last :: [gone] := by
    obtain ⟨rest, hrest⟩ := List.head?_eq_some_iff.mp hlast
    rw [hrest, List.tail_cons] at hgone
    obtain ⟨rest', rfl⟩ := List.head?_eq_some_iff.mp hgone
    rw [hrest] at hlength ⊢
    simpa using hlength
  have hfound := Module.ofScheduling_of_importsName hgates.1 hgates.2
  obtain ⟨hbehind, -⟩ :=
    newImports_end_iff hfound hclear hstart hcalls container
  obtain ⟨left, right, -, hcode, hiff⟩ := hbehind [] last [gone] himports hstays (by simpa using hgo)
  exact ⟨left, right, hcode, hiff.mpr (.behind hnext (.here hends))⟩

/-- A call on the line of the last import that stays comes to stand behind a new import. -/
theorem Converted.newImport_before_call_on_line :
    let settings : Settings := {}
    let file := Path.parse "/project/src/app/page.ts"
    let container := Path.parse "/project/src/app/cron-wrappers"
    let source := ("import \x7b job \x7d from \"./jobs\"; " ++
      "import \x7b cronStart \x7d from \"workflow-cron-start\"\ncronStart(job, [], \x7b\x7d)\n").toList
    let m := Module.parse file source
    let lines := m.newImports settings container file
      ((m.convertedCalls settings.callName).map (·.functionName))
    let left := "import \x7b job \x7d from \"./jobs\";".toList
    let right := " start(__cron__job, [\x7b args: [] \x7d])\n".toList
    (ofSource settings container file source).1 =
        ⟨left ++ '\n' :: ("\n".intercalate lines).toList ++ right, true⟩ ∧
      lines = ["import \x7b start \x7d from \"workflow/api\"",
        "import \x7b __cron__job \x7d from \"./cron-wrappers/trigger-job/workflow\""] ∧
      ¬ EachLineEnds lines right := by
  intro settings file container source m lines left right
  let calls := m.convertedCalls settings.callName
  let es := m.edits settings container file calls
    (calls.length = (m.scheduleCalls settings.callName).length)
  have hfacts : (Mention.mentionsImport source settings.callName settings.callModule ∧
        m.importsName settings.callName settings.callModule) ∧
      calls ≠ [] ∧ (es.rotate 1).Pairwise (fun a b => a.stop ≤ b.start) ∧
      Edit.weave source 0 (es.rotate 1) = left ++ '\n' :: ("\n".intercalate lines).toList ++ right ∧
      lines = ["import \x7b start \x7d from \"workflow/api\"",
        "import \x7b __cron__job \x7d from \"./cron-wrappers/trigger-job/workflow\""] := by
    decide +kernel
  obtain ⟨hgates, hcalls, hordered, hcode, hlines⟩ := hfacts
  have hfound := Module.ofScheduling_of_importsName hgates.1 hgates.2
  have hchanged : left ++ '\n' :: ("\n".intercalate lines).toList ++ right ≠ source := by
    rw [hlines]
    decide +kernel
  refine ⟨?_, hlines, ?_⟩
  · -- The call comes first in the list of edits and last in the text.
    rw [ofSource_eq_weave hfound hcalls (List.rotate_perm _ 1) hordered, hcode]
    simp only [hchanged, decide_true, ne_eq, not_false_eq_true]
  · rw [eachLineEnds_iff (by rw [hlines]; simp)]
    decide +kernel

end CronWrap
