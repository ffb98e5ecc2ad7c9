import CronWrap.Proofs.Json.Spacing
import CronWrap.Text.Quoted

/-! What is written as JSON is read back: quoted texts, and objects of them. -/
namespace CronWrap

open Text Text.Reader

namespace Text.Reader

variable {α β γ : Type} {r : Reader α} {f : α → Reader β} {text text' : List Char} {a : α} {b : β}

/-- The reader takes this text off the front of any other. -/
def Takes (r : Reader α) (text : List Char) (a : α) : Prop :=
  ∀ rest, r (text ++ rest) = some (a, rest)

theorem Takes.bind (hr : Takes r text a) (hf : Takes (f a) text' b) :
    Takes (r >>= f) (text ++ text') b := by
  intro rest
  rw [bind_apply, List.append_assoc, hr]
  exact hf rest

theorem Takes.map (hr : Takes r text a) (g : α → β) : Takes (g <$> r) text (g a) := by
  intro rest
  rw [map_eq, bind_apply, hr]
  rfl

theorem takes_pure (a : α) : Takes (pure a : Reader α) [] a := fun _ => rfl

theorem takes_one {p : Char → Bool} {c : Char} (h : p c) : Takes (one p) [c] c :=
  fun _ => one_eq_some_iff.mpr ⟨rfl, h⟩

theorem takes_char (c : Char) : Takes (char c) [c] () := fun _ => char_eq_some_iff.mpr rfl

/-- Items are taken as long as there are any; `left` is what an item makes of the text behind it. -/
theorem many_eq_some {item : Reader α} {texts : γ → List Char} {g : γ → α}
    {left : List Char → List Char} {rest : List Char}
    (hshorter : Leaves (fun cs rest => rest.length < cs.length) item)
    (hitem : ∀ c more, item (left (texts c ++ more)) = some (g c, left more))
    (hstop : item (left rest) = none) (cs : List γ) :
    many item (left (cs.flatMap texts ++ rest)) = some (cs.map g, left rest) := by
  have upTo : ∀ bound, cs.length < bound →
      manyUpTo item bound (left (cs.flatMap texts ++ rest)) = some (cs.map g, left rest) := by
    intro bound hbound
    induction cs generalizing bound with
    | nil =>
      obtain _ | bound := bound
      · simp at hbound
      · rw [List.flatMap_nil, List.nil_append, manyUpTo, orElse_apply, bind_apply, hstop]
        rfl
    | cons c cs ih =>
      obtain _ | bound := bound
      · simp at hbound
      · rw [List.flatMap_cons, List.append_assoc, manyUpTo, orElse_apply, bind_apply, hitem,
          Option.bind_some, bind_apply, ih bound (by simpa using hbound)]
        rfl
  rw [← manyUpTo_eq_many hshorter (Nat.lt_add_right cs.length (Nat.lt_succ_self _))]
  exact upTo _ (by omega)

end Text.Reader

namespace Json

/-! ## Strings -/

theorem isHexDigit_digitChar : ∀ n < 16, isHexDigit (Nat.digitChar n) ∧
    digitValue (Nat.digitChar n) = n := by decide

/-- A control character is read back from the number that stands for it. -/
theorem takes_unicodeEscape {c : Char} (h : c.toNat < 0x20) :
    Takes unicodeEscape ['0', '0', Nat.digitChar (c.toNat / 16), Nat.digitChar (c.toNat % 16)] c := by
  obtain ⟨hhigh, hhighValue⟩ := isHexDigit_digitChar (c.toNat / 16) (by omega)
  obtain ⟨hlow, hlowValue⟩ := isHexDigit_digitChar (c.toNat % 16) (by omega)
  have hunit : Takes codeUnit
      (['0'] ++ (['0'] ++ ([Nat.digitChar (c.toNat / 16)] ++ ([Nat.digitChar (c.toNat % 16)] ++ []))))
      c.toNat := by
    refine (takes_one (by decide)).bind ((takes_one (by decide)).bind ((takes_one hhigh).bind
      ((takes_one hlow).bind ?_)))
    have hvalue : ofDigits 16 ['0', '0', Nat.digitChar (c.toNat / 16),
        Nat.digitChar (c.toNat % 16)] = c.toNat := by
      simp only [ofDigits, List.foldl_cons, List.foldl_nil, hhighValue, hlowValue]
      have hzero : digitValue '0' = 0 := by decide
      omega
    exact fun rest => congrArg (fun n => some (n, rest)) hvalue
  refine hunit.bind (show Takes _ [] c from ?_)
  have hhighSurrogate : isHighSurrogate c.toNat = false := by simp [isHighSurrogate]; omega
  have hlowSurrogate : isLowSurrogate c.toNat = false := by simp [isLowSurrogate]; omega
  simp only [hhighSurrogate, hlowSurrogate, Char.ofNat_toNat]
  exact takes_pure c

theorem takes_stringChar (c : Char) : Takes stringChar (escapeChar c) c := by
  unfold escapeChar
  split
  case h_8 hquote hslash _ _ _ _ _ =>
    split
    · rename_i hcontrol
      intro rest
      exact takes_unicodeEscape hcontrol rest
    · rename_i hplain
      intro rest
      have hbare : (c ≠ '"' && 0x20 ≤ c.toNat) = true := by simpa using ⟨hquote, by omega⟩
      rw [List.singleton_append, stringChar_cons, if_pos (by simpa using hbare), if_neg hslash]
  all_goals exact fun rest => rfl

theorem takes_string (s : String) : Takes string (quote s).toList s := by
  have htext : (quote s).toList = ['"'] ++ (s.toList.flatMap escapeChar ++ (['"'] ++ [])) := by
    rw [toList_quote]
    rfl
  rw [htext]
  refine (takes_char '"').bind fun rest => ?_
  have hchars : many stringChar (id (s.toList.flatMap escapeChar ++ '"' :: rest)) =
      some (s.toList.map id, id ('"' :: rest)) :=
    many_eq_some (leaves_stringChar.mono fun _ _ h => h.2) takes_stringChar rfl s.toList
  rw [List.map_id] at hchars
  rw [List.append_assoc, bind_apply]
  change (many stringChar (id (s.toList.flatMap escapeChar ++ '"' :: rest))).bind _ = _
  rw [hchars, Option.bind_some, bind_apply, id, char_eq_some_iff.mpr rfl, Option.bind_some,
    String.ofList_toList]
  rfl

theorem takes_text (depth : Nat) (s : String) : Takes (value depth) (quote s).toList (.text s) := by
  intro rest
  have h := (takes_string s).map Value.text rest
  rw [toList_quote] at h ⊢
  rw [value.eq_def]
  exact h

/-! ## Objects -/

/-- A text that starts with a token. -/
def IsSolid (text : List Char) : Prop := ∃ c cs, text = c :: cs ∧ isSpace c = false

theorem isSolid_quote (s : String) : IsSolid (quote s).toList := ⟨'"', _, toList_quote s, rfl⟩

def dropSpace (cs : List Char) : List Char := cs.dropWhile isSpace

theorem dropSpace_append {gap text : List Char} (hgap : ∀ c ∈ gap, isSpace c) (h : IsSolid text)
    (more : List Char) : dropSpace (gap ++ text ++ more) = text ++ more := by
  obtain ⟨c, cs, rfl, hc⟩ := h
  rw [dropSpace, List.append_assoc, List.dropWhile_append_of_pos hgap, List.cons_append,
    List.dropWhile_cons_of_neg (by simp [hc])]

theorem token_apply {α : Type} (r : Reader α) (cs : List Char) :
    token r cs = (r (dropSpace cs)).map fun x => (x.1, dropSpace x.2) := by
  rw [token, seqLeft_eq, seqRight_eq, bind_apply, bind_apply]
  change (r (dropSpace cs)).bind (fun x => some (x.1, dropSpace x.2)) = _
  rw [Option.map_eq_bind]
  rfl

variable {α γ : Type} {item : Reader α} {texts : γ → List Char} {g : γ → α} {gap gap' : List Char}

theorem token_eq_some {text : List Char} {a : α} (h : Takes item text a) (hsolid : IsSolid text)
    (hgap : ∀ c ∈ gap, isSpace c) (more : List Char) :
    token item (gap ++ text ++ more) = some (a, dropSpace more) := by
  rw [token_apply, dropSpace_append hgap hsolid, h]
  rfl

theorem comma_eq_some {text : List Char} {a : α} (h : Takes item text a) (hsolid : IsSolid text)
    (hgap : ∀ c ∈ gap, isSpace c) (more : List Char) :
    (char ',' *> token item) (dropSpace (',' :: gap ++ text ++ more)) = some (a, dropSpace more) := by
  have hdrop : dropSpace (',' :: gap ++ text ++ more) = ',' :: (gap ++ text ++ more) := rfl
  rw [hdrop, seqRight_eq, bind_apply, char_eq_some_iff.mpr rfl, Option.bind_some]
  exact token_eq_some h hsolid hgap more

/-- Items between brackets: each behind the same blanks, and all but the first behind a comma. -/
theorem takes_bracketed (first : Char) {last : Char} (hlast : isSpace last = false)
    (hcomma : last ≠ ',') (hgap : ∀ c ∈ gap, isSpace c) (hgap' : ∀ c ∈ gap', isSpace c)
    (hitem : ∀ c, Takes item (texts c) (g c)) (hsolid : ∀ c, IsSolid (texts c))
    (htokens : Leaves Tokens item) (c : γ) (cs : List γ) :
    Takes (bracketed first last item)
      ([first] ++ (gap ++ texts c ++ (cs.flatMap fun d => ',' :: gap ++ texts d) ++ gap' ++ [last]))
      (g c :: cs.map g) := by
  refine (takes_char first).bind fun rest => ?_
  have hend : dropSpace (gap' ++ [last] ++ rest) = last :: rest :=
    dropSpace_append hgap' ⟨last, [], rfl, hlast⟩ rest
  have hstop : (char ',' *> token item) (dropSpace (gap' ++ [last] ++ rest)) = none := by
    rw [hend, seqRight_eq, bind_apply, char_eq, bind_apply, one, if_neg (by simpa using hcomma)]
    rfl
  have hmany : many (char ',' *> token item)
      (dropSpace ((cs.flatMap fun d => ',' :: gap ++ texts d) ++ (gap' ++ [last] ++ rest))) =
        some (cs.map g, dropSpace (gap' ++ [last] ++ rest)) :=
    many_eq_some (shorter_comma htokens) (fun d => comma_eq_some (hitem d) (hsolid d) hgap) hstop cs
  have hnone : ∀ c ∈ ([] : List Char), isSpace c := by simp
  have hfirst := token_eq_some (hitem c) (hsolid c) hnone
    ((cs.flatMap fun d => ',' :: gap ++ texts d) ++ (gap' ++ [last] ++ rest))
  have hskip := dropSpace_append hgap (hsolid c)
    ((cs.flatMap fun d => ',' :: gap ++ texts d) ++ (gap' ++ [last] ++ rest))
  have hsplit : gap ++ texts c ++ (cs.flatMap fun d => ',' :: gap ++ texts d) ++ gap' ++ [last] ++
      rest = gap ++ texts c ++
        ((cs.flatMap fun d => ',' :: gap ++ texts d) ++ (gap' ++ [last] ++ rest)) := by
    simp only [List.append_assoc]
  rw [List.nil_append] at hfirst
  rw [hsplit, bind_apply]
  change Option.bind (some ((), dropSpace _)) _ = _
  rw [hskip, Option.bind_some, bind_apply, orElse_apply, sepBy, bind_apply, hfirst,
    Option.bind_some, bind_apply, hmany, Option.bind_some, hend]
  change (char last (last :: rest)).bind _ = _
  rw [char_eq_some_iff.mpr rfl]
  rfl

/-- A field with blanks behind its colon. -/
theorem takes_field {depth : Nat} {v : Value} {text : List Char} (h : Takes (value depth) text v)
    (hsolid : IsSolid text) (hgap : ∀ c ∈ gap, isSpace c) (key : String) :
    Takes (field depth) ((quote key).toList ++ (':' :: gap ++ text)) (key, v) := by
  refine (takes_string key).bind fun rest => ?_
  have hcolon : token (char ':') (':' :: gap ++ text ++ rest) = some ((), text ++ rest) := by
    rw [token_apply]
    change Option.map _ (char ':' (':' :: (gap ++ text ++ rest))) = _
    rw [char_eq_some_iff.mpr rfl, Option.map_some, dropSpace_append hgap hsolid]
  rw [bind_apply, hcolon, Option.bind_some, bind_apply, h]
  rfl

/-- An object is read as what its fields are, whose keys must differ. -/
theorem takes_record {depth : Nat} {texts : γ → List Char} {g : γ → String × Value}
    (hgap : ∀ c ∈ gap, isSpace c) (hgap' : ∀ c ∈ gap', isSpace c)
    (hfield : ∀ c, Takes (field depth) (texts c) (g c)) (hsolid : ∀ c, IsSolid (texts c)) (c : γ)
    (cs : List γ) :
    Takes (value (depth + 1))
      (['\x7b'] ++ (gap ++ texts c ++ (cs.flatMap fun d => ',' :: gap ++ texts d) ++ gap' ++ ['\x7d']))
      (.record (collectFields (g c :: cs.map g))) := by
  intro rest
  have hlast : isSpace '\x7d' = false := rfl
  have h := ((takes_bracketed '\x7b' hlast (by decide) hgap hgap' hfield hsolid
    (leaves_field (leaves_value depth)) c cs).map collectFields).map Value.record rest
  rw [value.eq_def]
  exact h

end Json

end CronWrap
