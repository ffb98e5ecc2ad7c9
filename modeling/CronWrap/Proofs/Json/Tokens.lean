import Mathlib.Data.List.TakeWhile
import CronWrap.Proofs.Json.Strip
import CronWrap.Proofs.Text.Reader

/-! What the strict reader takes off a text is a run of tokens, and no comma of it is a trailing
one. -/
namespace CronWrap.Json

open Text Text.Reader

/-- The second text is what a run of tokens leaves over of the first. -/
inductive Tokens : List Char → List Char → Prop
  | refl (cs : List Char) : Tokens cs cs
  | space {c : Char} {cs rest : List Char} : isSpace c → Tokens cs rest → Tokens (c :: cs) rest
  | mark {c : Char} {cs rest : List Char} : c ∈ ['[', '{', ':'] → Tokens cs rest →
      Tokens (c :: cs) rest
  | close {c : Char} {cs rest : List Char} : c ∈ [']', '}'] → Tokens cs rest → Tokens (c :: cs) rest
  | comma {cs rest : List Char} : closesNext cs = false → Tokens cs rest → Tokens (',' :: cs) rest
  | string {body cs rest : List Char} : IsStringBody body → Tokens cs rest →
      Tokens ('"' :: body ++ '"' :: cs) rest
  | word {c : Char} {cs rest : List Char} : isWordChar c → Tokens cs rest → Tokens (c :: cs) rest

theorem Tokens.trans {cs ds rest : List Char} (h : Tokens cs ds) (h' : Tokens ds rest) :
    Tokens cs rest := by
  induction h with
  | refl => exact h'
  | space hc _ ih => exact .space hc (ih h')
  | mark hc _ ih => exact .mark hc (ih h')
  | close hc _ ih => exact .close hc (ih h')
  | comma hcs _ ih => exact .comma hcs (ih h')
  | string hbody _ ih => exact .string hbody (ih h')
  | word hc _ ih => exact .word hc (ih h')

instance : IsPreorder (List Char) Tokens where
  refl := .refl
  trans _ _ _ := .trans

theorem Tokens.length_le {cs rest : List Char} (h : Tokens cs rest) : rest.length ≤ cs.length := by
  induction h <;> grind

/-- Characters of a word come off the front. -/
def TakesWord (cs rest : List Char) : Prop := ∃ w, (∀ c ∈ w, isWordChar c) ∧ cs = w ++ rest

instance : IsPreorder (List Char) TakesWord where
  refl _ := ⟨[], by simp, rfl⟩
  trans := by
    rintro _ _ rest ⟨w, hw, rfl⟩ ⟨w', hw', rfl⟩
    exact ⟨w ++ w', by grind, (List.append_assoc ..).symm⟩

theorem TakesWord.tokens {cs rest : List Char} (h : TakesWord cs rest) : Tokens cs rest := by
  obtain ⟨w, hw, rfl⟩ := h
  induction w with
  | nil => exact .refl rest
  | cons c w ih =>
    exact .word (hw c List.mem_cons_self) (ih fun d hd => hw d (List.mem_cons_of_mem c hd))

/-- Characters of a string come off the front. -/
def TakesBody (cs rest : List Char) : Prop := ∃ body, IsStringBody body ∧ cs = body ++ rest

theorem IsStringBody.append {cs ds : List Char} (h : IsStringBody cs) (h' : IsStringBody ds) :
    IsStringBody (cs ++ ds) := by
  induction h with
  | nil => exact h'
  | char hq hb _ ih => exact .char hq hb ih
  | escape c _ ih => exact .escape c ih

instance : IsPreorder (List Char) TakesBody where
  refl _ := ⟨[], .nil, rfl⟩
  trans := by
    rintro _ _ rest ⟨b, hb, rfl⟩ ⟨b', hb', rfl⟩
    exact ⟨b ++ b', hb.append hb', (List.append_assoc ..).symm⟩

/-! ## Numbers and words -/

theorem leaves_takeWhile {p : Char → Bool} (hp : ∀ c, p c → isWordChar c) :
    Leaves TakesWord (takeWhile p) := by
  intro cs a rest h
  cases h
  exact ⟨cs.takeWhile p, fun c hc => hp c (List.mem_takeWhile_imp hc),
    List.takeWhile_append_dropWhile.symm⟩

theorem leaves_takeWhile1 {p : Char → Bool} (hp : ∀ c, p c → isWordChar c) :
    Leaves TakesWord (takeWhile1 p) := by
  refine (leaves_takeWhile hp).bind fun cs => ?_
  split
  · exact .failure
  · exact .pure cs

theorem leaves_one_word {p : Char → Bool} (hp : ∀ c, p c → isWordChar c) :
    Leaves TakesWord (one p) :=
  .one fun c rest hc => ⟨[c], by simpa using hp c hc, rfl⟩

theorem isWordChar_of_isDigit (c : Char) (h : c.isDigit) : isWordChar c := by
  simp [isWordChar, Char.isAlphanum, h]

theorem leaves_sign {sign : Char} (h : isWordChar sign) : Leaves TakesWord (accept [sign]) :=
  .accept fun _ => ⟨[sign], by simpa using h, rfl⟩

theorem leaves_integerDigits : Leaves TakesWord integerDigits := by
  refine (leaves_takeWhile1 isWordChar_of_isDigit).bind fun digits => ?_
  split
  · exact .failure
  · exact .pure _

theorem leaves_fractionDigits : Leaves TakesWord fractionDigits := by
  refine .orElse (.seqRight ?_ ((leaves_takeWhile1 isWordChar_of_isDigit).map some)) (.pure none)
  exact (leaves_one_word fun c hc => by simp_all [isWordChar]).map _

theorem leaves_exponentPart : Leaves TakesWord exponentPart := by
  refine .orElse (.bind ?_ fun _ => (leaves_sign (by decide)).bind fun negative => ?_) (.pure none)
  · refine (leaves_one_word fun c hc => ?_).map _
    obtain rfl | rfl : c = 'e' ∨ c = 'E' := by simpa using hc
    all_goals decide
  · have hdigits := leaves_takeWhile1 isWordChar_of_isDigit
    dsimp only
    split
    · exact hdigits.bind fun ds => .pure _
    · exact ((leaves_sign (by decide)).map _).bind fun _ => hdigits.bind fun ds => .pure _

theorem leaves_number : Leaves TakesWord number := by
  refine (leaves_sign (by decide)).bind fun negative => leaves_integerDigits.bind fun digits =>
    leaves_fractionDigits.bind fun fraction => leaves_exponentPart.bind fun exponent => ?_
  split
  · exact .pure _
  · exact .failure

/-! ## Strings -/

theorem leaves_one_body {p : Char → Bool} (hp : ∀ c, p c → c ≠ '"' ∧ c ≠ '\\') :
    Leaves TakesBody (one p) :=
  .one fun c _ hc => ⟨[c], .char (hp c hc).1 (hp c hc).2 .nil, rfl⟩

theorem leaves_codeUnit : Leaves TakesBody codeUnit := by
  have hdigit : Leaves TakesBody (one isHexDigit) :=
    leaves_one_body fun c hc =>
      ⟨by rintro rfl; exact absurd hc (by decide), by rintro rfl; exact absurd hc (by decide)⟩
  exact hdigit.bind fun a => hdigit.bind fun b => hdigit.bind fun c => hdigit.bind fun d => .pure _

theorem leaves_unicodeEscape : Leaves TakesBody unicodeEscape := by
  refine leaves_codeUnit.bind fun n => ?_
  split
  · refine (Leaves.exactly fun _ => ⟨_, .escape 'u' .nil, rfl⟩).bind fun _ =>
      leaves_codeUnit.bind fun m => ?_
    split
    · exact .pure _
    · exact .failure
  · split
    · exact .failure
    · exact .pure _

/-- Behind a backslash any character may come. -/
theorem leaves_escapeSequence :
    Leaves (fun cs rest => ∃ c body, IsStringBody body ∧ cs = c :: body ++ rest) escapeSequence := by
  intro cs a rest hread
  obtain ⟨c, ds, hc, h⟩ := bind_eq_some_iff.mp hread
  obtain ⟨rfl, -⟩ := one_eq_some_iff.mp hc
  have hds : TakesBody ds rest := by
    revert h
    split
    case h_9 => exact leaves_unicodeEscape ds a rest
    case h_10 => exact Leaves.failure ds a rest
    all_goals exact Leaves.pure _ ds a rest
  obtain ⟨body, hbody, rfl⟩ := hds
  exact ⟨c, body, hbody, rfl⟩

theorem leaves_stringChar :
    Leaves (fun cs rest => TakesBody cs rest ∧ rest.length < cs.length) stringChar := by
  intro cs a rest hread
  obtain ⟨c, ds, hone, h⟩ := bind_eq_some_iff.mp hread
  obtain ⟨rfl, hc⟩ := one_eq_some_iff.mp hone
  split at h
  next hslash =>
    obtain ⟨d, body, hbody, rfl⟩ := leaves_escapeSequence ds a rest h
    subst hslash
    exact ⟨⟨_, .escape d hbody, rfl⟩, by grind⟩
  next hslash =>
    cases h
    exact ⟨⟨[a], .char (by rintro rfl; simp at hc) hslash .nil, rfl⟩, by simp⟩

theorem leaves_string : Leaves Tokens string := by
  intro cs a rest hread
  obtain ⟨_, ds, hopen, h⟩ := bind_eq_some_iff.mp hread
  obtain ⟨as, es, hbody, h⟩ := bind_eq_some_iff.mp h
  obtain ⟨_, fs, hclose, h⟩ := bind_eq_some_iff.mp h
  cases h
  obtain ⟨body, hin, rfl⟩ := (leaves_stringChar.mono fun _ _ h => h.1).many ds as es hbody
  rw [char_eq_some_iff.mp hopen, char_eq_some_iff.mp hclose]
  exact .string hin (.refl rest)

/-! ## Values -/

theorem leaves_skipSpace : Leaves Tokens skipSpace := by
  intro cs _ rest h
  cases h
  induction cs with
  | nil => exact .refl []
  | cons c cs ih =>
    cases hc : isSpace c with
    | true => simpa [List.dropWhile_cons, hc] using .space hc ih
    | false => simpa [List.dropWhile_cons, hc] using .refl (c :: cs)

theorem leaves_token {α : Type} {r : Reader α} (h : Leaves Tokens r) : Leaves Tokens (token r) :=
  (leaves_skipSpace.seqRight h).bind fun a => leaves_skipSpace.bind fun _ => .pure a

theorem leaves_mark {c : Char} (hc : c ∈ ['[', '{', ':']) : Leaves Tokens (char c) := by
  intro cs _ rest h
  rw [char_eq_some_iff.mp h]
  exact .mark hc (.refl rest)

theorem leaves_close {c : Char} (hc : c ∈ [']', '}']) : Leaves Tokens (char c) := by
  intro cs _ rest h
  rw [char_eq_some_iff.mp h]
  exact .close hc (.refl rest)

/-- The text starts with neither a blank nor a closing bracket. -/
def StartsItem (cs : List Char) : Prop :=
  ∃ c ds, cs = c :: ds ∧ isBlank c = false ∧ c ≠ '}' ∧ c ≠ ']'

theorem closesNext_dropSpace (cs : List Char) :
    closesNext (cs.dropWhile isSpace) = closesNext cs := by
  induction cs with
  | nil => rfl
  | cons c cs ih =>
    cases hc : isSpace c with
    | true => simpa [List.dropWhile_cons, hc, closesNext_of_isBlank (isBlank_of_isSpace hc)] using ih
    | false => simp [hc]

/-- A comma that an item follows is not a trailing one. -/
theorem leaves_comma {α : Type} {item : Reader α} (hitem : Leaves Tokens item)
    (hstart : Leaves (fun cs _ => StartsItem cs) item) : Leaves Tokens (char ',' *> token item) := by
  intro cs a rest hread
  obtain ⟨_, ds, hcomma, h⟩ := bind_eq_some_iff.mp hread
  obtain rfl := char_eq_some_iff.mp hcomma
  refine .comma ?_ (leaves_token hitem ds a rest h)
  obtain ⟨b, es, hfirst, -⟩ := bind_eq_some_iff.mp h
  obtain ⟨_, fs, hskip, hb⟩ := bind_eq_some_iff.mp hfirst
  cases hskip
  obtain ⟨c, gs, hgs, hblank, hcurly, hsquare⟩ := hstart _ b es hb
  rw [← closesNext_dropSpace, hgs, closesNext_of_not_isBlank hblank]
  simp [hcurly, hsquare]

theorem leaves_bracketed {α : Type} {first last : Char} {item : Reader α}
    (hfirst : first ∈ ['[', '{', ':']) (hlast : last ∈ [']', '}']) (hitem : Leaves Tokens item)
    (hstart : Leaves (fun cs _ => StartsItem cs) item) : Leaves Tokens (bracketed first last item) := by
  have hitems := ((leaves_token hitem).sepBy (leaves_comma hitem hstart)).orElse (.pure [])
  exact (leaves_mark hfirst).bind fun _ => leaves_skipSpace.bind fun _ => hitems.bind fun items =>
    (leaves_close hlast).bind fun _ => .pure items

theorem startsItem_string : Leaves (fun cs _ => StartsItem cs) string := by
  intro cs a rest h
  obtain ⟨_, ds, hopen, -⟩ := bind_eq_some_iff.mp h
  exact ⟨'"', ds, char_eq_some_iff.mp hopen, by decide, by decide, by decide⟩

theorem startsItem_number : Leaves (fun cs _ => StartsItem cs) number := by
  intro cs a rest h
  obtain ⟨negative, ds, hsign, h⟩ := bind_eq_some_iff.mp h
  obtain ⟨digits, es, hdigits, -⟩ := bind_eq_some_iff.mp h
  obtain ⟨run, fs, hrun, -⟩ := bind_eq_some_iff.mp hdigits
  obtain ⟨c, gs, hds, hc⟩ := takeWhile1_eq_some hrun
  rcases accept_eq_some hsign with rfl | rfl
  · exact ⟨'-', ds, rfl, by decide, by decide, by decide⟩
  · refine ⟨c, gs, hds, isBlank_of_isWordChar (isWordChar_of_isDigit c hc), ?_, ?_⟩
    all_goals exact ne_of_isWordChar (isWordChar_of_isDigit c hc) (by decide)

theorem startsItem_value (depth : Nat) : Leaves (fun cs _ => StartsItem cs) (value depth) := by
  rw [value.eq_def]
  apply Leaves.peek?_bind
  intro head
  split
  case h_7 => exact startsItem_number.mono fun _ _ h _ => h
  all_goals
    intro cs _ _ _ hhead
    obtain ⟨ds, rfl⟩ := List.head?_eq_some_iff.mp hhead
    exact ⟨_, ds, rfl, by decide, by decide, by decide⟩

/-- One field of an object. -/
def field (depth : Nat) : Reader (String × Value) := do
  let key ← string
  token (char ':')
  return (key, ← value depth)

theorem startsItem_field (depth : Nat) : Leaves (fun cs _ => StartsItem cs) (field depth) := by
  intro cs a rest h
  obtain ⟨key, ds, hkey, -⟩ := bind_eq_some_iff.mp h
  exact startsItem_string cs key ds hkey

theorem leaves_field {depth : Nat} (h : Leaves Tokens (value depth)) :
    Leaves Tokens (field depth) :=
  leaves_string.bind fun key => (leaves_token (leaves_mark (by decide))).bind fun _ =>
    h.bind fun v => .pure (key, v)

theorem leaves_word {word : List Char} (hw : word.all isWordChar) :
    Leaves Tokens (exactly word) :=
  (Leaves.exactly fun _ => ⟨word, List.all_eq_true.mp hw, rfl⟩).mono fun _ _ => TakesWord.tokens

/-- Arrays and objects hold nothing at the last depth, and values of one depth less before it. -/
theorem leaves_value_of_inner {depth : Nat}
    (hinner : ∀ d, depth = d + 1 → Leaves Tokens (value d)) : Leaves Tokens (value depth) := by
  rw [value.eq_def]
  refine Leaves.peek?_bind fun head => Leaves.mono (fun _ _ h _ => h) ?_
  split
  · exact leaves_string.map _
  · exact (leaves_word (by decide)).seqRight (.pure _)
  · exact (leaves_word (by decide)).seqRight (.pure _)
  · exact (leaves_word (by decide)).seqRight (.pure _)
  · cases depth with
    | zero => exact .failure
    | succ depth =>
      have hitem := hinner depth rfl
      exact (leaves_bracketed (by decide) (by decide) hitem (startsItem_value depth)).map _
  · cases depth with
    | zero => exact .failure
    | succ depth =>
      have hitem := leaves_field (hinner depth rfl)
      exact ((leaves_bracketed (by decide) (by decide) hitem (startsItem_field depth)).map
        collectFields).map _
  · exact leaves_number.mono fun _ _ => TakesWord.tokens

/-- What the strict reader takes for a value is a run of tokens. -/
theorem leaves_value (depth : Nat) : Leaves Tokens (value depth) := by
  induction depth with
  | zero => exact leaves_value_of_inner fun d hd => absurd hd (by omega)
  | succ depth ih => exact leaves_value_of_inner fun d hd => Nat.succ.inj hd ▸ ih

/-- A text that the strict reader accepts is a run of tokens. -/
theorem tokens_of_parse? {t : List Char} {v : Value} (h : parse? t = some v) : Tokens t [] := by
  rw [parse?, all] at h
  split at h
  next hread => exact leaves_token (leaves_value maxDepth) t _ [] hread
  next => cases h

end CronWrap.Json
