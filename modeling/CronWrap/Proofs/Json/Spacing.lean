import CronWrap.Proofs.Json.Tokens

/-! The strict reader does not see how many spaces stand between tokens. -/
namespace CronWrap.Json

open Text Text.Reader

/-- Two texts that differ in spaces, both read up to their next token. -/
inductive Abreast : List Char → List Char → Prop
  | nil : Abreast [] []
  | mark {c : Char} {cs ds : List Char} : c ∈ marks → Respaced cs ds →
      Abreast (c :: cs) (c :: ds)
  | string {body cs ds : List Char} : IsStringBody body → Respaced cs ds →
      Abreast ('"' :: body ++ '"' :: cs) ('"' :: body ++ '"' :: ds)
  | word {w cs ds : List Char} : w ≠ [] → (∀ c ∈ w, isWordChar c) → EndsWord cs → EndsWord ds →
      Respaced cs ds → Abreast (w ++ cs) (w ++ ds)

/-- Two texts that differ in spaces, both read to one place inside a string. -/
def AbreastInString (cs ds : List Char) : Prop :=
  ∃ body es fs, IsStringBody body ∧ Respaced es fs ∧ cs = body ++ '"' :: es ∧ ds = body ++ '"' :: fs

/-- Two texts that differ in spaces, both read to one place inside a word or at its end. -/
def AbreastInWord (cs ds : List Char) : Prop :=
  ∃ w es fs, (∀ c ∈ w, isWordChar c) ∧ EndsWord es ∧ EndsWord fs ∧ Respaced es fs ∧
    cs = w ++ es ∧ ds = w ++ fs

theorem isWordChar_of_isSpace {c : Char} (h : isSpace c) : isWordChar c = false := by
  simp only [isSpace, Bool.or_eq_true, decide_eq_true_eq] at h
  rcases h with ((rfl | rfl) | rfl) | rfl <;> decide

theorem endsWord_cons {c : Char} {cs : List Char} (h : isWordChar c = false) :
    EndsWord (c :: cs) := by
  rintro d ⟨⟩
  exact h

theorem Respaced.endsWord {cs ds : List Char} (h : Respaced cs ds) (hcs : EndsWord cs) :
    EndsWord ds := by
  cases h with
  | nil ht => rw [ht]; exact hcs
  | space hc | mark hc | close hc => exact endsWord_cons (hcs _ rfl)
  | gap hgap =>
    obtain ⟨hc⟩ := hgap
    exact endsWord_cons (isWordChar_of_isSpace hc)
  | string => exact endsWord_cons (by decide)
  | word hne hw =>
    obtain ⟨c, w, rfl⟩ := List.exists_cons_of_ne_nil hne
    exact endsWord_cons (hcs c rfl)

theorem Abreast.respaced {cs ds : List Char} (h : Abreast cs ds) : Respaced cs ds := by
  cases h with
  | nil => exact .nil rfl
  | mark hc h =>
    by_cases hclose : ‹Char› ∈ [']', '}']
    · exact .close hclose h
    · exact .mark (by grind [marks]) h
  | string hbody h => exact .string hbody h
  | word hne hw hcs _ h => exact .word hne hw hcs h

theorem AbreastInWord.respaced {cs ds : List Char} (h : AbreastInWord cs ds) : Respaced cs ds := by
  obtain ⟨w, es, fs, hw, hes, -, h, rfl, rfl⟩ := h
  by_cases hne : w = []
  · subst hne
    exact h
  · exact .word hne hw hes h

/-- Where no word comes next, two texts are abreast at the end of a word. -/
theorem Abreast.inWord {cs ds : List Char} (h : Abreast cs ds) : AbreastInWord cs ds := by
  have hends : EndsWord cs → EndsWord ds → AbreastInWord cs ds := fun hcs hds =>
    ⟨[], cs, ds, by simp, hcs, hds, h.respaced, rfl, rfl⟩
  cases h with
  | nil => exact hends (by rintro c ⟨⟩) (by rintro c ⟨⟩)
  | mark hc =>
    have hword := isWordChar_of_mem_marks hc
    exact hends (endsWord_cons hword) (endsWord_cons hword)
  | string => exact hends (endsWord_cons (by decide)) (endsWord_cons (by decide))
  | word _ hw hcs hds h => exact ⟨_, _, _, hw, hcs, hds, h, rfl, rfl⟩

theorem Abreast.head?_eq {cs ds : List Char} (h : Abreast cs ds) : cs.head? = ds.head? := by
  cases h with
  | nil | mark | string => rfl
  | word hne =>
    obtain ⟨c, w, rfl⟩ := List.exists_cons_of_ne_nil hne
    rfl

/-! ## Spaces and marks -/

theorem dropSpace_cons {c : Char} {cs : List Char} (h : isSpace c = false) :
    (c :: cs).dropWhile isSpace = c :: cs := by
  simp [h]

theorem isSpace_of_isWordChar {c : Char} (h : isWordChar c) : isSpace c = false :=
  Bool.eq_false_iff.mpr fun hspace => by simp [isWordChar_of_isSpace hspace] at h

theorem Padded.dropSpace {after : Bool} {cs ds : List Char}
    (h : Padded IsGap (· = []) false after cs ds) (hafter : after = false) :
    Abreast (cs.dropWhile isSpace) (ds.dropWhile isSpace) := by
  induction h with
  | nil ht => rw [ht]; exact .nil
  | space hc _ ih => simpa [hc] using ih hafter
  | gap hgap _ ih =>
    obtain ⟨hc⟩ := hgap
    simpa [hc] using ih hafter
  | comma => exact absurd hafter (by decide)
  | mark hc h =>
    have hmark := mem_marks_of_open hc
    have hspace := isSpace_of_mem_marks hmark
    rw [dropSpace_cons hspace, dropSpace_cons hspace]
    exact .mark hmark h
  | close hc h =>
    have hmark := mem_marks_of_close hc
    have hspace := isSpace_of_mem_marks hmark
    rw [dropSpace_cons hspace, dropSpace_cons hspace]
    exact .mark hmark h
  | string hbody h =>
    rw [List.cons_append, List.cons_append, dropSpace_cons (by decide), dropSpace_cons (by decide)]
    exact .string hbody h
  | word hne hw hcs h =>
    obtain ⟨c, w, rfl⟩ := List.exists_cons_of_ne_nil hne
    have hc := isSpace_of_isWordChar (hw c List.mem_cons_self)
    rw [List.cons_append, List.cons_append, dropSpace_cons hc, dropSpace_cons hc]
    exact .word hne hw hcs (Respaced.endsWord h hcs) h

theorem agrees_skipSpace : Agrees Respaced Abreast skipSpace :=
  fun _ _ h => .some ⟨rfl, Padded.dropSpace h rfl⟩

theorem agrees_token {α : Type} {r : Reader α} (h : Agrees Abreast Respaced r) :
    Agrees Respaced Abreast (token r) :=
  (agrees_skipSpace.seqRight h).seqLeft agrees_skipSpace

theorem one_cons_neg {p : Char → Bool} {c : Char} {cs : List Char} (h : p c = false) :
    one p (c :: cs) = none := by
  simp [one, h]

theorem one_cons_pos {p : Char → Bool} {c : Char} {cs : List Char} (h : p c) :
    one p (c :: cs) = some (c, cs) := by
  simp [one, h]

/-- Two texts with one head are told apart by no test on a single character. -/
theorem rel_one_cons {p : Char → Bool} {Q : List Char → List Char → Prop} {c : Char}
    {cs ds : List Char} (h : p c → Q cs ds) :
    Option.Rel (fun x y => x.1 = y.1 ∧ Q x.2 y.2) (one p (c :: cs)) (one p (c :: ds)) := by
  cases hc : p c with
  | true =>
    rw [one_cons_pos hc, one_cons_pos hc]
    exact .some ⟨rfl, h hc⟩
  | false =>
    rw [one_cons_neg hc, one_cons_neg hc]
    exact .none

theorem agrees_mark {c : Char} (hc : c ∈ marks) :
    Agrees Abreast Respaced (char c) := by
  have hone : Agrees Abreast Respaced (one (· = c)) := by
    intro cs ds h
    cases h with
    | nil => exact .none
    | mark _ h => exact rel_one_cons fun _ => h
    | string =>
      exact rel_one_cons fun hq => absurd (of_decide_eq_true hq).symm (ne_quote_of_mem_marks hc)
    | word hne hw =>
      obtain ⟨d, w, rfl⟩ := List.exists_cons_of_ne_nil hne
      have hd := ne_of_isWordChar (hw d List.mem_cons_self) (isWordChar_of_mem_marks hc)
      exact rel_one_cons fun heq => absurd (of_decide_eq_true heq) hd
  exact hone.bind fun _ => .pure ()

/-! ## Words -/

/-- Where a word ends, a reader of its characters finds nothing. -/
theorem EndsWord.head_neg {p : Char → Bool} (hp : ∀ c, p c → isWordChar c) {c : Char}
    {cs : List Char} (h : EndsWord (c :: cs)) : p c = false :=
  Bool.eq_false_iff.mpr fun hc => absurd (hp c hc) (by simp [h c rfl])

theorem EndsWord.takeWhile {p : Char → Bool} (hp : ∀ c, p c → isWordChar c) {es : List Char}
    (h : EndsWord es) (w : List Char) :
    (w ++ es).takeWhile p = w.takeWhile p ∧ (w ++ es).dropWhile p = w.dropWhile p ++ es := by
  induction w with
  | nil =>
    cases es with
    | nil => exact ⟨rfl, rfl⟩
    | cons c es => simp [h.head_neg hp]
  | cons c w ih => cases hc : p c <;> simp [hc, ih]

theorem agrees_takeWhile {p : Char → Bool} (hp : ∀ c, p c → isWordChar c) :
    Agrees AbreastInWord AbreastInWord (takeWhile p) := by
  rintro _ _ ⟨w, es, fs, hw, hes, hfs, h, rfl, rfl⟩
  obtain ⟨htake, hdrop⟩ := hes.takeWhile hp w
  obtain ⟨htake', hdrop'⟩ := hfs.takeWhile hp w
  refine .some ⟨htake.trans htake'.symm, w.dropWhile p, es, fs, ?_, hes, hfs, h, hdrop, hdrop'⟩
  exact fun c hc => hw c ((List.dropWhile_suffix p).mem hc)

theorem agrees_takeWhile1 {p : Char → Bool} (hp : ∀ c, p c → isWordChar c) :
    Agrees AbreastInWord AbreastInWord (takeWhile1 p) := by
  refine (agrees_takeWhile hp).bind fun cs => ?_
  split
  · exact .failure
  · exact .pure cs

theorem one_of_endsWord {p : Char → Bool} (hp : ∀ c, p c → isWordChar c) {cs : List Char}
    (h : EndsWord cs) : one p cs = none := by
  cases cs with
  | nil => rfl
  | cons c cs => exact one_cons_neg (h.head_neg hp)

theorem agrees_one_word {p : Char → Bool} (hp : ∀ c, p c → isWordChar c) :
    Agrees AbreastInWord AbreastInWord (one p) := by
  rintro _ _ ⟨w, es, fs, hw, hes, hfs, h, rfl, rfl⟩
  cases w with
  | nil =>
    rw [List.nil_append, List.nil_append, one_of_endsWord hp hes, one_of_endsWord hp hfs]
    exact .none
  | cons c w =>
    exact rel_one_cons fun _ =>
      ⟨w, es, fs, fun d hd => hw d (List.mem_cons_of_mem c hd), hes, hfs, h, rfl, rfl⟩

theorem exactly_of_endsWord {c : Char} {word cs : List Char} (hc : isWordChar c)
    (h : EndsWord cs) : exactly (c :: word) cs = none := by
  cases cs with
  | nil => rfl
  | cons d cs => rw [exactly_cons, if_neg (ne_of_isWordChar hc (h d rfl))]

theorem agrees_exactly_word {word : List Char} (hword : ∀ c ∈ word, isWordChar c) :
    Agrees AbreastInWord AbreastInWord (exactly word) := by
  rintro _ _ ⟨w, es, fs, hw, hes, hfs, h, rfl, rfl⟩
  induction word generalizing w with
  | nil => exact .some ⟨rfl, w, es, fs, hw, hes, hfs, h, rfl, rfl⟩
  | cons c word ih =>
    cases w with
    | nil =>
      have hc := hword c List.mem_cons_self
      rw [List.nil_append, List.nil_append, exactly_of_endsWord hc hes, exactly_of_endsWord hc hfs]
      exact .none
    | cons d w =>
      rw [List.cons_append, List.cons_append, exactly_cons, exactly_cons]
      split
      · exact ih (fun e he => hword e (List.mem_cons_of_mem c he)) w
          fun e he => hw e (List.mem_cons_of_mem d he)
      · exact .none

theorem agrees_sign {sign : Char} (h : isWordChar sign) :
    Agrees AbreastInWord AbreastInWord (accept [sign]) :=
  .accept (agrees_exactly_word (by simpa using h))

theorem agrees_integerDigits : Agrees AbreastInWord AbreastInWord integerDigits := by
  refine (agrees_takeWhile1 isWordChar_of_isDigit).bind fun digits => ?_
  split
  · exact .failure
  · exact .pure _

theorem agrees_fractionDigits : Agrees AbreastInWord AbreastInWord fractionDigits := by
  refine .orElse (.seqRight ?_ ((agrees_takeWhile1 isWordChar_of_isDigit).map some)) (.pure none)
  exact (agrees_one_word fun c hc => by simp_all [isWordChar]).map _

theorem agrees_exponentPart : Agrees AbreastInWord AbreastInWord exponentPart := by
  refine .orElse (.bind ?_ fun _ => (agrees_sign (by decide)).bind fun negative => ?_) (.pure none)
  · refine (agrees_one_word fun c hc => ?_).map _
    obtain rfl | rfl : c = 'e' ∨ c = 'E' := by simpa using hc
    all_goals decide
  · have hdigits := agrees_takeWhile1 isWordChar_of_isDigit
    dsimp only
    split
    · exact hdigits.bind fun ds => .pure _
    · exact ((agrees_sign (by decide)).map _).bind fun _ => hdigits.bind fun ds => .pure _

theorem agrees_number : Agrees AbreastInWord AbreastInWord number := by
  refine (agrees_sign (by decide)).bind fun negative => agrees_integerDigits.bind fun digits =>
    agrees_fractionDigits.bind fun fraction => agrees_exponentPart.bind fun exponent => ?_
  split
  · exact .pure _
  · exact .failure

/-! ## Strings -/

theorem agrees_one_body {p : Char → Bool} (hp : ∀ c, p c → c ≠ '"' ∧ c ≠ '\\') :
    Agrees AbreastInString AbreastInString (one p) := by
  rintro _ _ ⟨body, es, fs, hbody, h, rfl, rfl⟩
  cases hbody with
  | nil => exact rel_one_cons fun hc => absurd rfl (hp _ hc).1
  | char _ _ hbody => exact rel_one_cons fun _ => ⟨_, es, fs, hbody, h, rfl, rfl⟩
  | escape c => exact rel_one_cons fun hc => absurd rfl (hp _ hc).2

theorem agrees_codeUnit : Agrees AbreastInString AbreastInString codeUnit := by
  have hdigit : Agrees AbreastInString AbreastInString (one isHexDigit) :=
    agrees_one_body fun c hc =>
      ⟨by rintro rfl; exact absurd hc (by decide), by rintro rfl; exact absurd hc (by decide)⟩
  exact hdigit.bind fun a => hdigit.bind fun b => hdigit.bind fun c => hdigit.bind fun d => .pure _

/-- A backslash that a string does not have here is found in neither text. -/
theorem agrees_exactly_escape (c : Char) :
    Agrees AbreastInString AbreastInString (exactly ['\\', c]) := by
  rintro _ _ ⟨body, es, fs, hbody, h, rfl, rfl⟩
  cases hbody with
  | nil => exact .none
  | char _ hslash =>
    rw [List.cons_append, List.cons_append, exactly_cons, exactly_cons, if_neg (Ne.symm hslash),
      if_neg (Ne.symm hslash)]
    exact .none
  | escape d hbody =>
    have hpair : ∀ cs, exactly ['\\', c] ('\\' :: d :: cs) = if c = d then some ((), cs) else none :=
      fun cs => by rw [exactly_cons, if_pos rfl, exactly_cons]; rfl
    rw [List.cons_append, List.cons_append, List.cons_append, List.cons_append, hpair, hpair]
    split
    · exact .some ⟨rfl, _, es, fs, hbody, h, rfl, rfl⟩
    · exact .none

theorem agrees_unicodeEscape : Agrees AbreastInString AbreastInString unicodeEscape := by
  refine agrees_codeUnit.bind fun n => ?_
  split
  · refine (agrees_exactly_escape 'u').bind fun _ => agrees_codeUnit.bind fun m => ?_
    split
    · exact .pure _
    · exact .failure
  · split
    · exact .failure
    · exact .pure _

theorem agrees_escapeSequence :
    Agrees (fun cs ds => ∃ c es fs, AbreastInString es fs ∧ cs = c :: es ∧ ds = c :: fs)
      AbreastInString escapeSequence := by
  refine .bind (Q := AbreastInString) ?_ fun c => ?_
  · rintro _ _ ⟨c, es, fs, h, rfl, rfl⟩
    exact rel_one_cons fun _ => h
  · split
    case h_9 => exact agrees_unicodeEscape
    case h_10 => exact .failure
    all_goals exact .pure _

theorem stringChar_cons (c : Char) (cs : List Char) :
    stringChar (c :: cs) = if c ≠ '"' && 0x20 ≤ c.toNat then
      (if c = '\\' then escapeSequence cs else some (c, cs)) else none := by
  rw [stringChar, bind_apply, one]
  split
  · rw [Option.bind_some]
    split <;> rfl
  · rfl

theorem agrees_stringChar : Agrees AbreastInString AbreastInString stringChar := by
  rintro _ _ ⟨body, es, fs, hbody, h, rfl, rfl⟩
  cases hbody with
  | nil => exact .none
  | char _ hslash hbody =>
    rw [List.cons_append, List.cons_append, stringChar_cons, stringChar_cons, if_neg hslash,
      if_neg hslash]
    split
    · exact .some ⟨rfl, _, es, fs, hbody, h, rfl, rfl⟩
    · exact .none
  | escape c hbody =>
    have hin : AbreastInString _ _ := ⟨_, es, fs, hbody, h, rfl, rfl⟩
    exact agrees_escapeSequence _ _ ⟨c, _, _, hin, rfl, rfl⟩

theorem agrees_closing_quote : Agrees AbreastInString Respaced (char '"') := by
  have hone : Agrees AbreastInString Respaced (one (· = '"')) := by
    rintro _ _ ⟨body, es, fs, hbody, h, rfl, rfl⟩
    cases hbody with
    | nil => exact rel_one_cons fun _ => h
    | char hq => exact rel_one_cons fun hc => absurd (of_decide_eq_true hc) hq
    | escape => exact rel_one_cons fun hc => absurd hc (by decide)
  exact hone.bind fun _ => .pure ()

theorem agrees_opening_quote : Agrees Abreast AbreastInString (char '"') := by
  have hone : Agrees Abreast AbreastInString (one (· = '"')) := by
    intro cs ds h
    cases h with
    | nil => exact .none
    | mark hc =>
      exact rel_one_cons fun hq => absurd (of_decide_eq_true hq) (ne_quote_of_mem_marks hc)
    | string hbody h => exact rel_one_cons fun _ => ⟨_, _, _, hbody, h, rfl, rfl⟩
    | word hne hw =>
      obtain ⟨d, w, rfl⟩ := List.exists_cons_of_ne_nil hne
      refine rel_one_cons fun hd => ?_
      exact absurd (of_decide_eq_true hd) (ne_of_isWordChar (hw d List.mem_cons_self) (by decide))
  exact hone.bind fun _ => .pure ()

theorem agrees_string : Agrees Abreast Respaced string :=
  agrees_opening_quote.bind fun _ =>
    (agrees_stringChar.many (leaves_stringChar.mono fun _ _ h => h.2)).bind fun _ =>
      agrees_closing_quote.bind fun _ => .pure _

/-! ## Values -/

theorem shorter_comma {α : Type} {item : Reader α} (h : Leaves Tokens item) :
    Leaves (fun cs rest => rest.length < cs.length) (char ',' *> token item) := by
  intro cs a rest hread
  obtain ⟨_, ds, hcomma, hitem⟩ := bind_eq_some_iff.mp hread
  have hlen := (leaves_token h ds a rest hitem).length_le
  rw [char_eq_some_iff.mp hcomma, List.length_cons]
  omega

theorem agrees_bracketed {α : Type} {first last : Char} {item : Reader α}
    (hfirst : first ∈ marks) (hlast : last ∈ marks)
    (hitem : Agrees Abreast Respaced item) (htokens : Leaves Tokens item) :
    Agrees Abreast Respaced (bracketed first last item) := by
  have htoken := agrees_token hitem
  have hitems : Agrees Abreast Abreast (sepBy (token item) (char ',') <|> pure []) :=
    .orElse (.sepBy (htoken.mono (fun _ _ => Abreast.respaced) fun _ _ h => h)
      ((agrees_mark (by decide)).seqRight htoken) (shorter_comma htokens)) (.pure [])
  exact (agrees_mark hfirst).bind fun _ => agrees_skipSpace.bind fun _ => hitems.bind fun items =>
    (agrees_mark hlast).bind fun _ => .pure items

theorem agrees_field {depth : Nat} (h : Agrees Abreast Respaced (value depth)) :
    Agrees Abreast Respaced (field depth) :=
  agrees_string.bind fun key => (agrees_token (agrees_mark (by decide))).bind fun _ =>
    h.bind fun v => .pure (key, v)

theorem agrees_word {word : List Char} (hword : word.all isWordChar) :
    Agrees Abreast Respaced (exactly word) :=
  (agrees_exactly_word (List.all_eq_true.mp hword)).mono (fun _ _ => Abreast.inWord) fun _ _ => AbreastInWord.respaced

theorem agrees_value_of_inner {depth : Nat}
    (hinner : ∀ d, depth = d + 1 → Agrees Abreast Respaced (value d)) :
    Agrees Abreast Respaced (value depth) := by
  rw [value.eq_def]
  refine Agrees.peek?_bind (fun _ _ => Abreast.head?_eq) fun head =>
    Agrees.mono (P := Abreast) (Q := Respaced) ?_ (fun _ _ h => h.1) fun _ _ h => h
  split
  · exact agrees_string.map _
  · exact (agrees_word (by decide)).seqRight (.pure _)
  · exact (agrees_word (by decide)).seqRight (.pure _)
  · exact (agrees_word (by decide)).seqRight (.pure _)
  · cases depth with
    | zero => exact .failure
    | succ depth =>
      have hitem := hinner depth rfl
      exact (agrees_bracketed (by decide) (by decide) hitem (leaves_value depth)).map _
  · cases depth with
    | zero => exact .failure
    | succ depth =>
      have hitem := agrees_field (hinner depth rfl)
      exact ((agrees_bracketed (by decide) (by decide) hitem
        (leaves_field (leaves_value depth))).map collectFields).map _
  · exact agrees_number.mono (fun _ _ => Abreast.inWord) fun _ _ => AbreastInWord.respaced

/-- Texts that differ in spaces are read as one value, or as none. -/
theorem agrees_value (depth : Nat) : Agrees Abreast Respaced (value depth) := by
  induction depth with
  | zero => exact agrees_value_of_inner fun d hd => absurd hd (by omega)
  | succ depth ih => exact agrees_value_of_inner fun d hd => Nat.succ.inj hd ▸ ih

theorem Respaced.parse?_eq {t t' : List Char} (h : Respaced t t') : parse? t = parse? t' := by
  have hrel := agrees_token (agrees_value maxDepth) t t' h
  rw [parse?, parse?, all, all]
  revert hrel
  generalize token (value maxDepth) t = x, token (value maxDepth) t' = y
  rintro (@⟨⟨a, cs⟩, ⟨b, ds⟩, rfl, habreast⟩ | _)
  · have hhead : cs.head? = ds.head? := habreast.head?_eq
    cases cs <;> cases ds <;> simp_all
  · rfl

end CronWrap.Json
