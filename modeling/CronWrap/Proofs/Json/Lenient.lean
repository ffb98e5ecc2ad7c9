import Mathlib
import CronWrap.Proofs.Json.Spacing

/-! Comments and trailing commas change nothing: a decorated text is read as the value that strict
JSON has without the decoration. -/
namespace CronWrap.Json

variable {gap tail : List Char → Prop} {commas : Bool}

/-- The text is a padding of itself, and it still is with characters of a word put in front. -/
def PadsItself (gap tail : List Char → Prop) (commas : Bool) (cs : List Char) : Prop :=
  ∃ w es, cs = w ++ es ∧ (∀ c ∈ w, isWordChar c) ∧ EndsWord es ∧
    ∀ after, Padded gap tail commas after es es

theorem PadsItself.padded {cs : List Char} (h : PadsItself gap tail commas cs) (after : Bool) :
    Padded gap tail commas after cs cs := by
  obtain ⟨w, es, rfl, hw, hes, h⟩ := h
  by_cases hne : w = []
  · subst hne
    exact h after
  · exact .word hne hw hes (h commas)

theorem padsItself_cons {c : Char} {cs : List Char} (hc : isWordChar c = false)
    (h : ∀ after, Padded gap tail commas after (c :: cs) (c :: cs)) :
    PadsItself gap tail commas (c :: cs) :=
  ⟨[], c :: cs, rfl, by simp, endsWord_cons hc, h⟩

theorem Tokens.padsItself {t rest : List Char} (h : Tokens t rest) (hrest : rest = [])
    (htail : tail []) : PadsItself gap tail commas t := by
  induction h with
  | refl => subst hrest; exact ⟨[], [], rfl, by simp, by rintro c ⟨⟩, fun after => .nil htail⟩
  | space hc _ ih =>
    exact padsItself_cons (isWordChar_of_isSpace hc) fun after => .space hc ((ih hrest).padded after)
  | mark hc _ ih =>
    have hopen := List.mem_append_left [','] hc
    have hword := isWordChar_of_mem_marks (mem_marks_of_open hopen)
    exact padsItself_cons hword fun _ => .mark hopen ((ih hrest).padded false)
  | close hc _ ih =>
    have hword := isWordChar_of_mem_marks (mem_marks_of_close hc)
    exact padsItself_cons hword fun _ => .close hc ((ih hrest).padded commas)
  | comma _ _ ih =>
    exact padsItself_cons (by decide) fun _ => .mark (by decide) ((ih hrest).padded false)
  | string hbody _ ih =>
    exact padsItself_cons (by decide) fun _ => .string hbody ((ih hrest).padded commas)
  | word hc _ ih =>
    obtain ⟨w, es, rfl, hw, hes, h⟩ := ih hrest
    exact ⟨_ :: w, es, rfl, by grind, hes, h⟩

/-- Strict JSON is a decoration of itself, by nothing. -/
theorem decorated_self {t : List Char} {v : Value} (h : parse? t = some v) : Decorated t t :=
  ((tokens_of_parse? h).padsItself rfl .nothing).padded false

theorem Tokens.dropCommasFrom_code {t rest : List Char} (h : Tokens t rest) (hrest : rest = []) :
    dropCommasFrom .code t = t := by
  induction h with
  | refl => subst hrest; rfl
  | space hc _ ih =>
    rw [dropCommasFrom_code_cons (ne_of_isSpace hc (by decide)) (ne_of_isSpace hc (by decide)),
      ih hrest]
  | mark hc _ ih | close hc _ ih =>
    rw [dropCommasFrom_code_cons (by rintro rfl; simp at hc) (by rintro rfl; simp at hc), ih hrest]
  | comma hnext _ ih => rw [dropCommasFrom_kept_comma hnext, ih hrest]
  | string hbody _ ih => rw [dropCommasFrom_code_string hbody, ih hrest]
  | word hc _ ih =>
    rw [dropCommasFrom_code_cons (ne_of_isWordChar hc (by decide)) (ne_of_isWordChar hc (by decide)),
      ih hrest]

/-- The lenient reader undoes every decoration of a text that strict JSON accepts: it takes the
comments out, then the commas that it may, and the spaces that are left do not count. A strict text
is one of its own decorations. -/
theorem parseLenient?_of_decorated {t : List Char} {v : Value} (h : parse? t = some v) :
    (∀ t', Decorated t t' → parseLenient? t' = some v) ∧ Decorated t t ∧
      parseLenient? t = some v := by
  have hread : ∀ t', Decorated t t' → parseLenient? t' = some v := by
    intro t' ht'
    have hclean := (tokens_of_parse? h).dropCommasFrom_code rfl
    have hspaced : Respaced t (stripTrailingCommas (stripComments t')) :=
      ht'.stripFrom_code.dropCommasFrom_code hclean
    rw [parseLenient?, ← hspaced.parse?_eq, h]
  exact ⟨hread, decorated_self h, hread t (decorated_self h)⟩

/-- A text with a comment marker inside a string. -/
def plainConfig : List Char := "[\"a/*\", [1, []]]".toList

/-- The same text with comments of both kinds, brackets and quotes inside them, a trailing comma
behind each of its two lists that may have one, and a comment that the end cuts off. -/
def commentedConfig : List Char := "// \"]\n[/*,]*/\"a/*\"/**/, [1, []/*\"*/, //]\n],] //".toList

theorem decorated_commentedConfig : Decorated plainConfig commentedConfig := by
  have outer : Padded IsTrivia IsTail true true "]".toList ",] //".toList :=
    .comma ⟨[], ']', [], rfl, by simp, .inr rfl⟩ <| .close (by decide) <|
      @Padded.gap _ _ _ _ [' '] _ _ (.space (by decide)) <| .nil (.line (by simp))
  have inner : Padded IsTrivia IsTail true true "]]".toList "/*\"*/, //]\n],] //".toList :=
    @Padded.gap _ _ _ _ ['/', '*', '"', '*', '/'] _ ", //]\n],] //".toList
      (.block (b := ['"']) (by decide)) <|
    .comma ⟨[], ']', [']'], rfl, by simp, .inr rfl⟩ <|
    @Padded.gap _ _ _ _ [' '] _ "//]\n],] //".toList (.space (by decide)) <|
    @Padded.gap _ _ _ _ ['/', '/', ']', '\n'] _ "],] //".toList (.line (b := [']']) (by decide)) <|
    .close (by decide) outer
  have items : Padded IsTrivia IsTail true false "1, []]]".toList
      "1, []/*\"*/, //]\n],] //".toList :=
    @Padded.word _ _ _ _ ['1'] _ _ (by decide) (by simp [isWordChar]) (by rintro c ⟨⟩; decide) <|
      .mark (by decide) <| .space (by decide) <| .mark (by decide) <| .close (by decide) inner
  have comma : Padded IsTrivia IsTail true true ", [1, []]]".toList
      "/**/, [1, []/*\"*/, //]\n],] //".toList :=
    @Padded.gap _ _ _ _ ['/', '*', '*', '/'] _ ", [1, []/*\"*/, //]\n],] //".toList
      (.block (b := []) (by decide)) <|
    .mark (by decide) <| .space (by decide) <| .mark (by decide) items
  have first : Padded IsTrivia IsTail true false "\"a/*\", [1, []]]".toList
      "\"a/*\"/**/, [1, []/*\"*/, //]\n],] //".toList :=
    @Padded.string _ _ _ _ ['a', '/', '*'] _ _ (.char (by decide) (by decide) <|
      .char (by decide) (by decide) <| .char (by decide) (by decide) .nil) comma
  exact @Padded.gap _ _ _ _ ['/', '/', ' ', '"', ']', '\n'] plainConfig
      "[/*,]*/\"a/*\"/**/, [1, []/*\"*/, //]\n],] //".toList
      (.line (b := [' ', '"', ']']) (by decide)) <|
    @Padded.mark _ _ _ _ '[' _ _ (by decide) <|
    @Padded.gap _ _ _ _ ['/', '*', ',', ']', '*', '/'] _ _ (.block (b := [',', ']']) (by decide)) first

theorem parseLenient?_commentedConfig :
    parse? plainConfig = some (.list [.text "a/*", .list [.int 1, .list []]]) ∧
      Decorated plainConfig commentedConfig ∧
      parseLenient? commentedConfig = some (.list [.text "a/*", .list [.int 1, .list []]]) := by
  have hplain : parse? plainConfig = some (.list [.text "a/*", .list [.int 1, .list []]]) := by cbv
  exact ⟨hplain, decorated_commentedConfig,
    (parseLenient?_of_decorated hplain).1 _ decorated_commentedConfig⟩

end CronWrap.Json
