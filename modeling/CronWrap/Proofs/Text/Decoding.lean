import CronWrap.Proofs.Text.Utf8

/-! Only what encoding writes is decoded: each text has one form in bytes. -/
namespace CronWrap.Text

theorem toNat_ofNat_of_isValid {n : Nat} (h : n.isValidChar) : (Char.ofNat n).toNat = n := by
  rw [Char.ofNat, dif_pos h]
  rfl

section Bytes

variable {a b c d : UInt8}

theorem isContinuation_iff : isContinuation b ↔ 0x80 ≤ b.toNat ∧ b.toNat < 0xc0 := by
  simp [isContinuation, UInt8.le_iff_toNat_le, UInt8.lt_iff_toNat_lt]

/-- What a lead byte allows to follow it, in numbers. -/
theorem isSecond_iff : isSecond a b ↔ (0x80 ≤ b.toNat ∧ b.toNat < 0xc0) ∧
    (a.toNat = 0xe0 → 0xa0 ≤ b.toNat) ∧ (a.toNat = 0xed → b.toNat < 0xa0) ∧
    (a.toNat = 0xf0 → 0x90 ≤ b.toNat) ∧ (a.toNat = 0xf4 → b.toNat < 0x90) := by
  simp only [isSecond, Bool.and_eq_true, isContinuation_iff, Bool.not_eq_true',
    Bool.and_eq_false_iff, beq_eq_false_iff_ne, decide_eq_false_iff_not, UInt8.le_iff_toNat_le,
    UInt8.lt_iff_toNat_lt, ne_eq, ← UInt8.toNat_inj, UInt8.reduceToNat]
  omega

theorem ofNat_eq_of_toNat_eq {n : Nat} (h : n = a.toNat) : UInt8.ofNat n = a := by
  rw [h, UInt8.ofNat_toNat]

/-! ## What the bytes of a character are decoded to is that character -/

theorem encodeChar_joinBytes_one (ha : a < 0x80) :
    String.utf8EncodeChar (Char.ofNat a.toNat) = [a] := by
  simp only [UInt8.lt_iff_toNat_lt, UInt8.reduceToNat] at ha
  have hn := toNat_ofNat_of_isValid (n := a.toNat) (.inl (by omega))
  rw [encodeChar_one (by omega), hn, UInt8.ofNat_toNat]

theorem encodeChar_joinBytes_two (hlo : 0xc2 ≤ a) (hhi : a < 0xe0)
    (hb : isSecond a b) : String.utf8EncodeChar (joinBytes (a.toNat % 32) [b]) = [a, b] := by
  simp only [UInt8.le_iff_toNat_le, UInt8.lt_iff_toNat_lt, UInt8.reduceToNat] at hlo hhi
  rw [isSecond_iff] at hb
  have hn : (joinBytes (a.toNat % 32) [b]).toNat = a.toNat % 32 * 64 + b.toNat % 64 :=
    toNat_ofNat_of_isValid (.inl (by
      simp only [List.foldl_cons, List.foldl_nil]
      omega))
  rw [encodeChar_two (by omega) (by omega), hn, ofNat_eq_of_toNat_eq (a := a) (by omega),
    ofNat_eq_of_toNat_eq (a := b) (by omega)]

theorem encodeChar_joinBytes_three (hlo : 0xe0 ≤ a) (hhi : a < 0xf0) (hb : isSecond a b)
    (hc : isContinuation c) :
    String.utf8EncodeChar (joinBytes (a.toNat % 16) [b, c]) = [a, b, c] := by
  simp only [UInt8.le_iff_toNat_le, UInt8.lt_iff_toNat_lt, UInt8.reduceToNat] at hlo hhi
  rw [isSecond_iff] at hb
  rw [isContinuation_iff] at hc
  have hn : (joinBytes (a.toNat % 16) [b, c]).toNat =
      (a.toNat % 16 * 64 + b.toNat % 64) * 64 + c.toNat % 64 :=
    toNat_ofNat_of_isValid (by
      change (_ < 0xd800) ∨ (0xdfff < _ ∧ _ < 0x110000)
      simp only [List.foldl_cons, List.foldl_nil]
      omega)
  rw [encodeChar_three (by omega) (by omega), hn,
    ofNat_eq_of_toNat_eq (a := a) (by omega), ofNat_eq_of_toNat_eq (a := b) (by omega),
    ofNat_eq_of_toNat_eq (a := c) (by omega)]

theorem encodeChar_joinBytes_four (hlo : 0xf0 ≤ a) (hhi : a ≤ 0xf4) (hb : isSecond a b)
    (hc : isContinuation c) (hd : isContinuation d) :
    String.utf8EncodeChar (joinBytes (a.toNat % 8) [b, c, d]) = [a, b, c, d] := by
  simp only [UInt8.le_iff_toNat_le, UInt8.reduceToNat] at hlo hhi
  rw [isSecond_iff] at hb
  rw [isContinuation_iff] at hc hd
  have hn : (joinBytes (a.toNat % 8) [b, c, d]).toNat =
      ((a.toNat % 8 * 64 + b.toNat % 64) * 64 + c.toNat % 64) * 64 + d.toNat % 64 :=
    toNat_ofNat_of_isValid (.inr (by
      simp only [List.foldl_cons, List.foldl_nil]
      omega))
  rw [encodeChar_four (by omega), hn, ofNat_eq_of_toNat_eq (a := a) (by omega),
    ofNat_eq_of_toNat_eq (a := b) (by omega), ofNat_eq_of_toNat_eq (a := c) (by omega),
    ofNat_eq_of_toNat_eq (a := d) (by omega)]

end Bytes

/-! ## A whole text -/

theorem encodeUtf8_of_map {c : Char} {ws rest : Bytes} {r : Except Utf8Error (List Char)}
    {cs : List Char} (hc : String.utf8EncodeChar c = ws)
    (ih : ∀ {cs : List Char}, r = .ok cs → encodeUtf8 cs = rest) (h : (c :: ·) <$> r = .ok cs) :
    encodeUtf8 cs = ws ++ rest := by
  cases r with
  | error e => cases h
  | ok ds =>
    cases h
    rw [encodeUtf8_cons, hc, ih rfl]

theorem encodeUtf8_of_decodeUtf8From {at_ : Nat} {bytes : Bytes} {cs : List Char}
    (h : decodeUtf8From at_ bytes = .ok cs) : encodeUtf8 cs = bytes := by
  fun_induction decodeUtf8From at_ bytes generalizing cs with
  | case1 =>
    cases h
    rfl
  | case2 at_ a rest ha ih => exact encodeUtf8_of_map (encodeChar_joinBytes_one ha) ih h
  | case6 at_ a _ hlead b rest hb hhi ih =>
    exact encodeUtf8_of_map (encodeChar_joinBytes_two (by simp_all) hhi (by simpa using hb)) ih h
  | case9 at_ a _ _ b hb hlo c rest hc hhi ih =>
    exact encodeUtf8_of_map (encodeChar_joinBytes_three (by simpa using hlo) hhi (by simpa using hb)
      (by simpa using hc)) ih h
  | case12 at_ a _ hlead b hb _ c hc hlo d rest hd ih =>
    exact encodeUtf8_of_map (encodeChar_joinBytes_four (by simpa using hlo) (by simp_all)
      (by simpa using hb) (by simpa using hc) (by simpa using hd)) ih h
  | case3 | case5 | case8 | case11 => cases h
  | case4 | case7 | case10 => exact nomatch (id h : Except.error _ = Except.ok _)

/-- A text is decoded from its encoding and from nothing else. -/
theorem decodeUtf8_eq_ok_iff {bytes : Bytes} {cs : List Char} :
    decodeUtf8 bytes = .ok cs ↔ bytes = encodeUtf8 cs :=
  ⟨fun h => (encodeUtf8_of_decodeUtf8From h).symm, fun h => h ▸ decodeUtf8_encodeUtf8 cs⟩

end CronWrap.Text
