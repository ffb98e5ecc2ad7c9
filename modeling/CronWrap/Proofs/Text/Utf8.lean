import CronWrap.Text.Utf8

/-! Decoding reads back what encoding writes. -/
namespace CronWrap.Text

theorem toNat_ofNat_of_lt {n : Nat} (h : n < 256) : (UInt8.ofNat n).toNat = n := by
  rw [UInt8.toNat_ofNat']
  exact Nat.mod_eq_of_lt h

/-- The number of a character is no surrogate, and below the end of all code points. -/
theorem toNat_isValid (c : Char) : c.toNat < 0xd800 ∨ 0xdfff < c.toNat ∧ c.toNat < 0x110000 :=
  c.valid

theorem isContinuation_ofNat (n : Nat) : isContinuation (UInt8.ofNat (n % 64 + 128)) = true := by
  have hn := toNat_ofNat_of_lt (show n % 64 + 128 < 256 by omega)
  simp only [isContinuation, UInt8.le_iff_toNat_le, UInt8.lt_iff_toNat_lt, hn,
    UInt8.reduceToNat, Bool.and_eq_true, decide_eq_true_eq]
  omega

/-- A continuation byte may follow a lead byte, unless the two are an overlong form, a surrogate or
too large together. -/
theorem isSecond_ofNat {lead n : Nat} (hlead : lead < 256)
    (h : lead = 0xe0 → 0x20 ≤ n % 64) (hd : lead = 0xed → n % 64 < 0x20)
    (h0 : lead = 0xf0 → 0x10 ≤ n % 64) (h4 : lead = 0xf4 → n % 64 < 0x10) :
    isSecond (UInt8.ofNat lead) (UInt8.ofNat (n % 64 + 128)) = true := by
  have hn := toNat_ofNat_of_lt (show n % 64 + 128 < 256 by omega)
  have hl := toNat_ofNat_of_lt hlead
  simp only [isSecond, isContinuation_ofNat, Bool.true_and, Bool.and_eq_true, Bool.not_eq_true',
    Bool.and_eq_false_iff, beq_eq_false_iff_ne, decide_eq_false_iff_not, UInt8.le_iff_toNat_le,
    UInt8.lt_iff_toNat_lt, ne_eq, ← UInt8.toNat_inj, hn, hl, UInt8.reduceToNat]
  omega

/-! ## One character, by the number of its bytes -/

section Encoded

variable {c : Char}

theorem encodeChar_one (h : c.toNat ≤ 0x7f) : String.utf8EncodeChar c = [UInt8.ofNat c.toNat] :=
  if_pos h

theorem encodeChar_two (hlo : 0x7f < c.toNat) (hhi : c.toNat ≤ 0x7ff) :
    String.utf8EncodeChar c =
      [UInt8.ofNat (c.toNat / 64 % 32 + 192), UInt8.ofNat (c.toNat % 64 + 128)] :=
  (if_neg (Nat.not_le.mpr hlo)).trans (if_pos hhi)

theorem encodeChar_three (hlo : 0x7ff < c.toNat) (hhi : c.toNat ≤ 0xffff) :
    String.utf8EncodeChar c =
      [UInt8.ofNat (c.toNat / 4096 % 16 + 224), UInt8.ofNat (c.toNat / 64 % 64 + 128),
        UInt8.ofNat (c.toNat % 64 + 128)] :=
  (if_neg (Nat.not_le.mpr (Nat.lt_trans (by decide) hlo))).trans
    ((if_neg (Nat.not_le.mpr hlo)).trans (if_pos hhi))

theorem encodeChar_four (hlo : 0xffff < c.toNat) :
    String.utf8EncodeChar c =
      [UInt8.ofNat (c.toNat / 262144 % 8 + 240), UInt8.ofNat (c.toNat / 4096 % 64 + 128),
        UInt8.ofNat (c.toNat / 64 % 64 + 128), UInt8.ofNat (c.toNat % 64 + 128)] :=
  (if_neg (Nat.not_le.mpr (Nat.lt_trans (by decide) hlo))).trans
    ((if_neg (Nat.not_le.mpr (Nat.lt_trans (by decide) hlo))).trans (if_neg (Nat.not_le.mpr hlo)))

end Encoded

variable (at_ : Nat) {c : Char} (rest : Bytes)

theorem decodeUtf8From_one (h : c.toNat ≤ 0x7f) :
    decodeUtf8From at_ (String.utf8EncodeChar c ++ rest) =
      (c :: ·) <$> decodeUtf8From (at_ + 1) rest := by
  have hn := toNat_ofNat_of_lt (show c.toNat < 256 by omega)
  have ha : UInt8.ofNat c.toNat < 0x80 := by
    simp only [UInt8.lt_iff_toNat_lt, hn, UInt8.reduceToNat]
    omega
  rw [encodeChar_one h, List.singleton_append, decodeUtf8From.eq_def]
  simp only [if_pos ha, hn, Char.ofNat_toNat]

theorem decodeUtf8From_two (hlo : 0x7f < c.toNat) (hhi : c.toNat ≤ 0x7ff) :
    decodeUtf8From at_ (String.utf8EncodeChar c ++ rest) =
      (c :: ·) <$> decodeUtf8From (at_ + 2) rest := by
  have hn := toNat_ofNat_of_lt (show c.toNat / 64 % 32 + 192 < 256 by omega)
  have hm := toNat_ofNat_of_lt (show c.toNat % 64 + 128 < 256 by omega)
  have hsecond := isSecond_ofNat (n := c.toNat) (show c.toNat / 64 % 32 + 192 < 256 by omega)
    (by omega) (by omega) (by omega) (by omega)
  have hchar : joinBytes ((c.toNat / 64 % 32 + 192) % 32) [UInt8.ofNat (c.toNat % 64 + 128)] = c := by
    have hval : (c.toNat / 64 % 32 + 192) % 32 * 64 + (c.toNat % 64 + 128) % 64 = c.toNat := by omega
    simp only [joinBytes, List.foldl_cons, List.foldl_nil, hm, hval, Char.ofNat_toNat]
  rw [encodeChar_two hlo hhi, List.cons_append, List.singleton_append, decodeUtf8From.eq_def]
  simp only [UInt8.lt_iff_toNat_lt, hn, UInt8.reduceToNat, hsecond, hchar]
  rw [if_neg (by omega), if_neg (by simp; omega), if_neg (by simp), if_pos (by omega)]

theorem decodeUtf8From_three (hlo : 0x7ff < c.toNat) (hhi : c.toNat ≤ 0xffff) :
    decodeUtf8From at_ (String.utf8EncodeChar c ++ rest) =
      (c :: ·) <$> decodeUtf8From (at_ + 3) rest := by
  have hvalid := toNat_isValid c
  have hn := toNat_ofNat_of_lt (show c.toNat / 4096 % 16 + 224 < 256 by omega)
  have hm := toNat_ofNat_of_lt (show c.toNat / 64 % 64 + 128 < 256 by omega)
  have hk := toNat_ofNat_of_lt (show c.toNat % 64 + 128 < 256 by omega)
  have hsecond := isSecond_ofNat (n := c.toNat / 64)
    (show c.toNat / 4096 % 16 + 224 < 256 by omega)
    (by omega) (by omega) (by omega) (by omega)
  have hchar : joinBytes ((c.toNat / 4096 % 16 + 224) % 16)
      [UInt8.ofNat (c.toNat / 64 % 64 + 128), UInt8.ofNat (c.toNat % 64 + 128)] = c := by
    have hval : ((c.toNat / 4096 % 16 + 224) % 16 * 64 + (c.toNat / 64 % 64 + 128) % 64) * 64 +
        (c.toNat % 64 + 128) % 64 = c.toNat := by omega
    simp only [joinBytes, List.foldl_cons, List.foldl_nil, hm, hk, hval, Char.ofNat_toNat]
  rw [encodeChar_three hlo hhi, List.cons_append, List.cons_append, List.singleton_append,
    decodeUtf8From.eq_def]
  simp only [UInt8.lt_iff_toNat_lt, hn, UInt8.reduceToNat, hsecond, isContinuation_ofNat, hchar]
  rw [if_neg (by omega), if_neg (by simp; omega), if_neg (by simp), if_neg (by omega),
    if_neg (by simp), if_pos (by omega)]

theorem decodeUtf8From_four (hlo : 0xffff < c.toNat) :
    decodeUtf8From at_ (String.utf8EncodeChar c ++ rest) =
      (c :: ·) <$> decodeUtf8From (at_ + 4) rest := by
  have hvalid := toNat_isValid c
  have hn := toNat_ofNat_of_lt (show c.toNat / 262144 % 8 + 240 < 256 by omega)
  have hm := toNat_ofNat_of_lt (show c.toNat / 4096 % 64 + 128 < 256 by omega)
  have hk := toNat_ofNat_of_lt (show c.toNat / 64 % 64 + 128 < 256 by omega)
  have hl := toNat_ofNat_of_lt (show c.toNat % 64 + 128 < 256 by omega)
  have hsecond := isSecond_ofNat (n := c.toNat / 4096)
    (show c.toNat / 262144 % 8 + 240 < 256 by omega)
    (by omega) (by omega) (by omega) (by omega)
  have hchar : joinBytes ((c.toNat / 262144 % 8 + 240) % 8)
      [UInt8.ofNat (c.toNat / 4096 % 64 + 128), UInt8.ofNat (c.toNat / 64 % 64 + 128),
        UInt8.ofNat (c.toNat % 64 + 128)] = c := by
    have hval : (((c.toNat / 262144 % 8 + 240) % 8 * 64 + (c.toNat / 4096 % 64 + 128) % 64) * 64 +
        (c.toNat / 64 % 64 + 128) % 64) * 64 + (c.toNat % 64 + 128) % 64 = c.toNat := by omega
    simp only [joinBytes, List.foldl_cons, List.foldl_nil, hm, hk, hl, hval, Char.ofNat_toNat]
  rw [encodeChar_four hlo, List.cons_append, List.cons_append, List.cons_append,
    List.singleton_append, decodeUtf8From.eq_def]
  simp only [UInt8.lt_iff_toNat_lt, hn, UInt8.reduceToNat, hsecond, isContinuation_ofNat, hchar]
  rw [if_neg (by omega), if_neg (by simp; omega), if_neg (by simp), if_neg (by omega),
    if_neg (by simp), if_neg (by omega), if_neg (by simp)]

/-! ## A whole text -/

theorem decodeUtf8From_encodeUtf8 (cs : List Char) (at_ : Nat) :
    decodeUtf8From at_ (encodeUtf8 cs) = .ok cs := by
  induction cs generalizing at_ with
  | nil => rfl
  | cons c cs ih =>
    rw [encodeUtf8_cons]
    rcases Nat.lt_or_ge 0x7f c.toNat with h1 | h1
    · rcases Nat.lt_or_ge 0x7ff c.toNat with h2 | h2
      · rcases Nat.lt_or_ge 0xffff c.toNat with h3 | h3
        · rw [decodeUtf8From_four at_ _ h3, ih]
          rfl
        · rw [decodeUtf8From_three at_ _ h2 h3, ih]
          rfl
      · rw [decodeUtf8From_two at_ _ h1 h2, ih]
        rfl
    · rw [decodeUtf8From_one at_ _ h1, ih]
      rfl

theorem decodeUtf8_encodeUtf8 (cs : List Char) : decodeUtf8 (encodeUtf8 cs) = .ok cs :=
  decodeUtf8From_encodeUtf8 cs 0

theorem encodeUtf8_inj {cs ds : List Char} : encodeUtf8 cs = encodeUtf8 ds ↔ cs = ds := by
  refine ⟨fun h => ?_, fun h => h ▸ rfl⟩
  have hread := congrArg decodeUtf8 h
  rwa [decodeUtf8_encodeUtf8, decodeUtf8_encodeUtf8, Except.ok.injEq] at hread

end CronWrap.Text
