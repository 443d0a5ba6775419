import ScriptHost.Text.Utf8

/-!
# Texts through bytes

The bytes of a text are read back as that text (`Utf8.decode_encode`): a character goes to one, two, three or four bytes, and the first
byte tells which. Only the NUL has a NUL byte, so the bytes up to the first NUL are those of the text up to its first NUL
(`Utf8.takeWhile_encode`).
-/

namespace ScriptHost.Utf8

variable {a b c d : UInt8} {rest : List UInt8}

/-! ## One character -/

theorem isContinuation_iff : isContinuation b = true ↔ 0x80 ≤ b.toNat ∧ b.toNat < 0xC0 := by
  rw [isContinuation, beq_iff_eq]
  omega

theorem decodeChars_one (ha : a.toNat < 0x80) : decodeChars (a :: rest) = Char.ofNat a.toNat :: decodeChars rest := by
  rw [decodeChars.eq_def]
  simp only [UInt8.lt_iff_toNat_lt, UInt8.reduceToNat, if_pos ha]

theorem decodeChars_two (ha : 0xC2 ≤ a.toNat ∧ a.toNat ≤ 0xDF) (hb : isContinuation b = true) :
    decodeChars (a :: b :: rest) = Char.ofNat (a.toNat % 32 * 64 + tail b) :: decodeChars rest := by
  have hone : ¬a.toNat < 0x80 := by omega
  rw [decodeChars.eq_def]
  simp only [UInt8.lt_iff_toNat_lt, UInt8.le_iff_toNat_le, UInt8.reduceToNat, if_neg hone, if_pos ha, if_pos hb]

theorem decodeChars_three (ha : 0xE0 ≤ a.toNat ∧ a.toNat ≤ 0xEF) (hb : followsThree a b = true) (hc : isContinuation c = true) :
    decodeChars (a :: b :: c :: rest) = Char.ofNat ((a.toNat % 16 * 64 + tail b) * 64 + tail c) :: decodeChars rest := by
  have hone : ¬a.toNat < 0x80 := by omega
  have htwo : ¬(0xC2 ≤ a.toNat ∧ a.toNat ≤ 0xDF) := by omega
  rw [decodeChars.eq_def]
  simp only [UInt8.lt_iff_toNat_lt, UInt8.le_iff_toNat_le, UInt8.reduceToNat, if_neg hone, if_neg htwo, if_pos ha, if_pos hb, if_pos hc]

theorem decodeChars_four (ha : 0xF0 ≤ a.toNat ∧ a.toNat ≤ 0xF4) (hb : followsFour a b = true) (hc : isContinuation c = true)
    (hd : isContinuation d = true) :
    decodeChars (a :: b :: c :: d :: rest) =
      Char.ofNat (((a.toNat % 8 * 64 + tail b) * 64 + tail c) * 64 + tail d) :: decodeChars rest := by
  have hone : ¬a.toNat < 0x80 := by omega
  have htwo : ¬(0xC2 ≤ a.toNat ∧ a.toNat ≤ 0xDF) := by omega
  have hthree : ¬(0xE0 ≤ a.toNat ∧ a.toNat ≤ 0xEF) := by omega
  rw [decodeChars.eq_def]
  simp only [UInt8.lt_iff_toNat_lt, UInt8.le_iff_toNat_le, UInt8.reduceToNat, if_neg hone, if_neg htwo, if_neg hthree, if_pos ha,
    if_pos hb, if_pos hc, if_pos hd]

/-- The second byte of three is no overlong form and no surrogate. -/
theorem followsThree_iff : followsThree a b = true ↔
    (0x80 ≤ b.toNat ∧ b.toNat < 0xC0) ∧ (a.toNat = 0xE0 → 0xA0 ≤ b.toNat) ∧ (a.toNat = 0xED → b.toNat ≤ 0x9F) := by
  simp only [followsThree, Bool.and_eq_true, isContinuation_iff, Bool.or_eq_true, bne_iff_ne, ne_eq, decide_eq_true_eq,
    UInt8.le_iff_toNat_le, UInt8.reduceToNat, ← UInt8.toNat_inj]
  omega

/-- The second byte of four is no overlong form and nothing beyond the last character. -/
theorem followsFour_iff : followsFour a b = true ↔
    (0x80 ≤ b.toNat ∧ b.toNat < 0xC0) ∧ (a.toNat = 0xF0 → 0x90 ≤ b.toNat) ∧ (a.toNat = 0xF4 → b.toNat ≤ 0x8F) := by
  simp only [followsFour, Bool.and_eq_true, isContinuation_iff, Bool.or_eq_true, bne_iff_ne, ne_eq, decide_eq_true_eq,
    UInt8.le_iff_toNat_le, UInt8.reduceToNat, ← UInt8.toNat_inj]
  omega

/-- The bytes of a character are read as that character, whatever follows. -/
theorem decodeChars_encodeChar (ch : Char) (rest : List UInt8) :
    decodeChars (String.utf8EncodeChar ch ++ rest) = ch :: decodeChars rest := by
  have hvalid : ch.val.toNat < 0xD800 ∨ 0xDFFF < ch.val.toNat ∧ ch.val.toNat < 0x110000 := ch.valid
  have hback : ∀ n, n = ch.val.toNat → Char.ofNat n = ch := by
    rintro _ rfl
    exact Char.ofNat_toNat ch
  unfold String.utf8EncodeChar
  dsimp only
  split
  · rw [List.cons_append, List.nil_append, decodeChars_one (by rw [UInt8.toNat_ofNat']; omega), hback]
    rw [UInt8.toNat_ofNat']
    omega
  split
  · rw [List.cons_append, List.cons_append, List.nil_append, decodeChars_two, hback]
    · simp only [tail, UInt8.toNat_ofNat']
      omega
    · simp only [UInt8.toNat_ofNat']
      omega
    · simp only [isContinuation_iff, UInt8.toNat_ofNat']
      omega
  split
  · rw [List.cons_append, List.cons_append, List.cons_append, List.nil_append, decodeChars_three, hback]
    · simp only [tail, UInt8.toNat_ofNat']
      omega
    · simp only [UInt8.toNat_ofNat']
      omega
    · simp only [followsThree_iff, UInt8.toNat_ofNat']
      omega
    · simp only [isContinuation_iff, UInt8.toNat_ofNat']
      omega
  · rw [List.cons_append, List.cons_append, List.cons_append, List.cons_append, List.nil_append, decodeChars_four, hback]
    · simp only [tail, UInt8.toNat_ofNat']
      omega
    · simp only [UInt8.toNat_ofNat']
      omega
    · simp only [followsFour_iff, UInt8.toNat_ofNat']
      omega
    · simp only [isContinuation_iff, UInt8.toNat_ofNat']
      omega
    · simp only [isContinuation_iff, UInt8.toNat_ofNat']
      omega

/-! ## Texts -/

/-- The bytes of a text are read as that text. -/
theorem decode_encode (s : String) : decode (encode s) = s := by
  have hchars : ∀ chars : List Char, decodeChars (chars.flatMap String.utf8EncodeChar) = chars := by
    intro chars
    induction chars with
    | nil => rfl
    | cons ch chars ih => rw [List.flatMap_cons, decodeChars_encodeChar, ih]
  rw [decode, encode, hchars, String.ofList_toList]

/-- Only the NUL has a NUL byte, and that is its only one. -/
theorem encodeChar_nul (ch : Char) :
    (ch = '\x00' ∧ String.utf8EncodeChar ch = [0]) ∨ ch ≠ '\x00' ∧ ∀ b ∈ String.utf8EncodeChar ch, b ≠ 0 := by
  by_cases hnul : ch = '\x00'
  · subst hnul
    exact Or.inl ⟨rfl, rfl⟩
  refine Or.inr ⟨hnul, fun b hb => ?_⟩
  have hpos : ch.val.toNat ≠ 0 := fun h => hnul (Char.toNat_inj.1 h)
  have hzero : ∀ n, n % 2 ^ 8 ≠ 0 → UInt8.ofNat n ≠ 0 := fun n hn e => hn (by rw [← UInt8.toNat_ofNat', e]; rfl)
  unfold String.utf8EncodeChar at hb
  dsimp only at hb
  split at hb
  · obtain rfl := List.mem_singleton.1 hb
    exact hzero _ (by omega)
  split at hb
  · simp only [List.mem_cons, List.not_mem_nil, or_false] at hb
    rcases hb with rfl | rfl <;> exact hzero _ (by omega)
  split at hb
  · simp only [List.mem_cons, List.not_mem_nil, or_false] at hb
    rcases hb with rfl | rfl | rfl <;> exact hzero _ (by omega)
  · simp only [List.mem_cons, List.not_mem_nil, or_false] at hb
    rcases hb with rfl | rfl | rfl | rfl <;> exact hzero _ (by omega)

/-- The bytes up to the first NUL are those of the text up to its first NUL. -/
theorem takeWhile_encode (s : String) :
    (encode s).takeWhile (· != 0) = encode (String.ofList (s.toList.takeWhile (· != '\x00'))) := by
  have hchars : ∀ chars : List Char, (chars.flatMap String.utf8EncodeChar).takeWhile (· != 0) =
      (chars.takeWhile (· != '\x00')).flatMap String.utf8EncodeChar := by
    intro chars
    induction chars with
    | nil => rfl
    | cons ch chars ih =>
      rw [List.flatMap_cons]
      obtain ⟨rfl, hbytes⟩ | ⟨hne, hbytes⟩ := encodeChar_nul ch
      · rw [hbytes]
        rfl
      · rw [List.takeWhile_append_of_pos (by simpa using hbytes), ih, List.takeWhile_cons_of_pos (by simpa using hne), List.flatMap_cons]
  rw [encode, hchars, encode, String.toList_ofList]

end ScriptHost.Utf8
