import Mathlib.Data.List.Basic
import BracketLint.Text.Bytes

/-!
Reading back the bytes of a string. A character is written with one to four bytes, and the decoder
takes exactly these bytes for the character. A byte of ASCII stands for itself only, so no line feed
comes out of bytes without one.
-/

namespace BracketLint.Bytes

theorem isContinuation_iff {b : UInt8} :
    isContinuation b = true ↔ 0x80 ≤ b.toNat ∧ b.toNat ≤ 0xBF := by
  rw [isContinuation, Bool.and_eq_true, decide_eq_true_eq, decide_eq_true_eq]
  exact Iff.rfl

section Decode

variable {a b c d : UInt8} (rest : Bytes)

/-- A second byte continues a character, and behind the lowest and the highest first byte its range
is smaller. -/
theorem isSecond_of {low high first last : UInt8} (hb : isContinuation b = true)
    (hlow : a = low → first ≤ b) (hhigh : a = high → b ≤ last) :
    (if a == low then first ≤ b && b ≤ 0xBF
      else if a == high then 0x80 ≤ b && b ≤ last
      else isContinuation b) = true := by
  obtain ⟨hlower, hupper⟩ := isContinuation_iff.mp hb
  have hupper' : b ≤ 0xBF := hupper
  have hlower' : 0x80 ≤ b := hlower
  split_ifs with hfirst hlast
  · simpa [hupper'] using hlow (beq_iff_eq.mp hfirst)
  · simpa [hlower'] using hhigh (beq_iff_eq.mp hlast)
  · exact hb

theorem decode_one (ha : a.toNat < 0x80) : decode (a :: rest) = Char.ofNat a.toNat :: decode rest := by
  have hascii : a < 0x80 := ha
  rw [decode.eq_def]
  exact if_pos hascii

/-- The first byte of a longer character is no ASCII, and its range tells how long it is. -/
theorem decode_two (ha : 0xC2 ≤ a.toNat ∧ a.toNat ≤ 0xDF) (hb : isContinuation b = true) :
    decode (a :: b :: rest) = Char.ofNat (a.toNat % 32 * 64 + payload b) :: decode rest := by
  have hascii : ¬a < 0x80 := fun h => absurd (show a.toNat < 0x80 from h) (by omega)
  have htwo : 0xC2 ≤ a ∧ a ≤ 0xDF := ha
  rw [decode.eq_def]
  simp only [hascii, htwo, hb, if_false, decide_true, Bool.and_self, if_true]

theorem decode_three (ha : 0xE0 ≤ a.toNat ∧ a.toNat ≤ 0xEF) (hb : isSecondOfThree a b = true)
    (hc : isContinuation c = true) :
    decode (a :: b :: c :: rest) =
      Char.ofNat (a.toNat % 16 * 4096 + payload b * 64 + payload c) :: decode rest := by
  have hascii : ¬a < 0x80 := fun h => absurd (show a.toNat < 0x80 from h) (by omega)
  have htwo : ¬a ≤ 0xDF := fun h => absurd (show a.toNat ≤ 0xDF from h) (by omega)
  have hthree : 0xE0 ≤ a ∧ a ≤ 0xEF := ha
  rw [decode.eq_def]
  simp only [hascii, htwo, hthree, hb, hc, if_false, decide_true, decide_false, Bool.and_false,
    Bool.false_eq_true, Bool.and_self, if_true]

theorem decode_four (ha : 0xF0 ≤ a.toNat ∧ a.toNat ≤ 0xF4) (hb : isSecondOfFour a b = true)
    (hc : isContinuation c = true) (hd : isContinuation d = true) :
    decode (a :: b :: c :: d :: rest) =
      Char.ofNat (a.toNat % 8 * 262144 + payload b * 4096 + payload c * 64 + payload d) ::
        decode rest := by
  have hascii : ¬a < 0x80 := fun h => absurd (show a.toNat < 0x80 from h) (by omega)
  have htwo : ¬a ≤ 0xDF := fun h => absurd (show a.toNat ≤ 0xDF from h) (by omega)
  have hthree : ¬a ≤ 0xEF := fun h => absurd (show a.toNat ≤ 0xEF from h) (by omega)
  have hfour : 0xF0 ≤ a ∧ a ≤ 0xF4 := ha
  rw [decode.eq_def]
  simp only [hascii, htwo, hthree, hfour, hb, hc, hd, if_false, decide_true, decide_false,
    Bool.and_false, Bool.false_eq_true, Bool.and_self, if_true]

end Decode

section Encode

theorem toNat_ofNat_of_lt {n : Nat} (h : n < 256) : (UInt8.ofNat n).toNat = n := by
  rw [UInt8.toNat_ofNat']
  exact Nat.mod_eq_of_lt h

theorem isContinuation_ofNat {n : Nat} (h : n < 64) :
    isContinuation (UInt8.ofNat (n + 128)) = true ∧ payload (UInt8.ofNat (n + 128)) = n := by
  have hbyte : (UInt8.ofNat (n + 128)).toNat = n + 128 := toNat_ofNat_of_lt (by omega)
  rw [isContinuation_iff, payload, hbyte]
  omega

/-- The decoder reads a character from the bytes that it is written with. -/
theorem decode_utf8EncodeChar_append (c : Char) (rest : Bytes) :
    decode (String.utf8EncodeChar c ++ rest) = c :: decode rest := by
  have hchar : Char.ofNat c.val.toNat = c := Char.ofNat_toNat c
  have hvalid : c.val.toNat < 0xD800 ∨ 0xDFFF < c.val.toNat ∧ c.val.toNat < 0x110000 := c.valid
  generalize hv : c.val.toNat = v at hchar hvalid
  have hlast : v % 64 < 64 := Nat.mod_lt v (by decide)
  have hmiddle : v / 64 % 64 < 64 := Nat.mod_lt _ (by decide)
  unfold String.utf8EncodeChar
  dsimp only
  rw [hv]
  split_ifs with h₁ h₂ h₃
  · have hbyte : (UInt8.ofNat v).toNat = v := toNat_ofNat_of_lt (by omega)
    rw [List.singleton_append, decode_one rest (by omega), hbyte, hchar]
  · have hbyte : (UInt8.ofNat (v / 64 % 32 + 192)).toNat = v / 64 % 32 + 192 :=
      toNat_ofNat_of_lt (by omega)
    obtain ⟨hcontinues, hpayload⟩ := isContinuation_ofNat hlast
    have hsum : (v / 64 % 32 + 192) % 32 * 64 + v % 64 = v := by omega
    rw [List.cons_append, List.singleton_append, decode_two rest (by omega) hcontinues, hpayload,
      hbyte, hsum, hchar]
  · have hbyte : (UInt8.ofNat (v / 4096 % 16 + 224)).toNat = v / 4096 % 16 + 224 :=
      toNat_ofNat_of_lt (by omega)
    obtain ⟨hcontinues, hpayload⟩ := isContinuation_ofNat hmiddle
    obtain ⟨hcontinues', hpayload'⟩ := isContinuation_ofNat hlast
    have hbyte' : (UInt8.ofNat (v / 64 % 64 + 128)).toNat = v / 64 % 64 + 128 :=
      toNat_ofNat_of_lt (by omega)
    have hsecond : isSecondOfThree (UInt8.ofNat (v / 4096 % 16 + 224))
        (UInt8.ofNat (v / 64 % 64 + 128)) = true := by
      apply isSecond_of hcontinues
      -- No shorter character is written in three bytes, and no half of a surrogate pair.
      · intro hlead
        have hlow : v / 4096 % 16 + 224 = 0xE0 := hbyte.symm.trans (congrArg UInt8.toNat hlead)
        have hle : 0xA0 ≤ v / 64 % 64 + 128 := by omega
        rw [UInt8.le_iff_toNat_le, hbyte']
        exact hle
      · intro hlead
        have hhigh : v / 4096 % 16 + 224 = 0xED := hbyte.symm.trans (congrArg UInt8.toNat hlead)
        have hle : v / 64 % 64 + 128 ≤ 0x9F := by omega
        rw [UInt8.le_iff_toNat_le, hbyte']
        exact hle
    have hsum : (v / 4096 % 16 + 224) % 16 * 4096 + v / 64 % 64 * 64 + v % 64 = v := by omega
    rw [List.cons_append, List.cons_append, List.singleton_append,
      decode_three rest (by omega) hsecond hcontinues', hpayload, hpayload', hbyte, hsum, hchar]
  · have hbyte : (UInt8.ofNat (v / 262144 % 8 + 240)).toNat = v / 262144 % 8 + 240 :=
      toNat_ofNat_of_lt (by omega)
    have hhigh : v / 4096 % 64 < 64 := Nat.mod_lt _ (by decide)
    obtain ⟨hcontinues, hpayload⟩ := isContinuation_ofNat hhigh
    obtain ⟨hcontinues', hpayload'⟩ := isContinuation_ofNat hmiddle
    obtain ⟨hcontinues'', hpayload''⟩ := isContinuation_ofNat hlast
    have hbyte' : (UInt8.ofNat (v / 4096 % 64 + 128)).toNat = v / 4096 % 64 + 128 :=
      toNat_ofNat_of_lt (by omega)
    have hsecond : isSecondOfFour (UInt8.ofNat (v / 262144 % 8 + 240))
        (UInt8.ofNat (v / 4096 % 64 + 128)) = true := by
      apply isSecond_of hcontinues
      -- No shorter character is written in four bytes, and there is a last code point.
      · intro hlead
        have hlow : v / 262144 % 8 + 240 = 0xF0 := hbyte.symm.trans (congrArg UInt8.toNat hlead)
        have hle : 0x90 ≤ v / 4096 % 64 + 128 := by omega
        rw [UInt8.le_iff_toNat_le, hbyte']
        exact hle
      · intro hlead
        have hhigh : v / 262144 % 8 + 240 = 0xF4 := hbyte.symm.trans (congrArg UInt8.toNat hlead)
        have hle : v / 4096 % 64 + 128 ≤ 0x8F := by omega
        rw [UInt8.le_iff_toNat_le, hbyte']
        exact hle
    have hsum : (v / 262144 % 8 + 240) % 8 * 262144 + v / 4096 % 64 * 4096 + v / 64 % 64 * 64 +
        v % 64 = v := by omega
    rw [List.cons_append, List.cons_append, List.cons_append, List.singleton_append,
      decode_four rest (by omega) hsecond hcontinues' hcontinues'', hpayload, hpayload',
      hpayload'', hbyte, hsum, hchar]

theorem decode_flatMap_utf8EncodeChar (cs : List Char) :
    decode (cs.flatMap String.utf8EncodeChar) = cs := by
  induction cs with
  | nil => rw [List.flatMap_nil, decode]
  | cons c cs ih => rw [List.flatMap_cons, decode_utf8EncodeChar_append, ih]

theorem ofString_eq_flatMap (s : String) : ofString s = s.toList.flatMap String.utf8EncodeChar := by
  have hbytes : (String.ofList s.toList).toByteArray = s.toList.utf8Encode :=
    String.toByteArray_ofList
  rw [String.ofList_toList] at hbytes
  rw [ofString, hbytes, List.utf8Encode, List.toList_data_toByteArray]

/-- Writing a string and reading its bytes gives the characters of the string. -/
theorem decode_ofString (s : String) : decode (ofString s) = s.toList := by
  rw [ofString_eq_flatMap, decode_flatMap_utf8EncodeChar]

theorem ofString_append (s t : String) : ofString (s ++ t) = ofString s ++ ofString t := by
  rw [ofString_eq_flatMap, ofString_eq_flatMap, ofString_eq_flatMap, String.toList_append,
    List.flatMap_append]

/-- A text of ASCII is its own encoding. -/
theorem ofString_toWord {bytes : Bytes} (h : ∀ b ∈ bytes, b < 0x80) :
    ofString (toWord bytes) = bytes := by
  have hchar (b : UInt8) (hb : b < 0x80) :
      String.utf8EncodeChar (Char.ofNat b.toNat) = [b] := by
    have hascii : b.toNat < 0x80 := hb
    have hval : (Char.ofNat b.toNat).val.toNat = b.toNat := by
      rw [Char.ofNat, dif_pos (.inl (by omega))]
      rfl
    unfold String.utf8EncodeChar
    dsimp only
    rw [hval, if_pos (by omega), UInt8.ofNat_toNat]
  rw [ofString_eq_flatMap, toWord, String.toList_ofList, List.flatMap_map]
  calc bytes.flatMap (fun b => String.utf8EncodeChar (Char.ofNat b.toNat))
      = bytes.flatMap fun b => [b] := List.flatMap_congr fun b hb => hchar b (h b hb)
    _ = bytes := List.flatMap_singleton' bytes

/-- A byte of ASCII among the bytes of a string is a character of the string. -/
theorem mem_of_mem_ofString {b : UInt8} (hb : b < 0x80) {s : String} (h : b ∈ ofString s) :
    Char.ofNat b.toNat ∈ s.toList := by
  rw [ofString_eq_flatMap, List.mem_flatMap] at h
  obtain ⟨c, hc, hmem⟩ := h
  have hchar : Char.ofNat c.val.toNat = c := Char.ofNat_toNat c
  have hascii : b.toNat < 0x80 := hb
  -- Every byte of a longer character has its highest bit set.
  have hhigh {n : Nat} (hle : 0x80 ≤ n) (hlt : n < 256) : b ≠ UInt8.ofNat n := by
    intro heq
    have hbyte : b.toNat = n := heq ▸ toNat_ofNat_of_lt hlt
    omega
  unfold String.utf8EncodeChar at hmem
  dsimp only at hmem
  generalize c.val.toNat = v at hchar hmem
  split_ifs at hmem with h₁ h₂ h₃
  · have hbyte : b.toNat = v := by
      rw [List.mem_singleton.mp hmem, toNat_ofNat_of_lt (by omega)]
    rwa [hbyte, hchar]
  · rcases List.mem_cons.mp hmem with heq | hmem
    · exact absurd heq (hhigh (by omega) (by omega))
    · exact absurd (List.mem_singleton.mp hmem) (hhigh (by omega) (by omega))
  · simp only [List.mem_cons, List.not_mem_nil, or_false] at hmem
    rcases hmem with heq | heq | heq <;> exact absurd heq (hhigh (by omega) (by omega))
  · simp only [List.mem_cons, List.not_mem_nil, or_false] at hmem
    rcases hmem with heq | heq | heq | heq <;> exact absurd heq (hhigh (by omega) (by omega))

end Encode

section LineFeed

theorem ofNat_ne_lineFeed {n : Nat} (h : n ≠ 10) : Char.ofNat n ≠ '\n' := by
  rw [Char.ofNat]
  by_cases hvalid : n.isValidChar
  · rw [dif_pos hvalid]
    exact fun heq => h (congrArg Char.toNat heq)
  · rw [dif_neg hvalid]
    decide

/-- Behind the lowest first byte of a longer character a second byte is not the lowest one. -/
theorem pos_of_isSecondOfThree {a b : UInt8} (ha : 0xE0 ≤ a.toNat ∧ a.toNat ≤ 0xEF)
    (h : isSecondOfThree a b = true) : 0 < a.toNat % 16 ∨ 0 < payload b := by
  rw [isSecondOfThree] at h
  rw [payload]
  split_ifs at h with hlow
  · rw [Bool.and_eq_true, decide_eq_true_eq, decide_eq_true_eq, UInt8.le_iff_toNat_le,
      UInt8.le_iff_toNat_le] at h
    have hfirst : 0xA0 ≤ b.toNat := h.1
    have hlast : b.toNat ≤ 0xBF := h.2
    omega
  all_goals
    have hne : a.toNat ≠ 0xE0 := fun heq => hlow (beq_iff_eq.mpr (UInt8.toNat_inj.mp heq))
    omega

theorem pos_of_isSecondOfFour {a b : UInt8} (ha : 0xF0 ≤ a.toNat ∧ a.toNat ≤ 0xF4)
    (h : isSecondOfFour a b = true) : 0 < a.toNat % 8 ∨ 0 < payload b := by
  rw [isSecondOfFour] at h
  rw [payload]
  split_ifs at h with hlow
  · rw [Bool.and_eq_true, decide_eq_true_eq, decide_eq_true_eq, UInt8.le_iff_toNat_le,
      UInt8.le_iff_toNat_le] at h
    have hfirst : 0x90 ≤ b.toNat := h.1
    have hlast : b.toNat ≤ 0xBF := h.2
    omega
  all_goals
    have hne : a.toNat ≠ 0xF0 := fun heq => hlow (beq_iff_eq.mpr (UInt8.toNat_inj.mp heq))
    omega

/-- Only the byte of a line feed is read as a line feed. -/
theorem lineFeed_not_mem_decode {bytes : Bytes} (h : Ascii.lineFeed ∉ bytes) :
    '\n' ∉ decode bytes := by
  have hreplacement : '\n' ≠ replacement := by decide
  have hrange {low high a : UInt8} (h : (decide (low ≤ a) && decide (a ≤ high)) = true) :
      low.toNat ≤ a.toNat ∧ a.toNat ≤ high.toNat := by
    rwa [Bool.and_eq_true, decide_eq_true_eq, decide_eq_true_eq] at h
  fun_induction decode bytes
  case case1 => exact List.not_mem_nil
  case case2 a rest _ ih =>
    rw [List.mem_cons, not_or] at h ⊢
    have hne : a.toNat ≠ 10 := fun heq => h.1 (UInt8.toNat_inj.mp heq.symm)
    exact ⟨(ofNat_ne_lineFeed hne).symm, ih h.2⟩
  -- A character of several bytes lies behind all of ASCII.
  case case3 a _ htwo b rest _ ih =>
    have ha : 0xC2 ≤ a.toNat ∧ a.toNat ≤ 0xDF := hrange htwo
    rw [List.mem_cons, not_or, List.mem_cons, not_or] at h
    rw [List.mem_cons, not_or]
    exact ⟨(ofNat_ne_lineFeed (by omega)).symm, ih h.2.2⟩
  case case6 a _ _ hthree b hsecond c rest _ ih =>
    have hpos := pos_of_isSecondOfThree (hrange hthree) hsecond
    rw [List.mem_cons, not_or, List.mem_cons, not_or, List.mem_cons, not_or] at h
    rw [List.mem_cons, not_or]
    exact ⟨(ofNat_ne_lineFeed (by omega)).symm, ih h.2.2.2⟩
  case case11 a _ _ _ hfour b hsecond c _ d rest _ ih =>
    have hpos := pos_of_isSecondOfFour (hrange hfour) hsecond
    rw [List.mem_cons, not_or, List.mem_cons, not_or, List.mem_cons, not_or, List.mem_cons,
      not_or] at h
    rw [List.mem_cons, not_or]
    exact ⟨(ofNat_ne_lineFeed (by omega)).symm, ih h.2.2.2.2⟩
  case case5 | case8 | case10 | case13 | case15 | case17 =>
    exact fun hmem => hreplacement (List.mem_singleton.mp hmem)
  case case4 ih | case9 ih | case16 ih | case18 ih =>
    rw [List.mem_cons, not_or] at h ⊢
    exact ⟨hreplacement, ih h.2⟩
  case case7 ih | case14 ih =>
    rw [List.mem_cons, not_or, List.mem_cons, not_or] at h
    rw [List.mem_cons, not_or]
    exact ⟨hreplacement, ih h.2.2⟩
  case case12 ih =>
    rw [List.mem_cons, not_or, List.mem_cons, not_or, List.mem_cons, not_or] at h
    rw [List.mem_cons, not_or]
    exact ⟨hreplacement, ih h.2.2.2⟩

end LineFeed
end BracketLint.Bytes
