import Mathlib.Tactic.SplitIfs
import MailEnvelope.Text

namespace MailEnvelope.Text

/-- Units that make up characters: no surrogate stands alone. -/
inductive Unicode : Text → Prop
  | nil : Unicode []
  | unit {u t} : u < 0xD800 ∨ (0xE000 ≤ u ∧ u < 0x10000) → Unicode t → Unicode (u :: t)
  | pair {high low t} : isHighSurrogate high → isLowSurrogate low → Unicode t →
      Unicode (high :: low :: t)

/-- Octets that characters have in UTF-8. -/
def IsUtf8 (os : List UInt8) : Prop := ∃ cs : List Char, cs.flatMap String.utf8EncodeChar = os

variable {t : Text} {u high low : Nat} {os : List UInt8}

theorem toNat_charOfNat {n : Nat} (h : n.isValidChar) : (Char.ofNat n).toNat = n := by
  rw [Char.ofNat, dif_pos h]
  rfl

theorem unitsOfChar_charOfUnit (h : u < 0xD800 ∨ (0xE000 ≤ u ∧ u < 0x10000)) :
    unitsOfChar (charOfUnit u) = [u] := by
  have hvalid : u.isValidChar := by
    unfold Nat.isValidChar
    omega
  have hsmall : u < 0x10000 := by omega
  rw [charOfUnit, if_pos h, unitsOfChar, toNat_charOfNat hvalid, if_pos hsmall]

theorem unitsOfChar_charOfPair (hh : isHighSurrogate high) (hl : isLowSurrogate low) :
    unitsOfChar (charOfPair high low) = [high, low] := by
  simp only [isHighSurrogate, isLowSurrogate, Bool.and_eq_true, decide_eq_true_eq] at hh hl
  have hvalid : (0x10000 + (high - 0xD800) * 0x400 + (low - 0xDC00)).isValidChar := by
    unfold Nat.isValidChar
    omega
  rw [charOfPair, unitsOfChar, toNat_charOfNat hvalid, if_neg (by omega), List.cons.injEq,
    List.cons.injEq]
  exact ⟨by omega, by omega, rfl⟩

theorem unitsOfChar_cases (c : Char) :
    (unitsOfChar c = [c.toNat] ∧ (c.toNat < 0xD800 ∨ (0xE000 ≤ c.toNat ∧ c.toNat < 0x10000))) ∨
      ∃ high low, unitsOfChar c = [high, low] ∧ isHighSurrogate high ∧ isLowSurrogate low ∧
        charOfPair high low = c := by
  have hvalid : c.toNat.isValidChar := c.valid
  unfold Nat.isValidChar at hvalid
  by_cases hc : c.toNat < 0x10000
  · exact .inl ⟨if_pos hc, by omega⟩
  · refine .inr ⟨_, _, if_neg hc, ?_, ?_, ?_⟩
    · simp [isHighSurrogate]
      omega
    · simp [isLowSurrogate]
      omega
    · have hnumber : 0x10000 + (0xD800 + (c.toNat - 0x10000) / 0x400 - 0xD800) * 0x400 +
          (0xDC00 + (c.toNat - 0x10000) % 0x400 - 0xDC00) = c.toNat := by omega
      rw [charOfPair, hnumber, Char.ofNat_toNat]

theorem toChars_unit (h : u < 0xD800 ∨ (0xE000 ≤ u ∧ u < 0x10000)) (t : Text) :
    toChars (u :: t) = charOfUnit u :: toChars t := by
  have hhigh : isHighSurrogate u = false := by
    simp [isHighSurrogate]
    omega
  cases t with
  | nil => rfl
  | cons v t => simp [toChars, hhigh]

theorem toChars_pair (hh : isHighSurrogate high) (hl : isLowSurrogate low) (t : Text) :
    toChars (high :: low :: t) = charOfPair high low :: toChars t := by
  simp [toChars, hh, hl]

theorem ofChars_toChars (h : Unicode t) : ofChars t.toChars = t := by
  induction h with
  | nil => rfl
  | @unit u t hu _ ih =>
    rw [toChars_unit hu, ofChars, List.flatMap_cons, unitsOfChar_charOfUnit hu]
    exact congrArg (u :: ·) ih
  | @pair high low t hh hl _ ih =>
    rw [toChars_pair hh hl, ofChars, List.flatMap_cons, unitsOfChar_charOfPair hh hl]
    exact congrArg (high :: low :: ·) ih

theorem unicode_ofChars (cs : List Char) : Unicode (ofChars cs) := by
  induction cs with
  | nil => exact .nil
  | cons c cs ih =>
    rw [ofChars, List.flatMap_cons]
    obtain ⟨hu, hc⟩ | ⟨high, low, hu, hh, hl, -⟩ := unitsOfChar_cases c
    · rw [hu]
      exact .unit hc ih
    · rw [hu]
      exact .pair hh hl ih

theorem toChars_ofChars (cs : List Char) : toChars (ofChars cs) = cs := by
  induction cs with
  | nil => rfl
  | cons c cs ih =>
    rw [ofChars, List.flatMap_cons, ← ofChars]
    obtain ⟨hu, hc⟩ | ⟨high, low, hu, hh, hl, hpair⟩ := unitsOfChar_cases c
    · rw [hu, List.singleton_append, toChars_unit hc, ih, charOfUnit, if_pos hc, Char.ofNat_toNat]
    · rw [hu, List.cons_append, List.singleton_append, toChars_pair hh hl, hpair, ih]

theorem toUtf8_ofChars (cs : List Char) :
    toUtf8 (ofChars cs) = cs.flatMap String.utf8EncodeChar := by
  rw [toUtf8, toChars_ofChars]

theorem ofUtf8?_flatMap (cs : List Char) :
    ofUtf8? (cs.flatMap String.utf8EncodeChar) = some (ofChars cs) := by
  have h := List.utf8Decode?_utf8Encode (l := cs)
  rw [List.utf8Encode] at h
  rw [ofUtf8?, h, Option.map_some]

theorem ofUtf8?_isSome_iff : (ofUtf8? os).isSome ↔ IsUtf8 os := by
  rw [ofUtf8?, Option.isSome_map, ByteArray.isSome_utf8Decode?_iff]
  constructor
  · intro ⟨cs, hcs⟩
    exact ⟨cs, (List.toByteArray_inj.mp hcs).symm⟩
  · intro ⟨cs, hcs⟩
    exact ⟨cs, List.toByteArray_inj.mpr hcs.symm⟩

instance : DecidablePred IsUtf8 := fun _ => decidable_of_iff _ ofUtf8?_isSome_iff

theorem ofUtf8?_eq_none (h : ¬ IsUtf8 os) : ofUtf8? os = none := by
  rwa [← ofUtf8?_isSome_iff, Option.not_isSome_iff_eq_none] at h

theorem utf8EncodeChar_ascii {c : Char} (hc : c.toNat < 128) :
    String.utf8EncodeChar c = [UInt8.ofNat c.toNat] :=
  if_pos (Nat.le_of_lt_succ hc)

/-- No octet of a character beyond ASCII is one of ASCII. -/
theorem utf8EncodeChar_high {c : Char} (hc : 128 ≤ c.toNat) :
    ∀ o ∈ String.utf8EncodeChar c, 128 ≤ o.toNat := by
  have hascii : ¬ c.val.toNat ≤ 127 := Nat.not_le_of_lt hc
  rw [String.utf8EncodeChar]
  rw [if_neg hascii]
  split_ifs <;> simp [UInt8.toNat_ofNat'] <;> omega

/-- A character of ASCII is in no other character, so octets can be cut there. -/
theorem IsUtf8.cut {xs ys : List UInt8} {o : UInt8} (h : IsUtf8 (xs ++ o :: ys))
    (ho : o.toNat < 128) : IsUtf8 xs ∧ IsUtf8 ys := by
  obtain ⟨cs, hcs⟩ := h
  induction cs generalizing xs with
  | nil => simp at hcs
  | cons c cs ih =>
    rw [List.flatMap_cons] at hcs
    have after : ∀ zs, cs.flatMap String.utf8EncodeChar = zs ++ o :: ys →
        IsUtf8 (String.utf8EncodeChar c ++ zs) ∧ IsUtf8 ys := by
      intro zs hzs
      obtain ⟨⟨ds, rfl⟩, hys⟩ := ih hzs
      exact ⟨⟨c :: ds, List.flatMap_cons⟩, hys⟩
    obtain ⟨zs, rfl, hzs⟩ | ⟨zs, hc, hzs⟩ := List.append_eq_append_iff.mp hcs
    · exact after zs hzs
    · cases zs with
      | nil =>
        rw [List.append_nil] at hc
        simpa [hc] using after [] hzs.symm
      | cons w zs =>
        obtain ⟨rfl, hys⟩ := List.cons.inj hzs
        rcases Nat.lt_or_ge c.toNat 128 with hascii | hhigh
        · rw [utf8EncodeChar_ascii hascii, List.singleton_eq_append_iff] at hc
          obtain ⟨rfl, hzs⟩ | ⟨rfl, hzs⟩ := hc
          · obtain ⟨-, rfl⟩ := List.cons.inj hzs
            exact ⟨⟨[], rfl⟩, ⟨cs, hys.symm⟩⟩
          · cases hzs
        · have hw := utf8EncodeChar_high hhigh o (by simp [hc])
          omega

end MailEnvelope.Text
