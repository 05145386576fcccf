import Mathlib.Algebra.Ring.Nat
import Mathlib.Data.List.Induction
import MailEnvelope.Number

namespace MailEnvelope.Text

variable {b n : Nat} {t : Text}

theorem numeral_eq_if (hb : 1 < b) : numeral b n =
    if n < b then [n.digitChar.toNat] else numeral b (n / b) ++ [(n % b).digitChar.toNat] := by
  rw [numeral, Nat.toDigits_eq_if hb]
  split <;> simp [numeral]

theorem digitValue_digitChar : ∀ d < 16, digitValue (Nat.digitChar d).toNat = d := by decide

theorem numeralValue_concat (u : Nat) :
    numeralValue b (t ++ [u]) = b * numeralValue b t + digitValue u := by
  simp [numeralValue]

theorem numeralValue_numeral (hb : 1 < b) (hb' : b ≤ 16) (n : Nat) :
    numeralValue b (numeral b n) = n := by
  induction n using Nat.strongRecOn with
  | ind n ih =>
    -- All digits but the last are those of the quotient.
    rw [numeral_eq_if hb]
    split
    · have hd := digitValue_digitChar n (by omega)
      simp [numeralValue, hd]
    · have hlt := Nat.mod_lt n (show 0 < b by omega)
      rw [numeralValue_concat, ih (n / b) (Nat.div_lt_self (by omega) hb),
        digitValue_digitChar _ (by omega), Nat.div_add_mod]

theorem numeral_ne_nil : numeral b n ≠ [] := by simp [numeral]

theorem numeral_length_le {k : Nat} (hb : 1 < b) (hk : 0 < k) :
    (numeral b n).length ≤ k ↔ n < b ^ k := by
  rw [numeral, List.length_map, Nat.length_toDigits_le_iff hb hk]

theorem numeral_mem {c : CharClass} (hb : 1 < b) (hc : ∀ d < b, c (Nat.digitChar d).toNat) :
    ∀ u ∈ numeral b n, c u := by
  induction n using Nat.strongRecOn with
  | ind n ih =>
    rw [numeral_eq_if hb]
    split
    · simpa using hc n (by assumption)
    · intro u hu
      rcases List.mem_append.mp hu with hu | hu
      · exact ih (n / b) (Nat.div_lt_self (by omega) hb) u hu
      · rw [List.mem_singleton.mp hu]
        exact hc _ (Nat.mod_lt n (by omega))

theorem numeral_hexDigit : ∀ u ∈ numeral 16 n, CharClass.hexDigit u :=
  numeral_mem (by decide) (by decide)

theorem numeral_digit : ∀ u ∈ numeral 10 n, CharClass.digit u :=
  numeral_mem (by decide) (by decide)

/-- Only the number zero is written with a zero in front. -/
theorem head?_numeral (hb : 1 < b) (hb' : b ≤ 16) (hn : 0 < n) :
    (numeral b n).head? ≠ some '0'.toNat := by
  induction n using Nat.strongRecOn with
  | ind n ih =>
    rw [numeral_eq_if hb]
    split
    · intro hzero
      have hd := digitValue_digitChar n (by omega)
      rw [Option.some.inj hzero] at hd
      exact absurd hd.symm (by simpa [digitValue] using Nat.ne_of_gt hn)
    · have hdiv := Nat.div_pos (a := n) (b := b) (by omega) (by omega)
      have h := ih (n / b) (Nat.div_lt_self hn hb) hdiv
      obtain ⟨u, s, hs⟩ := List.exists_cons_of_ne_nil (numeral_ne_nil (b := b) (n := n / b))
      rw [hs] at h ⊢
      exact h

theorem numeralValue_lt {c : CharClass} (hc : ∀ u, c u → digitValue u < b)
    (ht : ∀ u ∈ t, c u) : numeralValue b t < b ^ t.length := by
  induction t using List.reverseRecOn with
  | nil => simp [numeralValue]
  | append_singleton t u ih =>
    have hu := hc u (ht u (by simp))
    have hr := ih fun w hw => ht w (by simp [hw])
    have hm := Nat.mul_le_mul_left b (Nat.succ_le_of_lt hr)
    rw [numeralValue_concat, List.length_append, List.length_singleton, Nat.pow_succ,
      Nat.mul_comm _ b]
    rw [Nat.mul_succ] at hm
    omega

theorem digitValue_hexDigit {u : Nat} (hu : CharClass.hexDigit u) : digitValue u < 16 := by
  simp [CharClass.hexDigit, CharClass.ofRanges] at hu
  unfold digitValue
  split_ifs <;> omega

/-- Letters that are digits are in lower case. -/
def lowerDigit (base : Nat) : CharClass :=
  fun u => CharClass.ofRanges [(48, 57), (97, 102)] u && digitValue u < base

/-- A number without needless digits: a zero in front stands for zero itself. -/
structure Shortest (base n : Nat) (t : Text) : Prop where
  ne_nil : t ≠ []
  digits : ∀ u ∈ t, lowerDigit base u
  value : numeralValue base t = n
  front : t.head? = some '0'.toNat → t.length = 1

theorem lowerDigit_iff (hb : b ≤ 16) {u : Nat} :
    lowerDigit b u ↔ ∃ d < b, u = (Nat.digitChar d).toNat := by
  have hchar : ∀ d < 16, lowerDigit 16 (Nat.digitChar d).toNat := by decide
  have hdigit : ∀ u < 103, lowerDigit 16 u → u = (Nat.digitChar (digitValue u)).toNat := by decide
  simp only [lowerDigit, Bool.and_eq_true, decide_eq_true_eq] at hchar hdigit ⊢
  constructor
  · rintro ⟨hu, hd⟩
    have hlt : u < 103 := by
      simp [CharClass.ofRanges] at hu
      omega
    exact ⟨digitValue u, hd, hdigit u hlt ⟨hu, by omega⟩⟩
  · rintro ⟨d, hd, rfl⟩
    rw [digitValue_digitChar d (by omega)]
    exact ⟨(hchar d (by omega)).1, hd⟩

theorem shortest_numeral (hb : 1 < b) (hb' : b ≤ 16) (n : Nat) : Shortest b n (numeral b n) where
  ne_nil := numeral_ne_nil
  digits := numeral_mem hb fun d hd => (lowerDigit_iff hb').mpr ⟨d, hd, rfl⟩
  value := numeralValue_numeral hb hb' n
  front h := by
    have hn : n = 0 := by
      by_contra hn
      exact head?_numeral hb hb' (Nat.pos_of_ne_zero hn) h
    rw [hn, numeral_eq_if hb, if_pos (by omega), List.length_singleton]

theorem Shortest.eq_numeral (hb : 1 < b) (hb' : b ≤ 16) (h : Shortest b n t) :
    t = numeral b n := by
  induction t using List.reverseRecOn generalizing n with
  | nil => exact absurd rfl h.ne_nil
  | append_singleton s u ih =>
    obtain ⟨-, hd, rfl, hfront⟩ := h
    obtain ⟨d, hlt, rfl⟩ := (lowerDigit_iff hb').mp (hd u (by simp))
    have hv := digitValue_digitChar d (by omega)
    rw [numeralValue_concat, hv, numeral_eq_if hb]
    by_cases hs : s = []
    · subst hs
      simp [numeralValue, hlt]
    · have hzero : s.head? ≠ some '0'.toNat := by
        intro hz
        have hl := hfront (by rw [List.head?_append, hz]; rfl)
        have hpos := List.length_pos_iff.mpr hs
        simp only [List.length_append, List.length_singleton] at hl
        omega
      have hs' := ih (n := numeralValue b s)
        ⟨hs, fun w hw => hd w (by simp [hw]), rfl, fun hz => absurd hz hzero⟩
      -- The digits before the last one write no zero, as they do not begin with one.
      have hpos : 0 < numeralValue b s := by
        apply Nat.pos_of_ne_zero
        intro hn
        rw [hs', hn, numeral_eq_if hb, if_pos (by omega)] at hzero
        exact hzero rfl
      have hge : b ≤ b * numeralValue b s := Nat.le_mul_of_pos_right b hpos
      rw [if_neg (by omega), Nat.mul_add_div (by omega), Nat.div_eq_of_lt hlt, Nat.add_zero,
        Nat.mul_add_mod, Nat.mod_eq_of_lt hlt, ← hs']

theorem shortest_iff (hb : 1 < b) (hb' : b ≤ 16) : Shortest b n t ↔ t = numeral b n := by
  constructor
  · exact Shortest.eq_numeral hb hb'
  · rintro rfl
    exact shortest_numeral hb hb' n

/-- Decimal digits, as many as one likes, and the number that they write. -/
inductive Decimal : Text → Nat → Prop
  | digit {d} : d < 10 → Decimal ['0'.toNat + d] d
  | append {t n d} : Decimal t n → d < 10 → Decimal (t ++ ['0'.toNat + d]) (10 * n + d)

theorem digit_iff {u : Nat} : CharClass.digit u ↔ ∃ d < 10, u = '0'.toNat + d := by
  simp only [CharClass.digit, CharClass.ofRanges, List.any_cons, List.any_nil, Bool.or_false,
    Bool.and_eq_true, decide_eq_true_eq, Char.reduceToNat]
  constructor
  · intro h
    exact ⟨u - 48, by omega, by omega⟩
  · rintro ⟨d, hd, rfl⟩
    omega

theorem digitValue_digit {d : Nat} (hd : d < 10) : digitValue ('0'.toNat + d) = d := by
  simp only [digitValue, Char.reduceToNat]
  rw [if_pos (by omega)]
  omega

theorem numeralValue_singleton (u : Nat) : numeralValue b [u] = digitValue u := by
  simp [numeralValue]

theorem decimal_iff :
    Decimal t n ↔ t ≠ [] ∧ (∀ u ∈ t, CharClass.digit u) ∧ numeralValue 10 t = n := by
  constructor
  · intro h
    induction h with
    | @digit d hd =>
      refine ⟨by simp, ?_, by rw [numeralValue_singleton, digitValue_digit hd]⟩
      intro u hu
      exact digit_iff.mpr ⟨d, hd, List.mem_singleton.mp hu⟩
    | @append t n d _ hd ih =>
      obtain ⟨-, hall, rfl⟩ := ih
      refine ⟨by simp, ?_, by rw [numeralValue_concat, digitValue_digit hd]⟩
      intro u hu
      rcases List.mem_append.mp hu with hu | hu
      · exact hall u hu
      · exact digit_iff.mpr ⟨d, hd, List.mem_singleton.mp hu⟩
  · rintro ⟨hne, hall, rfl⟩
    induction t using List.reverseRecOn with
    | nil => exact absurd rfl hne
    | append_singleton t u ih =>
      obtain ⟨d, hd, rfl⟩ := digit_iff.mp (hall u (by simp))
      rw [numeralValue_concat, digitValue_digit hd]
      by_cases ht : t = []
      · subst ht
        simpa [numeralValue] using Decimal.digit hd
      · exact .append (ih ht fun w hw => hall w (by simp [hw])) hd

end MailEnvelope.Text
