import Mathlib.Data.List.TakeWhile
import MailEnvelope.IpAddress
import MailEnvelope.Proofs.Number.Rounding
import MailEnvelope.Proofs.Text.Numeral

namespace MailEnvelope

namespace Number

/-- What may not begin a number if nothing is to be skipped before its digits. -/
def skippedUnit : CharClass := fun u => Text.isBlank u || u == '-'.toNat || u == '+'.toNat

theorem dropSign_trimLeft {u : Nat} {t : Text} (hu : skippedUnit u = false) :
    dropSign (Text.trimLeft (u :: t)) = (false, u :: t) := by
  simp only [skippedUnit, Bool.or_eq_false_iff, beq_eq_false_iff_ne] at hu
  obtain ⟨⟨hblank, hminus⟩, hplus⟩ := hu
  rw [Text.trimLeft, List.dropWhile_cons_of_neg (by simp [hblank]), dropSign, if_neg hminus,
    if_neg hplus]

theorem skippedUnit_hexDigit {u : Nat} (hu : CharClass.hexDigit u) : skippedUnit u = false := by
  simp [CharClass.hexDigit, CharClass.ofRanges] at hu
  simp [skippedUnit, Text.isBlank, CharClass.ofRanges]
  omega

theorem hexDigit_of_digit {u : Nat} (hu : CharClass.digit u) : CharClass.hexDigit u := by
  simp [CharClass.digit, CharClass.hexDigit, CharClass.ofRanges] at hu ⊢
  omega

theorem dropHexMark_hexDigits {t : Text} (hd : ∀ u ∈ t, CharClass.hexDigit u) :
    dropHexMark t = t := by
  match t, hd with
  | [], _ => rfl
  | [_], _ => rfl
  | u :: v :: t, hd =>
    have hv := hd v (by simp)
    simp [CharClass.hexDigit, CharClass.ofRanges] at hv
    rw [dropHexMark, if_neg]
    simp
    omega

theorem leadingHex_of_hexDigits {t : Text} (ht : t ≠ []) (hd : ∀ u ∈ t, CharClass.hexDigit u)
    (hv : Text.numeralValue 16 t < 2 ^ 53) : leadingHex t = .whole (Text.numeralValue 16 t) := by
  obtain ⟨u, s, rfl⟩ := List.exists_cons_of_ne_nil ht
  rw [leadingHex, dropSign_trimLeft (skippedUnit_hexDigit (hd u (by simp)))]
  dsimp only
  rw [dropHexMark_hexDigits hd, List.takeWhile_eq_self_iff.mpr hd,
    (ofDigits_eq_whole_iff hv).mpr ⟨ht, rfl⟩]

theorem leadingDecimal_of_digits {t : Text} (ht : t ≠ []) (hd : ∀ u ∈ t, CharClass.digit u)
    (hv : Text.numeralValue 10 t < 2 ^ 53) :
    leadingDecimal t = .whole (Text.numeralValue 10 t) := by
  obtain ⟨u, s, rfl⟩ := List.exists_cons_of_ne_nil ht
  rw [leadingDecimal, dropSign_trimLeft (skippedUnit_hexDigit (hexDigit_of_digit (hd u (by simp))))]
  dsimp only
  rw [List.takeWhile_eq_self_iff.mpr hd,
    (ofDigits_eq_whole_iff hv).mpr ⟨ht, rfl⟩]

end Number

namespace IpAddress.V6

def ofGroups (gs : List Nat) : List Number := gs.map fun g : Nat => .whole g

theorem ofGroups_inj {gs ks : List Nat} (h : ofGroups gs = ofGroups ks) : gs = ks := by
  refine (List.map_inj_right ?_).mp h
  intro g k hgk
  exact Int.ofNat.inj (Number.whole.inj hgk)

theorem isGroup_iff {t : Text} : isGroup t ↔
    1 ≤ t.length ∧ t.length ≤ 4 ∧ ∀ u ∈ t, CharClass.hexDigit u := by
  simp [isGroup, and_assoc]

theorem isOctet_iff {t : Text} : isOctet t ↔
    1 ≤ t.length ∧ t.length ≤ 3 ∧ (∀ u ∈ t, CharClass.digit u) ∧ Text.numeralValue 10 t ≤ 255 ∧
      (t.length = 1 ∨ t.head? ≠ some '0'.toNat) := by
  simp [isOctet, and_assoc]

theorem numeralValue_lt_of_isGroup {t : Text} (h : isGroup t) : Text.numeralValue 16 t < 65536 := by
  obtain ⟨-, hmax, hd⟩ := isGroup_iff.mp h
  exact (Text.numeralValue_lt (fun _ => Text.digitValue_hexDigit) hd).trans_le
    (Nat.pow_le_pow_right (by decide) hmax)

theorem pieceGroups_of_isGroup {t : Text} (h : isGroup t) :
    pieceGroups t = ofGroups [Text.numeralValue 16 t] := by
  obtain ⟨hmin, -, hd⟩ := isGroup_iff.mp h
  have hlt := numeralValue_lt_of_isGroup h
  have hdot : '.'.toNat ∉ t := fun hm => absurd (hd _ hm) (by decide)
  have ht : t ≠ [] := List.length_pos_iff.mp hmin
  rw [pieceGroups, if_neg hdot, Number.leadingHex_of_hexDigits ht hd (by omega)]
  rfl

theorem joinOctets_whole {a b : Nat} (ha : a ≤ 255) (hb : b ≤ 255) :
    joinOctets (.whole a) (.whole b) = .whole (256 * a + b : Nat) := by
  have hw : ∀ n : Nat, n ≤ 255 → (Number.toWord (.whole n)) = BitVec.ofNat 32 n := by
    intro n _
    simp [Number.toWord]
  have hor : (BitVec.ofNat 32 a <<< 8 ||| BitVec.ofNat 32 b).toNat = 256 * a + b := by
    rw [BitVec.toNat_or, BitVec.toNat_shiftLeft, BitVec.toNat_ofNat, BitVec.toNat_ofNat,
      Nat.mod_eq_of_lt (by omega), Nat.mod_eq_of_lt (by omega), Nat.mod_eq_of_lt (by omega),
      ← Nat.shiftLeft_add_eq_or_of_lt (by omega), Nat.shiftLeft_eq]
    omega
  rw [joinOctets, hw a ha, hw b hb, BitVec.toInt_eq_toNat_of_lt (by rw [hor]; omega), hor]

theorem leadingDecimal_of_isOctet {t : Text} (h : isOctet t) :
    Number.leadingDecimal t = .whole (Text.numeralValue 10 t) ∧ Text.numeralValue 10 t ≤ 255 := by
  obtain ⟨hmin, -, hd, hv, -⟩ := isOctet_iff.mp h
  exact ⟨Number.leadingDecimal_of_digits (List.length_pos_iff.mp hmin) hd (by omega), hv⟩

theorem isDottedQuad_iff {t : Text} : isDottedQuad t ↔ ∃ a b c d,
    t.splitOn '.'.toNat = [a, b, c, d] ∧ isOctet a ∧ isOctet b ∧ isOctet c ∧ isOctet d := by
  simp only [isDottedQuad, Bool.and_eq_true, decide_eq_true_eq, List.all_eq_true]
  generalize t.splitOn '.'.toNat = octets
  constructor
  · rintro ⟨hl, ho⟩
    match octets, hl with
    | [a, b, c, d], _ =>
      simp only [List.mem_cons, List.not_mem_nil, or_false, forall_eq_or_imp, forall_eq] at ho
      exact ⟨a, b, c, d, rfl, ho⟩
  · rintro ⟨a, b, c, d, rfl, ho⟩
    simpa using ho

theorem pieceGroups_of_splitOn {t a b c d : Text} {i j k l : Nat}
    (hs : t.splitOn '.'.toNat = [a, b, c, d])
    (ha : Number.leadingDecimal a = .whole i ∧ i ≤ 255)
    (hb : Number.leadingDecimal b = .whole j ∧ j ≤ 255)
    (hc : Number.leadingDecimal c = .whole k ∧ k ≤ 255)
    (hd : Number.leadingDecimal d = .whole l ∧ l ≤ 255) :
    pieceGroups t = ofGroups [256 * i + j, 256 * k + l] := by
  obtain ⟨ha, ha'⟩ := ha
  obtain ⟨hb, hb'⟩ := hb
  obtain ⟨hc, hc'⟩ := hc
  obtain ⟨hd, hd'⟩ := hd
  have hdot : '.'.toNat ∈ t := by
    by_contra hn
    rw [List.splitOn_eq_singleton hn] at hs
    cases hs
  rw [pieceGroups, if_pos hdot, dottedGroups, hs]
  simp only [List.map_cons, List.map_nil, List.getD_cons_zero, List.getD_cons_succ, ha, hb, hc, hd,
    joinOctets_whole ha' hb', joinOctets_whole hc' hd']
  rfl

theorem pieceGroups_of_octets {t a b c d : Text} (hs : t.splitOn '.'.toNat = [a, b, c, d])
    (ha : isOctet a) (hb : isOctet b) (hc : isOctet c) (hd : isOctet d) :
    pieceGroups t = ofGroups [256 * Text.numeralValue 10 a + Text.numeralValue 10 b,
      256 * Text.numeralValue 10 c + Text.numeralValue 10 d] :=
  pieceGroups_of_splitOn hs (leadingDecimal_of_isOctet ha) (leadingDecimal_of_isOctet hb)
    (leadingDecimal_of_isOctet hc) (leadingDecimal_of_isOctet hd)

theorem pieceGroups_of_isDottedQuad {t : Text} (h : isDottedQuad t) :
    ∃ g < 65536, ∃ k < 65536, pieceGroups t = ofGroups [g, k] := by
  obtain ⟨a, b, c, d, hs, ha, hb, hc, hd⟩ := isDottedQuad_iff.mp h
  have ha' := (leadingDecimal_of_isOctet ha).2
  have hb' := (leadingDecimal_of_isOctet hb).2
  have hc' := (leadingDecimal_of_isOctet hc).2
  have hd' := (leadingDecimal_of_isOctet hd).2
  exact ⟨_, by omega, _, by omega, pieceGroups_of_octets hs ha hb hc hd⟩

theorem groups_eq_flatMap (t : Text) : groups t = (pieces t).flatMap pieceGroups := by
  rw [groups, pieces]
  split <;> rfl

theorem countPieces_of_all_isGroup {ps : List Text} (h : ∀ p ∈ ps, isGroup p) :
    countPieces ps = some ps.length := by
  fun_induction countPieces ps with
  | case1 => rfl
  | case2 p hp => rfl
  | case3 p hp hq => exact absurd (h p (by simp)) hp
  | case4 p hp hq => exact absurd (h p (by simp)) hp
  | case5 p q ps hp ih =>
    rw [ih fun r hr => h r (List.mem_cons_of_mem _ hr)]
    rfl
  | case6 p q ps hp => exact absurd (h p (by simp)) hp

theorem flatMap_pieceGroups {ps : List Text} {n : Nat} (h : countPieces ps = some n) :
    ∃ gs, ps.flatMap pieceGroups = ofGroups gs ∧ gs.length = n ∧ ∀ g ∈ gs, g < 65536 := by
  fun_induction countPieces ps generalizing n with
  | case1 =>
    obtain rfl := Option.some.inj h
    exact ⟨[], rfl, rfl, by simp⟩
  | case2 p hp =>
    obtain rfl := Option.some.inj h
    have hg := numeralValue_lt_of_isGroup hp
    have he : [p].flatMap pieceGroups = ofGroups [Text.numeralValue 16 p] := by
      rw [List.flatMap_singleton, pieceGroups_of_isGroup hp]
    exact ⟨_, he, rfl, by simpa using hg⟩
  | case3 p _ hq =>
    obtain rfl := Option.some.inj h
    obtain ⟨g, hg, k, hk, he⟩ := pieceGroups_of_isDottedQuad hq
    exact ⟨[g, k], by simp [he], rfl, by simp [hg, hk]⟩
  | case4 => cases h
  | case5 p q ps hp ih =>
    obtain ⟨m, hm, rfl⟩ := Option.map_eq_some_iff.mp h
    have hg := numeralValue_lt_of_isGroup hp
    obtain ⟨gs, hgs, rfl, hb⟩ := ih hm
    refine ⟨Text.numeralValue 16 p :: gs, ?_, rfl, ?_⟩
    · rw [List.flatMap_cons, hgs, pieceGroups_of_isGroup hp]
      rfl
    · intro k hk
      rcases List.mem_cons.mp hk with rfl | hk
      · exact hg
      · exact hb k hk
  | case6 => cases h

structure EightGroups (gs : List Nat) : Prop where
  length_eq : gs.length = 8
  lt : ∀ g ∈ gs, g < 65536

theorem expand_of_isValid {t : Text} (h : isValid t) :
    ∃ gs, expand t = .ok (ofGroups gs) ∧ EightGroups gs := by
  rw [isValid] at h
  rw [expand]
  cases hs : splitAtGap t with
  | none =>
    simp only [hs, decide_eq_true_eq] at h
    obtain ⟨gs, hgs, hl, hb⟩ := flatMap_pieceGroups h
    refine ⟨gs, ?_, hl, hb⟩
    simp only [groups_eq_flatMap, hgs]
  | some fb =>
    obtain ⟨front, back⟩ := fb
    simp only [hs, Bool.and_eq_true, List.all_eq_true, Option.any_eq_true, decide_eq_true_eq] at h
    obtain ⟨hf, n, hn, hle⟩ := h
    obtain ⟨fs, hfs, hfl, hfb⟩ := flatMap_pieceGroups (countPieces_of_all_isGroup hf)
    obtain ⟨bs, hbs, rfl, hbb⟩ := flatMap_pieceGroups hn
    refine ⟨fs ++ List.replicate (8 - (fs.length + bs.length)) 0 ++ bs, ?_, ?_, ?_⟩
    · simp only [groups_eq_flatMap, hfs, hbs, ofGroups, List.length_map]
      rw [if_pos (by omega)]
      simp
    · simp
      omega
    · intro g hg
      simp only [List.mem_append, List.mem_replicate] at hg
      rcases hg with (hg | ⟨-, rfl⟩) | hg
      · exact hfb g hg
      · decide
      · exact hbb g hg

end IpAddress.V6
end MailEnvelope
