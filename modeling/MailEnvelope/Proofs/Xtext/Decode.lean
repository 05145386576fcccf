import MailEnvelope.Value

namespace MailEnvelope.Xtext

variable {a b t : Text} {c u high low : Nat}

abbrev IsEscape (u high low : Nat) : Prop :=
  u = '+'.toNat ∧ CharClass.hexDigit high ∧ CharClass.hexDigit low

/-- No two digits follow that would make an escape of the unit before them. -/
def NoEscape (u : Nat) (t : Text) : Prop :=
  ∀ high low s, t = high :: low :: s → ¬ IsEscape u high low

theorem pieces_escape (h : IsEscape u high low) (t : Text) :
    pieces (u :: high :: low :: t) = .octet (octetOfDigits high low) :: pieces t := by
  rw [pieces, if_pos h]

theorem pieces_plain (h : NoEscape u t) : pieces (u :: t) = .plain u :: pieces t := by
  match t with
  | [] => rfl
  | [_] => rfl
  | high :: low :: s => rw [pieces, if_neg (h high low s rfl)]

theorem pieces_cut (hplus : c ≠ '+'.toNat) (hhex : CharClass.hexDigit c = false) (a b : Text) :
    pieces (a ++ c :: b) = pieces a ++ .plain c :: pieces b := by
  induction a using pieces.induct with
  | case1 u high low t he ih =>
    simp only [List.cons_append]
    rw [pieces_escape he, pieces_escape he, ih, List.cons_append]
  | case2 u high low t he ih =>
    have hplain (s : Text) : NoEscape u (high :: low :: s) := by
      rintro _ _ _ ⟨⟩
      exact he
    simp only [List.cons_append] at ih ⊢
    rw [pieces_plain (hplain t), pieces_plain (hplain _), ih, List.cons_append]
  | case3 u t hshort ih =>
    have hend : NoEscape u t := fun high low s hs _ => hshort high low s hs
    have hcut : NoEscape u (t ++ c :: b) := by
      rintro high low s hs ⟨-, hhigh, hlow⟩
      match t with
      | [] =>
        obtain ⟨rfl, -⟩ := List.cons.inj hs
        rw [hhex] at hhigh
        cases hhigh
      | [_] =>
        obtain ⟨rfl, -⟩ := List.cons.inj (List.cons.inj hs).2
        rw [hhex] at hlow
        cases hlow
      | x :: y :: z => exact hshort x y z rfl
    rw [List.cons_append, pieces_plain hend, pieces_plain hcut, ih, List.cons_append]
  | case4 => exact pieces_plain fun _ _ _ _ he => hplus he.1

theorem assemble_cut (run : List UInt8) (ps qs : List Piece) :
    assemble run (ps ++ .plain c :: qs) = assemble run ps ++ c :: assemble [] qs := by
  induction ps generalizing run with
  | nil => rfl
  | cons p ps ih =>
    cases p with
    | plain u => simp only [List.cons_append, assemble, ih, List.append_assoc]
    | octet o => exact ih _

/-- Nothing is decoded across a unit that is in no escape. -/
theorem decode_cut (hplus : c ≠ '+'.toNat) (hhex : CharClass.hexDigit c = false) (a b : Text) :
    decode (a ++ c :: b) = decode a ++ c :: decode b := by
  rw [decode, pieces_cut hplus hhex, assemble_cut]
  rfl

theorem readOctets_nil : readOctets [] = [] := by decide

theorem decode_of_noEscape (h : ∀ a u s, t = a ++ u :: s → NoEscape u s) : decode t = t := by
  induction t with
  | nil => exact readOctets_nil
  | cons u t ih =>
    have ht := ih fun a v s hs => h (u :: a) v s (by rw [hs, List.cons_append])
    rw [decode, pieces_plain (h [] u t rfl), assemble, readOctets_nil, List.nil_append]
    exact congrArg (u :: ·) ht

theorem decode_of_plus_notMem (h : '+'.toNat ∉ t) : decode t = t := by
  refine decode_of_noEscape fun a u s hs high low r _ he => ?_
  obtain ⟨rfl, -⟩ := he
  exact h (by simp [hs])

/-- Upper case leaves a plus where it is. -/
theorem decode_of_plus_notMem_upper (h : '+'.toNat ∉ t.upper) : decode t = t := by
  refine decode_of_plus_notMem fun hplus => h ?_
  exact List.mem_flatMap.mpr ⟨_, hplus, by decide⟩

abbrev IsHexDigit (u : Nat) : Prop :=
  '0'.toNat ≤ u ∧ u ≤ '9'.toNat ∨ 'A'.toNat ≤ u ∧ u ≤ 'F'.toNat ∨ 'a'.toNat ≤ u ∧ u ≤ 'f'.toNat

theorem hexDigit_iff : CharClass.hexDigit u ↔ IsHexDigit u := by
  simp [CharClass.hexDigit, CharClass.ofRanges, IsHexDigit]

/-- A character may take two units, and none of them may be part of an escape. -/
theorem decode_cut_text {w : Text} (hw : w ≠ [])
    (h : ∀ u ∈ w, u ≠ '+'.toNat ∧ ¬ IsHexDigit u) (a b : Text) :
    decode (a ++ w ++ b) = decode a ++ w ++ decode b := by
  induction w generalizing a with
  | nil => exact absurd rfl hw
  | cons u w ih =>
    obtain ⟨⟨hplus, hdigit⟩, hrest⟩ := List.forall_mem_cons.mp h
    have hhex : CharClass.hexDigit u = false := by rwa [← hexDigit_iff, Bool.not_eq_true] at hdigit
    rw [List.append_assoc, List.cons_append, decode_cut hplus hhex]
    by_cases hne : w = []
    · subst hne
      rw [List.nil_append, List.append_assoc, List.singleton_append]
    · have hnil : decode [] = [] := readOctets_nil
      have htail := ih hne hrest []
      rw [hnil, List.nil_append] at htail
      rw [htail, List.append_assoc, List.cons_append]

/-- A character that is in no escape keeps what is decoded before it apart from what is decoded
after it, and without escapes nothing is decoded. -/
theorem escapes_decoded_apart :
    (∀ a w b : Text, w ≠ [] → (∀ u ∈ w, u ≠ '+'.toNat ∧ ¬ IsHexDigit u) →
      decode (a ++ w ++ b) = decode a ++ w ++ decode b) ∧
    (∀ t : Text, (∀ high low, IsHexDigit high → IsHexDigit low →
      ¬ ['+'.toNat, high, low] <:+: t) → decode t = t) := by
  refine ⟨fun a w b hw h => decode_cut_text hw h a b, ?_⟩
  intro t h
  apply decode_of_noEscape
  rintro a u _ rfl high low s rfl ⟨rfl, hhigh, hlow⟩
  exact h high low (hexDigit_iff.mp hhigh) (hexDigit_iff.mp hlow) ⟨a, s, by simp⟩

/-- Two octets that make one character in UTF-8 make two where another character stands between
them. -/
theorem escapes_decoded_apart_surrogates :
    let w := Text.ofString "😀"
    let t := Text.ofString "1+4 +c+g0"
    (w ≠ [] ∧ (∀ u ∈ w, u ≠ '+'.toNat ∧ ¬ IsHexDigit u) ∧
      decode ("a+c3" ++ w ++ "+A9+4") = "aÃ😀©+4") ∧
    (∀ high low, IsHexDigit high → IsHexDigit low → ¬ ['+'.toNat, high, low] <:+: t) ∧
      decode t = t := by
  intro w t
  obtain ⟨hcut, hkeep⟩ := escapes_decoded_apart
  have hw : w ≠ [] := by decide
  have hu : ∀ u ∈ w, u ≠ '+'.toNat ∧ ¬ IsHexDigit u := by decide
  have ht : ∀ high low, IsHexDigit high → IsHexDigit low → ¬ ['+'.toNat, high, low] <:+: t := by
    intro high low hhigh hlow h
    have hunits : t = [49, 43, 52, 32, 43, 99, 43, 103, 48] := by decide
    rw [hunits] at h
    simp [List.infix_cons_iff, IsHexDigit] at h hhigh hlow
    omega
  exact ⟨⟨hw, hu, (hcut _ w _ hw hu).trans (by decide)⟩, ht, hkeep t ht⟩

end MailEnvelope.Xtext
