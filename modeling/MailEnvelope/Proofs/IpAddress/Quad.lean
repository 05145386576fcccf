import MailEnvelope.Proofs.IpAddress.Groups

namespace MailEnvelope.IpAddress

def quadTexts (a b c d : Nat) : List Text := [a, b, c, d].map (Text.numeral 10)

theorem dotted_eq_intercalate (a b c d : Nat) :
    dotted [(a : Int), b, c, d] = List.intercalate "." (quadTexts a b c d) := rfl

theorem isOctet_numeral {n : Nat} (hn : n ≤ 255) : V6.isOctet (Text.numeral 10 n) := by
  have hpos : 1 ≤ (Text.numeral 10 n).length := List.length_pos_iff.mpr Text.numeral_ne_nil
  have hv := Text.numeralValue_numeral (b := 10) (by decide) (by decide) n
  refine V6.isOctet_iff.mpr ⟨hpos, ?_, Text.numeral_digit, by omega, ?_⟩
  · exact (Text.numeral_length_le (by decide) (by decide)).mpr (by omega)
  · rcases Nat.lt_or_ge n 10 with hlt | hge
    · have hl := (Text.numeral_length_le (b := 10) (k := 1) (by decide) (by decide)).mpr hlt
      exact .inl (by omega)
    · exact .inr (Text.head?_numeral (by decide) (by decide) (by omega))

theorem splitOn_dotted (a b c d : Nat) :
    (dotted [(a : Int), b, c, d]).splitOn '.'.toNat = quadTexts a b c d := by
  rw [dotted_eq_intercalate]
  refine List.splitOn_intercalate _ ?_ (by simp [quadTexts])
  intro t ht
  obtain ⟨n, -, rfl⟩ := List.mem_map.mp ht
  intro hm
  exact absurd (Text.numeral_digit _ hm) (by decide)

theorem isDottedQuad_dotted {a b c d : Nat} (ha : a ≤ 255) (hb : b ≤ 255) (hc : c ≤ 255)
    (hd : d ≤ 255) : V6.isDottedQuad (dotted [(a : Int), b, c, d]) ∧
      V6.pieceGroups (dotted [(a : Int), b, c, d]) =
        V6.ofGroups [256 * a + b, 256 * c + d] := by
  have hs := splitOn_dotted a b c d
  have ho := fun n hn => isOctet_numeral (n := n) hn
  refine ⟨V6.isDottedQuad_iff.mpr ⟨_, _, _, _, hs, ho a ha, ho b hb, ho c hc, ho d hd⟩, ?_⟩
  have hv := fun n => Text.numeralValue_numeral (b := 10) (by decide) (by decide) n
  rw [V6.pieceGroups_of_octets hs (ho a ha) (ho b hb) (ho c hc) (ho d hd), hv, hv, hv, hv]

theorem intercalate_mem {c : CharClass} {sep : Text} {ps : List Text} (hsep : ∀ u ∈ sep, c u)
    (h : ∀ p ∈ ps, ∀ u ∈ p, c u) : ∀ u ∈ List.intercalate sep ps, c u := by
  induction ps with
  | nil => simp
  | cons p ps ih =>
    have hp := h p (by simp)
    have hps := ih fun q hq => h q (List.mem_cons_of_mem _ hq)
    cases ps with
    | nil => simpa using hp
    | cons q ps =>
      intro u hu
      rw [List.intercalate_cons_cons] at hu
      rcases List.mem_append.mp hu with hu | hu
      · rcases List.mem_append.mp hu with hu | hu
        · exact hp u hu
        · exact hsep u hu
      · exact hps u hu

theorem dotted_mem {c : CharClass} (hdot : c '.'.toNat) (hc : ∀ u, CharClass.digit u → c u)
    (i j k l : Nat) : ∀ u ∈ dotted [(i : Int), j, k, l], c u := by
  rw [dotted_eq_intercalate]
  refine intercalate_mem ?_ ?_
  · intro u hu
    rw [List.mem_singleton.mp hu]
    exact hdot
  · intro p hp u hu
    obtain ⟨n, -, rfl⟩ := List.mem_map.mp hp
    exact hc u (Text.numeral_digit u hu)

end MailEnvelope.IpAddress
