import MailEnvelope.Proofs.Grammar.Names

namespace MailEnvelope.Grammar
open Rule

variable {a b e s : Text}

theorem quotedText_iff {u : Nat} : CharClass.quotedText u ↔
    32 ≤ u ∧ u ≤ 126 ∧ u ≠ '"'.toNat ∧ u ≠ '\\'.toNat := by
  simp [CharClass.quotedText, CharClass.ofRanges]
  omega

theorem quotedPair_iff {u : Nat} : CharClass.quotedPair u ↔ 32 ≤ u ∧ u ≤ 126 := by
  simp [CharClass.quotedPair, CharClass.ofRanges]

theorem quotedUnit_of_reads {v : Text} (h : Reads LocalPart.quotedUnit a v b) :
    ∃ u, v = [u] ∧
      (a = [u] ∧ CharClass.quotedText u ∨ a = ['\\'.toNat, u] ∧ CharClass.quotedPair u) := by
  rw [LocalPart.quotedUnit, reads_orElse, reads_unit, reads_before] at h
  rcases h with ⟨u, rfl, rfl, hu⟩ | ⟨-, _, _, rfl, ⟨_, ht⟩, hp⟩
  · exact ⟨u, rfl, .inl ⟨rfl, hu⟩⟩
  · obtain ⟨rfl, -⟩ := reads_text.mp ht
    obtain ⟨u, rfl, rfl, hu⟩ := reads_unit.mp hp
    exact ⟨u, rfl, .inr ⟨rfl, hu⟩⟩

theorem reads_quotedUnit_plain {u : Nat} (hu : CharClass.quotedText u) :
    Reads LocalPart.quotedUnit [u] [u] b := by
  rw [LocalPart.quotedUnit, reads_orElse, reads_unit]
  exact .inl ⟨u, rfl, rfl, hu⟩

theorem reads_quotedUnit_escaped {u : Nat} (hu : CharClass.quotedPair u) :
    Reads LocalPart.quotedUnit ['\\'.toNat, u] [u] b := by
  rw [LocalPart.quotedUnit, reads_orElse, reads_before]
  refine .inr ⟨rfl, ['\\'.toNat], [u], rfl, ⟨_, reads_text.mpr ⟨rfl, rfl⟩⟩, ?_⟩
  exact reads_unit.mpr ⟨u, rfl, rfl, hu⟩

theorem spelling_of_readsEach {vs : List Text} (h : ReadsEach LocalPart.quotedUnit b e vs) :
    Spelling vs.flatten e := by
  induction h with
  | nil => exact .nil
  | cons hx _ _ ih =>
    obtain ⟨u, rfl, ⟨rfl, hu⟩ | ⟨rfl, hu⟩⟩ := quotedUnit_of_reads hx
    · exact .plain hu ih
    · exact .escaped hu ih

/-- Neither form of a unit begins with a quote, so the spelling is read up to the closing one. -/
theorem readsEach_of_spelling (h : Spelling s e) :
    ReadsEach LocalPart.quotedUnit ('"'.toNat :: b) e (s.map fun u => [u]) := by
  induction h with
  | nil =>
    -- The closing quote needs a backslash before it to be read as a unit.
    refine .nil fun a v c he hr => ?_
    obtain ⟨u, -, ⟨rfl, hu⟩ | ⟨rfl, -⟩⟩ := quotedUnit_of_reads hr
    · obtain ⟨rfl, -⟩ := List.cons.inj he
      exact absurd hu (by decide)
    · exact absurd (List.cons.inj he).1 (by decide)
  | plain hu _ ih => exact .cons (a := [_]) (reads_quotedUnit_plain hu) (by simp) ih
  | escaped hu _ ih => exact .cons (a := [_, _]) (reads_quotedUnit_escaped hu) (by simp) ih

theorem reads_quotedString {v : Text} : Reads LocalPart.quotedString a v b ↔
    ∃ e, a = Text.ofString "\"" ++ e ++ Text.ofString "\"" ∧ Spelling v e := by
  simp only [LocalPart.quotedString, reads_map, reads_between_text, reads_many]
  constructor
  · rintro ⟨vs, ⟨e, rfl, hr⟩, rfl⟩
    exact ⟨e, rfl, spelling_of_readsEach hr⟩
  · rintro ⟨e, rfl, h⟩
    refine ⟨v.map fun u => [u], ⟨e, rfl, readsEach_of_spelling h⟩, ?_⟩
    rw [← List.flatMap_def, List.flatMap_singleton']

theorem localPart_of_reads {l : MailEnvelope.LocalPart} (h : Reads LocalPart.rule a l b) :
    LocalPart.Derives a l := by
  simp only [LocalPart.rule, reads_orElse, reads_map] at h
  rcases h with ⟨v, hv, rfl⟩ | ⟨-, v, hv, rfl⟩
  · obtain ⟨rfl, hd⟩ := dotString_of_reads hv
    exact .atom hd
  · obtain ⟨e, rfl, hs⟩ := reads_quotedString.mp hv
    exact .quoted hs

/-- A quote begins no atom, so the first form that matches is the only one. -/
theorem reads_localPart {l : MailEnvelope.LocalPart} (h : LocalPart.Derives a l)
    (hb : Outside dottedUnit b) : Reads LocalPart.rule a l b := by
  simp only [LocalPart.rule, reads_orElse, reads_map]
  cases h with
  | atom hd => exact .inl ⟨a, reads_dotString hd hb, rfl⟩
  | @quoted s e hs =>
    refine .inr ⟨?_, s, reads_quotedString.mpr ⟨e, rfl, hs⟩, rfl⟩
    apply fails_map.mpr
    apply fails_iff.mpr
    intro c v d he hr
    obtain ⟨u, t, rfl, hu⟩ := (dotString_of_reads hr).2.exists_cons
    obtain ⟨rfl, -⟩ := List.cons.inj he
    exact absurd hu (by decide)

end MailEnvelope.Grammar
