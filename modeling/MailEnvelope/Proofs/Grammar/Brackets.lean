import MailEnvelope.Proofs.Grammar.WellFormed

namespace MailEnvelope
open Grammar Rule

/-- A literal with its brackets. What they enclose is free-form only where it is nothing formal. -/
inductive AddressLiteral.Derives : Text → AddressLiteral → Prop
  | formal {t l} : FormalLiteral.Derives t l →
      Derives (Text.ofString "[" ++ t ++ Text.ofString "]") (.formal l)
  | freeform {t} : (∀ u ∈ t, notBracket u) → (∀ l, ¬ FormalLiteral.Derives t l) →
      Derives (Text.ofString "[" ++ t ++ Text.ofString "]") (.freeform t)

variable {s t b : Text}

namespace Grammar

theorem notBracket_of_literalContent {u : Nat} (hu : CharClass.literalContent u) :
    AddressLiteral.notBracket u := by
  simp [CharClass.literalContent, CharClass.ofRanges] at hu
  simp [AddressLiteral.notBracket]
  omega

theorem all_notBracket_iff :
    (∀ u ∈ s, AddressLiteral.notBracket u) ↔ '['.toNat ∉ s ∧ ']'.toNat ∉ s := by
  constructor
  · intro h
    exact ⟨notMem_of_all h (by decide), notMem_of_all h (by decide)⟩
  · intro h u hu
    have hopen : u ≠ '['.toNat := ne_of_mem_of_not_mem hu h.1
    have hclose : u ≠ ']'.toNat := ne_of_mem_of_not_mem hu h.2
    simp [AddressLiteral.notBracket] at hopen hclose ⊢
    exact ⟨hopen, hclose⟩

theorem formal_notBracket {l : FormalLiteral} (h : FormalLiteral.Derives t l) :
    ∀ u ∈ t, AddressLiteral.notBracket u :=
  fun u hu => notBracket_of_literalContent (formal_content h u hu)

theorem reads_freeform {l : AddressLiteral} : Reads AddressLiteral.freeformRule t l b ↔
    ∃ s, t = Text.ofString "[" ++ s ++ Text.ofString "]" ∧
      (∀ u ∈ s, AddressLiteral.notBracket u) ∧ l = .freeform s := by
  simp only [AddressLiteral.freeformRule, reads_map, reads_between_text, reads_span]
  constructor
  · rintro ⟨v, ⟨s, rfl, rfl, -, hs, -⟩, rfl⟩
    exact ⟨_, rfl, hs, rfl⟩
  · rintro ⟨s, rfl, hs, rfl⟩
    have hend : Outside AddressLiteral.notBracket (Text.ofString "]" ++ b) :=
      outside_cons.mpr (by decide)
    exact ⟨s, ⟨s, rfl, rfl, Nat.zero_le _, hs, hend⟩, rfl⟩

theorem fails_formal (hs : ']'.toNat ∉ s) : Fails FormalLiteral.bracketed
    (Text.ofString "[" ++ s ++ Text.ofString "]" ++ b) ↔ ∀ l, ¬ FormalLiteral.Derives s l :=
  fails_enclosed reads_bracketed formal_content hs

theorem parse?_literal_iff {l : AddressLiteral} :
    AddressLiteral.parse? t = some l ↔ AddressLiteral.Derives t l := by
  rw [AddressLiteral.parse?, parse?_eq_some_iff_reads, AddressLiteral.rule, reads_orElse,
    reads_map, fails_map, reads_freeform]
  constructor
  · rintro (⟨f, hf, rfl⟩ | ⟨hfails, s, rfl, hs, rfl⟩)
    · obtain ⟨s, rfl, hs⟩ := reads_bracketed.mp hf
      exact .formal hs
    · exact .freeform hs ((fails_formal (all_notBracket_iff.mp hs).2).mp hfails)
  · intro h
    cases h with
    | formal hf => exact .inl ⟨_, reads_bracketed.mpr ⟨_, rfl, hf⟩, rfl⟩
    | freeform hs hn =>
      exact .inr ⟨(fails_formal (all_notBracket_iff.mp hs).2).mpr hn, _, rfl, hs, rfl⟩

theorem enclosed_inj (h : Text.ofString "[" ++ s ++ Text.ofString "]" =
    Text.ofString "[" ++ t ++ Text.ofString "]") : s = t :=
  List.append_cancel_left (List.append_cancel_right h)

theorem formal_of_enclosed {l : FormalLiteral}
    (h : AddressLiteral.Derives (Text.ofString "[" ++ s ++ Text.ofString "]") (.formal l)) :
    FormalLiteral.Derives s l := by
  generalize he : Text.ofString "[" ++ s ++ Text.ofString "]" = t at h
  cases h with
  | formal hf =>
    rw [enclosed_inj he]
    exact hf

theorem literal_exists_enclosed {l : AddressLiteral} (h : AddressLiteral.Derives t l) :
    ∃ s, t = Text.ofString "[" ++ s ++ Text.ofString "]" ∧
      ∀ u ∈ s, AddressLiteral.notBracket u := by
  cases h with
  | formal hf => exact ⟨_, rfl, formal_notBracket hf⟩
  | freeform hs _ => exact ⟨_, rfl, hs⟩

/-- A free-form literal is rendered as the text that it was read from, a formal one as another text
for the same value. -/
theorem literal_render {l : AddressLiteral} (h : AddressLiteral.Derives t l) :
    AddressLiteral.Derives l.render l := by
  cases h with
  | formal hf => exact .formal (formal_render (formal_wellFormed hf))
  | freeform hs hn => exact .freeform hs hn

end Grammar

namespace AddressLiteral

theorem parse?_enclosed (hs : ∀ u ∈ s, notBracket u) :
    parse? (Text.ofString "[" ++ s ++ Text.ofString "]") =
      match FormalLiteral.parse? s with
      | some l => some (.formal l)
      | none => some (.freeform s) := by
  cases hf : FormalLiteral.parse? s with
  | some l => exact parse?_literal_iff.mpr (.formal (parse?_formal_iff.mp hf))
  | none =>
    apply parse?_literal_iff.mpr
    apply Derives.freeform hs
    intro l hl
    rw [parse?_formal_iff.mpr hl] at hf
    cases hf

theorem parse?_isSome_iff : (parse? t).isSome ↔
    ∃ s, t = Text.ofString "[" ++ s ++ Text.ofString "]" ∧ '['.toNat ∉ s ∧ ']'.toNat ∉ s := by
  rw [Option.isSome_iff_exists]
  constructor
  · rintro ⟨l, hl⟩
    obtain ⟨s, ht, hs⟩ := literal_exists_enclosed (parse?_literal_iff.mp hl)
    exact ⟨s, ht, all_notBracket_iff.mp hs⟩
  · rintro ⟨s, rfl, hs⟩
    rw [parse?_enclosed (all_notBracket_iff.mpr hs)]
    split
    · exact ⟨_, rfl⟩
    · exact ⟨_, rfl⟩

theorem upgrade?_eq_some_iff {v : Text} {l : FormalLiteral} : upgrade? v = some l ↔
    parse? (Text.ofString "[" ++ v ++ Text.ofString "]") = some (.formal l) := by
  rw [upgrade?, parse?_formal_iff, parse?_literal_iff]
  constructor
  · exact .formal
  · exact formal_of_enclosed

theorem upgrade?_freeform {v : Text} (h : parse? t = some (.freeform v)) : upgrade? v = none := by
  cases parse?_literal_iff.mp h with
  | freeform _ hn =>
    apply Option.eq_none_iff_forall_ne_some.mpr
    intro l hl
    exact hn l (parse?_formal_iff.mp hl)

/-- With brackets, without them and a second time, a literal has one reading. -/
theorem readings_agree :
    (∀ t, (parse? t).isSome ↔
      ∃ s, t = Text.ofString "[" ++ s ++ Text.ofString "]" ∧ '['.toNat ∉ s ∧ ']'.toNat ∉ s) ∧
    (∀ s, '['.toNat ∉ s → ']'.toNat ∉ s →
      parse? (Text.ofString "[" ++ s ++ Text.ofString "]") =
        match FormalLiteral.parse? s with
        | some l => some (.formal l)
        | none => some (.freeform s)) ∧
    (∀ t v, parse? t = some (.freeform v) → upgrade? v = none) ∧
    (∀ v l, upgrade? v = some l ↔
      parse? (Text.ofString "[" ++ v ++ Text.ofString "]") = some (.formal l)) ∧
    (∀ t l, parse? t = some l → parse? l.render = some l) := by
  refine ⟨fun _ => parse?_isSome_iff, ?_, fun _ _ => upgrade?_freeform,
    fun _ _ => upgrade?_eq_some_iff, ?_⟩
  · intro s hopen hclose
    exact parse?_enclosed (all_notBracket_iff.mpr ⟨hopen, hclose⟩)
  · intro t l h
    exact parse?_literal_iff.mpr (literal_render (parse?_literal_iff.mp h))

theorem readings_agree_respelled :
    ('['.toNat ∉ Text.ofString "a b" ∧ ']'.toNat ∉ Text.ofString "a b" ∧
      parse? (Text.ofString "[" ++ Text.ofString "a b" ++ Text.ofString "]") =
        some (.freeform "a b")) ∧
    (parse? "[a b]" = some (.freeform "a b") ∧ upgrade? "a b" = none) ∧
    (parse? "[ipv6:0::01]" = some (.formal (.ip (.v6 "::1"))) ∧
      parse? "[IPv6:::1]" = some (.formal (.ip (.v6 "::1")))) := by
  have hopen : '['.toNat ∉ Text.ofString "a b" := by decide
  have hclose : ']'.toNat ∉ Text.ofString "a b" := by decide
  have hfree : parse? "[a b]" = some (.freeform "a b") := by decide
  have hformal : parse? "[ipv6:0::01]" = some (.formal (.ip (.v6 "::1"))) := by decide
  refine ⟨⟨hopen, hclose, ?_⟩, ⟨hfree, readings_agree.2.2.1 _ _ hfree⟩, hformal, ?_⟩
  · exact (readings_agree.2.1 _ hopen hclose).trans (by decide)
  · exact readings_agree.2.2.2.2 _ _ hformal

end AddressLiteral
end MailEnvelope
