import MailEnvelope.Proofs.Grammar.Brackets
import MailEnvelope.Proofs.IpAddress.CanonicalText

namespace MailEnvelope
open Grammar Rule IpAddress

namespace FormalLiteral

def HasAddress (s b : Text) : Prop :=
  ∃ k, s = k ++ Text.ofString ":" ++ b ∧ AnyCase "IPv6" k ∧ (∀ u ∈ b, CharClass.ipv6Unit u) ∧
    V6.isValid b

/-- What the inside of a literal is. A tag is one only where no address stands. -/
inductive Classified : Text → Option FormalLiteral → Prop
  | quad {s a ns} : Quad s ns → V6.Numbers "." 10 a ns → Classified s (some (.ip (.v4 a)))
  | ipv6 {s b a} : HasAddress s b → V6.canonical b = .ok a → Classified s (some (.ip (.v6 a)))
  | tagged {s tag value} : Tagged s (.tagged tag value) → (∀ b, ¬ HasAddress s b) →
      Classified s (some (.tagged tag value))
  | none {s} : (∀ ns, ¬ Quad s ns) → (∀ b, ¬ HasAddress s b) → (∀ l, ¬ Tagged s l) →
      Classified s none

variable {s : Text} {l : FormalLiteral}

theorem ipv4_iff_numbers {v : IpAddress} :
    Ipv4 s v ↔ ∃ ns a, Quad s ns ∧ V6.Numbers "." 10 a ns ∧ v = .v4 a := by
  rw [ipv4_iff_quad]
  constructor
  · intro ⟨i, j, k, l, hq, hv⟩
    exact ⟨_, _, hq, V6.quadText_iff.mpr rfl, hv⟩
  · intro ⟨ns, a, hq, ha, hv⟩
    obtain ⟨i, j, k, l, rfl⟩ := hq.exists_four
    rw [V6.quadText_iff] at ha
    exact ⟨i, j, k, l, hq, ha ▸ hv⟩

theorem ipv6_iff_hasAddress {v : IpAddress} :
    Ipv6 s v ↔ ∃ b a, HasAddress s b ∧ V6.canonical b = .ok a ∧ v = .v6 a := by
  constructor
  · intro h
    obtain ⟨hk, hb, hvalid, ha⟩ := h
    obtain ⟨k, rfl, hword⟩ := anyCase_ipv6_iff.mp hk
    exact ⟨_, _, ⟨k, rfl, hword, hb.2, hvalid⟩, ha, rfl⟩
  · intro ⟨b, a, ⟨k, hs, hword, hb, hvalid⟩, ha, hv⟩
    have hne : b ≠ [] := by
      intro he
      rw [he] at hvalid
      cases hvalid
    rw [hs, hv]
    exact .canonical (anyCase_ipv6_iff.mpr ⟨k, rfl, hword⟩) ⟨hne, hb⟩ hvalid ha

/-- No address is without a canonical text, so one that stands in a literal is always read. -/
theorem no_ipv6_iff : (∀ v, ¬ Ipv6 s v) ↔ ∀ b, ¬ HasAddress s b := by
  constructor
  · intro h b hb
    have ⟨_, _, _, _, hvalid⟩ := hb
    obtain ⟨a, ha, -⟩ := V6.canonical_of_isValid hvalid
    exact h _ (ipv6_iff_hasAddress.mpr ⟨b, a, hb, ha, rfl⟩)
  · intro h v hv
    obtain ⟨b, -, hb, -⟩ := ipv6_iff_hasAddress.mp hv
    exact h b hb

theorem classified_some_iff : Classified s (some l) ↔ Derives s l := by
  rw [formal_derives_iff, no_ipv6_iff]
  constructor
  · intro h
    cases h with
    | quad hq ha => exact .inl ⟨_, ipv4_iff_numbers.mpr ⟨_, _, hq, ha, rfl⟩, rfl⟩
    | ipv6 hb ha => exact .inr (.inl ⟨_, ipv6_iff_hasAddress.mpr ⟨_, _, hb, ha, rfl⟩, rfl⟩)
    | tagged ht hn => exact .inr (.inr ⟨hn, ht⟩)
  · rintro (⟨v, hv, rfl⟩ | ⟨v, hv, rfl⟩ | ⟨hn, ht⟩)
    · obtain ⟨ns, a, hq, ha, rfl⟩ := ipv4_iff_numbers.mp hv
      exact .quad hq ha
    · obtain ⟨b, a, hb, ha, rfl⟩ := ipv6_iff_hasAddress.mp hv
      exact .ipv6 hb ha
    · cases ht with
      | mk htag hvalue => exact .tagged (.mk htag hvalue) hn

theorem classified_tagged_iff {tag value : Text} : Classified s (some (.tagged tag value)) ↔
    Tagged s (.tagged tag value) ∧ ∀ b, ¬ HasAddress s b := by
  constructor
  · intro h
    cases h with
    | tagged ht hn => exact ⟨ht, hn⟩
  · intro ⟨ht, hn⟩
    exact .tagged ht hn

theorem classified_none_iff : Classified s none ↔ ∀ l, ¬ Derives s l := by
  constructor
  · intro h l hl
    cases h with
    | none hq hb ht =>
      obtain ⟨v, hv, -⟩ | ⟨v, hv, -⟩ | ⟨-, hl⟩ := formal_derives_iff.mp hl
      · obtain ⟨ns, a, hns, -⟩ := ipv4_iff_numbers.mp hv
        exact hq ns hns
      · exact no_ipv6_iff.mpr hb v hv
      · exact ht l hl
  · intro h
    have hb : ∀ b, ¬ HasAddress s b := no_ipv6_iff.mp fun v hv => h _ (.ipv6 hv)
    refine .none ?_ hb ?_
    · intro ns hq
      obtain ⟨i, j, k, l, rfl⟩ := hq.exists_four
      exact h _ (.ipv4 (ipv4_iff_quad.mpr ⟨i, j, k, l, hq, rfl⟩))
    · intro l hl
      exact h l (formal_derives_iff.mpr (.inr (.inr ⟨no_ipv6_iff.mpr hb, hl⟩)))

theorem classified_iff {v : Option FormalLiteral} : Classified s v ↔ parse? s = v := by
  cases v with
  | none =>
    rw [classified_none_iff, Option.eq_none_iff_forall_ne_some]
    exact forall_congr' fun l => not_congr parse?_formal_iff.symm
  | some l => rw [classified_some_iff, parse?_formal_iff]

/-- The first closing bracket ends what is read, wherever the opening one stands. -/
theorem run_bracketed (hs : ']'.toNat ∉ s) (p rest : Text) :
    bracketed.run (p ++ (Text.ofString "[" ++ s ++ Text.ofString "]" ++ rest)) p.length =
      (parse? s).map fun l => ⟨l, p.length + s.length + 2⟩ := by
  cases h : parse? s with
  | none =>
    rw [← classified_iff, classified_none_iff] at h
    have hfails : Fails bracketed (Text.ofString "[" ++ s ++ Text.ofString "]" ++ rest) :=
      (fails_formal hs).mpr h
    rw [run_at, hfails]
    rfl
  | some l =>
    have hreads : Reads bracketed (Text.ofString "[" ++ s ++ Text.ofString "]") l rest :=
      reads_bracketed.mpr ⟨s, rfl, parse?_formal_iff.mp h⟩
    have hopen : Text.ofString "[" = ['['.toNat] := rfl
    have hclose : Text.ofString "]" = [']'.toNat] := rfl
    have hlength : (Text.ofString "[" ++ s ++ Text.ofString "]").length = s.length + 2 := by
      simp [hopen, hclose]
    rw [hreads.run_after, Option.map_some, hlength, Nat.add_assoc]

theorem tagged_first_colon {tag value : Text} (h : Tagged s (.tagged tag value)) :
    s = tag ++ Text.ofString ":" ++ value ∧ ':'.toNat ∉ tag := by
  cases h with
  | mk ht _ => exact ⟨rfl, notMem_of_all ht.run.2 (by decide)⟩

/-- Every text has one form or none, and it is read as that. No form stops inside what another one
covers, so between brackets a text is read as it is alone. -/
theorem one_form_only :
    (∀ s v, parse? s = v ↔ Classified s v) ∧
    (∀ s, ∃! v, Classified s v) ∧
    (∀ s tag value, Tagged s (.tagged tag value) →
      s = tag ++ Text.ofString ":" ++ value ∧ ':'.toNat ∉ tag) ∧
    (∀ p s rest v, '['.toNat ∉ s → ']'.toNat ∉ s → Classified s v →
      bracketed.run (p ++ (Text.ofString "[" ++ s ++ Text.ofString "]" ++ rest)) p.length =
        v.map fun l => ⟨l, p.length + s.length + 2⟩) := by
  refine ⟨fun s v => classified_iff.symm, ?_, fun _ _ _ => tagged_first_colon, ?_⟩
  · intro s
    refine ⟨parse? s, classified_iff.mpr rfl, ?_⟩
    intro v hv
    exact (classified_iff.mp hv).symm
  · intro p s rest v _ hs hv
    rw [run_bracketed hs, classified_iff.mp hv]

/-- An address with a zone is no address, so its word is read as a tag. -/
theorem one_form_only_zone :
    let s := Text.ofString "IPv6:1::2%eth0"
    let l := FormalLiteral.tagged "IPv6" "1::2%eth0"
    (parse? s = some l ∧ Tagged s l ∧ ∀ b, ¬ HasAddress s b) ∧
    (':'.toNat ∉ Text.ofString "IPv6" ∧ '['.toNat ∉ s ∧ ']'.toNat ∉ s) ∧
    bracketed.run "a@[IPv6:1::2%eth0]]>" 2 = some ⟨l, 18⟩ := by
  intro s l
  obtain ⟨hread, -, hcolon, hrun⟩ := one_form_only
  have hl : parse? s = some l := by decide
  have hclass : Classified s (some l) := (hread s _).mp hl
  have hopen : '['.toNat ∉ s := by decide
  have hclose : ']'.toNat ∉ s := by decide
  obtain ⟨ht, hn⟩ := classified_tagged_iff.mp hclass
  exact ⟨⟨hl, ht, hn⟩, ⟨(hcolon _ _ _ ht).2, hopen, hclose⟩,
    hrun "a@" s "]>" _ hopen hclose hclass⟩

end FormalLiteral
end MailEnvelope
