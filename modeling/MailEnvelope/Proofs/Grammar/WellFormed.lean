import Mathlib.Tactic.TFAE
import MailEnvelope.Proofs.Grammar.Mailbox
import MailEnvelope.Proofs.IpAddress.Canonical

namespace MailEnvelope
open Grammar

def IpAddress.CanonicalQuad (a : Text) : Prop :=
  ∃ i j k l : Nat, i ≤ 255 ∧ j ≤ 255 ∧ k ≤ 255 ∧ l ≤ 255 ∧ a = dotted [(i : Int), j, k, l]

def LocalPart.WellFormed : LocalPart → Prop
  | .atom value => DotString value
  | .quoted value => ∀ u ∈ value, 32 ≤ u ∧ u ≤ 126

/-- A tagged literal must not be one that is read as an IPv6 address. -/
def FormalLiteral.WellFormed : FormalLiteral → Prop
  | .ip (.v4 a) => IpAddress.CanonicalQuad a
  | .ip (.v6 a) => IpAddress.V6.isValid a ∧ IpAddress.V6.canonical a = .ok a
  | .tagged tag value => Label tag ∧ Run .literalContent value ∧
      ¬ (AnyCase "IPv6" tag ∧ (∀ u ∈ value, CharClass.ipv6Unit u) ∧ IpAddress.V6.isValid value)

def DomainPart.WellFormed : DomainPart → Prop
  | .domain name => Domain name
  | .literal (.formal l) => l.WellFormed
  | .literal (.freeform _) => False

def Mailbox.WellFormed (m : Mailbox) : Prop := m.localPart.WellFormed ∧ m.domainPart.WellFormed

namespace Grammar

variable {t : Text}

theorem Spelling.printable {s e : Text} (h : Spelling s e) : ∀ u ∈ s, 32 ≤ u ∧ u ≤ 126 := by
  induction h with
  | nil => simp
  | plain hu _ ih =>
    obtain ⟨hlow, hhigh, -⟩ := quotedText_iff.mp hu
    exact List.forall_mem_cons.mpr ⟨⟨hlow, hhigh⟩, ih⟩
  | escaped hu _ ih => exact List.forall_mem_cons.mpr ⟨quotedPair_iff.mp hu, ih⟩

theorem spelling_escape {s : Text} (h : ∀ u ∈ s, 32 ≤ u ∧ u ≤ 126) :
    Spelling s (s.flatMap LocalPart.escapeUnit) := by
  induction s with
  | nil => exact .nil
  | cons u s ih =>
    obtain ⟨hu, hs⟩ := List.forall_mem_cons.mp h
    rw [List.flatMap_cons, LocalPart.escapeUnit]
    split
    · exact .escaped (quotedPair_iff.mpr hu) (ih hs)
    · next hne => exact .plain (quotedText_iff.mpr ⟨hu.1, hu.2, not_or.mp hne⟩) (ih hs)

theorem localPart_wellFormed {l : MailEnvelope.LocalPart} (h : LocalPart.Derives t l) :
    l.WellFormed := by
  cases h with
  | atom hd => exact hd
  | quoted hs => exact hs.printable

theorem localPart_render {l : MailEnvelope.LocalPart} (h : l.WellFormed) :
    LocalPart.Derives l.render l := by
  cases l with
  | atom value => exact .atom h
  | quoted value => exact .quoted (spelling_escape h)

theorem octet_numeral {n : Nat} (hn : n ≤ 255) : Octet (Text.numeral 10 n) n :=
  ⟨List.length_pos_iff.mpr Text.numeral_ne_nil,
    (Text.numeral_length_le (by decide) (by decide)).mpr (by omega), Text.numeral_digit,
    Text.numeralValue_numeral (by decide) (by decide) n, hn⟩

theorem Ipv4.wellFormed {v : IpAddress} (h : Ipv4 t v) : (FormalLiteral.ip v).WellFormed := by
  obtain ⟨hi, hj, hk, hl⟩ := h
  exact ⟨_, _, _, _, hi.2.2.2.2, hj.2.2.2.2, hk.2.2.2.2, hl.2.2.2.2, rfl⟩

theorem ipv4_canonicalQuad {a : Text} (h : IpAddress.CanonicalQuad a) : Ipv4 a (.v4 a) := by
  obtain ⟨i, j, k, l, hi, hj, hk, hl, rfl⟩ := h
  have hq := Ipv4.quad (octet_numeral hi) (octet_numeral hj) (octet_numeral hk) (octet_numeral hl)
  have he : Text.numeral 10 i ++ Text.ofString "." ++ Text.numeral 10 j ++ Text.ofString "." ++
      Text.numeral 10 k ++ Text.ofString "." ++ Text.numeral 10 l =
        IpAddress.dotted [(i : Int), j, k, l] := by
    simp [IpAddress.dotted_eq_intercalate, IpAddress.quadTexts, List.intercalate, List.intersperse]
  rwa [he] at hq

theorem Ipv6.wellFormed {v : IpAddress} (h : Ipv6 t v) : (FormalLiteral.ip v).WellFormed := by
  obtain ⟨-, -, hvalid, hc⟩ := h
  obtain ⟨a, ha, -, hav, hac⟩ := IpAddress.V6.canonical_of_isValid hvalid
  obtain rfl : a = _ := Except.ok.inj (ha.symm.trans hc)
  exact ⟨hav, hac⟩

theorem ipv6_canonical {a : Text} (hv : IpAddress.V6.isValid a)
    (hc : IpAddress.V6.canonical a = .ok a) : Ipv6 (Text.ofString "IPv6:" ++ a) (.v6 a) := by
  obtain ⟨b, hb, hunits, -, -⟩ := IpAddress.V6.canonical_of_isValid hv
  obtain rfl : b = a := Except.ok.inj (hb.symm.trans hc)
  exact .canonical (anyCase_refl _) hunits hv hc

theorem anyCase_ipv6_iff : AnyCase "IPv6:" t ↔
    ∃ k, t = k ++ Text.ofString ":" ∧ AnyCase "IPv6" k :=
  AnyCase.append_iff (x := "IPv6") (by decide)

/-- The colon that ends the tag is the first, so an address begins right after it. -/
theorem exists_ipv6_iff {tag value : Text} (ht : Label tag) :
    (∃ v, Ipv6 (tag ++ Text.ofString ":" ++ value) v) ↔
      AnyCase "IPv6" tag ∧ Run .ipv6Unit value ∧ IpAddress.V6.isValid value := by
  have hcolon : Text.ofString ":" = [':'.toNat] := rfl
  constructor
  · rintro ⟨v, hv⟩
    -- The text is cut once after its tag and once where its address is said to begin.
    generalize he : tag ++ Text.ofString ":" ++ value = t at hv
    obtain ⟨hk, hunits, hvalid, hc⟩ := hv
    obtain ⟨k, rfl, htag⟩ := anyCase_ipv6_iff.mp hk
    simp only [hcolon, List.append_assoc, List.singleton_append] at he
    have hkc : ':'.toNat ∉ k := by
      rw [htag.mem_iff (by decide)]
      decide
    obtain ⟨rfl, rfl⟩ := Rule.cut_unique (notMem_of_all ht.run.2 (by decide)) hkc he
    exact ⟨htag, hunits, hvalid⟩
  · rintro ⟨hk, hunits, hvalid⟩
    obtain ⟨a, ha, -⟩ := IpAddress.V6.canonical_of_isValid hvalid
    exact ⟨.v6 a, .canonical (anyCase_ipv6_iff.mpr ⟨tag, rfl, hk⟩) hunits hvalid ha⟩

theorem formal_wellFormed {l : FormalLiteral} (h : FormalLiteral.Derives t l) : l.WellFormed := by
  cases h with
  | ipv4 h => exact h.wellFormed
  | ipv6 h => exact h.wellFormed
  | tagged ht hv hn =>
    refine ⟨ht, hv, ?_⟩
    rintro ⟨hk, hunits, hvalid⟩
    obtain ⟨v, h⟩ := (exists_ipv6_iff ht).mpr ⟨hk, ⟨hv.1, hunits⟩, hvalid⟩
    exact hn v h

theorem formal_render {l : FormalLiteral} (h : l.WellFormed) :
    FormalLiteral.Derives l.render l := by
  match l, h with
  | .ip (.v4 a), h => exact .ipv4 (ipv4_canonicalQuad h)
  | .ip (.v6 a), ⟨hv, hc⟩ => exact .ipv6 (ipv6_canonical hv hc)
  | .tagged tag value, ⟨ht, hv, hn⟩ =>
    apply FormalLiteral.Derives.tagged ht hv
    intro a ha
    obtain ⟨hk, hunits, hvalid⟩ := (exists_ipv6_iff ht).mp ⟨a, ha⟩
    exact hn ⟨hk, hunits.2, hvalid⟩

theorem domainPart_wellFormed {d : DomainPart} (h : DomainPart.Derives t d) : d.WellFormed := by
  cases h with
  | domain hd => exact hd
  | literal hl => exact formal_wellFormed hl

theorem domainPart_render {d : DomainPart} (h : d.WellFormed) : DomainPart.Derives d.render d := by
  match d, h with
  | .domain name, h => exact .domain h
  | .literal (.formal l), h => exact .literal (formal_render h)

theorem mailbox_wellFormed {m : Mailbox} (h : Mailbox.Derives t m) : m.WellFormed := by
  obtain ⟨hl, hd⟩ := h
  exact ⟨localPart_wellFormed hl, domainPart_wellFormed hd⟩

theorem mailbox_render {m : Mailbox} (h : m.WellFormed) : Mailbox.Derives m.render m :=
  .mk (localPart_render h.1) (domainPart_render h.2)

end Grammar

/-- What is read is well formed, and rendering is the way back. -/
theorem Mailbox.wellFormed_tfae (m : Mailbox) : List.TFAE
    [∃ t, Mailbox.parse? t = some m, Mailbox.parse? m.render = some m, m.WellFormed] := by
  tfae_have 2 → 1 := fun h => ⟨m.render, h⟩
  tfae_have 1 → 3 := by
    rintro ⟨t, h⟩
    exact mailbox_wellFormed (parse?_mailbox_iff.mp h)
  tfae_have 3 → 2 := fun h => parse?_mailbox_iff.mpr (mailbox_render h)
  tfae_finish

end MailEnvelope
