import Mathlib.Data.Nat.Digits.Defs
import MailEnvelope.Proofs.IpAddress.Positional

namespace MailEnvelope.IpAddress
open Grammar

inductive Value where
  | v4 (n : BitVec 32)
  | v6 (n : BitVec 128)
  deriving DecidableEq

/-- The number that digits write, the most significant one first. -/
def bigEndian (base : Nat) (ds : List Nat) : Nat := Nat.ofDigits base ds.reverse

/-- The number that the inside of a literal denotes, in any of the ways to write it. -/
inductive Denotes : Text → Value → Prop
  | v4 {t os n} : Quad t os → n.toNat = bigEndian 256 os → Denotes t (.v4 n)
  | v6 {k t gs n} : AnyCase "IPv6:" k → V6.Positional t gs → n.toNat = bigEndian 65536 gs →
      Denotes (k ++ t) (.v6 n)

/-- An address is known by its canonical text, which is made from its number alone. -/
inductive Names : IpAddress → Value → Prop
  | v4 {i j k l : Nat} {n} : (∀ o ∈ [i, j, k, l], o < 256) → n.toNat = bigEndian 256 [i, j, k, l] →
      Names (.v4 (dotted [(i : Int), j, k, l])) (.v4 n)
  | v6 {gs n} : V6.EightGroups gs → n.toNat = bigEndian 65536 gs →
      Names (.v6 (V6.render (V6.ofGroups gs))) (.v6 n)

variable {s t : Text} {a b : IpAddress} {x y : Value} {base : Nat} {ds es gs ks : List Nat}

theorem bigEndian_lt (hb : 1 < base) (hd : ∀ d ∈ ds, d < base) :
    bigEndian base ds < base ^ ds.length := by
  rw [bigEndian, ← List.length_reverse]
  apply Nat.ofDigits_lt_base_pow_length hb
  simpa using hd

theorem bigEndian_inj (hb : 1 < base) (hl : ds.length = es.length) (hd : ∀ d ∈ ds, d < base)
    (he : ∀ e ∈ es, e < base) : bigEndian base ds = bigEndian base es ↔ ds = es := by
  constructor
  · intro h
    apply List.reverse_injective
    exact Nat.ofDigits_inj_of_len_eq hb (by simpa using hl) (by simpa using hd)
      (by simpa using he) h
  · intro h
    rw [h]

theorem dotted_values (i j k l : Nat) :
    ((dotted [(i : Int), j, k, l]).splitOn '.'.toNat).map (Text.numeralValue 10) =
      [i, j, k, l] := by
  have hv := Text.numeralValue_numeral (b := 10) (by decide) (by decide)
  rw [splitOn_dotted, quadTexts, List.map_map]
  simp [hv]

theorem dotted_inj {i j k l i' j' k' l' : Nat} :
    dotted [(i : Int), j, k, l] = dotted [(i' : Int), j', k', l'] ↔
      [i, j, k, l] = [i', j', k', l'] := by
  constructor
  · intro h
    rw [← dotted_values i j k l, h, dotted_values]
  · intro h
    simp only [List.cons.injEq] at h
    simp [h]

/-- Rendering keeps every group, so no two addresses have one text. -/
theorem V6.render_inj (hg : V6.EightGroups gs) (hk : V6.EightGroups ks) :
    V6.render (V6.ofGroups gs) = V6.render (V6.ofGroups ks) ↔ gs = ks := by
  constructor
  · intro h
    have hexpand := (V6.spells_render hg).expand_eq
    rw [h, (V6.spells_render hk).expand_eq] at hexpand
    exact (V6.ofGroups_inj (Except.ok.inj hexpand)).symm
  · intro h
    rw [h]

theorem Names.eq_iff (ha : Names a x) (hb : Names b y) : a = b ↔ x = y := by
  cases ha with
  | v4 hlt hn =>
    cases hb with
    | v4 hlt' hn' =>
      rw [IpAddress.v4.injEq, Value.v4.injEq, ← BitVec.toNat_inj, hn, hn', dotted_inj]
      exact (bigEndian_inj (by decide) (by simp) hlt hlt').symm
    | v6 => simp
  | v6 hg hn =>
    cases hb with
    | v4 => simp
    | v6 hk hn' =>
      have hl := hg.length_eq.trans hk.length_eq.symm
      rw [IpAddress.v6.injEq, Value.v6.injEq, ← BitVec.toNat_inj, hn, hn', V6.render_inj hg hk]
      exact (bigEndian_inj (by decide) hl hg.lt hk.lt).symm

theorem derives_ip_iff : FormalLiteral.Derives t (.ip a) ↔ Ipv4 t a ∨ Ipv6 t a := by
  constructor
  · intro h
    cases h with
    | ipv4 h => exact .inl h
    | ipv6 h => exact .inr h
  · rintro (h | h)
    · exact .ipv4 h
    · exact .ipv6 h

theorem Denotes.names (hd : FormalLiteral.Derives t (.ip a)) (h : Denotes t x) : Names a x := by
  rcases derives_ip_iff.mp hd with h4 | h6
  · cases h with
    | v4 hq hn =>
      obtain ⟨i, j, k, l, hquad, rfl⟩ := ipv4_iff_quad.mp h4
      obtain rfl : _ = [i, j, k, l] := hq.values.symm.trans hquad.values
      exact .v4 (fun o ho => Nat.lt_succ_of_le (hquad.le o ho)) hn
    | v6 hk _ _ =>
      have hcolon := (hk.mem_iff (x := ':'.toNat) (by decide)).mpr (by decide)
      exact absurd (List.mem_append_left _ hcolon) h4.colon_notMem
  · cases h with
    | v4 hq _ => exact absurd h6.colon_mem hq.colon_notMem
    | @v6 k u gs n hk hp hn =>
      generalize he : k ++ u = t at h6
      obtain ⟨hk', -, hvalid, hc⟩ := h6
      obtain ⟨rfl, rfl⟩ := hk.append_inj hk' he
      rw [V6.canonical_of_expand hp.expand_eq] at hc
      obtain rfl := Except.ok.inj hc
      exact .v6 hp.eightGroups hn

theorem exists_denotes (h : FormalLiteral.Derives t (.ip a)) : ∃ x, Denotes t x := by
  rcases derives_ip_iff.mp h with h4 | h6
  · obtain ⟨i, j, k, l, hq, -⟩ := ipv4_iff_quad.mp h4
    have hlt : bigEndian 256 [i, j, k, l] < 2 ^ 32 :=
      (bigEndian_lt (by decide) fun o ho => Nat.lt_succ_of_le (hq.le o ho)).trans_eq (by simp)
    exact ⟨.v4 (BitVec.ofNatLT _ hlt), .v4 hq rfl⟩
  · obtain ⟨hk, -, hvalid, -⟩ := h6
    obtain ⟨gs, hp⟩ := V6.exists_positional hvalid
    have h8 := hp.eightGroups
    have hlt : bigEndian 65536 gs < 2 ^ 128 :=
      (bigEndian_lt (by decide) h8.lt).trans_eq (by simp [h8.length_eq])
    exact ⟨.v6 (BitVec.ofNatLT _ hlt), .v6 hk hp rfl⟩

theorem denotes_unique (h : FormalLiteral.Derives t (.ip a)) :
    ∃ x, Names a x ∧ ∀ z, Denotes t z ↔ z = x := by
  obtain ⟨x, hx⟩ := exists_denotes h
  refine ⟨x, hx.names h, ?_⟩
  intro z
  constructor
  · intro hz
    exact ((hz.names h).eq_iff (hx.names h)).mp rfl
  · intro hz
    rw [hz]
    exact hx

/-- Each literal denotes one number, and addresses are equal if and only if their families and
numbers are. -/
theorem equal_iff_same_number (hs : FormalLiteral.parse? s = some (.ip a))
    (ht : FormalLiteral.parse? t = some (.ip b)) :
    ∃ x y, (∀ z, Denotes s z ↔ z = x) ∧ (∀ z, Denotes t z ↔ z = y) ∧ (a = b ↔ x = y) := by
  obtain ⟨x, hx, hsx⟩ := denotes_unique (parse?_formal_iff.mp hs)
  obtain ⟨y, hy, hty⟩ := denotes_unique (parse?_formal_iff.mp ht)
  exact ⟨x, y, hsx, hty, hx.eq_iff hy⟩

/-- A mapped IPv4 address is written in two ways, and is not the IPv4 address itself. -/
theorem equal_iff_same_number_mapped :
    let whole := Text.ofString "IPv6:0:0:0:0:0:ffff:0102:0304"
    let gap := Text.ofString "ipv6:::FFFF:1.2.3.4"
    let quad := Text.ofString "001.2.3.4"
    let a : IpAddress := .v6 "::ffff:1.2.3.4"
    let b : IpAddress := .v4 "1.2.3.4"
    (FormalLiteral.parse? whole = some (.ip a) ∧ FormalLiteral.parse? gap = some (.ip a) ∧
      FormalLiteral.parse? quad = some (.ip b) ∧ a ≠ b) ∧
    (∃ x y, (∀ z, Denotes whole z ↔ z = x) ∧ (∀ z, Denotes gap z ↔ z = y) ∧ x = y) ∧
    (∃ x y, (∀ z, Denotes gap z ↔ z = x) ∧ (∀ z, Denotes quad z ↔ z = y) ∧ x ≠ y) := by
  intro whole gap quad a b
  have hwhole : FormalLiteral.parse? whole = some (.ip a) := by decide
  have hgap : FormalLiteral.parse? gap = some (.ip a) := by decide
  have hquad : FormalLiteral.parse? quad = some (.ip b) := by decide
  have hne : a ≠ b := by decide
  obtain ⟨x, y, hx, hy, hxy⟩ := equal_iff_same_number hwhole hgap
  obtain ⟨u, v, hu, hv, huv⟩ := equal_iff_same_number hgap hquad
  exact ⟨⟨hwhole, hgap, hquad, hne⟩, ⟨x, y, hx, hy, hxy.mp rfl⟩, u, v, hu, hv, huv.not.mp hne⟩

end MailEnvelope.IpAddress
