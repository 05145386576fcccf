import MailEnvelope.Proofs.Grammar.Literal

namespace MailEnvelope.Grammar
open Rule

variable {a b t : Text}

theorem domainPart_of_reads {d : DomainPart} (h : Reads DomainPart.rule a d b) :
    DomainPart.Derives a d := by
  simp only [DomainPart.rule, reads_orElse, reads_map] at h
  rcases h with ⟨v, hv, rfl⟩ | ⟨-, l, hl, rfl⟩
  · obtain ⟨rfl, hd⟩ := domain_of_reads hv
    exact .domain hd
  · obtain ⟨t, rfl, ht⟩ := reads_bracketed.mp hl
    exact .literal ht

/-- A bracket begins no domain. -/
theorem reads_domainPart {d : DomainPart} (h : DomainPart.Derives a d) (hb : Outside domainUnit b) :
    Reads DomainPart.rule a d b := by
  simp only [DomainPart.rule, reads_orElse, reads_map]
  cases h with
  | domain hd => exact .inl ⟨a, reads_domain hd hb, rfl⟩
  | @literal t l hl =>
    refine .inr ⟨?_, l, reads_bracketed.mpr ⟨t, rfl, hl⟩, rfl⟩
    apply fails_map.mpr
    apply fails_iff.mpr
    intro c v e he hr
    obtain ⟨u, s, rfl, hu⟩ := (domain_of_reads hr).2.exists_cons
    obtain ⟨rfl, -⟩ := List.cons.inj he
    exact absurd hu (by decide)

theorem mailbox_of_reads {m : Mailbox} (h : Reads Mailbox.rule a m b) : Mailbox.Derives a m := by
  simp only [Mailbox.rule, reads_map, reads_both, reads_followedBy, reads_text] at h
  obtain ⟨⟨l, d⟩, ⟨_, u, rfl, ⟨t, _, rfl, hl, _, rfl, rfl⟩, hd⟩, rfl⟩ := h
  exact .mk (localPart_of_reads hl) (domainPart_of_reads hd)

theorem reads_mailbox {m : Mailbox} (h : Mailbox.Derives a m) (hb : Outside domainUnit b) :
    Reads Mailbox.rule a m b := by
  obtain @⟨t, u, l, d, hl, hd⟩ := h
  simp only [Mailbox.rule, reads_map, reads_both, reads_followedBy, reads_text]
  refine ⟨(l, d), ⟨_, u, rfl, ⟨t, _, rfl, reads_localPart hl ?_, _, rfl, rfl⟩,
    reads_domainPart hd hb⟩, rfl⟩
  exact outside_cons.mpr (by decide)

theorem parse?_mailbox_iff {m : Mailbox} : Mailbox.parse? t = some m ↔ Mailbox.Derives t m := by
  rw [Mailbox.parse?, parse?_eq_some_iff_reads]
  exact ⟨mailbox_of_reads, fun h => reads_mailbox h (outside_nil _)⟩

theorem localPart_exists_cons {l : MailEnvelope.LocalPart} (h : LocalPart.Derives t l) :
    ∃ u s, t = u :: s ∧ (CharClass.atomUnit u ∨ u = '"'.toNat) := by
  cases h with
  | atom hd =>
    obtain ⟨u, s, rfl, hu⟩ := hd.exists_cons
    exact ⟨u, s, rfl, .inl hu⟩
  | quoted _ => exact ⟨_, _, rfl, .inr rfl⟩

theorem mailbox_exists_cons {m : Mailbox} (h : Mailbox.Derives t m) :
    ∃ u s, t = u :: s ∧ (CharClass.atomUnit u ∨ u = '"'.toNat) := by
  obtain ⟨hl, -⟩ := h
  obtain ⟨u, s, rfl, hu⟩ := localPart_exists_cons hl
  exact ⟨u, _, rfl, hu⟩

end MailEnvelope.Grammar
