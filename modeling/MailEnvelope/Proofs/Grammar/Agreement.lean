import MailEnvelope.Proofs.Grammar.Command

namespace MailEnvelope
open Grammar

variable {a b c d x : Text} {ps : List Param}

namespace Grammar

theorem forwardPath_exists_cons {p : ForwardPath} (h : ForwardPath.Derives a p) :
    ∃ u s, a = Text.ofString "<" ++ u :: s ∧ u ≠ '>'.toNat := by
  cases h with
  | postmaster hk =>
    obtain ⟨k, rfl, hword⟩ := postmaster_iff.mp hk
    have hletters := hword.all_letters (by decide)
    cases k with
    | nil => cases hword
    | cons u k =>
      refine ⟨u, k ++ Text.ofString ">", by simp, ?_⟩
      exact ne_of_class (hletters u List.mem_cons_self) (by decide)
  | mailbox hm => exact path_exists_cons hm

theorem forwardPath_not_null {p : ForwardPath} (h : ForwardPath.Derives a p) :
    a ++ c ≠ Text.ofString "<>" ++ d := by
  obtain ⟨u, s, rfl, hu⟩ := forwardPath_exists_cons h
  intro he
  obtain ⟨-, he⟩ := List.cons.inj he
  exact hu (List.cons.inj he).1

theorem reversePath_not_postmaster {p : ReversePath} (h : ReversePath.Derives a p)
    (hb : AnyCase "<postmaster>" b) : a ++ c ≠ b ++ d := by
  cases h with
  | null => exact (forwardPath_not_null (.postmaster hb)).symm
  | mailbox hm => exact path_not_postmaster hm hb

theorem exists_word_iff {P : Type} {word : Text} {D : Text → P → Prop} {p : P} :
    (∃ k u s, word ++ x = k ++ u ++ s ∧ AnyCase word k ∧ D u p ∧ Param.DeriveSuffix s ps) ↔
      ∃ u s, x = u ++ s ∧ D u p ∧ Param.DeriveSuffix s ps := by
  constructor
  · rintro ⟨k, u, s, he, hk, hp, hs⟩
    rw [List.append_assoc] at he
    exact ⟨u, s, ((anyCase_refl word).append_inj hk he).2, hp, hs⟩
  · rintro ⟨u, s, rfl, hp, hs⟩
    exact ⟨word, u, s, (List.append_assoc ..).symm, anyCase_refl word, hp, hs⟩

end Grammar

theorem MailCommand.parse?_word_iff {p : ReversePath} :
    parse? (Text.ofString "MAIL FROM:" ++ x) = some ⟨p, ps⟩ ↔
      ∃ u s, x = u ++ s ∧ ReversePath.Derives u p ∧ Param.DeriveSuffix s ps := by
  rw [parse?_mail_iff, mail_derives_iff, exists_word_iff]

theorem RcptCommand.parse?_word_iff {p : ForwardPath} :
    parse? (Text.ofString "RCPT TO:" ++ x) = some ⟨p, ps⟩ ↔
      ∃ u s, x = u ++ s ∧ ForwardPath.Derives u p ∧ Param.DeriveSuffix s ps := by
  rw [parse?_rcpt_iff, rcpt_derives_iff, exists_word_iff]

/-- The two special paths are not read by the other command, and they hide no mailbox from their
own. -/
theorem commands_read_alike :
    (∀ x m ps, MailCommand.parse? (Text.ofString "MAIL FROM:" ++ x) = some ⟨.mailbox m, ps⟩ ↔
      RcptCommand.parse? (Text.ofString "RCPT TO:" ++ x) = some ⟨.mailbox m, ps⟩) ∧
    (∀ x ps, MailCommand.parse? (Text.ofString "MAIL FROM:" ++ x) = some ⟨.null, ps⟩ →
      RcptCommand.parse? (Text.ofString "RCPT TO:" ++ x) = none) ∧
    (∀ x ps, RcptCommand.parse? (Text.ofString "RCPT TO:" ++ x) = some ⟨.postmaster, ps⟩ →
      MailCommand.parse? (Text.ofString "MAIL FROM:" ++ x) = none) := by
  refine ⟨?_, ?_, ?_⟩
  · intro x m ps
    rw [MailCommand.parse?_word_iff, RcptCommand.parse?_word_iff]
    have hpath : ∀ u, ReversePath.Derives u (.mailbox m) ↔ ForwardPath.Derives u (.mailbox m) := by
      intro u
      constructor
      · intro h
        cases h with
        | mailbox hm => exact .mailbox hm
      · intro h
        cases h with
        | mailbox hm => exact .mailbox hm
    simp only [hpath]
  · intro x ps h
    obtain ⟨u, s, rfl, hnull, -⟩ := MailCommand.parse?_word_iff.mp h
    cases hnull
    apply Option.eq_none_iff_forall_ne_some.mpr
    intro ⟨p, qs⟩ hr
    obtain ⟨v, w, he, hv, -⟩ := RcptCommand.parse?_word_iff.mp hr
    exact forwardPath_not_null hv he.symm
  · intro x ps h
    obtain ⟨u, s, rfl, hpost, -⟩ := RcptCommand.parse?_word_iff.mp h
    cases hpost with
    | postmaster hk =>
      apply Option.eq_none_iff_forall_ne_some.mpr
      intro ⟨p, qs⟩ hr
      obtain ⟨v, w, he, hv, -⟩ := MailCommand.parse?_word_iff.mp hr
      exact reversePath_not_postmaster hv hk he.symm

theorem commands_read_alike_special :
    let x := Text.ofString "<@r,@s:\"a b\"@[IPv6:::1]> X=1\tY"
    let m : Mailbox := ⟨.quoted "a b", .literal (.formal (.ip (.v6 "::1")))⟩
    let ps : List Param := [⟨"X", some "1"⟩, ⟨"Y", none⟩]
    let bounce := Text.ofString "<> SIZE=1"
    let postmaster := Text.ofString "<Postmaster>"
    (MailCommand.parse? (Text.ofString "MAIL FROM:" ++ x) = some ⟨.mailbox m, ps⟩ ∧
      RcptCommand.parse? (Text.ofString "RCPT TO:" ++ x) = some ⟨.mailbox m, ps⟩) ∧
    (MailCommand.parse? (Text.ofString "MAIL FROM:" ++ bounce) =
        some ⟨.null, [⟨"SIZE", some "1"⟩]⟩ ∧
      RcptCommand.parse? (Text.ofString "RCPT TO:" ++ bounce) = none) ∧
    (RcptCommand.parse? (Text.ofString "RCPT TO:" ++ postmaster) = some ⟨.postmaster, []⟩ ∧
      MailCommand.parse? (Text.ofString "MAIL FROM:" ++ postmaster) = none) := by
  intro x m ps bounce postmaster
  obtain ⟨hmailbox, hnull, hpostmaster⟩ := commands_read_alike
  have hx : MailCommand.parse? (Text.ofString "MAIL FROM:" ++ x) = some ⟨.mailbox m, ps⟩ := by
    decide
  have hm : MailCommand.parse? (Text.ofString "MAIL FROM:" ++ bounce) =
      some ⟨.null, [⟨"SIZE", some "1"⟩]⟩ := by decide
  have hr : RcptCommand.parse? (Text.ofString "RCPT TO:" ++ postmaster) =
      some ⟨.postmaster, []⟩ := by decide
  exact ⟨⟨hx, (hmailbox x m ps).mp hx⟩, ⟨hm, hnull _ _ hm⟩, hr, hpostmaster _ _ hr⟩

end MailEnvelope
