import MailEnvelope.Proofs.Grammar.Command
import MailEnvelope.Proofs.Grammar.WellFormed

namespace MailEnvelope
open Grammar

def Param.renderSuffix (ps : List Param) : Text :=
  if ps = [] then [] else Text.ofString " " ++ Param.renderList ps

def MailCommand.render (c : MailCommand) : Text :=
  Text.ofString "MAIL FROM:" ++ c.reversePath.render ++ Param.renderSuffix c.params

def RcptCommand.render (c : RcptCommand) : Text :=
  Text.ofString "RCPT TO:" ++ c.forwardPath.render ++ Param.renderSuffix c.params

/-- What is sent on for a line that was understood. -/
def MailCommand.echo? (line : Text) : Option Text := (MailCommand.parse? line).map render

def RcptCommand.echo? (line : Text) : Option Text := (RcptCommand.parse? line).map render

namespace Grammar

variable {t : Text}

theorem path_render {m : Mailbox} (h : m.WellFormed) : Path.Derives (Path.render m) m :=
  .direct (mailbox_render h)

/-- A source route is dropped here, so the two texts need not have the same length. -/
theorem path_wellFormed {m : Mailbox} (h : Path.Derives t m) : m.WellFormed := by
  cases h with
  | direct hm => exact mailbox_wellFormed hm
  | routed _ hm => exact mailbox_wellFormed hm

theorem reversePath_render {p : ReversePath} (h : ReversePath.Derives t p) :
    ReversePath.Derives p.render p := by
  cases h with
  | null => exact .null
  | mailbox hm => exact .mailbox (path_render (path_wellFormed hm))

theorem forwardPath_render {p : ForwardPath} (h : ForwardPath.Derives t p) :
    ForwardPath.Derives p.render p := by
  cases h with
  | postmaster => exact .postmaster (anyCase_refl _)
  | mailbox hm => exact .mailbox (path_render (path_wellFormed hm))

theorem param_eq_render {p : Param} (h : Param.Derives t p) : t = p.render := by
  cases h with
  | flag => rfl
  | value => rfl

theorem run_space : Run .blank " " := ⟨by decide, by decide⟩

/-- Any blanks between two parameters become one space. -/
theorem paramList_render {ps : List Param} (h : Param.DeriveList t ps) :
    Param.DeriveList (Param.renderList ps) ps := by
  induction h with
  | @one t p hp =>
    have he : Param.renderList [p] = t := by
      rw [param_eq_render hp, Param.renderList, List.map_singleton, List.intercalate_singleton]
    rw [he]
    exact .one hp
  | @more t p _ _ ps hp _ hrest ih =>
    -- A space goes before the rest only because the rest is not empty.
    obtain ⟨q, qs, rfl⟩ : ∃ q qs, ps = q :: qs := by
      cases hrest with
      | one => exact ⟨_, _, rfl⟩
      | more => exact ⟨_, _, rfl⟩
    have he : Param.renderList (p :: q :: qs) =
        t ++ Text.ofString " " ++ Param.renderList (q :: qs) := by
      rw [param_eq_render hp]
      exact List.intercalate_cons_cons
    rw [he]
    exact .more hp run_space ih

theorem suffix_render {ps : List Param} (h : Param.DeriveSuffix t ps) :
    Param.DeriveSuffix (Param.renderSuffix ps) ps := by
  cases h with
  | nil => exact .nil
  | params h =>
    have hne : ps ≠ [] := by
      cases h with
      | one => exact List.cons_ne_nil _ _
      | more => exact List.cons_ne_nil _ _
    rw [Param.renderSuffix, if_neg hne]
    exact .params (paramList_render h)

theorem mail_render {c : MailCommand} (h : MailCommand.Derives t c) :
    MailCommand.Derives c.render c := by
  cases h with
  | mk _ hp hs => exact .mk (anyCase_refl _) (reversePath_render hp) (suffix_render hs)

theorem rcpt_render {c : RcptCommand} (h : RcptCommand.Derives t c) :
    RcptCommand.Derives c.render c := by
  cases h with
  | mk _ hp hs => exact .mk (anyCase_refl _) (forwardPath_render hp) (suffix_render hs)

end Grammar

theorem MailCommand.parse?_render {t : Text} {c : MailCommand} (h : parse? t = some c) :
    parse? c.render = some c :=
  parse?_mail_iff.mpr (mail_render (parse?_mail_iff.mp h))

theorem RcptCommand.parse?_render {t : Text} {c : RcptCommand} (h : parse? t = some c) :
    parse? c.render = some c :=
  parse?_rcpt_iff.mpr (rcpt_render (parse?_rcpt_iff.mp h))

/-- What was normalised once stays as it is. -/
theorem echo_reads_back (t : Text) :
    (∀ c, MailCommand.parse? t = some c → MailCommand.parse? c.render = some c) ∧
    (∀ c, RcptCommand.parse? t = some c → RcptCommand.parse? c.render = some c) ∧
    (∀ e, MailCommand.echo? t = some e → MailCommand.echo? e = some e) ∧
    (∀ e, RcptCommand.echo? t = some e → RcptCommand.echo? e = some e) := by
  refine ⟨fun _ => MailCommand.parse?_render, fun _ => RcptCommand.parse?_render, ?_, ?_⟩
  · intro e he
    obtain ⟨c, hc, rfl⟩ := Option.map_eq_some_iff.mp he
    rw [MailCommand.echo?, MailCommand.parse?_render hc, Option.map_some]
  · intro e he
    obtain ⟨c, hc, rfl⟩ := Option.map_eq_some_iff.mp he
    rw [RcptCommand.echo?, RcptCommand.parse?_render hc, Option.map_some]

theorem echo_reads_back_respelled :
    (∃ c, MailCommand.parse? "mail From:<@a.b,@c:\"x\\y\"@[ipv6:1:0:0:0:0:0:0:1]> SIZE=1  X" =
        some c ∧ MailCommand.parse? c.render = some c) ∧
    (∃ c, RcptCommand.parse? "rcpt to:<Postmaster>" = some c ∧
      RcptCommand.parse? c.render = some c) ∧
    (MailCommand.echo? "mail from:<a@[010.0.0.1]> X" = some "MAIL FROM:<a@[10.0.0.1]> X" ∧
      MailCommand.echo? "MAIL FROM:<a@[10.0.0.1]> X" = some "MAIL FROM:<a@[10.0.0.1]> X") ∧
    (RcptCommand.echo? "rcpt to:<Postmaster>" = some "RCPT TO:<postmaster>" ∧
      RcptCommand.echo? "RCPT TO:<postmaster>" = some "RCPT TO:<postmaster>") := by
  have hm : MailCommand.parse? "mail From:<@a.b,@c:\"x\\y\"@[ipv6:1:0:0:0:0:0:0:1]> SIZE=1  X" =
      some ⟨.mailbox ⟨.quoted "xy", .literal (.formal (.ip (.v6 "1::1")))⟩,
        [⟨"SIZE", some "1"⟩, ⟨"X", none⟩]⟩ := by decide
  have hr : RcptCommand.parse? "rcpt to:<Postmaster>" = some ⟨.postmaster, []⟩ := by decide
  have em : MailCommand.echo? "mail from:<a@[010.0.0.1]> X" =
      some "MAIL FROM:<a@[10.0.0.1]> X" := by decide
  have er : RcptCommand.echo? "rcpt to:<Postmaster>" = some "RCPT TO:<postmaster>" := by decide
  exact ⟨⟨_, hm, (echo_reads_back _).1 _ hm⟩, ⟨_, hr, (echo_reads_back _).2.1 _ hr⟩,
    ⟨em, (echo_reads_back _).2.2.1 _ em⟩, ⟨er, (echo_reads_back _).2.2.2 _ er⟩⟩

end MailEnvelope
