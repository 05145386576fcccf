import MailEnvelope.Proofs.Grammar.Command

namespace MailEnvelope
open Rule Grammar

namespace Grammar

variable {t : Text}

theorem parse?_suffix_iff {ps : List Param} :
    Param.suffix.parse? t = some ps ↔ Param.DeriveSuffix t ps := by
  rw [parse?_eq_some_iff_reads, reads_suffix]

theorem parse?_suffix_nil : Param.suffix.parse? [] = some [] := parse?_suffix_iff.mpr .nil

/-- After one space the rest is a parameter list, and not an empty one. -/
theorem parse?_suffix_space (ht : t ≠ []) :
    Param.suffix.parse? (Text.ofString " " ++ t) = Param.parseList? t := by
  ext ps
  rw [parse?_suffix_iff, parse?_paramList_iff]
  constructor
  · intro h
    generalize hs : Text.ofString " " ++ t = s at h
    cases h with
    | nil => cases hs
    | params h =>
      obtain rfl := List.append_cancel_left hs
      exact .inr h
  · rintro (⟨rfl, -⟩ | h)
    · exact absurd rfl ht
    · exact .params h

/-- Whatever follows a path, the path ends where it ends without it. -/
theorem parse?_command_append {P : Type} {word k a s : Text} {path : Rule P} {p : P}
    (hk : AnyCase word k) (hp : Reads path a p s) :
    (both (before (textAnyCase word) path) Param.suffix).parse? (k ++ a ++ s) =
      (Param.suffix.parse? s).map fun ps => (p, ps) := by
  have hr : Reads (before (textAnyCase word) path) (k ++ a) p s :=
    reads_before.mpr ⟨k, a, rfl, ⟨k, reads_anyCase.mpr ⟨rfl, hk⟩⟩, hp⟩
  exact hr.parse?_both

theorem parse?_mail_append {k a s : Text} {p : ReversePath} (hk : AnyCase "MAIL FROM:" k)
    (hp : ReversePath.Derives a p) :
    MailCommand.parse? (k ++ a ++ s) = (Param.suffix.parse? s).map fun ps => ⟨p, ps⟩ := by
  rw [MailCommand.parse?, MailCommand.rule, parse?_map,
    parse?_command_append hk (reads_reversePath.mpr hp), Option.map_map]
  rfl

theorem parse?_rcpt_append {k a s : Text} {p : ForwardPath} (hk : AnyCase "RCPT TO:" k)
    (hp : ForwardPath.Derives a p) :
    RcptCommand.parse? (k ++ a ++ s) = (Param.suffix.parse? s).map fun ps => ⟨p, ps⟩ := by
  rw [RcptCommand.parse?, RcptCommand.rule, parse?_map,
    parse?_command_append hk (reads_forwardPath.mpr hp), Option.map_map]
  rfl

/-- What may stand before an address in a path: nothing, or a source route with its colon. -/
def RouteBefore (r : Text) : Prop :=
  r = [] ∨ ∃ u ds, Path.sourceRoute.parse? u = some ds ∧ r = u ++ Text.ofString ":"

theorem path_splice {r : Text} {m : Mailbox} (ht : Mailbox.parse? t = some m)
    (hr : RouteBefore r) : Path.Derives (Text.ofString "<" ++ (r ++ t) ++ Text.ofString ">") m := by
  have hm := parse?_mailbox_iff.mp ht
  rcases hr with rfl | ⟨u, ds, hu, rfl⟩
  · exact .direct hm
  · exact .routed (route_of_reads (parse?_eq_some_iff_reads.mp hu)) hm

end Grammar

/-- An address that was checked stands in a command for itself, whatever is quoted in it: the path
ends right after it, and the parameters are those that follow. -/
theorem address_spliced {t r p : Text} {m : Mailbox} (ht : Mailbox.parse? t = some m)
    (hr : RouteBefore r) (hp : p ≠ []) :
    MailCommand.parse? (Text.ofString "MAIL FROM:<" ++ r ++ t ++ Text.ofString ">") =
      some ⟨.mailbox m, []⟩ ∧
    MailCommand.parse? (Text.ofString "MAIL FROM:<" ++ r ++ t ++ Text.ofString "> " ++ p) =
      (Param.parseList? p).map (fun ps => ⟨.mailbox m, ps⟩) ∧
    RcptCommand.parse? (Text.ofString "RCPT TO:<" ++ r ++ t ++ Text.ofString ">") =
      some ⟨.mailbox m, []⟩ ∧
    RcptCommand.parse? (Text.ofString "RCPT TO:<" ++ r ++ t ++ Text.ofString "> " ++ p) =
      (Param.parseList? p).map (fun ps => ⟨.mailbox m, ps⟩) := by
  have hpath := path_splice ht hr
  have hmail (s : Text) := parse?_mail_append (s := s) (anyCase_refl _) (.mailbox hpath)
  have hrcpt (s : Text) := parse?_rcpt_append (s := s) (anyCase_refl _) (.mailbox hpath)
  -- The texts are cut behind the command word and before the space.
  have hword : Text.ofString "MAIL FROM:<" = Text.ofString "MAIL FROM:" ++ Text.ofString "<" ∧
      Text.ofString "RCPT TO:<" = Text.ofString "RCPT TO:" ++ Text.ofString "<" ∧
      Text.ofString "> " = Text.ofString ">" ++ Text.ofString " " := by decide
  simp only [List.append_assoc] at hmail hrcpt
  refine ⟨?_, ?_, ?_, ?_⟩
  · simpa [hword, parse?_suffix_nil] using hmail []
  · simpa [hword, parse?_suffix_space hp] using hmail (Text.ofString " " ++ p)
  · simpa [hword, parse?_suffix_nil] using hrcpt []
  · simpa [hword, parse?_suffix_space hp] using hrcpt (Text.ofString " " ++ p)

/-- The quoted text looks like the end of the path with a parameter and another path after it. -/
theorem address_spliced_quoted :
    let t := Text.ofString "\"> X=1 @<\\\"\"@[ipv6:0::1]"
    let r := Text.ofString "@a,@b.c:"
    let m : Mailbox := ⟨.quoted "> X=1 @<\"", .literal (.formal (.ip (.v6 "::1")))⟩
    (Mailbox.parse? t = some m ∧ RouteBefore r ∧ Text.ofString "SIZE=1" ≠ []) ∧
    MailCommand.parse? (Text.ofString "MAIL FROM:<" ++ r ++ t ++ Text.ofString ">") =
      some ⟨.mailbox m, []⟩ ∧
    MailCommand.parse? (Text.ofString "MAIL FROM:<" ++ r ++ t ++ Text.ofString "> " ++
      Text.ofString "SIZE=1") = some ⟨.mailbox m, [⟨"SIZE", some "1"⟩]⟩ ∧
    RcptCommand.parse? (Text.ofString "RCPT TO:<" ++ r ++ t ++ Text.ofString ">") =
      some ⟨.mailbox m, []⟩ ∧
    RcptCommand.parse? (Text.ofString "RCPT TO:<" ++ r ++ t ++ Text.ofString "> " ++
      Text.ofString "SIZE=1") = some ⟨.mailbox m, [⟨"SIZE", some "1"⟩]⟩ := by
  intro t r m
  have ht : Mailbox.parse? t = some m := by decide
  have hr : RouteBefore r := .inr ⟨"@a,@b.c", ["a", "b.c"], by decide, by decide⟩
  have hp : Text.ofString "SIZE=1" ≠ [] := by decide
  have hps : Param.parseList? (Text.ofString "SIZE=1") = some [⟨"SIZE", some "1"⟩] := by decide
  have h := address_spliced ht hr hp
  rw [hps] at h
  exact ⟨⟨ht, hr, hp⟩, h⟩

end MailEnvelope
