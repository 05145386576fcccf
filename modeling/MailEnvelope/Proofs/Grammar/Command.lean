import MailEnvelope.Proofs.Grammar.Path

namespace MailEnvelope.Grammar
open Rule

variable {a b t : Text}

theorem param_of_reads {p : Param} (h : Reads Param.rule a p b) : Param.Derives a p := by
  simp only [Param.rule, Param.nameRule, Param.valueRule, reads_map, reads_both, reads_optional,
    reads_before, reads_text, reads_spanOne] at h
  obtain ⟨⟨n, v⟩, ⟨_, _, rfl, ⟨rfl, hn, -⟩, hv⟩, rfl⟩ := h
  rcases hv with ⟨_, rfl, _, _, rfl, ⟨_, rfl, rfl⟩, rfl, hv, -⟩ | ⟨rfl, rfl, -⟩
  · rw [← List.append_assoc]
    exact .value hn hv
  · rw [List.append_nil]
    exact .flag hn

def paramUnit : CharClass := orUnit .paramValue '='.toNat

theorem paramUnit_of_letterOrDigit {u : Nat} (hu : CharClass.letterOrDigit u) : paramUnit u := by
  simp [CharClass.letterOrDigit, paramUnit, orUnit, CharClass.paramValue,
    CharClass.ofRanges] at hu ⊢
  omega

theorem reads_param {p : Param} (h : Param.Derives a p) (hb : Outside paramUnit b) :
    Reads Param.rule a p b := by
  simp only [Param.rule, Param.nameRule, Param.valueRule, reads_map, reads_both, reads_optional,
    reads_before, reads_text, reads_spanOne]
  obtain ⟨hvalue, hequals⟩ := outside_orUnit.mp hb
  cases h with
  | flag hn =>
    refine ⟨(a, none), ⟨a, [], by simp, ⟨rfl, hn, ?_⟩, .inr ⟨rfl, rfl, ?_⟩⟩, rfl⟩
    · exact hb.mono fun _ => paramUnit_of_letterOrDigit
    · apply fails_before_text
      rintro c rfl
      exact hequals rfl
  | @value n v hn hv =>
    refine ⟨(n, some v), ⟨n, Text.ofString "=" ++ v, by simp, ⟨rfl, hn, ?_⟩,
      .inl ⟨v, rfl, _, v, rfl, ⟨_, rfl, rfl⟩, rfl, hv, hvalue⟩⟩, rfl⟩
    exact outside_cons.mpr (by decide)

theorem param_exists_cons {p : Param} (h : Param.Derives t p) :
    ∃ u s, t = u :: s ∧ CharClass.letterOrDigit u := by
  cases h with
  | flag hn => exact hn.exists_cons
  | value hn _ =>
    obtain ⟨u, s, rfl, hu⟩ := hn.exists_cons
    exact ⟨u, _, rfl, hu⟩

/-- A blank neither goes on with a parameter nor begins one, so runs of blanks are read whole. -/
theorem reads_paramList {ps : List Param} :
    Reads Param.listRule t ps [] ↔ Param.DeriveList t ps := by
  constructor
  · exact separated_of_reads (fun _ _ _ => param_of_reads) fun w _ _ hw => (reads_spanOne.mp hw).2.1
  · intro h
    refine reads_of_separated (F := Outside paramUnit) (fun _ _ _ => reads_param) ?_ (outside_nil _)
      ?_ h
    · intro w a p b hw hp
      -- The two classes share no unit; both ends of the run of blanks follow from that.
      obtain ⟨u, s, rfl, hu⟩ := param_exists_cons (param_of_reads hp)
      obtain ⟨x, y, rfl, hx⟩ := hw.exists_cons
      simp [CharClass.blank, CharClass.ofRanges] at hx
      refine ⟨by simp, outside_cons.mpr ?_, _, reads_spanOne.mpr ⟨rfl, hw, outside_cons.mpr ?_⟩⟩
      · simp [paramUnit, orUnit, CharClass.paramValue, CharClass.ofRanges]
        omega
      · simp [CharClass.letterOrDigit, CharClass.ofRanges] at hu
        simp [CharClass.blank, CharClass.ofRanges]
        omega
    · apply fails_iff.mpr
      intro c p d he hr
      obtain ⟨w, x, rfl, ⟨_, hw⟩, -⟩ := reads_before.mp hr
      obtain ⟨u, y, rfl, -⟩ := (reads_spanOne.mp hw).2.1.exists_cons
      cases he

theorem paramList_exists_cons {ps : List Param} (h : Param.DeriveList t ps) :
    ∃ u s, t = u :: s ∧ CharClass.letterOrDigit u := by
  cases h with
  | one hp => exact param_exists_cons hp
  | more hp _ _ =>
    obtain ⟨u, s, rfl, hu⟩ := param_exists_cons hp
    exact ⟨u, _, rfl, hu⟩

/-- The empty text is the only one that is a list, but none of the grammar. -/
theorem parse?_paramList_iff {ps : List Param} :
    Param.parseList? t = some ps ↔ t = [] ∧ ps = [] ∨ Param.DeriveList t ps := by
  simp only [Param.parseList?, parse?_eq_some_iff_reads, reads_map, reads_optional, reads_paramList]
  constructor
  · rintro ⟨_, ⟨ps, rfl, h⟩ | ⟨rfl, rfl, -⟩, rfl⟩
    · exact .inr h
    · exact .inl ⟨rfl, rfl⟩
  · rintro (⟨rfl, rfl⟩ | h)
    · refine ⟨none, .inr ⟨rfl, rfl, fails_iff.mpr ?_⟩, rfl⟩
      intro a ps b he hr
      obtain ⟨rfl, rfl⟩ := List.append_eq_nil_iff.mp he.symm
      obtain ⟨u, s, hs, -⟩ := paramList_exists_cons (reads_paramList.mp hr)
      cases hs
    · exact ⟨some ps, .inl ⟨ps, rfl, h⟩, rfl⟩

theorem reads_suffix {ps : List Param} : Reads Param.suffix t ps [] ↔ Param.DeriveSuffix t ps := by
  simp only [Param.suffix, reads_map, reads_optional, reads_before, reads_text, reads_paramList]
  constructor
  · rintro ⟨_, ⟨ps, rfl, _, t, rfl, ⟨_, rfl, rfl⟩, h⟩ | ⟨rfl, rfl, -⟩, rfl⟩
    · exact .params h
    · exact .nil
  · intro h
    cases h with
    | nil =>
      refine ⟨none, .inr ⟨rfl, rfl, fails_before_text ?_⟩, rfl⟩
      intro c he
      cases he
    | @params t ps h => exact ⟨some ps, .inl ⟨ps, rfl, _, t, rfl, ⟨_, rfl, rfl⟩, h⟩, rfl⟩

/-- The two commands differ in their word and in their kind of path. -/
theorem reads_command {P : Type} {word : Text} {path : Rule P} {D : Text → P → Prop} {p : P}
    {ps : List Param} (hpath : ∀ {a p b}, Reads path a p b ↔ D a p) :
    Reads (both (before (textAnyCase word) path) Param.suffix) t (p, ps) [] ↔
      ∃ k u s, t = k ++ u ++ s ∧ AnyCase word k ∧ D u p ∧ Param.DeriveSuffix s ps := by
  simp only [reads_both, reads_before, reads_anyCase, hpath, reads_suffix]
  constructor
  · rintro ⟨_, s, rfl, ⟨k, u, rfl, ⟨_, rfl, hk⟩, hp⟩, hs⟩
    exact ⟨_, u, s, rfl, hk, hp, hs⟩
  · rintro ⟨k, u, s, rfl, hk, hp, hs⟩
    exact ⟨_, s, rfl, ⟨k, u, rfl, ⟨k, rfl, hk⟩, hp⟩, hs⟩

theorem mail_derives_iff {p : ReversePath} {ps : List Param} : MailCommand.Derives t ⟨p, ps⟩ ↔
    ∃ k u s, t = k ++ u ++ s ∧ AnyCase "MAIL FROM:" k ∧ ReversePath.Derives u p ∧
      Param.DeriveSuffix s ps := by
  constructor
  · rintro ⟨hk, hp, hs⟩
    exact ⟨_, _, _, rfl, hk, hp, hs⟩
  · rintro ⟨k, u, s, rfl, hk, hp, hs⟩
    exact .mk hk hp hs

theorem parse?_mail_iff {c : MailCommand} :
    MailCommand.parse? t = some c ↔ MailCommand.Derives t c := by
  obtain ⟨p, ps⟩ := c
  rw [MailCommand.parse?, parse?_eq_some_iff_reads, MailCommand.rule, reads_map, mail_derives_iff,
    ← reads_command reads_reversePath]
  constructor
  · rintro ⟨⟨_, _⟩, h, he⟩
    obtain ⟨rfl, rfl⟩ := MailCommand.mk.inj he
    exact h
  · intro h
    exact ⟨(p, ps), h, rfl⟩

theorem rcpt_derives_iff {p : ForwardPath} {ps : List Param} : RcptCommand.Derives t ⟨p, ps⟩ ↔
    ∃ k u s, t = k ++ u ++ s ∧ AnyCase "RCPT TO:" k ∧ ForwardPath.Derives u p ∧
      Param.DeriveSuffix s ps := by
  constructor
  · rintro ⟨hk, hp, hs⟩
    exact ⟨_, _, _, rfl, hk, hp, hs⟩
  · rintro ⟨k, u, s, rfl, hk, hp, hs⟩
    exact .mk hk hp hs

theorem parse?_rcpt_iff {c : RcptCommand} :
    RcptCommand.parse? t = some c ↔ RcptCommand.Derives t c := by
  obtain ⟨p, ps⟩ := c
  rw [RcptCommand.parse?, parse?_eq_some_iff_reads, RcptCommand.rule, reads_map, rcpt_derives_iff,
    ← reads_command reads_forwardPath]
  constructor
  · rintro ⟨⟨_, _⟩, h, he⟩
    obtain ⟨rfl, rfl⟩ := RcptCommand.mk.inj he
    exact h
  · intro h
    exact ⟨(p, ps), h, rfl⟩

/-- The ordered choices of the parser lose nothing of the grammar, which is unambiguous. -/
theorem commands_decide : Decides MailCommand.parse? MailCommand.Derives ∧
    Decides RcptCommand.parse? RcptCommand.Derives :=
  ⟨.of_some_iff fun _ _ => parse?_mail_iff, .of_some_iff fun _ _ => parse?_rcpt_iff⟩

/-- The route is read and dropped. -/
example : MailCommand.parse? "MAIL FROM:<@r,@s:a@d> SIZE=1" =
    some ⟨.mailbox ⟨.atom "a", .domain "d"⟩, [⟨"SIZE", some "1"⟩]⟩ := by decide

/-- A separator at the end belongs to no parameter list. -/
example : MailCommand.parse? "MAIL FROM:<a@d> SIZE=1 " = none := by decide

end MailEnvelope.Grammar
