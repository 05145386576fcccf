import MailEnvelope.Proofs.FlatCommand.Address
import MailEnvelope.Proofs.FlatCommand.Args
import MailEnvelope.Proofs.Parameters.Orcpt
import MailEnvelope.Proofs.Parameters.Settings

namespace MailEnvelope
open Checks Grammar Rule

variable {o : EnvelopeOptions} {s a e t : Text}

theorem suffix_value {n : Text} (hn : Run .letterOrDigit n) (he : Run .paramValue e) :
    Param.DeriveSuffix (Text.ofString " " ++ n ++ Text.ofString "=" ++ e) [⟨n, some e⟩] := by
  simpa only [List.append_assoc] using Param.DeriveSuffix.params (.one (.value hn he))

theorem MailCommand.parse?_envid_line (he : Run .paramValue e) :
    parse? (Text.ofString "MAIL FROM:<> ENVID=" ++ e) = some ⟨.null, [⟨"ENVID", some e⟩]⟩ := by
  have hline : Text.ofString "MAIL FROM:<> ENVID=" = Text.ofString "MAIL FROM:" ++
      Text.ofString "<>" ++ (Text.ofString " " ++ Text.ofString "ENVID" ++ Text.ofString "=") := by
    decide
  have hsuffix := suffix_value (n := "ENVID") ⟨by decide, by decide⟩ he
  rw [hline, List.append_assoc]
  exact parse?_mail_iff.mpr (.mk (anyCase_refl _) .null hsuffix)

theorem RcptCommand.parse?_orcpt_line (he : Run .paramValue e) :
    parse? (Text.ofString "RCPT TO:<postmaster> ORCPT=" ++ e) =
      some ⟨.postmaster, [⟨"ORCPT", some e⟩]⟩ := by
  have hline : Text.ofString "RCPT TO:<postmaster> ORCPT=" = Text.ofString "RCPT TO:" ++
      Text.ofString "<postmaster>" ++
        (Text.ofString " " ++ Text.ofString "ORCPT" ++ Text.ofString "=") := by
    decide
  have hsuffix := suffix_value (n := "ORCPT") ⟨by decide, by decide⟩ he
  rw [hline, List.append_assoc]
  exact parse?_rcpt_iff.mpr (.mk (anyCase_refl _) (.postmaster (anyCase_refl _)) hsuffix)

theorem MailSetting.ofParam_envid (ho : o.hideDsn = false) (hs : s.Unicode) (hne : s ≠ []) :
    ofParam o ⟨"ENVID", some (Xtext.encode s)⟩ = .ok (.envid s) := by
  have hkey : MailKeyword.ofText? (Text.ofString "ENVID").upper = some .envid := by decide
  have hid : parseEnvid (some (Xtext.encode s)) = .ok s := parseEnvid_eq_ok_iff.mpr
    ⟨_, rfl, Xtext.parse?_encode hs hne, Xtext.decode_encode hs⟩
  rw [ofParam, Param.keyword, hkey]
  simp [ho, hid, Except.map]

theorem RcptSetting.ofParam_orcpt (ho : o.hideDsn = false) (ha : Run .atomUnit a)
    (hs : s.Unicode) (hne : s ≠ []) :
    ofParam o ⟨"ORCPT", some (a ++ Text.ofString ";" ++ Xtext.encode s)⟩ = .ok (.orcpt ⟨a, s⟩) := by
  have hkey : RcptKeyword.ofText? (Text.ofString "ORCPT").upper = some .orcpt := by decide
  have hr : parseOrcpt (some (a ++ Text.ofString ";" ++ Xtext.encode s)) = .ok ⟨a, s⟩ := by
    apply parseOrcpt_eq_ok_iff.mpr
    rw [Option.bind_some]
    exact Orcpt.parse?_encode ha hs hne
  rw [ofParam, Param.keyword, hkey]
  simp only [ho, hr, Except.map]
  rfl

theorem run_orcpt (ha : Run .atomUnit a) (heq : '='.toNat ∉ a) (he : Run .paramValue e) :
    Run .paramValue (a ++ Text.ofString ";" ++ e) := by
  refine ⟨by simp [ha.1], ?_⟩
  intro u hu
  rw [List.mem_append, List.mem_append] at hu
  rcases hu with (hu | hu) | hu
  · have hne : u ≠ '='.toNat := fun h => heq (h ▸ hu)
    have hatom := ha.2 u hu
    simp [CharClass.atomUnit, CharClass.paramValue, CharClass.ofRanges] at hatom hne ⊢
    omega
  · rw [List.mem_singleton.mp hu]
    decide
  · exact he.2 u hu

theorem FlatCommand.parse?_envid_line {f : FlatOptions} (he : Run .paramValue e) :
    parse? f "MAIL FROM" (Text.ofString "MAIL FROM:<> ENVID=" ++ e) =
      some ⟨[], Args.ofParams? f.decodeValues [⟨"ENVID", some e⟩]⟩ := by
  have hblank : ∀ v ∈ e, Text.isBlank v = false := by
    intro v hv
    have hvalue := he.2 v hv
    simp [CharClass.paramValue, CharClass.ofRanges] at hvalue
    simp [Text.isBlank, CharClass.ofRanges]
    omega
  have htrim := Text.trim_append_visible (u := 'M'.toNat) (by decide) he.1 hblank
    (Text.ofString "AIL FROM:<> ENVID=")
  have hline : Text.ofString "MAIL FROM:<> ENVID=" ++ e =
      'M'.toNat :: (Text.ofString "AIL FROM:<> ENVID=" ++ e) := by
    rw [← List.cons_append]
    congr 1
  rw [← hline] at htrim
  apply parse?_eq_some_iff_read.mpr
  refine ⟨.mail, .null, _, by decide, ?_, ?_, rfl⟩
  · rw [htrim, Verb.read?, MailCommand.parse?_envid_line he]
    rfl
  · intro m hm
    cases hm

/-- Any text of characters that is sent as an identifier arrives as it was. -/
theorem identifier_survives {f : FlatOptions} (hs : s.Unicode) (hne : s ≠ [])
    (ha : Run .atomUnit a) (heq : '='.toNat ∉ a) (ho : o.hideDsn = false)
    (hf : f.decodeValues = true) :
    (MailCommand.parse? (Text.ofString "MAIL FROM:<> ENVID=" ++ Xtext.encode s)).map
      (fun c => MailParameters.ofParams o c.params) = some (.ok { envid := some s }) ∧
    FlatCommand.parse? f "MAIL FROM" (Text.ofString "MAIL FROM:<> ENVID=" ++ Xtext.encode s) =
      some ⟨[], some [("ENVID", some s)]⟩ ∧
    (RcptCommand.parse? (Text.ofString "RCPT TO:<postmaster> ORCPT=" ++ a ++ Text.ofString ";" ++
      Xtext.encode s)).map (fun c => RcptParameters.ofParams o c.params) =
        some (.ok { orcpt := some ⟨a, s⟩ }) := by
  have he := Xtext.run_encode hs hne
  refine ⟨?_, ?_, ?_⟩
  · rw [MailCommand.parse?_envid_line he, Option.map_some, MailParameters.ofParams,
      Param.interpret_singleton, MailSetting.ofParam_envid ho hs hne]
    rfl
  · have hkey : (Text.ofString "ENVID").upper = Text.ofString "ENVID" := by decide
    rw [FlatCommand.parse?_envid_line he, hf, Args.ofParams?_singleton, Param.keyword, hkey]
    simp [Xtext.decode_encode hs]
  · have hline := RcptCommand.parse?_orcpt_line (run_orcpt ha heq he)
    simp only [← List.append_assoc] at hline
    rw [hline, Option.map_some, RcptParameters.ofParams, Param.interpret_singleton,
      RcptSetting.ofParam_orcpt ho ha hs hne]
    rfl

theorem identifier_survives_beyond_ascii :
    let s := Text.ofString "+=4 é\uFEFF😀"
    let e := Text.ofString "+2B+3D4+20+C3+A9+EF+BB+BF+F0+9F+98+80"
    (s.Unicode ∧ s ≠ [] ∧ Xtext.encode s = e ∧ Run .atomUnit "x+2B" ∧
      '='.toNat ∉ Text.ofString "x+2B") ∧
    (MailCommand.parse? (Text.ofString "MAIL FROM:<> ENVID=" ++ e)).map
      (fun c => MailParameters.ofParams {} c.params) = some (.ok { envid := some s }) ∧
    FlatCommand.parse? {} "MAIL FROM" (Text.ofString "MAIL FROM:<> ENVID=" ++ e) =
      some ⟨[], some [("ENVID", some s)]⟩ ∧
    (RcptCommand.parse? (Text.ofString "RCPT TO:<postmaster> ORCPT=" ++ Text.ofString "x+2B" ++
      Text.ofString ";" ++ e)).map (fun c => RcptParameters.ofParams {} c.params) =
        some (.ok { orcpt := some ⟨"x+2B", s⟩ }) := by
  intro s e
  have hs : s.Unicode := Text.unicode_ofChars _
  have hne : s ≠ [] := by decide
  have he : Xtext.encode s = e := by decide
  have ha : Run .atomUnit "x+2B" := ⟨by decide, by decide⟩
  have heq : '='.toNat ∉ Text.ofString "x+2B" := by decide
  have h := identifier_survives (o := {}) (f := {}) hs hne ha heq rfl rfl
  rw [he] at h
  exact ⟨⟨hs, hne, he, ha, heq⟩, h⟩

end MailEnvelope
