import MailEnvelope.Proofs.FlatCommand.Address
import MailEnvelope.Proofs.FlatCommand.Args
import MailEnvelope.Proofs.Parameters.Settings
import MailEnvelope.Proofs.Parameters.Values
import MailEnvelope.Proofs.Xtext.Decode

namespace MailEnvelope
open Checks Grammar

variable {e : EnvelopeOptions} {p : Param} {v : Option Text}

/-- What a record holds for each keyword has the meaning of its field, and what else it holds is
for parameters that are not interpreted. -/
structure Args.Tells {κ : Type} (args : Args) (text : κ → Text)
    (means : κ → Option (Option Text) → Prop) (extra : List Param) : Prop where
  keyword : ∀ k, means k (args.lookup (text k))
  other : ∀ t v, args.lookup t = some v → (∃ k, t = text k) ∨ ∃ p ∈ extra, p.keyword = t

/-- What a parameter that is accepted does to a result: the keyword that it has gets a new meaning,
the others keep theirs, and a parameter without a keyword is added to those not interpreted. -/
structure Interprets {κ σ α : Type} (text : κ → Text) (means : α → κ → Option (Option Text) → Prop)
    (extra : α → List Param) (check : Param → Except Refusal σ) (keyword? : σ → Option κ)
    (set : α → σ → α) : Prop where
  key {p s} : check p = .ok s → ∀ k, keyword? s = some k ↔ text k = p.keyword
  new {p s k} : check p = .ok s → keyword? s = some k →
    ∀ a, means (set a s) k (some (p.value.map Xtext.decode))
  kept {s k} : keyword? s ≠ some k → ∀ {a held}, means a k held → means (set a s) k held
  extra_subset : ∀ a s, extra a ⊆ extra (set a s)
  mem_extra {p s} : check p = .ok s → keyword? s = none → ∀ a, p ∈ extra (set a s)

section Interprets
variable {κ σ α : Type} {text : κ → Text} {means : α → κ → Option (Option Text) → Prop}
  {extra : α → List Param} {check : Param → Except Refusal σ} {keyword? : σ → Option κ}
  {set : α → σ → α}

theorem Interprets.tells_set (h : Interprets text means extra check keyword? set) {s : σ} {a : α}
    {args : Args} (hs : check p = .ok s) (ht : args.Tells text (means a) (extra a)) :
    (args.insertParam true p).Tells text (means (set a s)) (extra (set a s)) where
  keyword k := by
    change means (set a s) k ((args.insert p.keyword (p.value.map Xtext.decode)).lookup (text k))
    rw [Args.lookup_insert]
    split
    · next hk => exact h.new hs ((h.key hs k).mpr hk) a
    · next hk => exact h.kept (fun ha => hk ((h.key hs k).mp ha)) (ht.keyword k)
  other t v hv := by
    change (args.insert p.keyword (p.value.map Xtext.decode)).lookup t = some v at hv
    rw [Args.lookup_insert] at hv
    split at hv
    · next hp =>
      cases hk : keyword? s with
      | none => exact .inr ⟨p, h.mem_extra hs hk a, hp.symm⟩
      | some k => exact .inl ⟨k, hp.trans ((h.key hs k).mp hk).symm⟩
    · exact (ht.other t v hv).imp_right fun ⟨q, hq, hqt⟩ => ⟨q, h.extra_subset a s hq, hqt⟩

/-- The record and the result are both read parameter by parameter, so they stay in step. -/
theorem Interprets.tells_ofParams? (h : Interprets text means extra check keyword? set) {start : α}
    (hstart : ∀ k, means start k none) {ps : List Param} {a : α}
    (ha : Param.interpret check set start ps = .ok a) :
    ((Args.ofParams? true ps).getD []).Tells text (means a) (extra a) := by
  rw [Param.interpret_eq] at ha
  obtain ⟨ss, hss, rfl⟩ := map_eq_ok_iff.mp ha
  rw [Args.getD_ofParams?]
  have hempty : Args.Tells [] text (means start) (extra start) := ⟨hstart, fun t v hv => nomatch hv⟩
  exact List.rel_foldl (R := fun p s => check p = .ok s)
    (P := fun args a => Args.Tells args text (means a) (extra a))
    (fun _ _ ht _ _ hs => h.tells_set hs ht) hempty (mapM_eq_ok_iff.mp hss)

end Interprets

/-- When what a record holds for a keyword has the meaning of the field. -/
def MailKeyword.Means (m : MailParameters) : MailKeyword → Option (Option Text) → Prop
  | size, held => (m.size = none ↔ held = none) ∧
      ∀ n, m.size = some n → ∃ t, held = some (some t) ∧ Run .digit t ∧ Text.numeralValue 10 t = n
  | body, held => m.bodyType = .eightBitMime ↔
      held.map (·.map Text.upper) = some (some (Text.ofString "8BITMIME"))
  | smtpUtf8, held => m.smtpUtf8 = true ↔ held = some none
  | requireTls, held => m.requireTls = true ↔ held = some none
  | ret, held => held.map (·.map Text.upper) = m.ret.map fun content => some content.keyword
  | envid, held => held = m.envid.map some

def RcptKeyword.Means (r : RcptParameters) : RcptKeyword → Option (Option Text) → Prop
  | notify, held => held.map (·.map Text.upper) =
      r.notify.map fun values => some (List.intercalate "," (values.map NotifyValue.keyword))
  | orcpt, held => held =
      r.orcpt.map fun x => some (Xtext.decode x.addressType ++ Text.ofString ";" ++ x.address)

/-- A value that is compared with a word is held as it was sent. -/
theorem map_decode_of_word {w : Text} (hw : '+'.toNat ∉ w) (h : some w = v.map Text.upper) :
    v.map Xtext.decode = v := by
  obtain ⟨t, rfl, rfl⟩ := Option.map_eq_some_iff.mp h.symm
  rw [Option.map_some, Xtext.decode_of_plus_notMem_upper hw]

theorem MailKeyword.means_start (k : MailKeyword) : k.Means {} none := by
  cases k <;> simp [Means]

theorem MailSetting.Asked.means {s : MailSetting} {k : MailKeyword} (h : Asked e p s)
    (hk : s.keyword? = some k) (m : MailParameters) :
    k.Means (m.set s) (some (p.value.map Xtext.decode)) := by
  cases h with
  | size _ hv =>
    obtain rfl := Option.some.inj hk
    obtain ⟨⟨t, ht, hdecimal, -⟩, -⟩ := parseSize_eq_ok_iff.mp hv
    obtain ⟨hne, hall, hn⟩ := Text.decimal_iff.mp hdecimal
    have hplus : '+'.toNat ∉ t := notMem_of_all hall (by decide)
    rw [ht, Option.map_some, Xtext.decode_of_plus_notMem hplus]
    refine ⟨by simp [MailParameters.set], ?_⟩
    rintro _ ⟨⟩
    exact ⟨t, rfl, ⟨hne, hall⟩, hn⟩
  | @body type _ hv =>
    obtain rfl := Option.some.inj hk
    have hword := BodyType.parse_eq_ok_iff.mp hv
    rw [map_decode_of_word (by cases type <;> decide) hword]
    change type = .eightBitMime ↔ some (p.value.map Text.upper) = _
    rw [← hword]
    cases type <;> decide
  | smtpUtf8 _ _ hv =>
    obtain rfl := Option.some.inj hk
    rw [hv]
    exact iff_of_true rfl rfl
  | requireTls _ hv =>
    obtain rfl := Option.some.inj hk
    rw [hv]
    exact iff_of_true rfl rfl
  | @ret content _ hv =>
    obtain rfl := Option.some.inj hk
    have hword := ReturnContent.parse_eq_ok_iff.mp hv
    rw [map_decode_of_word (by cases content <;> decide) hword]
    exact congrArg some hword.symm
  | envid _ hv =>
    obtain rfl := Option.some.inj hk
    obtain ⟨t, ht, -, rfl⟩ := parseEnvid_eq_ok_iff.mp hv
    rw [ht]
    rfl
  | extra => cases hk

theorem MailKeyword.Means.set {s : MailSetting} {k : MailKeyword} {m : MailParameters}
    {held : Option (Option Text)} (h : k.Means m held) (hk : s.keyword? ≠ some k) :
    k.Means (m.set s) held := by
  cases s <;> cases k <;> first | exact h | exact absurd rfl hk

theorem MailParameters.extra_subset_set (m : MailParameters) (s : MailSetting) :
    m.extra ⊆ (m.set s).extra := by
  cases s <;> simp [set]

theorem MailSetting.Asked.mem_extra {s : MailSetting} (h : Asked e p s) (hs : s.keyword? = none)
    (m : MailParameters) : p ∈ (m.set s).extra := by
  cases h with
  | extra => simp [MailParameters.set]
  | _ => cases hs

theorem MailKeyword.sets_iff_text (he : e.hideDsn = false) {k : MailKeyword} :
    k.sets e p ↔ k.text = p.keyword := by
  have hi : k.interpreted e = true := by cases k <;> simp [interpreted, he]
  rw [sets_iff, ofText?_eq_some_iff, and_iff_left hi]

theorem MailParameters.interprets (he : e.hideDsn = false) :
    Interprets MailKeyword.text MailKeyword.Means extra (MailSetting.ofParam e)
      MailSetting.keyword? set where
  key hs _ := (MailSetting.asked_of_ofParam hs).keyword?_eq_some_iff.trans
    (MailKeyword.sets_iff_text he)
  new hs := (MailSetting.asked_of_ofParam hs).means
  kept hk _ _ held := held.set hk
  extra_subset := extra_subset_set
  mem_extra hs := (MailSetting.asked_of_ofParam hs).mem_extra

theorem map_decode_of_parseList {xs : List NotifyValue}
    (h : NotifyValue.parseList (v.getD []) = .ok xs) : v.map Xtext.decode = v ∧
      v.map Text.upper = some (List.intercalate "," (xs.map NotifyValue.keyword)) := by
  cases v with
  | none =>
    have hempty : NotifyValue.parseList [] = .error .unknownNotify := by decide
    cases hempty.symm.trans h
  | some t =>
    have hupper : List.intercalate (Text.ofString ",") (xs.map NotifyValue.keyword) = t.upper :=
      NotifyValue.intercalate_of_parseList h
    have hplus : ∀ u ∈ List.intercalate (Text.ofString ",") (xs.map NotifyValue.keyword),
        u != '+'.toNat :=
      IpAddress.intercalate_mem (by decide) <| List.forall_mem_map.mpr fun x _ => by
        cases x <;> decide
    rw [hupper] at hplus
    rw [Option.map_some, Option.map_some, hupper,
      Xtext.decode_of_plus_notMem_upper fun hmem => absurd rfl (bne_iff_ne.mp (hplus _ hmem))]
    exact ⟨rfl, rfl⟩

theorem RcptKeyword.means_start (k : RcptKeyword) : k.Means {} none := by
  cases k <;> simp [Means]

theorem RcptSetting.Asked.means {s : RcptSetting} {k : RcptKeyword} (h : Asked e p s)
    (hk : s.keyword? = some k) (r : RcptParameters) :
    k.Means (r.set s) (some (p.value.map Xtext.decode)) := by
  cases h with
  | notify _ hv =>
    obtain rfl := Option.some.inj hk
    obtain ⟨hdecode, hupper⟩ := map_decode_of_parseList hv
    rw [hdecode]
    exact congrArg some hupper
  | @orcpt recipient _ hv =>
    obtain rfl := Option.some.inj hk
    obtain ⟨t, ht, hr⟩ := Option.bind_eq_some_iff.mp (parseOrcpt_eq_ok_iff.mp hv)
    obtain ⟨s, rfl, hs⟩ := Orcpt.exists_of_parse? hr
    -- No escape reaches across the semicolon, so both sides of it are decoded on their own.
    have hcut : Xtext.decode (recipient.addressType ++ Text.ofString ";" ++ s) =
        Xtext.decode recipient.addressType ++ Text.ofString ";" ++ recipient.address := by
      rw [List.append_assoc, List.append_assoc, hs]
      exact Xtext.decode_cut (by decide) (by decide) _ _
    rw [ht, Option.map_some, hcut]
    rfl
  | extra => cases hk

theorem RcptKeyword.Means.set {s : RcptSetting} {k : RcptKeyword} {r : RcptParameters}
    {held : Option (Option Text)} (h : k.Means r held) (hk : s.keyword? ≠ some k) :
    k.Means (r.set s) held := by
  cases s <;> cases k <;> first | exact h | exact absurd rfl hk

theorem RcptParameters.extra_subset_set (r : RcptParameters) (s : RcptSetting) :
    r.extra ⊆ (r.set s).extra := by
  cases s <;> simp [set]

theorem RcptSetting.Asked.mem_extra {s : RcptSetting} (h : Asked e p s) (hs : s.keyword? = none)
    (r : RcptParameters) : p ∈ (r.set s).extra := by
  cases h with
  | extra => simp [RcptParameters.set]
  | _ => cases hs

theorem RcptKeyword.sets_iff_text (he : e.hideDsn = false) {k : RcptKeyword} :
    k.sets e p ↔ k.text = p.keyword := by
  rw [sets_iff, ofText?_eq_some_iff, and_iff_left he]

theorem RcptParameters.interprets (he : e.hideDsn = false) :
    Interprets RcptKeyword.text RcptKeyword.Means extra (RcptSetting.ofParam e)
      RcptSetting.keyword? set where
  key hs _ := (RcptSetting.asked_of_ofParam hs).keyword?_eq_some_iff.trans
    (RcptKeyword.sets_iff_text he)
  new hs := (RcptSetting.asked_of_ofParam hs).means
  kept hk _ _ held := held.set hk
  extra_subset := extra_subset_set
  mem_extra hs := (RcptSetting.asked_of_ofParam hs).mem_extra

namespace FlatCommand

variable {o : FlatOptions} {name line : Text} {f : FlatCommand}

theorem args_of_parse? {verb : Verb} {path : AnyPath} {ps : List Param}
    (hf : parse? o name line = some f) (hname : name.trim.upper = verb.text)
    (hline : verb.read? line.trim = some (path, ps)) :
    f.args = Args.ofParams? o.decodeValues ps := by
  obtain ⟨w, q, qs, hw, hq, -, rfl⟩ := parse?_eq_some_iff_read.mp hf
  obtain rfl : w = verb := verb_text_injective (hw.symm.trans hname)
  obtain ⟨-, rfl⟩ := Prod.mk.inj (Option.some.inj (hq.symm.trans hline))
  rfl

/-- The decoded record of a command and the parameters that it asks for have the same meaning. -/
theorem record_has_meaning (ho : o.decodeValues = true) (he : e.hideDsn = false)
    (hf : parse? o name line = some f) :
    (∀ (c : MailCommand) (m : MailParameters), name.trim.upper = Verb.mail.text →
      MailCommand.parse? line.trim = some c → MailParameters.ofParams e c.params = .ok m →
        (f.args = none ↔ c.params = []) ∧
        (f.args.getD []).Tells MailKeyword.text (MailKeyword.Means m) m.extra) ∧
    (∀ (c : RcptCommand) (r : RcptParameters), name.trim.upper = Verb.rcpt.text →
      RcptCommand.parse? line.trim = some c → RcptParameters.ofParams e c.params = .ok r →
        (f.args = none ↔ c.params = []) ∧
        (f.args.getD []).Tells RcptKeyword.text (RcptKeyword.Means r) r.extra) := by
  constructor
  · intro c m hname hc hm
    have hargs := args_of_parse? hf hname (Option.map_eq_some_iff.mpr ⟨c, hc, rfl⟩)
    rw [hargs, ho]
    exact ⟨Args.ofParams?_eq_none_iff,
      (MailParameters.interprets he).tells_ofParams? MailKeyword.means_start hm⟩
  · intro c r hname hc hr
    have hargs := args_of_parse? hf hname (Option.map_eq_some_iff.mpr ⟨c, hc, rfl⟩)
    rw [hargs, ho]
    exact ⟨Args.ofParams?_eq_none_iff,
      (RcptParameters.interprets he).tells_ofParams? RcptKeyword.means_start hr⟩

theorem record_has_meaning_mixed_case :
    let line := Text.ofString "MAIL FROM:<> Size=1 x=+41 ret=hdrs size=007 ENVID=x+2By"
    let c : MailCommand := ⟨.null, [⟨"Size", some "1"⟩, ⟨"x", some "+41"⟩, ⟨"ret", some "hdrs"⟩,
      ⟨"size", some "007"⟩, ⟨"ENVID", some "x+2By"⟩]⟩
    let m : MailParameters :=
      { size := some 7, ret := some .headers, envid := some "x+y", extra := [⟨"x", some "+41"⟩] }
    let args : Args := [("SIZE", some "007"), ("X", some "A"), ("RET", some "hdrs"),
      ("ENVID", some "x+y")]
    let line' := Text.ofString "RCPT TO:<a@b> NOTIFY=delay,Failure ORCPT=rfc+41;x+2By"
    let c' : RcptCommand := ⟨.mailbox ⟨.atom "a", .domain "b"⟩,
      [⟨"NOTIFY", some "delay,Failure"⟩, ⟨"ORCPT", some "rfc+41;x+2By"⟩]⟩
    let r : RcptParameters :=
      { notify := some [.delay, .failure], orcpt := some ⟨"rfc+41", "x+y"⟩ }
    let args' : Args := [("NOTIFY", some "delay,Failure"), ("ORCPT", some "rfcA;x+y")]
    (parse? {} "MAIL FROM" line = some ⟨[], some args⟩ ∧ MailCommand.parse? line.trim = some c ∧
      MailParameters.ofParams {} c.params = .ok m ∧ (some args = none ↔ c.params = []) ∧
      args.Tells MailKeyword.text (MailKeyword.Means m) m.extra) ∧
    (parse? {} "rcpt to" line' = some ⟨"a@b", some args'⟩ ∧
      RcptCommand.parse? line'.trim = some c' ∧ RcptParameters.ofParams {} c'.params = .ok r ∧
      (some args' = none ↔ c'.params = []) ∧
      args'.Tells RcptKeyword.text (RcptKeyword.Means r) r.extra) := by
  intro line c m args line' c' r args'
  have hmail : parse? {} "MAIL FROM" line = some ⟨[], some args⟩ := by decide
  have hrcpt : parse? {} "rcpt to" line' = some ⟨"a@b", some args'⟩ := by decide
  have hc : MailCommand.parse? line.trim = some c := by decide
  have hc' : RcptCommand.parse? line'.trim = some c' := by decide
  have hm : MailParameters.ofParams {} c.params = .ok m := by decide
  have hr : RcptParameters.ofParams {} c'.params = .ok r := by decide
  obtain ⟨mail, -⟩ := record_has_meaning (e := {}) rfl rfl hmail
  obtain ⟨-, rcpt⟩ := record_has_meaning (e := {}) rfl rfl hrcpt
  exact ⟨⟨hmail, hc, hm, mail c m (by decide) hc hm⟩, hrcpt, hc', hr, rcpt c' r (by decide) hc' hr⟩

end FlatCommand
end MailEnvelope
