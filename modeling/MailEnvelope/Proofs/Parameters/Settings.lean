import MailEnvelope.Parameters
import MailEnvelope.Proofs.Parameters.Checks

namespace MailEnvelope
open Checks

variable {o : EnvelopeOptions} {p : Param} {t : Text}

section Interpret
variable {σ α : Type} {check : Param → Except Refusal σ} {set : α → σ → α} {a b : α}
  {ps : List Param}

theorem Param.interpret_cons : interpret check set a (p :: ps) =
    (check p).bind fun s => interpret check set (set a s) ps := by
  rw [interpret, List.foldlM_cons]
  cases check p <;> rfl

/-- The parameters may all be checked before any of them is set. -/
theorem Param.interpret_eq :
    interpret check set a ps = (ps.mapM check).map (·.foldl set a) :=
  foldlM_map_eq a ps

theorem Param.interpret_singleton : interpret check set a [p] = (check p).map (set a) := by
  rw [interpret_cons]
  cases check p <;> rfl

end Interpret

namespace MailKeyword

variable {k j : MailKeyword}

theorem text_injective : Function.Injective text := by
  intro x y
  cases x <;> cases y <;> decide

theorem ofText?_eq_some_iff : ofText? t = some k ↔ k.text = t :=
  find?_word_eq_some_iff _ (fun x => by cases x <;> decide) text_injective

/-- What is said about reports is not interpreted where none are offered. -/
def interpreted (o : EnvelopeOptions) : MailKeyword → Bool
  | ret => !o.hideDsn
  | envid => !o.hideDsn
  | _ => true

/-- A parameter sets the field of the keyword that it has, in any case. -/
def sets (o : EnvelopeOptions) (k : MailKeyword) (p : Param) : Bool :=
  p.keyword = k.text && k.interpreted o

theorem sets_iff : k.sets o p ↔ ofText? p.keyword = some k ∧ k.interpreted o := by
  rw [ofText?_eq_some_iff, sets, Bool.and_eq_true, decide_eq_true_eq, eq_comm]

theorem sets_only (hj : j.sets o p) : some j = some k ↔ k.sets o p :=
  some_eq_some_iff_of_found (fun _ => sets_iff) hj

theorem not_sets (hp : ofText? p.keyword = some j) (hj : j.interpreted o = false) :
    ¬ k.sets o p := by
  intro hk
  obtain ⟨hk, hi⟩ := sets_iff.mp hk
  obtain rfl := Option.some.inj (hp.symm.trans hk)
  rw [hj] at hi
  cases hi

end MailKeyword

namespace MailSetting

def keyword? : MailSetting → Option MailKeyword
  | size _ => some .size
  | body _ => some .body
  | smtpUtf8 => some .smtpUtf8
  | requireTls => some .requireTls
  | ret _ => some .ret
  | envid _ => some .envid
  | extra _ => none

/-- What a parameter can ask for: a value of its keyword, or nothing that is interpreted. -/
inductive Asked (o : EnvelopeOptions) (p : Param) : MailSetting → Prop
  | size {n} : MailKeyword.size.sets o p → parseSize o p.value = .ok n → Asked o p (.size n)
  | body {type} : MailKeyword.body.sets o p → BodyType.parse p.value = .ok type →
      Asked o p (.body type)
  | smtpUtf8 : MailKeyword.smtpUtf8.sets o p → o.hideSmtpUtf8 = false → p.value = none →
      Asked o p .smtpUtf8
  | requireTls : MailKeyword.requireTls.sets o p → p.value = none → Asked o p .requireTls
  | ret {content} : MailKeyword.ret.sets o p → ReturnContent.parse p.value = .ok content →
      Asked o p (.ret content)
  | envid {id} : MailKeyword.envid.sets o p → parseEnvid p.value = .ok id → Asked o p (.envid id)
  | extra : (∀ k : MailKeyword, ¬ k.sets o p) → Asked o p (.extra p)

theorem flag_eq_ok_iff {v : Option Text} {e : Refusal} {s r : MailSetting} :
    flag v e s = .ok r ↔ v = none ∧ r = s := by
  unfold flag
  cases v <;> simp [eq_comm]

theorem asked_of_ofParam {s : MailSetting} (h : ofParam o p = .ok s) : Asked o p s := by
  unfold ofParam at h
  split at h
  · next hp =>
    obtain ⟨n, hn, rfl⟩ := map_eq_ok_iff.mp h
    exact .size (MailKeyword.sets_iff.mpr ⟨hp, rfl⟩) hn
  · next hp =>
    obtain ⟨type, ht, rfl⟩ := map_eq_ok_iff.mp h
    exact .body (MailKeyword.sets_iff.mpr ⟨hp, rfl⟩) ht
  · next hp =>
    split at h
    · cases h
    · next hide =>
      obtain ⟨hv, rfl⟩ := flag_eq_ok_iff.mp h
      exact .smtpUtf8 (MailKeyword.sets_iff.mpr ⟨hp, rfl⟩) (by simpa using hide) hv
  · next hp =>
    obtain ⟨hv, rfl⟩ := flag_eq_ok_iff.mp h
    exact .requireTls (MailKeyword.sets_iff.mpr ⟨hp, rfl⟩) hv
  · next hp =>
    split at h
    · next hide =>
      obtain rfl := Except.ok.inj h
      exact .extra fun _ => MailKeyword.not_sets hp (by simp [MailKeyword.interpreted, hide])
    · next hide =>
      obtain ⟨content, hc, rfl⟩ := map_eq_ok_iff.mp h
      exact .ret (MailKeyword.sets_iff.mpr ⟨hp, by simp [MailKeyword.interpreted, hide]⟩) hc
  · next hp =>
    split at h
    · next hide =>
      obtain rfl := Except.ok.inj h
      exact .extra fun _ => MailKeyword.not_sets hp (by simp [MailKeyword.interpreted, hide])
    · next hide =>
      obtain ⟨id, hi, rfl⟩ := map_eq_ok_iff.mp h
      exact .envid (MailKeyword.sets_iff.mpr ⟨hp, by simp [MailKeyword.interpreted, hide]⟩) hi
  · next hp =>
    obtain rfl := Except.ok.inj h
    refine .extra fun k hk => ?_
    rw [(MailKeyword.sets_iff.mp hk).1] at hp
    cases hp

/-- A parameter sets the field of its keyword, and no other. -/
theorem Asked.keyword?_eq_some_iff {s : MailSetting} {k : MailKeyword} (h : Asked o p s) :
    s.keyword? = some k ↔ k.sets o p := by
  cases h with
  | size hs _ => exact MailKeyword.sets_only hs
  | body hs _ => exact MailKeyword.sets_only hs
  | smtpUtf8 hs _ _ => exact MailKeyword.sets_only hs
  | requireTls hs _ => exact MailKeyword.sets_only hs
  | ret hs _ => exact MailKeyword.sets_only hs
  | envid hs _ => exact MailKeyword.sets_only hs
  | extra hs => simp [keyword?, hs k]

end MailSetting

namespace RcptKeyword

variable {k j : RcptKeyword}

theorem text_injective : Function.Injective text := by
  intro x y
  cases x <;> cases y <;> decide

theorem ofText?_eq_some_iff : ofText? t = some k ↔ k.text = t :=
  find?_word_eq_some_iff _ (fun x => by cases x <;> decide) text_injective

/-- Both keywords are about reports. -/
def sets (o : EnvelopeOptions) (k : RcptKeyword) (p : Param) : Bool :=
  p.keyword = k.text && !o.hideDsn

theorem sets_iff : k.sets o p ↔ ofText? p.keyword = some k ∧ o.hideDsn = false := by
  rw [ofText?_eq_some_iff, sets, Bool.and_eq_true, decide_eq_true_eq, Bool.not_eq_true', eq_comm]

theorem sets_only (hj : j.sets o p) : some j = some k ↔ k.sets o p :=
  some_eq_some_iff_of_found (fun _ => sets_iff) hj

end RcptKeyword

namespace RcptSetting

def keyword? : RcptSetting → Option RcptKeyword
  | notify _ => some .notify
  | orcpt _ => some .orcpt
  | extra _ => none

inductive Asked (o : EnvelopeOptions) (p : Param) : RcptSetting → Prop
  | notify {values} : RcptKeyword.notify.sets o p →
      NotifyValue.parseList (p.value.getD []) = .ok values → Asked o p (.notify values)
  | orcpt {recipient} : RcptKeyword.orcpt.sets o p → parseOrcpt p.value = .ok recipient →
      Asked o p (.orcpt recipient)
  | extra : (∀ k : RcptKeyword, ¬ k.sets o p) → Asked o p (.extra p)

theorem asked_of_ofParam {s : RcptSetting} (h : ofParam o p = .ok s) : Asked o p s := by
  unfold ofParam at h
  have hidden (hide : o.hideDsn = true) : Asked o p (.extra p) := by
    refine .extra fun k hk => ?_
    rw [(RcptKeyword.sets_iff.mp hk).2] at hide
    cases hide
  split at h
  · next hp =>
    split at h
    · next hide =>
      obtain rfl := Except.ok.inj h
      exact hidden hide
    · next hide =>
      obtain ⟨values, hv, rfl⟩ := map_eq_ok_iff.mp h
      exact .notify (RcptKeyword.sets_iff.mpr ⟨hp, by simpa using hide⟩) hv
  · next hp =>
    split at h
    · next hide =>
      obtain rfl := Except.ok.inj h
      exact hidden hide
    · next hide =>
      obtain ⟨recipient, hr, rfl⟩ := map_eq_ok_iff.mp h
      exact .orcpt (RcptKeyword.sets_iff.mpr ⟨hp, by simpa using hide⟩) hr
  · next hp =>
    obtain rfl := Except.ok.inj h
    refine .extra fun k hk => ?_
    rw [(RcptKeyword.sets_iff.mp hk).1] at hp
    cases hp

theorem Asked.keyword?_eq_some_iff {s : RcptSetting} {k : RcptKeyword} (h : Asked o p s) :
    s.keyword? = some k ↔ k.sets o p := by
  cases h with
  | notify hs _ => exact RcptKeyword.sets_only hs
  | orcpt hs _ => exact RcptKeyword.sets_only hs
  | extra hs => simp [keyword?, hs k]

end RcptSetting
end MailEnvelope
