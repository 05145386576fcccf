import MailEnvelope.Proofs.Parameters.Settings

namespace MailEnvelope
open Checks

variable {o : EnvelopeOptions} {p : Param} {ps qs : List Param}

/-- A list is read as if it had its known parameters only, and the others are put beside what is
read, as they were sent. What has none at all is accepted. -/
structure KeepsRest {α : Type} (read : List Param → Except Refusal α) (known : Param → Bool)
    (put : α → List Param → α) : Prop where
  nil : ∃ a, read [] = .ok a
  error_iff : ∀ ps e, read ps = .error e ↔ read (ps.filter known) = .error e
  ok_iff : ∀ ps a, read ps = .ok a ↔
    ∃ b, read (ps.filter known) = .ok b ∧ a = put b (ps.filter fun p => !known p)

/-- What a check of one parameter and the setting that it makes do with the others: one that is not
known is added to them, and one that is known leaves them alone. -/
structure SetsApart {σ α : Type} (check : Param → Except Refusal σ) (known : Param → Bool)
    (extra : Param → σ) (set : α → σ → α) (put : α → List Param → α) : Prop where
  check_unknown : ∀ {p}, known p = false → check p = .ok (extra p)
  set_unknown : ∀ a rest p, set (put a rest) (extra p) = put a (rest ++ [p])
  set_known : ∀ {p s}, known p → check p = .ok s →
    ∀ a rest, set (put a rest) s = put (set a s) rest

section SetsApart
variable {σ α : Type} {check : Param → Except Refusal σ} {known : Param → Bool}
  {extra : Param → σ} {set : α → σ → α} {put : α → List Param → α}

/-- The known parameters may be read first, whatever stands between them. -/
theorem SetsApart.interpret_eq (h : SetsApart check known extra set put) (ps : List Param) (a : α)
    (rest : List Param) : Param.interpret check set (put a rest) ps =
      (Param.interpret check set a (ps.filter known)).map
        (put · (rest ++ ps.filter fun p => !known p)) := by
  -- What was set apart before is carried along, and grows by the parameters that are not known.
  induction ps generalizing a rest with
  | nil => rw [List.filter_nil, List.filter_nil, List.append_nil]; rfl
  | cons p ps ih =>
    rw [Param.interpret_cons]
    cases hp : known p with
    | false =>
      have hkept : (p :: ps).filter (fun p => !known p) = p :: ps.filter fun p => !known p :=
        List.filter_cons_of_pos (by rw [hp]; rfl)
      rw [h.check_unknown hp, hkept, List.filter_cons_of_neg (ne_true_of_eq_false hp),
        List.append_cons, ← ih, ← h.set_unknown]
      rfl
    | true =>
      have hkept : (p :: ps).filter (fun p => !known p) = ps.filter fun p => !known p :=
        List.filter_cons_of_neg (by rw [hp]; exact Bool.false_ne_true)
      rw [List.filter_cons_of_pos hp, hkept, Param.interpret_cons]
      cases hs : check p with
      | error e => rfl
      | ok s =>
        change Param.interpret check set (set (put a rest) s) ps = _
        rw [h.set_known hp hs, ih]
        rfl

theorem SetsApart.keepsRest (h : SetsApart check known extra set put) {start : α}
    (hstart : put start [] = start) :
    KeepsRest (Param.interpret check set start) known put := by
  have hread (ps : List Param) := h.interpret_eq ps start []
  simp only [hstart, List.nil_append] at hread
  constructor
  · exact ⟨start, rfl⟩
  · intro ps e
    simp only [hread ps, map_eq_error_iff]
  · intro ps a
    simp only [hread ps]
    rw [map_eq_ok_iff]
    simp only [eq_comm]

/-- Parameters are known by their keywords, and the setting of a keyword does not touch what is put
beside it. -/
theorem SetsApart.of_keywords {κ : Type} {keyword? : σ → Option κ} {sets : κ → Param → Bool}
    (hknown : ∀ p, known p ↔ ∃ k, sets k p)
    (hcheck : ∀ p s k, check p = .ok s → (keyword? s = some k ↔ sets k p))
    (hextra : ∀ p, (∀ k, ¬ sets k p) → check p = .ok (extra p))
    (hput : ∀ a rest p, set (put a rest) (extra p) = put a (rest ++ [p]))
    (hset : ∀ s k, keyword? s = some k → ∀ a rest, set (put a rest) s = put (set a s) rest) :
    SetsApart check known extra set put where
  check_unknown {p} hp := by
    apply hextra
    intro k hk
    rw [(hknown p).mpr ⟨k, hk⟩] at hp
    cases hp
  set_unknown := hput
  set_known {p s} hp hs := by
    obtain ⟨k, hk⟩ := (hknown p).mp hp
    exact hset s k ((hcheck p s k hs).mpr hk)

end SetsApart

def MailParameters.keywords (o : EnvelopeOptions) : List Text :=
  ["SIZE", "BODY", "SMTPUTF8", "REQUIRETLS"] ++ if o.hideDsn then [] else ["RET", "ENVID"]

def RcptParameters.keywords (o : EnvelopeOptions) : List Text :=
  if o.hideDsn then [] else ["NOTIFY", "ORCPT"]

def Param.among (keywords : List Text) (p : Param) : Bool := p.keyword ∈ keywords

theorem Param.among_map_iff {κ : Type} {ks : List κ} {text : κ → Text} {on : κ → Bool}
    (hks : ∀ k, k ∈ ks) : p.among ((ks.filter on).map text) ↔
      ∃ k, (decide (p.keyword = text k) && on k) = true := by
  rw [among, decide_eq_true_eq]
  simp only [List.mem_map, List.mem_filter, hks, true_and, Bool.and_eq_true, decide_eq_true_eq]
  constructor
  · intro ⟨k, hk, ht⟩
    exact ⟨k, ht.symm, hk⟩
  · intro ⟨k, ht, hk⟩
    exact ⟨k, hk, ht.symm⟩

theorem MailSetting.among_iff :
    p.among (MailParameters.keywords o) ↔ ∃ k : MailKeyword, k.sets o p := by
  have hall : MailParameters.keywords o = ([MailKeyword.size, .body, .smtpUtf8, .requireTls, .ret,
      .envid].filter (·.interpreted o)).map MailKeyword.text := by
    unfold MailParameters.keywords MailKeyword.interpreted
    cases o.hideDsn <;> rfl
  rw [hall]
  exact Param.among_map_iff fun k => by cases k <;> decide

theorem MailSetting.ofParam_of_not_sets (h : ∀ k : MailKeyword, ¬ k.sets o p) :
    ofParam o p = .ok (.extra p) := by
  unfold ofParam
  have hno {k} (hk : MailKeyword.ofText? p.keyword = some k) : k.interpreted o = false := by
    cases hi : k.interpreted o with
    | false => rfl
    | true => exact absurd (MailKeyword.sets_iff.mpr ⟨hk, hi⟩) (h k)
  split
  · next hk => cases hno hk
  · next hk => cases hno hk
  · next hk => cases hno hk
  · next hk => cases hno hk
  · next hk => rw [if_pos (by simpa [MailKeyword.interpreted] using hno hk)]
  · next hk => rw [if_pos (by simpa [MailKeyword.interpreted] using hno hk)]
  · rfl

theorem RcptSetting.among_iff :
    p.among (RcptParameters.keywords o) ↔ ∃ k : RcptKeyword, k.sets o p := by
  have hall : RcptParameters.keywords o =
      ([RcptKeyword.notify, .orcpt].filter fun _ => !o.hideDsn).map RcptKeyword.text := by
    unfold RcptParameters.keywords
    cases o.hideDsn <;> rfl
  rw [hall]
  exact Param.among_map_iff fun k => by cases k <;> decide

theorem RcptSetting.ofParam_of_not_sets (h : ∀ k : RcptKeyword, ¬ k.sets o p) :
    ofParam o p = .ok (.extra p) := by
  unfold ofParam
  have hno {k} (hk : RcptKeyword.ofText? p.keyword = some k) : o.hideDsn = true := by
    cases ho : o.hideDsn with
    | false => exact absurd (RcptKeyword.sets_iff.mpr ⟨hk, ho⟩) (h k)
    | true => rfl
  split
  · next hk => rw [if_pos (hno hk)]
  · next hk => rw [if_pos (hno hk)]
  · rfl

def MailParameters.putExtra (m : MailParameters) (rest : List Param) : MailParameters :=
  { m with extra := rest }

def RcptParameters.putExtra (r : RcptParameters) (rest : List Param) : RcptParameters :=
  { r with extra := rest }

theorem MailParameters.setsApart (o : EnvelopeOptions) :
    SetsApart (MailSetting.ofParam o) (Param.among (keywords o)) .extra set putExtra := by
  refine .of_keywords (fun _ => MailSetting.among_iff)
    (fun _ _ _ hs => (MailSetting.asked_of_ofParam hs).keyword?_eq_some_iff)
    (fun _ => MailSetting.ofParam_of_not_sets) (fun _ _ _ => rfl) ?_
  intro s k hk a rest
  cases s with
  | extra => cases hk
  | _ => rfl

theorem RcptParameters.setsApart (o : EnvelopeOptions) :
    SetsApart (RcptSetting.ofParam o) (Param.among (keywords o)) .extra set putExtra := by
  refine .of_keywords (fun _ => RcptSetting.among_iff)
    (fun _ _ _ hs => (RcptSetting.asked_of_ofParam hs).keyword?_eq_some_iff)
    (fun _ => RcptSetting.ofParam_of_not_sets) (fun _ _ _ => rfl) ?_
  intro s k hk a rest
  cases s with
  | extra => cases hk
  | _ => rfl

theorem Param.among_eq_false {ks js : List Text} (h : ∀ t ∈ ks, t ∉ js) (hp : p.among ks) :
    p.among js = false :=
  decide_eq_false (h p.keyword (of_decide_eq_true hp))

/-- A parameter that says which reports the sender wants, in any case. -/
def Param.AboutReports (p : Param) : Prop := p.among ["RET", "ENVID", "NOTIFY", "ORCPT"]

/-- Parameters that only differ where they are about reports. -/
def SameButReports (ps qs : List Param) : Prop :=
  List.Forall₂ (fun p q => p = q ∨ p.AboutReports ∧ q.AboutReports) ps qs

theorem SameButReports.filter_eq {keywords : List Text} (h : SameButReports ps qs)
    (hno : ∀ p : Param, p.AboutReports → p.among keywords = false) :
    ps.filter (Param.among keywords) = qs.filter (Param.among keywords) := by
  induction h with
  | nil => rfl
  | @cons p q ps qs hpq _ ih =>
    rcases hpq with rfl | ⟨hp, hq⟩
    · rw [List.filter_cons, List.filter_cons, ih]
    · rw [List.filter_cons_of_neg (ne_true_of_eq_false (hno p hp)),
        List.filter_cons_of_neg (ne_true_of_eq_false (hno q hq)), ih]

theorem KeepsRest.same {α : Type} {read : List Param → Except Refusal α} {known : Param → Bool}
    {put : α → List Param → α} (h : KeepsRest read known put)
    (hput : ∀ a rest other, put (put a rest) other = put a other)
    (hpq : ps.filter known = qs.filter known) :
    (read ps).map (put · []) = (read qs).map (put · []) := by
  have hforget (rs : List Param) :
      (read rs).map (put · []) = (read (rs.filter known)).map (put · []) := by
    cases hr : read rs with
    | error e => rw [(h.error_iff rs e).mp hr]
    | ok a =>
      obtain ⟨b, hb, rfl⟩ := (h.ok_iff rs a).mp hr
      rw [hb]
      exact congrArg Except.ok (hput b _ _)
  rw [hforget ps, hforget qs, hpq]

/-- What is not interpreted is kept as it was sent, and changes nothing else. Where no reports are
offered, that holds of what is said about them. -/
theorem uninterpreted_kept_and_inert (o : EnvelopeOptions) :
    KeepsRest (MailParameters.ofParams o) (Param.among (MailParameters.keywords o))
      MailParameters.putExtra ∧
    KeepsRest (RcptParameters.ofParams o) (Param.among (RcptParameters.keywords o))
      RcptParameters.putExtra ∧
    (o.hideDsn = true → ∀ ps qs, SameButReports ps qs →
      (MailParameters.ofParams o ps).map (·.putExtra []) =
        (MailParameters.ofParams o qs).map (·.putExtra []) ∧
      (RcptParameters.ofParams o ps).map (·.putExtra []) =
        (RcptParameters.ofParams o qs).map (·.putExtra [])) := by
  have hmail : KeepsRest (MailParameters.ofParams o) _ _ :=
    (MailParameters.setsApart o).keepsRest rfl
  have hrcpt : KeepsRest (RcptParameters.ofParams o) _ _ :=
    (RcptParameters.setsApart o).keepsRest rfl
  refine ⟨hmail, hrcpt, ?_⟩
  intro ho ps qs h
  have hmailKeywords : MailParameters.keywords o = ["SIZE", "BODY", "SMTPUTF8", "REQUIRETLS"] := by
    rw [MailParameters.keywords, if_pos ho, List.append_nil]
  have hrcptKeywords : RcptParameters.keywords o = [] := if_pos ho
  constructor
  · apply hmail.same (fun _ _ _ => rfl)
    apply h.filter_eq
    intro p
    rw [hmailKeywords]
    exact Param.among_eq_false (by decide)
  · apply hrcpt.same (fun _ _ _ => rfl)
    apply h.filter_eq
    intro p
    rw [hrcptKeywords]
    exact Param.among_eq_false (by decide)

/-- No reports are offered, so a value of RET that does not exist is no error. -/
theorem uninterpreted_kept_and_inert_mixed :
    let o : EnvelopeOptions := { hideDsn := true, maxSize := 100 }
    let ps : List Param := [⟨"X-A", some "1"⟩, ⟨"size", some "5"⟩, ⟨"Ret", some "NONE"⟩,
      ⟨"X-A", none⟩, ⟨"Size", some "7"⟩]
    let qs : List Param := [⟨"X-A", some "1"⟩, ⟨"size", some "5"⟩, ⟨"NOTIFY", none⟩,
      ⟨"X-A", none⟩, ⟨"Size", some "7"⟩]
    let read : MailParameters := { size := some 7, extra :=
      [⟨"X-A", some "1"⟩, ⟨"Ret", some "NONE"⟩, ⟨"X-A", none⟩] }
    (o.hideDsn = true ∧ SameButReports ps qs) ∧
    MailParameters.ofParams o ps = .ok read ∧
    MailParameters.ofParams o (⟨"SIZE", some "101"⟩ :: ps) = .error (.messageTooLarge 100) ∧
    RcptParameters.ofParams o ps = .ok { extra := ps } ∧
    (MailParameters.ofParams o ps).map (·.putExtra []) =
      (MailParameters.ofParams o qs).map (·.putExtra []) := by
  intro o ps qs read
  have hsame : SameButReports ps qs := by
    refine .cons (.inl rfl) (.cons (.inl rfl) (.cons (.inr ⟨?_, ?_⟩) (.cons (.inl rfl)
      (.cons (.inl rfl) .nil)))) <;>
      exact decide_eq_true (by decide)
  obtain ⟨hmail, hrcpt, hinert⟩ := uninterpreted_kept_and_inert o
  refine ⟨⟨rfl, hsame⟩, ?_, ?_, ?_, (hinert rfl ps qs hsame).1⟩
  · exact (hmail.ok_iff ps read).mpr ⟨{ size := some 7 }, by decide, by decide⟩
  · exact (hmail.error_iff _ _).mpr (by decide)
  · exact (hrcpt.ok_iff ps _).mpr ⟨{}, by decide, by decide⟩

end MailEnvelope
