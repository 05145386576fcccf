import MailEnvelope.Proofs.Parameters.Composition
import MailEnvelope.Proofs.Parameters.Values

namespace MailEnvelope
open Checks

variable {o : EnvelopeOptions} {front back ps : List Param} {p : Param} {m : MailParameters}

def Param.IsSize (p : Param) : Prop := p.keyword = Text.ofString "SIZE"

instance : DecidablePred Param.IsSize := fun p => inferInstanceAs (Decidable (p.keyword = _))

def EnvelopeOptions.Exceeded (o : EnvelopeOptions) (n : Nat) : Prop :=
  o.hideSize = false ∧ 0 < o.maxSize ∧ o.maxSize < n

theorem EnvelopeOptions.exceeded_iff (ho : 0 ≤ o.maxSize) {n : Nat} :
    o.Exceeded n ↔ o.hideSize = false ∧ o.maxSize ≠ 0 ∧ o.maxSize < n := by
  have hpos : 0 < o.maxSize ↔ o.maxSize ≠ 0 := by omega
  rw [Exceeded, hpos]

namespace MailSetting

inductive NoSize : Option Text → Prop
  | absent : NoSize none
  | empty : NoSize (some [])
  | notDigit {t u} : u ∈ t → CharClass.digit u = false → NoSize (some t)
  | notExact {t n} : Text.Decimal t n → 2 ^ 53 - 1 < n → NoSize (some t)

theorem noSize_iff {v : Option Text} : NoSize v ↔ ∀ n, ¬ Declares v n := by
  constructor
  · intro h k ⟨t, ht, hdecimal, hle⟩
    obtain ⟨hne, hall, hk⟩ := Text.decimal_iff.mp hdecimal
    cases h with
    | absent => cases ht
    | empty => exact hne (Option.some.inj ht).symm
    | notDigit hu hdigit =>
      obtain rfl := Option.some.inj ht
      rw [hall _ hu] at hdigit
      cases hdigit
    | notExact hn hlt =>
      obtain rfl := Option.some.inj ht
      have hn := (Text.decimal_iff.mp hn).2.2
      omega
  · intro h
    cases v with
    | none => exact .absent
    | some t =>
      by_cases hne : t = []
      · subst hne
        exact .empty
      by_cases hall : ∀ u ∈ t, CharClass.digit u
      · have hdecimal := Text.decimal_iff.mpr ⟨hne, hall, rfl⟩
        exact .notExact hdecimal (Nat.lt_of_not_le fun hle => h _ ⟨t, rfl, hdecimal, hle⟩)
      · simp only [not_forall] at hall
        obtain ⟨u, hu, hdigit⟩ := hall
        exact .notDigit hu (by simpa using hdigit)

theorem parseSize_eq_ok_iff_exceeded (ho : 0 ≤ o.maxSize) {v : Option Text} {n : Nat} :
    parseSize o v = .ok n ↔ Declares v n ∧ ¬ o.Exceeded n := by
  rw [parseSize_eq_ok_iff, EnvelopeOptions.exceeded_iff ho]

theorem parseSize_eq_error_iff (ho : 0 ≤ o.maxSize) {v : Option Text} {e : Refusal} :
    parseSize o v = .error e ↔ (e = .invalidSize ∧ NoSize v) ∨
      (e = .messageTooLarge o.maxSize ∧ ∃ n, Declares v n ∧ o.Exceeded n) := by
  simp only [noSize_iff, EnvelopeOptions.exceeded_iff ho]
  by_cases h : ∃ k, Declares v k
  · obtain ⟨k, hk⟩ := h
    rw [parseSize_of_declares hk]
    constructor
    · intro he
      split at he
      · next hmax => exact .inr ⟨(Except.error.inj he).symm, k, hk, hmax⟩
      · cases he
    · rintro (⟨-, hno⟩ | ⟨rfl, n, hn, hmax⟩)
      · exact absurd hk (hno k)
      · obtain rfl := hk.unique hn
        rw [if_pos hmax]
  · have hno := not_exists.mp h
    rw [parseSize_of_not_declares hno]
    constructor
    · intro he
      exact .inl ⟨(Except.error.inj he).symm, hno⟩
    · rintro (⟨rfl, -⟩ | ⟨-, n, hn, -⟩)
      · rfl
      · exact absurd hn (hno n)

end MailSetting

namespace MailParameters

/-- What stands in front is accepted, and this parameter is refused with a reply of that code,
whatever follows it. -/
structure RefusedAt (o : EnvelopeOptions) (front : List Param) (p : Param) (code : Int) :
    Prop where
  accepted : ∃ m, ofParams o front = .ok m
  refused : ∃ e : Refusal, e.reply.responseCode = code ∧
    ∀ back, ofParams o (front ++ p :: back) = .error e

theorem compositional (o : EnvelopeOptions) :
    Compositional (ofParams o) (fun q => overlay fun k => q.any (k.sets o)) :=
  overlays.compositional fun _ _ _ h => (MailSetting.asked_of_ofParam h).keyword?_eq_some_iff

/-- An accepted list is cut into accepted ones, and the size is that of the second one if it has
any. -/
theorem parts_of_append (h : ofParams o (front ++ back) = .ok m) :
    ∃ a b, ofParams o front = .ok a ∧ ofParams o back = .ok b ∧
      m.size = if back.any (MailKeyword.size.sets o) then b.size else a.size := by
  rw [(compositional o).append] at h
  obtain ⟨a, ha, h⟩ := bind_eq_ok_iff.mp h
  obtain ⟨b, hb, h⟩ := bind_eq_ok_iff.mp h
  obtain rfl := Except.ok.inj h
  exact ⟨a, b, ha, hb, rfl⟩

theorem sets_size_iff : MailKeyword.size.sets o p ↔ p.IsSize := by
  have hi : MailKeyword.size.interpreted o = true := rfl
  rw [MailKeyword.sets, hi, Bool.and_true, decide_eq_true_eq]
  rfl

theorem any_sets_size_eq_false (h : ∀ q ∈ ps, ¬ q.IsSize) :
    ps.any (MailKeyword.size.sets o) = false := by
  rw [List.any_eq_false]
  intro q hq hs
  exact h q hq (sets_size_iff.mp hs)

theorem ofParams_size (hp : p.IsSize) : ofParams o [p] =
    (MailSetting.parseSize o p.value).map fun n => { size := some n } := by
  have hkey : MailKeyword.ofText? p.keyword = some .size :=
    (MailKeyword.sets_iff.mp (sets_size_iff (o := o).mpr hp)).1
  rw [ofParams, Param.interpret_singleton, MailSetting.ofParam, hkey]
  cases MailSetting.parseSize o p.value <;> rfl

theorem parseSize_of_mem (h : ofParams o ps = .ok m) (hmem : p ∈ ps) (hp : p.IsSize) :
    ∃ n, MailSetting.parseSize o p.value = .ok n := by
  obtain ⟨front, back, rfl⟩ := List.append_of_mem hmem
  obtain ⟨a, b, -, hb, -⟩ := parts_of_append h
  rw [← List.singleton_append] at hb
  obtain ⟨c, -, hc, -, -⟩ := parts_of_append hb
  rw [ofParams_size hp, map_eq_ok_iff] at hc
  obtain ⟨n, hn, -⟩ := hc
  exact ⟨n, hn⟩

theorem size_of_last (h : ofParams o (front ++ p :: back) = .ok m) (hp : p.IsSize)
    (hback : ∀ q ∈ back, ¬ q.IsSize) :
    ∃ n, MailSetting.parseSize o p.value = .ok n ∧ m.size = some n := by
  rw [← List.singleton_append, ← List.append_assoc] at h
  obtain ⟨a, b, hfront, -, hm⟩ := parts_of_append h
  obtain ⟨_, c, -, hc, ha⟩ := parts_of_append hfront
  rw [ofParams_size hp, map_eq_ok_iff] at hc
  obtain ⟨n, hn, rfl⟩ := hc
  refine ⟨n, hn, ?_⟩
  rw [hm, any_sets_size_eq_false hback, if_neg Bool.false_ne_true, ha, List.any_cons,
    sets_size_iff.mpr hp]
  rfl

theorem size_of_none (h : ofParams o ps = .ok m) (hnone : ∀ q ∈ ps, ¬ q.IsSize) :
    m.size = none := by
  rw [← List.nil_append ps] at h
  obtain ⟨a, b, ha, -, hm⟩ := parts_of_append h
  obtain rfl : {} = a := Except.ok.inj ha
  rw [hm, any_sets_size_eq_false hnone]
  rfl

theorem ofParams_of_refused (hfront : ofParams o front = .ok m) {e : Refusal}
    (hp : ofParams o [p] = .error e) (back : List Param) :
    ofParams o (front ++ p :: back) = .error e := by
  rw [← List.singleton_append, (compositional o).append, (compositional o).append, hfront, hp]
  rfl

theorem accepted_iff (hfront : ofParams o front = .ok m) :
    (∃ a, ofParams o (front ++ [p]) = .ok a) ↔ ∃ a, ofParams o [p] = .ok a := by
  rw [(compositional o).append, hfront]
  constructor
  · intro ⟨a, ha⟩
    obtain ⟨_, -, hrest⟩ := bind_eq_ok_iff.mp ha
    obtain ⟨b, hb, -⟩ := bind_eq_ok_iff.mp hrest
    exact ⟨b, hb⟩
  · intro ⟨b, hb⟩
    rw [hb]
    exact ⟨_, rfl⟩

theorem refusedAt_iff (hfront : ofParams o front = .ok m) {code : Int} :
    RefusedAt o front p code ↔
      ∃ e : Refusal, e.reply.responseCode = code ∧ ofParams o [p] = .error e := by
  constructor
  · intro ⟨_, e, hcode, he⟩
    have halone := he []
    rw [(compositional o).append, hfront] at halone
    -- All that is left to fail is the parameter itself.
    rcases bind_eq_error_iff.mp halone with hp | ⟨b, -, hb⟩
    · cases hp
    · rcases bind_eq_error_iff.mp hb with hp | ⟨c, -, hc⟩
      · exact ⟨e, hcode, hp⟩
      · cases hc
  · intro ⟨e, hcode, he⟩
    exact ⟨⟨m, hfront⟩, e, hcode, ofParams_of_refused hfront he⟩

/-- The two refusals of a size have different codes, so a code tells which one it was. -/
theorem refusedAt_size_iff (ho : 0 ≤ o.maxSize) (hfront : ofParams o front = .ok m)
    (hp : p.IsSize) {code : Int} : RefusedAt o front p code ↔
      (code = 501 ∧ MailSetting.NoSize p.value) ∨
      (code = 552 ∧ ∃ n, MailSetting.Declares p.value n ∧ o.Exceeded n) := by
  simp only [refusedAt_iff hfront, ofParams_size hp, map_eq_error_iff,
    MailSetting.parseSize_eq_error_iff ho]
  constructor
  · rintro ⟨e, rfl, ⟨rfl, hno⟩ | ⟨rfl, hn⟩⟩
    · exact .inl ⟨rfl, hno⟩
    · exact .inr ⟨rfl, hn⟩
  · rintro (⟨rfl, hno⟩ | ⟨rfl, hn⟩)
    · exact ⟨.invalidSize, rfl, .inl ⟨rfl, hno⟩⟩
    · exact ⟨.messageTooLarge o.maxSize, rfl, .inr ⟨rfl, hn⟩⟩

theorem accepted_size_iff (ho : 0 ≤ o.maxSize) (hfront : ofParams o front = .ok m)
    (hp : p.IsSize) : (∃ a, ofParams o (front ++ [p]) = .ok a) ↔
      ∃ n, MailSetting.Declares p.value n ∧ ¬ o.Exceeded n := by
  simp only [accepted_iff hfront, ofParams_size hp, map_eq_ok_iff,
    MailSetting.parseSize_eq_ok_iff_exceeded ho]
  constructor
  · rintro ⟨_, n, hn, -⟩
    exact ⟨n, hn⟩
  · rintro ⟨n, hn⟩
    exact ⟨_, n, hn, rfl⟩

/-- A size is the exact number that is written, it never goes beyond the maximum, and a value that
is no such number is told from one that is too large. -/
theorem size_exact_and_enforced (ho : 0 ≤ o.maxSize) :
    (∀ ps m, ofParams o ps = .ok m →
      (m.size = none ↔ ∀ p ∈ ps, ¬ p.IsSize) ∧
      (∀ p ∈ ps, p.IsSize → ∃ n, MailSetting.Declares p.value n ∧ ¬ o.Exceeded n) ∧
      (∀ front p back, ps = front ++ p :: back → p.IsSize → (∀ q ∈ back, ¬ q.IsSize) →
        ∃ n, MailSetting.Declares p.value n ∧ m.size = some n)) ∧
    (∀ front p, (∃ a, ofParams o front = .ok a) → p.IsSize →
      (RefusedAt o front p 501 ↔ MailSetting.NoSize p.value) ∧
      (RefusedAt o front p 552 ↔ ∃ n, MailSetting.Declares p.value n ∧ o.Exceeded n) ∧
      ((∃ a, ofParams o (front ++ [p]) = .ok a) ↔
        ∃ n, MailSetting.Declares p.value n ∧ ¬ o.Exceeded n)) := by
  refine ⟨?_, ?_⟩
  · intro ps m h
    have hlast : ∀ front p back, ps = front ++ p :: back → p.IsSize → (∀ q ∈ back, ¬ q.IsSize) →
        ∃ n, MailSetting.Declares p.value n ∧ m.size = some n := by
      rintro front p back rfl hp hback
      obtain ⟨n, hn, hm⟩ := size_of_last h hp hback
      exact ⟨n, (MailSetting.parseSize_eq_ok_iff.mp hn).1, hm⟩
    refine ⟨⟨?_, size_of_none h⟩, ?_, hlast⟩
    · intro hm p hmem hp
      obtain ⟨front, q, back, rfl, hq, hback⟩ := exists_last ⟨p, hmem, hp⟩
      obtain ⟨n, -, hn⟩ := hlast front q back rfl hq hback
      cases hm.symm.trans hn
    · intro p hmem hp
      obtain ⟨n, hn⟩ := parseSize_of_mem h hmem hp
      exact ⟨n, (MailSetting.parseSize_eq_ok_iff_exceeded ho).mp hn⟩
  · intro front p ⟨m, hfront⟩ hp
    refine ⟨?_, ?_, accepted_size_iff ho hfront hp⟩
    · simp [refusedAt_size_iff ho hfront hp]
    · simp [refusedAt_size_iff ho hfront hp]

/-- One more than 2^53 is rounded to 2^53, and is refused all the same. -/
theorem size_exact_and_enforced_rounded :
    let o : EnvelopeOptions := { maxSize := 9007199254740990 }
    let front : List Param := [⟨"SIZE", some "5"⟩, ⟨"X", none⟩]
    let last : Param := ⟨"sıze", some "00000000000000000009007199254740990"⟩
    let odd : Param := ⟨"Size", some "9007199254740993"⟩
    let largest : Param := ⟨"SIZE", some "9007199254740991"⟩
    (0 ≤ o.maxSize ∧ last.IsSize ∧ odd.IsSize ∧ largest.IsSize ∧
      ∃ a, ofParams o front = .ok a) ∧
    (∃ m n, ofParams o (front ++ [last]) = .ok m ∧ MailSetting.Declares last.value n ∧
      m.size = some n) ∧
    RefusedAt o front odd 501 ∧ RefusedAt o front largest 552 ∧
    ∃ a, ofParams o (front ++ [last]) = .ok a := by
  intro o front last odd largest
  have hlast : last.IsSize := by decide
  have hodd : odd.IsSize := by decide
  have hlargest : largest.IsSize := by decide
  have hfront : ofParams o front = .ok { size := some 5, extra := [⟨"X", none⟩] } := by decide
  have hall : ofParams o (front ++ [last]) =
      .ok { size := some 9007199254740990, extra := [⟨"X", none⟩] } := by decide
  have hno : MailSetting.NoSize odd.value :=
    .notExact (Text.decimal_iff.mpr ⟨by decide, by decide, rfl⟩) (by decide)
  have hexceeds : ∃ n, MailSetting.Declares largest.value n ∧ o.Exceeded n :=
    ⟨9007199254740991, ⟨_, rfl, Text.decimal_iff.mpr ⟨by decide, by decide, by decide⟩, by decide⟩,
      by decide, by decide, by decide⟩
  obtain ⟨hok, hrefused⟩ := size_exact_and_enforced (o := o) (by decide)
  obtain ⟨-, hbounded, hexact⟩ := hok _ _ hall
  obtain ⟨n, hn, hm⟩ := hexact front last [] rfl hlast (by simp)
  exact ⟨⟨by decide, hlast, hodd, hlargest, _, hfront⟩, ⟨_, n, hall, hn, hm⟩,
    (hrefused front odd ⟨_, hfront⟩ hodd).1.mpr hno,
    (hrefused front largest ⟨_, hfront⟩ hlargest).2.1.mpr hexceeds,
    (hrefused front last ⟨_, hfront⟩ hlast).2.2.mpr (hbounded last (by simp [front]) hlast)⟩

end MailParameters
end MailEnvelope
