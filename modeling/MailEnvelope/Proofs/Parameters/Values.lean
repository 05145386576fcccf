import MailEnvelope.Parameters
import MailEnvelope.Proofs.Grammar.Names
import MailEnvelope.Proofs.Number.Rounding
import MailEnvelope.Proofs.Parameters.Checks
import MailEnvelope.Proofs.Text.Numeral

namespace MailEnvelope
open Checks Grammar Rule

variable {o : EnvelopeOptions} {v : Option Text} {t : Text}

namespace MailSetting

/-- A value that declares a size: a decimal number, not too large to be exact. -/
def Declares (v : Option Text) (n : Nat) : Prop :=
  ∃ t, v = some t ∧ Text.Decimal t n ∧ n ≤ 2 ^ 53 - 1

theorem sizeOf?_eq_some_iff {x : Number} {n : Nat} :
    sizeOf? x = some n ↔ x = .whole n ∧ n ≤ largestSize := by
  unfold sizeOf?
  split
  · next k =>
    rw [Option.ite_none_right_eq_some, Option.some.injEq, Number.whole.injEq, Int.ofNat_eq_natCast,
      Int.natCast_inj]
    constructor
    · rintro ⟨hle, rfl⟩
      exact ⟨rfl, hle⟩
    · rintro ⟨rfl, hle⟩
      exact ⟨hle, rfl⟩
  · next hno =>
    simp only [reduceCtorEq, false_iff]
    rintro ⟨rfl, -⟩
    exact hno n rfl

/-- The rounding of what is read goes unnoticed: it changes no number that is taken for a size, and
makes a size of no other number. -/
theorem sizeOf?_ofDigits_iff {n : Nat} (ht : t ≠ []) :
    sizeOf? (Number.ofDigits 10 false t) = some n ↔
      Text.numeralValue 10 t = n ∧ n ≤ largestSize := by
  rw [sizeOf?_eq_some_iff]
  refine and_congr_left fun hle => ?_
  have hn : n < 2 ^ 53 := Nat.lt_of_le_of_lt hle (by decide)
  rw [Number.ofDigits_eq_whole_iff hn, and_iff_right ht]

theorem declares_some_iff {n : Nat} : Declares (some t) n ↔
    ¬ (t = [] ∨ !t.all CharClass.digit) ∧ sizeOf? (Number.ofDigits 10 false t) = some n := by
  have hlargest : largestSize = 2 ^ 53 - 1 := by decide
  simp only [Declares, Option.some.injEq, exists_eq_left', Text.decimal_iff, not_or]
  constructor
  · rintro ⟨⟨hne, hall, hn⟩, hle⟩
    exact ⟨⟨hne, by simpa using hall⟩, (sizeOf?_ofDigits_iff hne).mpr ⟨hn, hlargest ▸ hle⟩⟩
  · rintro ⟨⟨hne, hall⟩, hn⟩
    obtain ⟨hn, hle⟩ := (sizeOf?_ofDigits_iff hne).mp hn
    exact ⟨⟨hne, by simpa using hall, hn⟩, hlargest ▸ hle⟩

theorem parseSize_of_declares {n : Nat} (h : Declares v n) : parseSize o v =
    if o.hideSize = false ∧ o.maxSize ≠ 0 ∧ o.maxSize < n then .error (.messageTooLarge o.maxSize)
    else .ok n := by
  obtain ⟨t, rfl, -⟩ := id h
  obtain ⟨hdigits, hsize⟩ := declares_some_iff.mp h
  simp only [parseSize, if_neg hdigits, hsize]

theorem parseSize_of_not_declares (h : ∀ n, ¬ Declares v n) :
    parseSize o v = .error .invalidSize := by
  cases v with
  | none => rfl
  | some t =>
    simp only [parseSize]
    split
    · rfl
    · next hdigits =>
      split
      · rfl
      · next n hsize => exact absurd (declares_some_iff.mpr ⟨hdigits, hsize⟩) (h n)

theorem Declares.unique {m n : Nat} (hm : Declares v m) (hn : Declares v n) : m = n := by
  obtain ⟨s, rfl, hm, -⟩ := hm
  obtain ⟨t, ht, hn, -⟩ := hn
  obtain rfl := Option.some.inj ht
  exact (Text.decimal_iff.mp hm).2.2.symm.trans (Text.decimal_iff.mp hn).2.2

theorem parseSize_eq_ok_iff {n : Nat} : parseSize o v = .ok n ↔
    Declares v n ∧ ¬ (o.hideSize = false ∧ o.maxSize ≠ 0 ∧ o.maxSize < n) := by
  by_cases h : ∃ k, Declares v k
  · obtain ⟨k, hk⟩ := h
    rw [parseSize_of_declares hk]
    constructor
    · intro hok
      split at hok
      · cases hok
      · next hmax =>
        obtain rfl := Except.ok.inj hok
        exact ⟨hk, hmax⟩
    · rintro ⟨hn, hmax⟩
      obtain rfl := hk.unique hn
      rw [if_neg hmax]
  · simp only [parseSize_of_not_declares (not_exists.mp h), reduceCtorEq, false_iff]
    exact fun hn => h ⟨n, hn.1⟩

end MailSetting

theorem Refusal.ifNone_eq_ok_iff {α : Type} {e : Refusal} {x : Option α} {a : α} :
    e.ifNone x = .ok a ↔ x = some a := by
  cases x <;> simp [ifNone]

theorem Refusal.ifNone_eq_error_iff {α : Type} {e f : Refusal} {x : Option α} :
    e.ifNone x = .error f ↔ x = none ∧ e = f := by
  cases x <;> simp [ifNone]

theorem readWord_eq_ok_iff {κ : Type} {all : List κ} {word : κ → Text} {e : Refusal} {k : κ}
    (hall : ∀ k, k ∈ all) (hword : Function.Injective word) :
    readWord all word e v = .ok k ↔ some (word k) = v.map Text.upper := by
  rw [readWord, Refusal.ifNone_eq_ok_iff]
  exact find?_word_eq_some_iff all hall fun _ _ h => hword (Option.some.inj h)

theorem BodyType.parse_eq_ok_iff {type : BodyType} :
    parse v = .ok type ↔ some type.keyword = v.map Text.upper :=
  readWord_eq_ok_iff (fun x => by cases x <;> decide)
    (fun x y => by cases x <;> cases y <;> decide)

theorem ReturnContent.parse_eq_ok_iff {content : ReturnContent} :
    parse v = .ok content ↔ some content.keyword = v.map Text.upper :=
  readWord_eq_ok_iff (fun x => by cases x <;> decide)
    (fun x y => by cases x <;> cases y <;> decide)

theorem Xtext.eq_of_parse? {s : Text} (h : Xtext.rule.parse? t = some s) : s = t := by
  rw [parse?_eq_some_iff_reads, Xtext.rule, reads_consumed] at h
  exact h.1

theorem MailSetting.parseEnvid_eq_ok_iff {id : Text} : parseEnvid v = .ok id ↔
    ∃ t, v = some t ∧ Xtext.rule.parse? t = some t ∧ Xtext.decode t = id := by
  cases v with
  | none => simp [parseEnvid]
  | some t =>
    simp only [parseEnvid, Option.some.injEq, exists_eq_left']
    cases h : Xtext.rule.parse? t with
    | none => simp
    | some s =>
      obtain rfl := Xtext.eq_of_parse? h
      simp

theorem NotifyValue.keyword_injective : Function.Injective keyword := by
  intro x y
  cases x <;> cases y <;> decide

theorem NotifyValue.ofKeyword?_eq_some_iff {x : NotifyValue} :
    ofKeyword? t = some x ↔ x.keyword = t :=
  find?_word_eq_some_iff _ (fun x => by cases x <;> decide) keyword_injective

theorem NotifyValue.parseOne_eq_ok_iff {x : NotifyValue} : parseOne t = .ok x ↔ x.keyword = t :=
  Refusal.ifNone_eq_ok_iff.trans ofKeyword?_eq_some_iff

/-- Words without commas are the parts of a text that joins them with commas, and of no other. -/
theorem splitOn_comma_iff {ws : List Text} (hws : ∀ w ∈ ws, ','.toNat ∉ w) :
    t.splitOn ','.toNat = ws ↔ ws ≠ [] ∧ t = List.intercalate (Text.ofString ",") ws := by
  constructor
  · rintro rfl
    exact ⟨List.splitOn_ne_nil _ t, (List.intercalate_splitOn _).symm⟩
  · rintro ⟨hne, rfl⟩
    exact List.splitOn_intercalate _ hws hne

namespace NotifyValue

variable {xs : List NotifyValue}

theorem mapM_parseOne_eq_ok_iff : (t.splitOn ','.toNat).mapM parseOne = .ok xs ↔
    xs ≠ [] ∧ t = List.intercalate (Text.ofString ",") (xs.map keyword) := by
  have hcomma : ∀ w ∈ xs.map keyword, ','.toNat ∉ w := by
    simp only [List.forall_mem_map]
    intro x _
    cases x <;> decide
  have hparts : (t.splitOn ','.toNat).mapM parseOne = .ok xs ↔
      t.splitOn ','.toNat = xs.map keyword := by
    rw [mapM_eq_ok_iff, ← List.forall₂_eq_eq_eq, List.forall₂_map_right_iff]
    simp only [parseOne_eq_ok_iff, @eq_comm _ (keyword _)]
  rw [hparts, splitOn_comma_iff hcomma, ne_eq, ne_eq, List.map_eq_nil_iff]

theorem parseList_of_known (hne : xs ≠ [])
    (h : t.upper = List.intercalate (Text.ofString ",") (xs.map keyword)) :
    parseList t = if never ∈ xs ∧ 1 < xs.length then .error .combinedNever else .ok xs := by
  have hparts := mapM_parseOne_eq_ok_iff.mpr ⟨hne, h⟩
  rw [parseList, hparts]
  rfl

theorem parseList_of_unknown
    (h : ∀ xs, xs ≠ [] → t.upper ≠ List.intercalate (Text.ofString ",") (xs.map keyword)) :
    parseList t = .error .unknownNotify := by
  rw [parseList]
  cases hparts : (t.upper.splitOn ','.toNat).mapM parseOne with
  | ok xs =>
    obtain ⟨hne, ht⟩ := mapM_parseOne_eq_ok_iff.mp hparts
    exact absurd ht (h xs hne)
  | error e =>
    obtain ⟨_, w, _, _, _, hw⟩ := mapM_eq_error_iff.mp hparts
    obtain ⟨-, rfl⟩ := Refusal.ifNone_eq_error_iff.mp hw
    rfl

theorem never_alone_iff (hne : xs ≠ []) :
    (never ∈ xs → xs = [never]) ↔ ¬ (never ∈ xs ∧ 1 < xs.length) := by
  constructor
  · rintro h ⟨hmem, hlength⟩
    rw [h hmem] at hlength
    exact absurd hlength (by decide)
  · intro h hmem
    have hpos := List.length_pos_iff.mpr hne
    have hlength : xs.length = 1 := by
      have hle := not_lt.mp (not_and.mp h hmem)
      omega
    obtain ⟨x, rfl⟩ := List.length_eq_one_iff.mp hlength
    rw [List.mem_singleton.mp hmem]

/-- A list is read as the values that it joins, unless one of several is "NEVER". -/
theorem parseList_eq_ok_iff : parseList t = .ok xs ↔ xs ≠ [] ∧ (never ∈ xs → xs = [never]) ∧
    t.upper = List.intercalate (Text.ofString ",") (xs.map keyword) := by
  constructor
  · intro h
    obtain ⟨ys, hys, hxs⟩ := bind_eq_ok_iff.mp h
    obtain ⟨hne, ht⟩ := mapM_parseOne_eq_ok_iff.mp hys
    split at hxs
    · cases hxs
    · next hnot =>
      obtain rfl := Except.ok.inj hxs
      exact ⟨hne, (never_alone_iff hne).mpr hnot, ht⟩
  · rintro ⟨hne, halone, ht⟩
    rw [parseList_of_known hne ht, if_neg ((never_alone_iff hne).mp halone)]

theorem intercalate_of_parseList (h : parseList t = .ok xs) :
    List.intercalate (Text.ofString ",") (xs.map keyword) = t.upper :=
  (parseList_eq_ok_iff.mp h).2.2.symm

end NotifyValue

/-- The kind of an address ends at the first semicolon, and only what follows is decoded. -/
theorem Orcpt.parse?_eq_some_iff {r : Orcpt} : parse? t = some r ↔
    ∃ a x, t = a ++ Text.ofString ";" ++ x ∧ Run .atomUnit a ∧ Xtext.rule.parse? x = some x ∧
      r = ⟨a, Xtext.decode x⟩ := by
  simp only [parse?, parse?_eq_some_iff_reads, rule, reads_map, reads_both, reads_followedBy,
    reads_text, LocalPart.atomRule, reads_spanOne]
  constructor
  · rintro ⟨⟨a, x⟩, ⟨_, y, rfl, ⟨_, _, rfl, ⟨rfl, ha, -⟩, _, rfl, rfl⟩, hx⟩, rfl⟩
    obtain rfl := Xtext.eq_of_parse? (parse?_eq_some_iff_reads.mpr hx)
    exact ⟨_, _, rfl, ha, hx, rfl⟩
  · rintro ⟨a, x, rfl, ha, hx, rfl⟩
    refine ⟨(a, x), ⟨_, x, rfl, ⟨a, _, rfl, ⟨rfl, ha, ?_⟩, _, rfl, rfl⟩, hx⟩, rfl⟩
    exact outside_cons.mpr (by decide)

theorem Orcpt.exists_of_parse? {r : Orcpt} (h : parse? t = some r) :
    ∃ s, t = r.addressType ++ Text.ofString ";" ++ s ∧ r.address = Xtext.decode s := by
  obtain ⟨a, x, rfl, -, -, rfl⟩ := Orcpt.parse?_eq_some_iff.mp h
  exact ⟨x, rfl, rfl⟩

theorem RcptSetting.parseOrcpt_eq_ok_iff {r : Orcpt} :
    parseOrcpt v = .ok r ↔ v.bind Orcpt.parse? = some r :=
  Refusal.ifNone_eq_ok_iff

end MailEnvelope
