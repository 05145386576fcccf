import MailEnvelope.Proofs.Grammar.Names
import MailEnvelope.Proofs.Rule.Closed

namespace MailEnvelope.DomainName
open Grammar Rule

abbrev LetterOrDigit (u : Nat) : Prop :=
  (48 ≤ u ∧ u ≤ 57) ∨ (65 ≤ u ∧ u ≤ 90) ∨ (97 ≤ u ∧ u ≤ 122)

abbrev LabelUnit (u : Nat) : Prop := LetterOrDigit u ∨ u = '-'.toNat

/-- One letter or digit, or two of them with letters, digits and hyphens in between. -/
inductive IsLabel : Text → Prop
  | single {u} : LetterOrDigit u → IsLabel [u]
  | between {u m w} : LetterOrDigit u → (∀ x ∈ m, LabelUnit x) → LetterOrDigit w →
      IsLabel (u :: (m ++ [w]))

def IsName (t : Text) : Prop :=
  ∃ labels, labels ≠ [] ∧ (∀ l ∈ labels, IsLabel l) ∧
    t = List.intercalate (Text.ofString ".") labels

variable {s t v : Text} {pos stop : Nat}

theorem letterOrDigit_iff (u : Nat) : CharClass.letterOrDigit u ↔ LetterOrDigit u := by
  simp [CharClass.letterOrDigit, CharClass.ofRanges]

theorem labelUnit_iff (u : Nat) : CharClass.letterDigitHyphen u ↔ LabelUnit u := by
  rw [letterDigitHyphen_iff, letterOrDigit_iff]

theorem domainUnit_iff (u : Nat) : domainUnit u ↔ LabelUnit u ∨ u = '.'.toNat := by
  rw [domainUnit, orUnit, Bool.or_eq_true, labelUnit_iff, beq_iff_eq]

theorem label_iff_isLabel : Label t ↔ IsLabel t := by
  constructor
  · intro h
    cases h with
    | one hu => exact .single ((letterOrDigit_iff _).mp hu)
    | long hu hm hw =>
      exact .between ((letterOrDigit_iff _).mp hu) (fun x hx => (labelUnit_iff x).mp (hm x hx))
        ((letterOrDigit_iff _).mp hw)
  · intro h
    cases h with
    | single hu => exact .one ((letterOrDigit_iff _).mpr hu)
    | between hu hm hw =>
      exact .long ((letterOrDigit_iff _).mpr hu) (fun x hx => (labelUnit_iff x).mpr (hm x hx))
        ((letterOrDigit_iff _).mpr hw)

theorem domain_iff_isName : Domain t ↔ IsName t := by
  simp only [Domain, Grammar.Joined, separated_iff, List.forall₂_and_left, label_iff_isLabel]
  constructor
  · rintro ⟨parts, labels, hne, ht, hlabels, -⟩
    exact ⟨labels, hne, hlabels, ht⟩
  · rintro ⟨labels, hne, hlabels, ht⟩
    exact ⟨labels, labels, hne, ht, hlabels, List.forall₂_same.mpr fun _ _ => rfl⟩

theorem inside_rule : Inside rule := by
  intro s pos m h
  by_contra hpos
  have hnil : s.drop pos = [] := List.drop_of_length_le (by omega)
  simp [rule, label, run_separatedBy, hnil] at h

theorem outside_of_end
    (hend : stop = s.length ∨ ∃ u ∈ s[stop]?, ¬ LabelUnit u ∧ u ≠ '.'.toNat) :
    stop ≤ s.length ∧ Outside domainUnit (s.drop stop) := by
  rcases hend with rfl | ⟨u, hu, hlabel, hdot⟩
  · rw [List.drop_length]
    exact ⟨Nat.le_refl _, outside_nil _⟩
  · refine ⟨Nat.le_of_lt (List.getElem?_eq_some_iff.mp hu).1, fun w hw => ?_⟩
    rw [List.head?_drop] at hw
    obtain rfl := Option.mem_unique hu hw
    rw [Bool.eq_false_iff, ne_eq, domainUnit_iff]
    exact not_or.mpr ⟨hlabel, hdot⟩

theorem run_of_isName (h : IsName (slice s pos stop))
    (hend : stop = s.length ∨ ∃ u ∈ s[stop]?, ¬ LabelUnit u ∧ u ≠ '.'.toNat) :
    rule.run s pos = some ⟨slice s pos stop, stop⟩ := by
  have hdomain := domain_iff_isName.mpr h
  obtain ⟨hstop, houtside⟩ := outside_of_end hend
  have hpos : pos ≤ stop := by
    -- A name is not empty, so it begins before the place where it ends.
    obtain ⟨u, w, hcons, -⟩ := hdomain.exists_cons
    have hlength := congrArg List.length hcons
    rw [length_slice hstop, List.length_cons] at hlength
    omega
  rw [run_eq_some_iff_reads hpos hstop]
  exact reads_domain hdomain houtside

theorem isName_of_run (h : rule.run s pos = some ⟨v, stop⟩) : v = slice s pos stop ∧ IsName v := by
  obtain ⟨hpos, hstop⟩ := inside_rule.bounds h
  obtain ⟨rfl, hdomain⟩ := domain_of_reads ((run_eq_some_iff_reads hpos hstop).mp h)
  exact ⟨rfl, domain_iff_isName.mp hdomain⟩

theorem parse?_domain_iff : rule.parse? t = some v ↔ v = t ∧ IsName t := by
  rw [parse?_eq_some_iff_reads, ← domain_iff_isName]
  constructor
  · exact domain_of_reads
  · rintro ⟨rfl, h⟩
    exact reads_domain h (outside_nil _)

/-- For every label the longest run is read, and no name is missed by that: a name is read as a
whole wherever it stands, if no unit follows that a name could have, and only names are read. -/
theorem longest_runs_miss_no_name :
    (∀ s pos stop, IsName (slice s pos stop) →
      (stop = s.length ∨ ∃ u ∈ s[stop]?, ¬ LabelUnit u ∧ u ≠ '.'.toNat) →
      rule.run s pos = some ⟨slice s pos stop, stop⟩) ∧
    (∀ s pos v stop, rule.run s pos = some ⟨v, stop⟩ → v = slice s pos stop ∧ IsName v) ∧
    Decides rule.parse? fun t v => v = t ∧ IsName t :=
  ⟨fun _ _ _ => run_of_isName, fun _ _ _ _ => isName_of_run,
    Decides.of_some_iff fun _ _ => parse?_domain_iff⟩

/-- A name before a colon, and one that ends before a label that is none. -/
theorem longest_runs_miss_no_name_hyphens :
    let s := Text.ofString "@a-1.B--c.9:"
    let t := Text.ofString "a.b-.c"
    (IsName (slice s 1 11) ∧ (11 = s.length ∨ ∃ u ∈ s[11]?, ¬ LabelUnit u ∧ u ≠ '.'.toNat) ∧
      rule.run s 1 = some ⟨slice s 1 11, 11⟩) ∧
    (rule.run t 0 = some ⟨"a", 1⟩ ∧ Text.ofString "a" = slice t 0 1 ∧ IsName "a") := by
  intro s t
  obtain ⟨hreads, hread, -⟩ := longest_runs_miss_no_name
  have hname : IsName (slice s 1 11) := by
    refine ⟨["a-1", "B--c", "9"], by decide, ?_, by decide⟩
    simp only [List.forall_mem_cons, List.not_mem_nil, false_imp_iff, forall_true_iff, and_true]
    exact ⟨@IsLabel.between 97 [45] 49 (by decide) (by decide) (by decide),
      @IsLabel.between 66 [45, 45] 99 (by decide) (by decide) (by decide), .single (by decide)⟩
  have hend : 11 = s.length ∨ ∃ u ∈ s[11]?, ¬ LabelUnit u ∧ u ≠ '.'.toNat := by decide
  have hrun : rule.run t 0 = some ⟨"a", 1⟩ := by decide
  exact ⟨⟨hname, hend, hreads s 1 11 hname hend⟩, hrun, hread t 0 _ 1 hrun⟩

end MailEnvelope.DomainName
