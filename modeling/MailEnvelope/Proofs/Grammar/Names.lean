import MailEnvelope.Proofs.Grammar.Basic
import MailEnvelope.Proofs.Rule.Repetition

namespace MailEnvelope.Grammar
open Rule

variable {a b t : Text}

theorem sameLetter_iff {u w : Nat} : SameLetter u w ↔ Text.foldUnit u = Text.foldUnit w := by
  unfold SameLetter Text.foldUnit
  split_ifs <;> omega

theorem anyCase_iff_fold {word : Text} : AnyCase word t ↔ t.fold = word.fold := by
  have h : SameLetter = fun u w => Text.foldUnit u = Text.foldUnit w := by
    funext u w
    exact propext sameLetter_iff
  rw [AnyCase, h, eq_comm, Text.fold, Text.fold, ← List.forall₂_eq_eq_eq,
    List.forall₂_map_left_iff, List.forall₂_map_right_iff]

theorem anyCase_refl (word : Text) : AnyCase word word := anyCase_iff_fold.mpr rfl

theorem reads_anyCase {word v : Text} :
    Reads (textAnyCase word) a v b ↔ v = a ∧ AnyCase word a := by
  rw [reads_textAnyCase, anyCase_iff_fold]

/-- Case does not matter to a unit that is no letter. -/
theorem AnyCase.mem_iff {word : Text} {x : Nat} (h : AnyCase word t)
    (hx : CharClass.letter x = false) : x ∈ t ↔ x ∈ word := by
  have same : ∀ {u w}, SameLetter u w → (x = w ↔ x = u) := by
    intro u w hs
    simp [CharClass.letter, CharClass.ofRanges] at hx
    unfold SameLetter at hs
    omega
  induction h with
  | nil => simp
  | cons hs _ ih => simp only [List.mem_cons, same hs, ih]

theorem AnyCase.eq_of_no_letter {word : Text} (h : AnyCase word t)
    (hw : ∀ u ∈ word, CharClass.letter u = false) : t = word := by
  induction h with
  | nil => rfl
  | cons hs _ ih =>
    simp only [List.mem_cons, forall_eq_or_imp] at hw
    obtain ⟨hu, hw⟩ := hw
    simp [CharClass.letter, CharClass.ofRanges] at hu
    unfold SameLetter at hs
    rw [ih hw, List.cons.injEq]
    exact ⟨by omega, rfl⟩

/-- A class that has all letters has the other case of whatever it has. -/
theorem AnyCase.forall_mem {word : Text} {c : CharClass} (h : AnyCase word t)
    (hc : ∀ u, CharClass.letter u → c u) (hw : ∀ u ∈ word, c u) : ∀ u ∈ t, c u := by
  intro u hu
  cases hl : CharClass.letter u with
  | false => exact hw u ((h.mem_iff hl).mp hu)
  | true => exact hc u hl

theorem AnyCase.all_letters {word : Text} (h : AnyCase word t)
    (hw : ∀ u ∈ word, CharClass.letter u) : ∀ u ∈ t, CharClass.letter u :=
  h.forall_mem (fun _ hu => hu) hw

theorem AnyCase.exists_append {x y : Text} (h : AnyCase (x ++ y) t) :
    ∃ a b, t = a ++ b ∧ AnyCase x a ∧ AnyCase y b := by
  induction x generalizing t with
  | nil => exact ⟨[], t, rfl, .nil, h⟩
  | cons u x ih =>
    obtain _ | ⟨hu, ht⟩ := h
    obtain ⟨a, b, rfl, ha, hb⟩ := ih ht
    exact ⟨_ :: a, b, rfl, .cons hu ha, hb⟩

/-- A word that ends in no letters ends so in every case. -/
theorem AnyCase.append_iff {x y : Text} (hy : ∀ u ∈ y, CharClass.letter u = false) :
    AnyCase (x ++ y) t ↔ ∃ a, t = a ++ y ∧ AnyCase x a := by
  constructor
  · intro h
    obtain ⟨a, b, rfl, ha, hb⟩ := h.exists_append
    rw [hb.eq_of_no_letter hy]
    exact ⟨a, rfl, ha⟩
  · rintro ⟨a, rfl, ha⟩
    exact List.rel_append ha (anyCase_refl y)

/-- All spellings of a word have one length, so a text shows where the word ends. -/
theorem AnyCase.append_inj {word c d : Text} (ha : AnyCase word a) (hc : AnyCase word c)
    (h : a ++ b = c ++ d) : a = c ∧ b = d :=
  List.append_inj h (ha.length_eq.symm.trans hc.length_eq)

theorem ne_of_class {c : CharClass} {u x : Nat} (hu : c u) (hx : c x = false) : u ≠ x := by
  intro he
  rw [he, hx] at hu
  cases hu

theorem notMem_of_all {c : CharClass} {x : Nat} (h : ∀ u ∈ t, c u) (hx : c x = false) : x ∉ t :=
  fun hm => ne_of_class (h x hm) hx rfl

theorem ofRanges_mono {rs ss : List (Nat × Nat)} {u : Nat}
    (h : ∀ r ∈ rs, ∃ s ∈ ss, s.1 ≤ r.1 ∧ r.2 ≤ s.2) (hu : CharClass.ofRanges rs u) :
    CharClass.ofRanges ss u := by
  simp only [CharClass.ofRanges, List.any_eq_true, Bool.and_eq_true, decide_eq_true_eq] at hu ⊢
  obtain ⟨r, hr, hlow, hhigh⟩ := hu
  obtain ⟨s, hs, hls, hhs⟩ := h r hr
  exact ⟨s, hs, Nat.le_trans hls hlow, Nat.le_trans hhigh hhs⟩

theorem letterDigitHyphen_iff (u : Nat) :
    CharClass.letterDigitHyphen u ↔ CharClass.letterOrDigit u ∨ u = '-'.toNat := by
  simp [CharClass.letterDigitHyphen, CharClass.letterOrDigit, CharClass.ofRanges]
  omega

theorem Label.exists_cons (h : Label t) : ∃ u s, t = u :: s ∧ CharClass.letterOrDigit u := by
  cases h with
  | one hu => exact ⟨_, _, rfl, hu⟩
  | long hu _ _ => exact ⟨_, _, rfl, hu⟩

theorem label_iff : Label t ↔ ∃ u s, t = u :: s ∧ CharClass.letterOrDigit u ∧
    (∀ x ∈ s, CharClass.letterDigitHyphen x) ∧ t.getLast? ≠ some '-'.toNat := by
  constructor
  · intro h
    have hyphen : ∀ u, CharClass.letterOrDigit u → u ≠ '-'.toNat :=
      fun u hu => ne_of_class hu (by decide)
    cases h with
    | @one u hu =>
      refine ⟨u, [], rfl, hu, by simp, ?_⟩
      simpa using hyphen u hu
    | @long u s w hu hs hw =>
      refine ⟨u, s ++ [w], rfl, hu, ?_, ?_⟩
      · intro x hx
        rcases List.mem_append.mp hx with hx | hx
        · exact hs x hx
        · rw [List.mem_singleton.mp hx]
          exact (letterDigitHyphen_iff w).mpr (.inl hw)
      · rw [← List.cons_append, List.getLast?_concat]
        simpa using hyphen w hw
  · rintro ⟨u, s, rfl, hu, hs, hl⟩
    -- The condition is on the last unit, so the rest is taken apart from its end.
    rcases List.eq_nil_or_concat s with rfl | ⟨m, w, rfl⟩
    · exact .one hu
    · rw [List.concat_eq_append] at hs hl ⊢
      rw [← List.cons_append, List.getLast?_concat] at hl
      have hw := (letterDigitHyphen_iff w).mp (hs w (by simp))
      exact .long hu (fun x hx => hs x (by simp [hx])) (hw.resolve_right fun he => hl (he ▸ rfl))

theorem Label.run (h : Label t) : Run .letterDigitHyphen t := by
  obtain ⟨u, s, rfl, hu, hs, -⟩ := label_iff.mp h
  refine ⟨by simp, ?_⟩
  intro x hx
  rcases List.mem_cons.mp hx with rfl | hx
  · exact (letterDigitHyphen_iff x).mpr (.inl hu)
  · exact hs x hx

/-- The greedy run is the label, since what may follow a label cannot go on with it. -/
theorem reads_label {v : Text} :
    Reads DomainName.label a v b ↔ v = a ∧ Label a ∧ Outside .letterDigitHyphen b := by
  simp only [DomainName.label, reads_filter, reads_consumed, reads_both, reads_unit, reads_span,
    label_iff]
  constructor
  · rintro ⟨⟨rfl, w, _, s, rfl, ⟨u, rfl, -, hu⟩, -, -, hs, hb⟩, hl⟩
    exact ⟨rfl, ⟨u, s, rfl, hu, hs, by simpa using hl⟩, hb⟩
  · rintro ⟨rfl, ⟨u, s, rfl, hu, hs, hl⟩, hb⟩
    exact ⟨⟨rfl, ([u], s), [u], s, rfl, ⟨u, rfl, rfl, hu⟩, rfl, Nat.zero_le _, hs, hb⟩,
      by simpa using hl⟩

theorem reads_spanOne {c : CharClass} {v : Text} :
    Reads (spanOne c) a v b ↔ v = a ∧ Run c a ∧ Outside c b := by
  simp only [spanOne, reads_span, Run, Nat.succ_le_iff, List.length_pos_iff, ne_eq, and_assoc]

/-- What may follow parts with a unit between any two is neither that unit nor one of the parts. -/
def orUnit (c : CharClass) (x : Nat) : CharClass := fun u => c u || u == x

@[simp] theorem outside_orUnit {c : CharClass} {x : Nat} :
    Outside (orUnit c x) b ↔ Outside c b ∧ b.head? ≠ some x := by
  cases b with
  | nil => simp
  | cons u s => simp [orUnit]

/-- Parts that end where their class ends, with one unit outside of it between any two. -/
theorem reads_joined {part : Rule Text} {P : Text → Prop} {c : CharClass} {x : Nat} {sep : Text}
    (hsep : sep = [x]) (hx : c x = false)
    (hpart : ∀ {a v b}, Reads part a v b ↔ v = a ∧ P a ∧ Outside c b)
    (hb : Outside (orUnit c x) b) (h : Joined sep P a) :
    Reads (consumed (separatedBy part (text sep))) a a b := by
  obtain ⟨parts, h⟩ := h
  obtain ⟨hc, hd⟩ := outside_orUnit.mp hb
  rw [reads_consumed]
  refine ⟨rfl, parts, reads_of_separated (F := Outside c) ?_ ?_ hc ?_ h⟩
  · rintro u v d ⟨hu, rfl⟩ hd
    exact hpart.mpr ⟨rfl, hu, hd⟩
  · rintro w u v d rfl -
    refine ⟨by simp [hsep], ?_, w, reads_text.mpr ⟨rfl, rfl⟩⟩
    simpa [hsep] using hx
  · apply fails_before_text
    rintro c rfl
    exact hd (by simp [hsep])

theorem joined_of_reads {part : Rule Text} {P : Text → Prop} {sep v : Text}
    (hpart : ∀ {a v b}, Reads part a v b → v = a ∧ P a)
    (h : Reads (consumed (separatedBy part (text sep))) a v b) : v = a ∧ Joined sep P a := by
  obtain ⟨rfl, parts, hr⟩ := reads_consumed.mp h
  refine ⟨rfl, parts, separated_of_reads ?_ ?_ hr⟩
  · intro u w d hu
    exact ⟨(hpart hu).2, (hpart hu).1⟩
  · intro u w d hu
    exact (reads_text.mp hu).1

theorem Joined.mem {P : Text → Prop} {c : CharClass} {x : Nat} {sep : Text} (hsep : sep = [x])
    (hP : ∀ {u}, P u → ∀ w ∈ u, c w) (h : Joined sep P t) : ∀ w ∈ t, orUnit c x w := by
  obtain ⟨parts, h⟩ := h
  subst hsep
  induction h with
  | one hp =>
    intro w hw
    simp [orUnit, hP hp.1 w hw]
  | more hp hs _ ih =>
    subst hs
    intro w hw
    rcases List.mem_append.mp hw with hw | hw
    · rcases List.mem_append.mp hw with hw | hw
      · simp [orUnit, hP hp.1 w hw]
      · simp [orUnit, List.mem_singleton.mp hw]
    · exact ih w hw

theorem Joined.exists_cons {P : Text → Prop} {Q : Nat → Prop} {sep : Text}
    (hP : ∀ {u}, P u → ∃ w s, u = w :: s ∧ Q w) (h : Joined sep P t) :
    ∃ w s, t = w :: s ∧ Q w := by
  obtain ⟨parts, h⟩ := h
  cases h with
  | one hp => exact hP hp.1
  | more hp _ _ =>
    obtain ⟨w, s, rfl, hw⟩ := hP hp.1
    exact ⟨w, _, rfl, hw⟩

theorem domain_of_reads {v : Text} (h : Reads DomainName.rule a v b) : v = a ∧ Domain a :=
  joined_of_reads (fun hr => ⟨(reads_label.mp hr).1, (reads_label.mp hr).2.1⟩) h

def domainUnit : CharClass := orUnit .letterDigitHyphen '.'.toNat

theorem reads_domain (h : Domain a) (hb : Outside domainUnit b) : Reads DomainName.rule a a b :=
  reads_joined rfl (by decide) reads_label hb h

theorem Domain.exists_cons (h : Domain t) : ∃ u s, t = u :: s ∧ CharClass.letterOrDigit u :=
  Joined.exists_cons Label.exists_cons h

theorem dotString_of_reads {v : Text} (h : Reads LocalPart.dotAtom a v b) :
    v = a ∧ DotString a :=
  joined_of_reads (fun hr => ⟨(reads_spanOne.mp hr).1, (reads_spanOne.mp hr).2.1⟩) h

def dottedUnit : CharClass := orUnit .atomUnit '.'.toNat

theorem reads_dotString (h : DotString a) (hb : Outside dottedUnit b) :
    Reads LocalPart.dotAtom a a b :=
  reads_joined rfl (by decide) reads_spanOne hb h

theorem Run.exists_cons {c : CharClass} (h : Run c t) : ∃ u s, t = u :: s ∧ c u := by
  obtain ⟨u, s, rfl⟩ := List.exists_cons_of_ne_nil h.1
  exact ⟨u, s, rfl, h.2 u (by simp)⟩

theorem Run.exists_concat {c : CharClass} (h : Run c t) : ∃ s u, t = s ++ [u] ∧ c u := by
  obtain ⟨s, u, rfl⟩ := (List.eq_nil_or_concat t).resolve_left h.1
  exact ⟨s, u, List.concat_eq_append, h.2 u (by simp)⟩

theorem DotString.exists_cons (h : DotString t) : ∃ u s, t = u :: s ∧ CharClass.atomUnit u :=
  Joined.exists_cons Run.exists_cons h

theorem DotString.mem (h : DotString t) : ∀ u ∈ t, dottedUnit u :=
  Joined.mem rfl (fun hu => hu.2) h

end MailEnvelope.Grammar
