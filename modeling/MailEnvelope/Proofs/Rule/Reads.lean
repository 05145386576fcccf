import Mathlib.Data.List.TakeWhile
import MailEnvelope.Proofs.Rule.Locality

namespace MailEnvelope.Rule

variable {α β γ : Type} {a b s : Text}

/-- The rule reads all of `a`, and no more, where `b` follows it. -/
def Reads (r : Rule α) (a : Text) (v : α) (b : Text) : Prop := r.run (a ++ b) 0 = some ⟨v, a.length⟩

/-- The rule does not match at the start of a text. -/
def Fails (r : Rule α) (s : Text) : Prop := r.run s 0 = none

/-- The text does not go on with a unit of the class. -/
def Outside (c : CharClass) (s : Text) : Prop := ∀ u ∈ s.head?, c u = false

@[simp] theorem outside_nil (c : CharClass) : Outside c [] := by simp [Outside]

@[simp] theorem outside_cons {c : CharClass} {u : Nat} : Outside c (u :: s) ↔ c u = false := by
  simp [Outside]

theorem Outside.mono {c d : CharClass} (h : Outside d s) (hcd : ∀ u, c u → d u) : Outside c s := by
  intro u hu
  have hd := h u hu
  by_contra hc
  rw [hcd u (by simpa using hc)] at hd
  cases hd

theorem run_at (r : Rule α) (p s : Text) :
    r.run (p ++ s) p.length = (r.run s 0).map (shift p.length) := by
  simpa using run_append r p s 0

theorem Reads.run_after {r : Rule α} {v : α} (h : Reads r a v b) (p : Text) :
    r.run (p ++ (a ++ b)) p.length = some ⟨v, p.length + a.length⟩ := by
  rw [run_at, h]
  rfl

theorem run_eq_some_iff_reads {r : Rule α} {v : α} {pos stop : Nat} (hpos : pos ≤ stop)
    (hstop : stop ≤ s.length) :
    r.run s pos = some ⟨v, stop⟩ ↔ Reads r (slice s pos stop) v (s.drop stop) := by
  have hrun := run_at r (s.take pos) (s.drop pos)
  rw [List.take_append_drop, List.length_take_of_le (Nat.le_trans hpos hstop)] at hrun
  rw [hrun, Reads, slice_append_drop s hpos, length_slice hstop, Option.map_eq_some_iff]
  constructor
  · rintro ⟨⟨w, e⟩, hw, he⟩
    obtain ⟨rfl, rfl⟩ := Match.mk.inj he
    rw [hw, Nat.add_sub_cancel_left]
  · intro hw
    exact ⟨_, hw, by rw [shift, Nat.add_sub_cancel' hpos]⟩

theorem exists_reads {r : Rule α} {m : Match α} (h : r.run s 0 = some m) :
    ∃ a b, s = a ++ b ∧ m.stop = a.length ∧ Reads r a m.value b := by
  have hb := run_bounds r s 0 m h
  have hl : (s.take m.stop).length = m.stop := by
    rw [List.length_take]
    omega
  refine ⟨s.take m.stop, s.drop m.stop, (List.take_append_drop ..).symm, hl.symm, ?_⟩
  rw [Reads, List.take_append_drop, hl, h]

theorem fails_iff {r : Rule α} : Fails r s ↔ ∀ a v b, s = a ++ b → ¬ Reads r a v b := by
  constructor
  · rintro h a v b rfl hr
    rw [Fails, hr] at h
    cases h
  · intro h
    cases hr : r.run s 0 with
    | none => exact hr
    | some m =>
      obtain ⟨a, b, hs, -, hab⟩ := exists_reads hr
      exact absurd hab (h a m.value b hs)

theorem Reads.unique {r : Rule α} {v w : α} {c d : Text} (h : Reads r a v b) (h' : Reads r c w d)
    (he : a ++ b = c ++ d) : a = c ∧ v = w ∧ b = d := by
  rw [Reads, he, h', Option.some.injEq, Match.mk.injEq] at h
  obtain ⟨ha, hb⟩ := List.append_inj he h.2.symm
  exact ⟨ha, h.1.symm, hb⟩

theorem parse?_eq_some_iff_reads {r : Rule α} {v : α} : r.parse? s = some v ↔ Reads r s v [] := by
  rw [parse?_eq_some_iff, Reads, List.append_nil]

@[simp] theorem reads_text {t v : Text} : Reads (text t) a v b ↔ a = t ∧ v = t := by
  simp only [Reads, run, List.drop_zero, Nat.zero_add, Option.ite_none_right_eq_some,
    Option.some.injEq, Match.mk.injEq, List.isPrefixOf_iff_prefix]
  constructor
  · rintro ⟨hp, rfl, hl⟩
    refine ⟨?_, rfl⟩
    rw [List.prefix_iff_eq_take, hl, List.take_left] at hp
    exact hp.symm
  · rintro ⟨rfl, rfl⟩
    exact ⟨List.prefix_append .., rfl, rfl⟩

theorem reads_textAnyCase {t v : Text} :
    Reads (textAnyCase t) a v b ↔ v = a ∧ a.fold = t.fold := by
  simp only [Reads, run, slice, List.drop_zero, Nat.zero_add, Nat.zero_le, true_and, Nat.sub_zero,
    Option.ite_none_right_eq_some, Option.some.injEq, Match.mk.injEq]
  constructor
  · rintro ⟨hf, hv, hl⟩
    rw [hl, List.take_left] at hf hv
    exact ⟨hv.symm, hf⟩
  · rintro ⟨rfl, hf⟩
    have hl : t.length = v.length := by simpa [Text.fold] using (congrArg List.length hf).symm
    rw [hl, List.take_left]
    exact ⟨hf, rfl, rfl⟩

@[simp] theorem reads_unit {c : CharClass} {v : Text} :
    Reads (unit c) a v b ↔ ∃ u, a = [u] ∧ v = [u] ∧ c u := by
  simp only [Reads, run, List.drop_zero, Nat.zero_add]
  cases a with
  | nil => cases b <;> simp
  | cons u t =>
    simp only [List.cons_append, Option.ite_none_right_eq_some, Option.some.injEq, Match.mk.injEq,
      List.length_cons, List.cons.injEq]
    constructor
    · rintro ⟨hu, rfl, hl⟩
      exact ⟨u, ⟨rfl, List.length_eq_zero_iff.mp (by omega)⟩, rfl, hu⟩
    · rintro ⟨_, ⟨rfl, rfl⟩, rfl, hu⟩
      exact ⟨hu, rfl, rfl⟩

theorem takeWhile_append_outside {c : CharClass} (ha : ∀ u ∈ a, c u) (hb : Outside c b) :
    (a ++ b).takeWhile c = a := by
  rw [List.takeWhile_append_of_pos ha]
  cases b with
  | nil => simp
  | cons u t => simp [outside_cons.mp hb]

theorem run_unique {c : CharClass} {d e : Text} (ha : ∀ u ∈ a, c u) (hb : Outside c b)
    (hd : ∀ u ∈ d, c u) (he : Outside c e) (h : a ++ b = d ++ e) : a = d ∧ b = e := by
  have had : a = d := by rw [← takeWhile_append_outside ha hb, h, takeWhile_append_outside hd he]
  subst had
  exact ⟨rfl, List.append_cancel_left h⟩

/-- The first place where a unit stands cuts a text in one way only. -/
theorem cut_unique {x : Nat} {c d : Text} (ha : x ∉ a) (hc : x ∉ c)
    (h : a ++ x :: b = c ++ x :: d) : a = c ∧ b = d := by
  have other : ∀ {s : Text}, x ∉ s → ∀ u ∈ s, (fun v => v != x) u = true :=
    fun hs u hu => bne_iff_ne.mpr fun he => hs (he ▸ hu)
  have stop : ∀ s, Outside (fun v => v != x) (x :: s) := fun s => outside_cons.mpr (by simp)
  obtain ⟨rfl, hbd⟩ := run_unique (other ha) (stop b) (other hc) (stop d) h
  exact ⟨rfl, (List.cons.inj hbd).2⟩

theorem outside_dropWhile (c : CharClass) (s : Text) : Outside c (s.dropWhile c) := by
  intro u hu
  have h := List.head?_dropWhile_not c s
  rw [Option.mem_def.mp hu] at h
  simpa using h

theorem reads_span {c : CharClass} {min : Nat} {v : Text} :
    Reads (span c min none) a v b ↔ v = a ∧ min ≤ a.length ∧ (∀ u ∈ a, c u) ∧ Outside c b := by
  simp only [Reads, run, List.drop_zero, Nat.zero_add, Option.getD_none, List.take_length,
    Option.ite_none_right_eq_some, Option.some.injEq, Match.mk.injEq]
  constructor
  · rintro ⟨hmin, hv, hl⟩
    have ht : (a ++ b).takeWhile c = a := by
      have hp := List.prefix_iff_eq_take.mp (List.takeWhile_prefix (l := a ++ b) c)
      rwa [hl, List.take_left] at hp
    have hd : (a ++ b).dropWhile c = b := by
      have h := List.takeWhile_append_dropWhile (p := c) (l := a ++ b)
      rw [ht] at h
      exact List.append_cancel_left h
    refine ⟨hv.symm.trans ht, ht ▸ hmin, ?_, hd ▸ outside_dropWhile c _⟩
    intro u hu
    rw [← ht] at hu
    exact List.mem_takeWhile_imp hu
  · rintro ⟨rfl, hmin, hc, hb⟩
    rw [takeWhile_append_outside hc hb]
    exact ⟨hmin, rfl, rfl⟩

theorem reads_span_max {c : CharClass} {min max : Nat} {v : Text} :
    Reads (span c min (some max)) a v b ↔ v = a ∧ min ≤ a.length ∧ a.length ≤ max ∧
      (∀ u ∈ a, c u) ∧ (a.length = max ∨ Outside c b) := by
  simp only [Reads, run, List.drop_zero, Nat.zero_add, Option.getD_some,
    Option.ite_none_right_eq_some, Option.some.injEq, Match.mk.injEq]
  constructor
  · rintro ⟨hmin, hv, hl⟩
    have hle := List.length_take_le max ((a ++ b).takeWhile c)
    have ht : ((a ++ b).takeWhile c).take max = a := by
      have hp := List.prefix_iff_eq_take.mp
        ((List.take_prefix max _).trans (List.takeWhile_prefix (l := a ++ b) c))
      rwa [hl, List.take_left] at hp
    have hc : ∀ u ∈ a, c u := by
      intro u hu
      rw [← ht] at hu
      exact List.mem_takeWhile_imp (List.mem_of_mem_take hu)
    refine ⟨hv.symm.trans ht, ht ▸ hmin, by omega, hc, ?_⟩
    rw [List.takeWhile_append_of_pos hc, List.length_take, List.length_append] at hl
    rcases Nat.lt_or_ge a.length max with hlt | hge
    · right
      have hb : b.takeWhile c = [] := List.length_eq_zero_iff.mp (by omega)
      have hd := List.takeWhile_append_dropWhile (p := c) (l := b)
      rw [hb, List.nil_append] at hd
      exact hd ▸ outside_dropWhile c b
    · left
      omega
  · rintro ⟨rfl, hmin, hmax, hc, hb⟩
    have ht : ((v ++ b).takeWhile c).take max = v := by
      rw [List.takeWhile_append_of_pos hc]
      rcases hb with hl | hb
      · rw [← hl, List.take_left]
      · have hw := takeWhile_append_outside hc hb
        rw [List.takeWhile_append_of_pos hc] at hw
        rw [hw, List.take_of_length_le hmax]
    rw [ht]
    exact ⟨hmin, rfl, rfl⟩

@[simp] theorem reads_atEnd {v : Unit} : Reads atEnd a v b ↔ a = [] ∧ b = [] := by
  simp only [Reads, run, Option.ite_none_right_eq_some, Option.some.injEq, Match.mk.injEq,
    List.length_append]
  constructor
  · rintro ⟨hl, -, ha⟩
    exact ⟨List.length_eq_zero_iff.mp ha.symm, List.length_eq_zero_iff.mp (by omega)⟩
  · rintro ⟨rfl, rfl⟩
    simp

@[simp] theorem reads_never {v : α} : ¬ Reads never a v b := by simp [Reads, run]

@[simp] theorem reads_filterMap {f : α → Option β} {r : Rule α} {w : β} :
    Reads (filterMap f r) a w b ↔ ∃ v, Reads r a v b ∧ f v = some w := by
  simp only [Reads, run, Option.bind_eq_some_iff, Option.map_eq_some_iff, Match.mk.injEq]
  constructor
  · rintro ⟨m, hm, v, hv, rfl, hl⟩
    exact ⟨m.value, by rw [hm, ← hl], hv⟩
  · rintro ⟨v, hr, hf⟩
    exact ⟨_, hr, w, hf, rfl, rfl⟩

@[simp] theorem reads_map {f : α → β} {r : Rule α} {w : β} :
    Reads (map f r) a w b ↔ ∃ v, Reads r a v b ∧ f v = w := by
  simp only [map, reads_filterMap, Option.some.injEq]

theorem fails_map {f : α → β} {r : Rule α} : Fails (map f r) s ↔ Fails r s := by
  simp only [Fails, map, run]
  cases r.run s 0 <;> simp

@[simp] theorem reads_filter {p : α → Bool} {r : Rule α} {v : α} :
    Reads (filter p r) a v b ↔ Reads r a v b ∧ p v := by
  simp only [filter, reads_filterMap, Option.ite_none_right_eq_some, Option.some.injEq]
  constructor
  · rintro ⟨w, hr, hp, rfl⟩
    exact ⟨hr, hp⟩
  · rintro ⟨hr, hp⟩
    exact ⟨v, hr, hp, rfl⟩

@[simp] theorem reads_consumed {r : Rule α} {v : Text} :
    Reads (consumed r) a v b ↔ v = a ∧ ∃ w, Reads r a w b := by
  simp only [Reads, run, slice, List.drop_zero, Nat.sub_zero, Option.map_eq_some_iff,
    Match.mk.injEq]
  constructor
  · rintro ⟨m, hm, hv, hl⟩
    rw [hl, List.take_left] at hv
    exact ⟨hv.symm, m.value, by rw [hm, ← hl]⟩
  · rintro ⟨rfl, w, hr⟩
    exact ⟨_, hr, List.take_left, rfl⟩

@[simp] theorem reads_both {x : Rule α} {y : Rule β} {v : α × β} :
    Reads (both x y) a v b ↔
      ∃ a₁ a₂, a = a₁ ++ a₂ ∧ Reads x a₁ v.1 (a₂ ++ b) ∧ Reads y a₂ v.2 b := by
  constructor
  · intro h
    simp only [Reads, run, Option.bind_eq_some_iff, Option.map_eq_some_iff, Match.mk.injEq] at h
    obtain ⟨m, hm, n, hn, rfl, hl⟩ := h
    obtain ⟨a₁, c, hs, hm₁, hx⟩ := exists_reads hm
    -- The second rule was run inside the text, and reads the same at the start of what is left.
    rw [hs, hm₁, run_at] at hn
    obtain ⟨k, hk, rfl⟩ := Option.map_eq_some_iff.mp hn
    obtain ⟨a₂, d, rfl, hk₂, hy⟩ := exists_reads hk
    have hal : (a₁ ++ a₂).length = a.length := by
      rw [List.length_append, ← hk₂]
      exact hl
    rw [← List.append_assoc] at hs
    obtain ⟨rfl, rfl⟩ := List.append_inj hs hal.symm
    exact ⟨a₁, a₂, rfl, hx, hy⟩
  · rintro ⟨a₁, a₂, rfl, hx, hy⟩
    have hy' := hy.run_after a₁
    rw [Reads] at hx
    simp only [Reads, run, List.append_assoc, hx, Option.bind_some, hy', Option.map_some,
      List.length_append]

@[simp] theorem reads_before {x : Rule α} {y : Rule β} {w : β} :
    Reads (before x y) a w b ↔
      ∃ a₁ a₂, a = a₁ ++ a₂ ∧ (∃ v, Reads x a₁ v (a₂ ++ b)) ∧ Reads y a₂ w b := by
  simp only [before, reads_map, reads_both]
  constructor
  · rintro ⟨v, ⟨a₁, a₂, ha, hx, hy⟩, rfl⟩
    exact ⟨a₁, a₂, ha, ⟨v.1, hx⟩, hy⟩
  · rintro ⟨a₁, a₂, ha, ⟨v, hx⟩, hy⟩
    exact ⟨(v, w), ⟨a₁, a₂, ha, hx, hy⟩, rfl⟩

theorem fails_before_text {t : Text} {y : Rule β} (h : ∀ c, s ≠ t ++ c) :
    Fails (before (text t) y) s := by
  apply fails_iff.mpr
  intro a v b he hr
  obtain ⟨_, c, rfl, ⟨_, ht⟩, -⟩ := reads_before.mp hr
  obtain ⟨rfl, -⟩ := reads_text.mp ht
  exact h (c ++ b) (by rw [he, List.append_assoc])

@[simp] theorem reads_followedBy {x : Rule α} {y : Rule β} {v : α} :
    Reads (followedBy x y) a v b ↔
      ∃ a₁ a₂, a = a₁ ++ a₂ ∧ Reads x a₁ v (a₂ ++ b) ∧ ∃ w, Reads y a₂ w b := by
  simp only [followedBy, reads_map, reads_both]
  constructor
  · rintro ⟨w, ⟨a₁, a₂, ha, hx, hy⟩, rfl⟩
    exact ⟨a₁, a₂, ha, hx, w.2, hy⟩
  · rintro ⟨a₁, a₂, ha, hx, w, hy⟩
    exact ⟨(v, w), ⟨a₁, a₂, ha, hx, hy⟩, rfl⟩

@[simp] theorem reads_between_text {o c : Text} {r : Rule α} {v : α} :
    Reads (between (text o) r (text c)) a v b ↔ ∃ t, a = o ++ t ++ c ∧ Reads r t v (c ++ b) := by
  simp only [between, reads_before, reads_followedBy, reads_text]
  constructor
  · rintro ⟨_, _, rfl, ⟨_, rfl, rfl⟩, t, _, rfl, hr, _, rfl, rfl⟩
    exact ⟨t, (List.append_assoc ..).symm, hr⟩
  · rintro ⟨t, rfl, hr⟩
    exact ⟨o, t ++ c, List.append_assoc .., ⟨o, rfl, rfl⟩, t, c, rfl, hr, c, rfl, rfl⟩

@[simp] theorem reads_orElse {x y : Rule α} {v : α} :
    Reads (orElse x y) a v b ↔ Reads x a v b ∨ Fails x (a ++ b) ∧ Reads y a v b := by
  simp only [Reads, Fails, run, Option.or_eq_some_iff]

@[simp] theorem reads_optional {r : Rule α} {v : Option α} :
    Reads (optional r) a v b ↔
      (∃ w, v = some w ∧ Reads r a w b) ∨ v = none ∧ a = [] ∧ Fails r b := by
  simp only [Reads, Fails, run]
  cases h : r.run (a ++ b) 0 with
  | none =>
    simp only [Option.some.injEq, Match.mk.injEq, reduceCtorEq, and_false, exists_false, false_or]
    constructor
    · rintro ⟨rfl, hl⟩
      have ha : a = [] := List.length_eq_zero_iff.mp hl.symm
      subst ha
      exact ⟨rfl, rfl, h⟩
    · rintro ⟨rfl, rfl, -⟩
      exact ⟨rfl, rfl⟩
  | some m =>
    obtain ⟨w, stop⟩ := m
    simp only [Option.some.injEq, Match.mk.injEq]
    constructor
    · rintro ⟨rfl, rfl⟩
      exact .inl ⟨w, rfl, rfl, rfl⟩
    · rintro (⟨_, rfl, rfl, rfl⟩ | ⟨-, rfl, hb⟩)
      · exact ⟨rfl, rfl⟩
      · rw [List.nil_append, hb] at h
        cases h

theorem parse?_map {f : α → β} {r : Rule α} : (map f r).parse? s = (r.parse? s).map f := by
  ext w
  simp only [parse?_eq_some_iff_reads, reads_map, Option.map_eq_some_iff]

/-- Where the first rule is known to stop, the second reads the rest as a whole text. -/
theorem Reads.parse?_both {x : Rule α} {y : Rule β} {v : α} (h : Reads x a v s) :
    (both x y).parse? (a ++ s) = (y.parse? s).map fun w => (v, w) := by
  ext ⟨v', w⟩
  simp only [parse?_eq_some_iff_reads, reads_both, List.append_nil, Option.map_eq_some_iff,
    Prod.mk.injEq]
  constructor
  · rintro ⟨a', s', he, hx, hy⟩
    obtain ⟨-, rfl, rfl⟩ := h.unique hx he
    exact ⟨w, hy, rfl, rfl⟩
  · rintro ⟨_, hy, rfl, rfl⟩
    exact ⟨a, s, rfl, h, hy⟩

end MailEnvelope.Rule
