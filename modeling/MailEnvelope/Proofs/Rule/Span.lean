import MailEnvelope.Proofs.Rule.Reads
import MailEnvelope.Proofs.Rule.Steps

namespace MailEnvelope.Rule

/-- From a position on, so many units are of a class, and no unit of it follows them. -/
structure RunLength (c : CharClass) (s : Text) (pos n : Nat) : Prop where
  inside : ∀ i < n, ∃ u ∈ s[pos + i]?, c u
  ends : ∀ u ∈ s[pos + n]?, c u = false

variable {c : CharClass} {s : Text} {pos n : Nat}

theorem run_unit_eq (c : CharClass) (s : Text) (pos : Nat) :
    (unit c).run s pos = s[pos]?.bind fun u => if c u then some ⟨[u], pos + 1⟩ else none := by
  rw [run, ← List.head?_drop]
  cases s.drop pos <;> rfl

theorem idle_unit_iff : Idle ((unit c).run s) pos ↔ ∀ u ∈ s[pos]?, c u = false := by
  rw [Idle, run_unit_eq]
  cases s[pos]? with
  | none => simp
  | some u => cases hc : c u <;> simp [hc]

namespace RunLength

theorem succ_iff : RunLength c s pos (n + 1) ↔
    (∃ u ∈ s[pos]?, c u) ∧ RunLength c s (pos + 1) n := by
  have hshift (i : Nat) : pos + (i + 1) = pos + 1 + i := by omega
  constructor
  · intro h
    refine ⟨h.inside 0 (Nat.succ_pos n), ⟨fun i hi => ?_, ?_⟩⟩
    · rw [← hshift]
      exact h.inside (i + 1) (Nat.succ_lt_succ hi)
    · rw [← hshift]
      exact h.ends
  · rintro ⟨hu, h⟩
    refine ⟨fun i hi => ?_, ?_⟩
    · cases i with
      | zero => exact hu
      | succ i =>
        rw [hshift]
        exact h.inside i (Nat.lt_of_succ_lt_succ hi)
    · rw [hshift]
      exact h.ends

theorem steps (h : RunLength c s pos n) : Steps ((unit c).run s) pos
    ((slice s pos (pos + n)).map fun u => [u]) (pos + n) := by
  induction n generalizing pos with
  | zero =>
    rw [slice_add, List.take_zero]
    exact .nil
  | succ n ih =>
    obtain ⟨⟨u, hu, hc⟩, htail⟩ := succ_iff.mp h
    rw [Option.mem_def] at hu
    have hcut : slice s pos (pos + (n + 1)) = u :: slice s (pos + 1) (pos + 1 + n) := by
      rw [slice_add, slice_add, List.drop_eq_getElem?_toList_append, hu]
      rfl
    have hstep : (unit c).run s pos = some ⟨[u], pos + 1⟩ := by
      rw [run_unit_eq, hu, Option.bind_some, if_pos hc]
    have hstop : pos + (n + 1) = pos + 1 + n := by omega
    rw [hcut, List.map_cons, hstop]
    exact .cons hstep (Nat.lt_succ_self pos) (ih htail)

theorem run_many (h : RunLength c s pos n) : (many (unit c)).run s pos =
    some ⟨(slice s pos (pos + n)).map fun u => [u], pos + n⟩ :=
  run_many_of_steps h.steps (idle_unit_iff.mpr h.ends)

theorem length_slice (h : RunLength c s pos n) : (slice s pos (pos + n)).length = n := by
  cases n with
  | zero => rw [slice_add, List.take_zero, List.length_nil]
  | succ n =>
    obtain ⟨u, hu, -⟩ := h.inside n (Nat.lt_succ_self n)
    have hlt : pos + (n + 1) ≤ s.length := (List.getElem?_eq_some_iff.mp hu).1
    rw [Rule.length_slice hlt, Nat.add_sub_cancel_left]

theorem takeWhile_eq (h : RunLength c s pos n) :
    (s.drop pos).takeWhile c = slice s pos (pos + n) := by
  rw [← slice_append_drop s (Nat.le_add_right pos n), takeWhile_append_outside]
  · intro u hu
    obtain ⟨i, hi⟩ := List.mem_iff_getElem?.mp hu
    rw [slice_add, List.getElem?_take] at hi
    split at hi
    · next hlt =>
      obtain ⟨w, hw, hc⟩ := h.inside i hlt
      rw [List.getElem?_drop, hw] at hi
      exact Option.some.inj hi ▸ hc
    · cases hi
  · intro u hu
    rw [List.head?_drop] at hu
    exact h.ends u hu

theorem unique {k : Nat} (h : RunLength c s pos n) (hk : RunLength c s pos k) : k = n := by
  rw [← hk.length_slice, ← hk.takeWhile_eq, h.takeWhile_eq, h.length_slice]

theorem run_span (h : RunLength c s pos n) (least : Nat) (most : Option Nat) :
    (span c least most).run s pos = if least ≤ min (most.getD n) n then
      some ⟨slice s pos (pos + min (most.getD n) n), pos + min (most.getD n) n⟩ else none := by
  have hlength := h.length_slice
  have htake : (slice s pos (pos + n)).take (most.getD n) =
      slice s pos (pos + min (most.getD n) n) := by
    rw [slice_add, slice_add, List.take_take]
  have htaken := congrArg List.length htake
  rw [List.length_take, hlength] at htaken
  simp only [run, h.takeWhile_eq, hlength, htake, ← htaken]

end RunLength

theorem exists_runLength (c : CharClass) (s : Text) (pos : Nat) : ∃ n, RunLength c s pos n := by
  obtain ⟨vs, stop, hs, hidle⟩ := exists_steps (unit c) s pos
  induction hs with
  | nil => exact ⟨0, fun i hi => absurd hi (Nat.not_lt_zero i), idle_unit_iff.mp hidle⟩
  | cons hstep _ _ ih =>
    obtain ⟨n, hn⟩ := ih hidle
    rw [run_unit_eq, Option.bind_eq_some_iff] at hstep
    obtain ⟨u, hu, hif⟩ := hstep
    rw [Option.ite_none_right_eq_some, Option.some.injEq, Match.mk.injEq] at hif
    obtain ⟨hc, -, rfl⟩ := hif
    exact ⟨n + 1, RunLength.succ_iff.mpr ⟨⟨u, hu, hc⟩, hn⟩⟩

theorem run_span_eq_many (c : CharClass) (s : Text) (pos : Nat) :
    (span c 0 none).run s pos = (consumed (many (unit c))).run s pos := by
  obtain ⟨n, h⟩ := exists_runLength c s pos
  rw [h.run_span, Option.getD_none, Nat.min_self, if_pos (Nat.zero_le n), run, h.run_many,
    Option.map_some]

theorem run_spanOne_eq_manyOne (c : CharClass) (s : Text) (pos : Nat) :
    (spanOne c).run s pos = (consumed (manyOne (unit c))).run s pos := by
  obtain ⟨n, h⟩ := exists_runLength c s pos
  rw [spanOne, h.run_span, Option.getD_none, Nat.min_self, run, run_manyOne, h.run_many]
  -- The span is refused for its length, and the repetition for a list without items.
  cases n with
  | zero =>
    rw [List.length_eq_zero_iff.mp h.length_slice]
    rfl
  | succ n =>
    obtain ⟨u, t, hs⟩ := List.exists_cons_of_length_eq_add_one h.length_slice
    have hsome : (!((slice s pos (pos + (n + 1))).map fun u => [u]).isEmpty) = true := by
      rw [hs]
      rfl
    rw [if_pos (Nat.le_add_left 1 n), Option.filter_some, if_pos hsome, Option.map_some]

/-- A span is a repetition of its class. With bounds it is the run of the class, cut at the upper
bound, if that is as long as the lower bound asks. A lower bound below zero asks for nothing. -/
theorem span_is_repetition (c : CharClass) (s : Text) (pos : Nat) :
    (span c 0 none).run s pos = (consumed (many (unit c))).run s pos ∧
    (spanOne c).run s pos = (consumed (manyOne (unit c))).run s pos ∧
    (∃! n, RunLength c s pos n) ∧
    ∀ n, RunLength c s pos n → ∀ (least : Int) (most : Option Nat),
      let taken := min (most.getD n) n
      (((span c least.toNat most).run s pos).isSome ↔ least ≤ taken) ∧
      ∀ m, (span c least.toNat most).run s pos = some m →
        m = ⟨slice s pos (pos + taken), pos + taken⟩ := by
  refine ⟨run_span_eq_many c s pos, run_spanOne_eq_manyOne c s pos, ?_, ?_⟩
  · obtain ⟨n, h⟩ := exists_runLength c s pos
    exact ⟨n, h, fun _ => h.unique⟩
  · intro n h least most taken
    rw [h.run_span least.toNat most]
    constructor
    · rw [Option.isSome_ite, Int.toNat_le]
    · intro m hm
      rw [Option.ite_none_right_eq_some, Option.some.injEq] at hm
      exact hm.2.symm

/-- Of a run of three digits two are taken where two are allowed, and none where four are asked. -/
theorem span_is_repetition_cut :
    let s := Text.ofString "x123y"
    RunLength .digit s 1 3 ∧ ((span .digit 1 (some 2)).run s 1).isSome ∧
    ((span .digit 1 (some 2)).run s 1 = some ⟨"12", 3⟩ ∧
      (⟨"12", 3⟩ : Match Text) = ⟨slice s 1 3, 3⟩) ∧
    ¬ ((span .digit 4 none).run s 1).isSome := by
  intro s
  obtain ⟨-, -, -, hbounds⟩ := span_is_repetition .digit s 1
  have hlength : RunLength .digit s 1 3 := ⟨by decide, by decide⟩
  obtain ⟨hcut, hvalue⟩ := hbounds 3 hlength 1 (some 2)
  obtain ⟨hfour, -⟩ := hbounds 3 hlength 4 none
  have hrun : (span .digit 1 (some 2)).run s 1 = some ⟨"12", 3⟩ := by decide
  exact ⟨hlength, hcut.mpr (by decide), ⟨hrun, hvalue _ hrun⟩,
    fun h => absurd (hfour.mp h) (by decide)⟩

end MailEnvelope.Rule
