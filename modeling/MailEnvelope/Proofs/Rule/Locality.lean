import MailEnvelope.Rule

namespace MailEnvelope.Rule

variable {α : Type}

/-- The match that a rule finds when a text of length `n` stands before the one it reads. -/
def shift (n : Nat) (m : Match α) : Match α := ⟨m.value, n + m.stop⟩

theorem slice_append_left (p s : Text) (start stop : Nat) :
    slice (p ++ s) (p.length + start) (p.length + stop) = slice s start stop := by
  rw [slice, slice, List.drop_length_add_append, Nat.add_sub_add_left]

theorem slice_add (s : Text) (start n : Nat) :
    slice s start (start + n) = (s.drop start).take n := by
  rw [slice, Nat.add_sub_cancel_left]

theorem slice_append_drop {start stop : Nat} (s : Text) (h : start ≤ stop) :
    slice s start stop ++ s.drop stop = s.drop start := by
  rw [slice, ← Nat.add_sub_cancel' h, Nat.add_sub_cancel_left, ← List.drop_drop,
    List.take_append_drop]

theorem length_slice {s : Text} {stop : Nat} (h : stop ≤ s.length) (start : Nat) :
    (slice s start stop).length = stop - start := by
  rw [slice, List.length_take, List.length_drop]
  omega

theorem chain_shift {f g : Nat → Option (Match α)} (n : Nat)
    (h : ∀ pos, f (n + pos) = (g pos).map (shift n)) (fuel pos : Nat) :
    chain f fuel (n + pos) = shift n (chain g fuel pos) := by
  induction fuel generalizing pos with
  | zero => rfl
  | succ fuel ih =>
    simp only [chain, h pos]
    cases g pos with
    | none => rfl
    | some m =>
      by_cases hm : m.stop = pos
      · simp [shift, hm]
      · have hm' : n + m.stop ≠ n + pos := by omega
        simp only [Option.map_some, shift, hm, hm', if_false, ih]

/-- A rule never looks back: what stands before its position does not matter. -/
theorem run_append (r : Rule α) (p s : Text) (pos : Nat) :
    r.run (p ++ s) (p.length + pos) = (r.run s pos).map (shift p.length) := by
  -- Positions vary: the second part of a pair and each step of a repetition begin where the last
  -- match ended.
  induction r generalizing pos with
  | text t =>
    simp only [run, List.drop_length_add_append]
    split <;> simp [shift, Nat.add_assoc]
  | textAnyCase t =>
    have hs := slice_append_left p s pos (pos + t.length)
    rw [← Nat.add_assoc] at hs
    simp only [run, hs, List.length_append, Nat.add_le_add_iff_left]
    split <;> simp [shift, Nat.add_assoc]
  | unit c =>
    simp only [run, List.drop_length_add_append]
    cases s.drop pos with
    | nil => rfl
    | cons u t => cases hu : c u <;> simp [hu, shift, Nat.add_assoc]
  | span c min max =>
    simp only [run, List.drop_length_add_append]
    split <;> simp [shift, Nat.add_assoc]
  | atEnd =>
    simp only [run, List.length_append, Nat.add_left_cancel_iff]
    split <;> rfl
  | never => rfl
  | filterMap f r ih =>
    simp only [run, ih]
    cases r.run s pos with
    | none => rfl
    | some m => cases hf : f m.value <;> simp [shift, hf]
  | consumed r ih =>
    simp only [run, ih]
    cases r.run s pos with
    | none => rfl
    | some m => simp [shift, slice_append_left]
  | both a b iha ihb =>
    simp only [run, iha]
    cases a.run s pos with
    | none => rfl
    | some m =>
      simp only [Option.map_some, Option.bind_some, shift, ihb]
      cases b.run s m.stop <;> rfl
  | orElse a b iha ihb =>
    simp only [run, iha, ihb]
    cases a.run s pos <;> rfl
  | optional r ih =>
    simp only [run, ih]
    cases r.run s pos <;> rfl
  | many r ih =>
    simp only [run, List.length_append, Nat.add_sub_add_left, Option.map_some]
    rw [chain_shift p.length ih]

/-- Steps that never go back, nor past the end of a text. -/
def Forward (step : Nat → Option (Match α)) (last : Nat) : Prop :=
  ∀ pos m, step pos = some m → pos ≤ m.stop ∧ m.stop ≤ max pos last

theorem chain_bounds {step : Nat → Option (Match α)} {last : Nat} (h : Forward step last)
    (fuel pos : Nat) :
    pos ≤ (chain step fuel pos).stop ∧ (chain step fuel pos).stop ≤ max pos last := by
  induction fuel generalizing pos with
  | zero => exact ⟨Nat.le_refl pos, Nat.le_max_left ..⟩
  | succ fuel ih =>
    rw [chain]
    cases hs : step pos with
    | none => exact ⟨Nat.le_refl pos, Nat.le_max_left ..⟩
    | some m =>
      by_cases hm : m.stop = pos
      · simp only [hm, if_true]
        exact ⟨Nat.le_refl pos, Nat.le_max_left ..⟩
      · have hb := h pos m hs
        have hr := ih m.stop
        simp only [hm, if_false]
        omega

theorem run_bounds (r : Rule α) (s : Text) : Forward (r.run s) s.length := by
  intro pos m h
  induction r generalizing pos with
  | text t =>
    simp only [run, Option.ite_none_right_eq_some, Option.some.injEq] at h
    obtain ⟨hp, rfl⟩ := h
    have hl := (List.isPrefixOf_iff_prefix.mp hp).length_le
    rw [List.length_drop] at hl
    dsimp only
    omega
  | textAnyCase t =>
    simp only [run, Option.ite_none_right_eq_some, Option.some.injEq] at h
    obtain ⟨⟨hp, hf⟩, rfl⟩ := h
    have hl := congrArg List.length hf
    simp only [Text.fold, slice, List.length_map, List.length_take, List.length_drop] at hl
    dsimp only
    omega
  | unit c =>
    simp only [run] at h
    cases hd : s.drop pos with
    | nil => simp [hd] at h
    | cons u t =>
      have hl := congrArg List.length hd
      simp only [List.length_drop, List.length_cons] at hl
      simp only [hd, Option.ite_none_right_eq_some, Option.some.injEq] at h
      obtain ⟨-, rfl⟩ := h
      dsimp only
      omega
  | span c min max =>
    simp only [run, Option.ite_none_right_eq_some, Option.some.injEq] at h
    obtain ⟨-, rfl⟩ := h
    have hl := (List.takeWhile_prefix (l := s.drop pos) c).length_le
    simp only [List.length_drop] at hl
    simp only [List.length_take]
    omega
  | atEnd =>
    simp only [run, Option.ite_none_right_eq_some, Option.some.injEq] at h
    obtain ⟨rfl, rfl⟩ := h
    simp
  | never => simp [run] at h
  | filterMap f r ih =>
    simp only [run, Option.bind_eq_some_iff, Option.map_eq_some_iff] at h
    obtain ⟨n, hn, v, -, rfl⟩ := h
    exact ih pos n hn
  | consumed r ih =>
    simp only [run, Option.map_eq_some_iff] at h
    obtain ⟨n, hn, rfl⟩ := h
    exact ih pos n hn
  | both a b iha ihb =>
    simp only [run, Option.bind_eq_some_iff, Option.map_eq_some_iff] at h
    obtain ⟨k, hk, n, hn, rfl⟩ := h
    have ha := iha pos k hk
    have hb := ihb k.stop n hn
    dsimp only
    omega
  | orElse a b iha ihb =>
    simp only [run, Option.or_eq_some_iff] at h
    rcases h with ha | ⟨-, hb⟩
    · exact iha pos m ha
    · exact ihb pos m hb
  | optional r ih =>
    simp only [run] at h
    cases hr : r.run s pos with
    | none =>
      simp only [hr, Option.some.injEq] at h
      subst h
      exact ⟨Nat.le_refl pos, Nat.le_max_left ..⟩
    | some n =>
      simp only [hr, Option.some.injEq] at h
      subst h
      exact ih pos n hr
  | many r ih =>
    simp only [run, Option.some.injEq] at h
    subst h
    exact chain_bounds ih _ pos

/-- What a rule finds does not depend on the text before its position, which only counts towards the
place where the match ends. -/
theorem never_looks_back (r : Rule α) (p s : Text) (pos : Nat) :
    ((r.run (p ++ s) (p.length + pos)).isSome ↔ (r.run s pos).isSome) ∧
    ∀ v stop, r.run (p ++ s) (p.length + pos) = some ⟨v, stop⟩ ↔
      ∃ e, stop = p.length + e ∧ r.run s pos = some ⟨v, e⟩ := by
  rw [run_append]
  refine ⟨by simp, ?_⟩
  intro v stop
  simp only [Option.map_eq_some_iff, shift, Match.mk.injEq]
  constructor
  · rintro ⟨⟨w, e⟩, hr, rfl, rfl⟩
    exact ⟨e, rfl, hr⟩
  · rintro ⟨e, rfl, hr⟩
    exact ⟨⟨v, e⟩, hr, rfl, rfl⟩

end MailEnvelope.Rule
