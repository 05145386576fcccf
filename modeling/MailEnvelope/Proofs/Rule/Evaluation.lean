import MailEnvelope.Proofs.Rule.Locality

namespace MailEnvelope.Rule

/-- How a rule is evaluated at a position, with nothing to limit how often a repetition goes on: it
ends at a step that fails or reads nothing, and only there. -/
inductive Evaluates (s : Text) : {α : Type} → Rule α → Nat → Option (Match α) → Prop
  | text {t pos} : Evaluates s (text t) pos ((text t).run s pos)
  | textAnyCase {t pos} : Evaluates s (textAnyCase t) pos ((textAnyCase t).run s pos)
  | unit {c pos} : Evaluates s (unit c) pos ((unit c).run s pos)
  | span {c min max pos} : Evaluates s (span c min max) pos ((span c min max).run s pos)
  | atEnd {pos} : Evaluates s atEnd pos (atEnd.run s pos)
  | never {α : Type} {pos} : Evaluates s (never : Rule α) pos none
  | filterMap {α β : Type} {f : α → Option β} {r : Rule α} {pos o} : Evaluates s r pos o →
      Evaluates s (filterMap f r) pos (o.bind fun m => (f m.value).map fun v => ⟨v, m.stop⟩)
  | consumed {α : Type} {r : Rule α} {pos o} : Evaluates s r pos o →
      Evaluates s (consumed r) pos (o.map fun m => ⟨slice s pos m.stop, m.stop⟩)
  | bothFails {α β : Type} {a : Rule α} {b : Rule β} {pos} : Evaluates s a pos none →
      Evaluates s (both a b) pos none
  | both {α β : Type} {a : Rule α} {b : Rule β} {pos m o} : Evaluates s a pos (some m) →
      Evaluates s b m.stop o →
      Evaluates s (both a b) pos (o.map fun n => ⟨(m.value, n.value), n.stop⟩)
  | first {α : Type} {a b : Rule α} {pos m} : Evaluates s a pos (some m) →
      Evaluates s (orElse a b) pos (some m)
  | second {α : Type} {a b : Rule α} {pos o} : Evaluates s a pos none → Evaluates s b pos o →
      Evaluates s (orElse a b) pos o
  | absent {α : Type} {r : Rule α} {pos} : Evaluates s r pos none →
      Evaluates s (optional r) pos (some ⟨none, pos⟩)
  | present {α : Type} {r : Rule α} {pos m} : Evaluates s r pos (some m) →
      Evaluates s (optional r) pos (some ⟨some m.value, m.stop⟩)
  | manyFails {α : Type} {r : Rule α} {pos} : Evaluates s r pos none →
      Evaluates s (many r) pos (some ⟨[], pos⟩)
  | manyStays {α : Type} {r : Rule α} {pos m} : Evaluates s r pos (some m) → m.stop = pos →
      Evaluates s (many r) pos (some ⟨[], pos⟩)
  | manyMoves {α : Type} {r : Rule α} {pos m n} : Evaluates s r pos (some m) → m.stop ≠ pos →
      Evaluates s (many r) m.stop (some n) →
      Evaluates s (many r) pos (some ⟨m.value :: n.value, n.stop⟩)

variable {α : Type} {s : Text} {pos : Nat}

section chain

variable {step : Nat → Option (Match α)} {last : Nat}

theorem chain_end (h : Forward step last) (hpos : last ≤ pos) (fuel : Nat) :
    chain step fuel pos = ⟨[], pos⟩ := by
  cases fuel with
  | zero => rfl
  | succ fuel =>
    rw [chain]
    cases hs : step pos with
    | none => rfl
    | some m =>
      have hb := h pos m hs
      have hm : m.stop = pos := by omega
      simp [hm]

/-- A unit of fuel for each unit of text that is left is enough, and more of it changes nothing. -/
theorem chain_fuel (h : Forward step last) {f g : Nat} (hf : last - pos ≤ f)
    (hg : last - pos ≤ g) : chain step f pos = chain step g pos := by
  induction f generalizing g pos with
  | zero => rw [chain_end h (by omega), chain_end h (by omega)]
  | succ f ih =>
    rcases Nat.lt_or_ge pos last with hlt | hge
    · obtain ⟨g, rfl⟩ := Nat.exists_eq_succ_of_ne_zero (n := g) (by omega)
      rw [chain, chain]
      cases hs : step pos with
      | none => rfl
      | some m =>
        have hb := h pos m hs
        by_cases hm : m.stop = pos
        · simp [hm]
        · simp only [hm, if_false]
          have hf' : last - m.stop ≤ f := by omega
          have hg' : last - m.stop ≤ g := by omega
          rw [ih hf' hg']
    · rw [chain_end h hge, chain_end h hge]

theorem chain_moves (h : Forward step last) {m : Match α} (hs : step pos = some m)
    (hm : m.stop ≠ pos) : chain step (last - pos) pos =
      ⟨m.value :: (chain step (last - m.stop) m.stop).value,
        (chain step (last - m.stop) m.stop).stop⟩ := by
  have hb := h pos m hs
  obtain ⟨fuel, hfuel⟩ := Nat.exists_eq_succ_of_ne_zero (n := last - pos) (by omega)
  rw [hfuel, chain, hs]
  simp only [hm, if_false]
  have hf : last - m.stop ≤ fuel := by omega
  rw [chain_fuel h hf (Nat.le_refl _)]

theorem chain_length (h : Forward step last) (fuel pos : Nat) :
    pos + (chain step fuel pos).value.length ≤ (chain step fuel pos).stop := by
  induction fuel generalizing pos with
  | zero => exact Nat.le_refl pos
  | succ fuel ih =>
    rw [chain]
    cases hs : step pos with
    | none => exact Nat.le_refl pos
    | some m =>
      have hb := h pos m hs
      have hr := ih m.stop
      by_cases hm : m.stop = pos
      · simp [hm]
      · simp only [hm, if_false, List.length_cons]
        omega

end chain

theorem run_many_moves {r : Rule α} {m : Match α} (hr : r.run s pos = some m)
    (hm : m.stop ≠ pos) : (many r).run s pos =
      ((many r).run s m.stop).map fun n => ⟨m.value :: n.value, n.stop⟩ := by
  rw [run, run, chain_moves (run_bounds r s) hr hm]
  rfl

theorem run_many_stays {r : Rule α} (h : ∀ m, r.run s pos = some m → m.stop = pos) :
    (many r).run s pos = some ⟨[], pos⟩ := by
  rw [run]
  cases s.length - pos with
  | zero => rfl
  | succ fuel =>
    rw [chain]
    cases hr : r.run s pos with
    | none => rfl
    | some m => simp [h m hr]

theorem Evaluates.run_eq {r : Rule α} {o : Option (Match α)} (h : Evaluates s r pos o) :
    r.run s pos = o := by
  induction h with
  | text | textAnyCase | unit | span | atEnd | never => rfl
  | filterMap _ ih => rw [run, ih]
  | consumed _ ih => rw [run, ih]
  | bothFails _ ih => rw [run, ih, Option.bind_none]
  | both _ _ iha ihb => rw [run, iha, Option.bind_some, ihb]
  | first _ ih => rw [run, ih, Option.some_or]
  | second _ _ iha ihb => rw [run, iha, ihb, Option.none_or]
  | absent _ ih => rw [run, ih]
  | present _ ih => rw [run, ih]
  | manyFails _ ih => exact run_many_stays fun m hm => by rw [ih] at hm; cases hm
  | manyStays _ hm ih =>
    refine run_many_stays fun n hn => ?_
    rw [ih] at hn
    rw [← Option.some.inj hn, hm]
  | manyMoves _ hm _ ih ihs => rw [run_many_moves ih hm, ihs, Option.map_some]

/-- What is left of the text gets shorter with each match that moves. -/
theorem moves_induction (r : Rule α) (s : Text) {motive : Nat → Prop}
    (step : ∀ pos, (∀ m, r.run s pos = some m → m.stop ≠ pos → motive m.stop) → motive pos)
    (pos : Nat) : motive pos := by
  induction hn : s.length - pos using Nat.strongRecOn generalizing pos with
  | ind n ih =>
    apply step pos
    intro m hm hstop
    have hb := run_bounds r s pos m hm
    exact ih (s.length - m.stop) (by omega) m.stop rfl

theorem evaluates_many {r : Rule α} (h : ∀ pos, Evaluates s r pos (r.run s pos)) (pos : Nat) :
    Evaluates s (many r) pos ((many r).run s pos) := by
  induction pos using moves_induction r s with
  | step pos ih =>
    have hr := h pos
    cases hm : r.run s pos with
    | none =>
      rw [hm] at hr
      rw [run_many_stays (by simp [hm])]
      exact .manyFails hr
    | some m =>
      rw [hm] at hr
      by_cases hstop : m.stop = pos
      · rw [run_many_stays (by simp [hm, hstop])]
        exact .manyStays hr hstop
      · rw [run_many_moves hm hstop]
        exact .manyMoves hr hstop (ih m hm hstop)

theorem evaluates_run (r : Rule α) (s : Text) (pos : Nat) : Evaluates s r pos (r.run s pos) := by
  induction r generalizing pos with
  | text t => exact .text
  | textAnyCase t => exact .textAnyCase
  | unit c => exact .unit
  | span c min max => exact .span
  | atEnd => exact .atEnd
  | never => exact .never
  | filterMap f r ih => exact .filterMap (ih pos)
  | consumed r ih => exact .consumed (ih pos)
  | both a b iha ihb =>
    have ha := iha pos
    rw [run]
    cases hm : a.run s pos with
    | none => exact .bothFails (hm ▸ ha)
    | some m => exact .both (hm ▸ ha) (ihb m.stop)
  | orElse a b iha ihb =>
    have ha := iha pos
    rw [run]
    cases hm : a.run s pos with
    | none => exact .second (hm ▸ ha) (ihb pos)
    | some m => exact .first (hm ▸ ha)
  | optional r ih =>
    have hr := ih pos
    rw [run]
    cases hm : r.run s pos with
    | none => exact .absent (hm ▸ hr)
    | some m => exact .present (hm ▸ hr)
  | many r ih => exact evaluates_many ih pos

/-- Every evaluation ends, without fuel and with one result. -/
theorem evaluates_iff {r : Rule α} {o : Option (Match α)} :
    Evaluates s r pos o ↔ r.run s pos = o := by
  constructor
  · exact Evaluates.run_eq
  · rintro rfl
    exact evaluates_run r s pos

theorem run_many_length {r : Rule α} {m : Match (List α)} (h : (many r).run s pos = some m) :
    pos + m.value.length ≤ m.stop := by
  rw [run, Option.some.injEq] at h
  rw [← h]
  exact chain_length (run_bounds r s) _ pos

theorem run_manyOne_length {r : Rule α} {m : Match (List α)}
    (h : (manyOne r).run s pos = some m) : pos + m.value.length ≤ m.stop := by
  rw [run_manyOne, Option.filter_eq_some_iff] at h
  exact run_many_length h.1

/-- The first item may be empty; each one after it takes a unit, together with its separator. -/
theorem run_separatedBy_length {β : Type} {item : Rule α} {sep : Rule β} {m : Match (List α)}
    (h : (separatedBy item sep).run s pos = some m) : pos + m.value.length ≤ m.stop + 1 := by
  rw [run_separatedBy, Option.bind_eq_some_iff] at h
  obtain ⟨k, hk, hrest⟩ := h
  obtain ⟨n, hn, rfl⟩ := Option.map_eq_some_iff.mp hrest
  have hfirst := run_bounds item s pos k hk
  have hlength := run_many_length hn
  simp only [List.length_cons]
  omega

/-- Evaluation ends with one result, without a limit on its repetitions: no rule goes back or past
the end of the text, and a repetition takes no more items than units. -/
theorem evaluation_ends (r : Rule α) (s : Text) (pos : Nat) :
    (∀ o, Evaluates s r pos o ↔ r.run s pos = o) ∧
    (∀ m, r.run s pos = some m → pos ≤ m.stop ∧ m.stop ≤ max pos s.length) ∧
    (∀ m, (many r).run s pos = some m → pos + m.value.length ≤ m.stop) ∧
    (∀ m, (manyOne r).run s pos = some m → pos + m.value.length ≤ m.stop) ∧
    (∀ (β : Type) (sep : Rule β) m, (separatedBy r sep).run s pos = some m →
      pos + m.value.length ≤ m.stop + 1) := by
  refine ⟨fun _ => evaluates_iff, run_bounds r s pos, ?_, ?_, ?_⟩
  · intro m hm
    exact run_many_length hm
  · intro m hm
    exact run_manyOne_length hm
  · intro β sep m hm
    exact run_separatedBy_length hm

/-- Repetitions of a rule that also matches where it reads nothing, inside the text and past it. -/
theorem evaluation_ends_idle :
    let r := optional (text "a")
    (r.run "aab" 7 = some ⟨none, 7⟩ ∧ 7 ≤ 7 ∧ 7 ≤ max 7 3) ∧
    ((many r).run "aab" 0 = some ⟨[some "a", some "a"], 2⟩ ∧ 0 + 2 ≤ 2) ∧
    ((manyOne r).run "aab" 1 = some ⟨[some "a"], 2⟩ ∧ 1 + 1 ≤ 2) ∧
    ((separatedBy r (text "b")).run "abb" 0 = some ⟨[some "a", none, none], 3⟩ ∧
      0 + 3 ≤ 3 + 1) := by
  intro r
  have hr : r.run "aab" 7 = some ⟨none, 7⟩ := by decide
  have hmany : (many r).run "aab" 0 = some ⟨[some "a", some "a"], 2⟩ := by decide
  have hone : (manyOne r).run "aab" 1 = some ⟨[some "a"], 2⟩ := by decide
  have hsep : (separatedBy r (text "b")).run "abb" 0 =
      some ⟨[some "a", none, none], 3⟩ := by decide
  exact ⟨⟨hr, (evaluation_ends r _ _).2.1 _ hr⟩,
    ⟨hmany, (evaluation_ends r _ _).2.2.1 _ hmany⟩,
    ⟨hone, (evaluation_ends r _ _).2.2.2.1 _ hone⟩,
    ⟨hsep, (evaluation_ends r _ _).2.2.2.2 _ _ _ hsep⟩⟩

end MailEnvelope.Rule
