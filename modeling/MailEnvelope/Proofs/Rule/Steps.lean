import MailEnvelope.Proofs.Rule.Evaluation

namespace MailEnvelope.Rule

/-- Steps one after another, each of which advances, with the values that they give. -/
inductive Steps {α : Type} (step : Nat → Option (Match α)) : Nat → List α → Nat → Prop
  | nil {pos} : Steps step pos [] pos
  | cons {pos next stop v vs} : step pos = some ⟨v, next⟩ → pos < next →
      Steps step next vs stop → Steps step pos (v :: vs) stop

/-- There is no step from here that advances: it fails, or it stays where it is. -/
def Idle {α : Type} (step : Nat → Option (Match α)) (pos : Nat) : Prop :=
  step pos = none ∨ ∃ v, step pos = some ⟨v, pos⟩

variable {α β γ : Type} {r : Rule α} {item : Rule β} {sep : Rule γ} {s : Text} {pos stop : Nat}

theorem Idle.stop_eq {step : Nat → Option (Match α)} (h : Idle step pos) :
    ∀ m, step pos = some m → m.stop = pos := by
  intro m hm
  rcases h with h | ⟨v, h⟩ <;> rw [h] at hm
  · cases hm
  · rw [← Option.some.inj hm]

theorem Steps.last {step : Nat → Option (Match α)} {vs : List α} (h : Steps step pos vs stop) :
    (vs = [] ∧ pos = stop) ∨ ∃ v start, vs.getLast? = some v ∧ step start = some ⟨v, stop⟩ := by
  induction h with
  | nil => exact .inl ⟨rfl, rfl⟩
  | @cons pos next stop v vs hv _ _ ih =>
    right
    rw [List.getLast?_cons]
    rcases ih with ⟨rfl, rfl⟩ | ⟨w, start, hw, hstep⟩
    · exact ⟨v, pos, rfl, hv⟩
    · exact ⟨w, start, by rw [hw, Option.getD_some], hstep⟩

/-- A repetition stops at once where there is nothing to take, also if it came there itself. -/
theorem run_many_of_idle (h : Idle (r.run s) pos) : (many r).run s pos = some ⟨[], pos⟩ :=
  run_many_stays h.stop_eq

theorem run_many_of_steps {vs : List α} (h : Steps (r.run s) pos vs stop)
    (hidle : Idle (r.run s) stop) : (many r).run s pos = some ⟨vs, stop⟩ := by
  induction h with
  | nil => exact run_many_of_idle hidle
  | cons hr hlt _ ih => rw [run_many_moves hr (Nat.ne_of_gt hlt), ih hidle, Option.map_some]

theorem exists_steps (r : Rule α) (s : Text) (pos : Nat) :
    ∃ vs stop, Steps (r.run s) pos vs stop ∧ Idle (r.run s) stop := by
  induction pos using moves_induction r s with
  | step pos ih =>
    cases hr : r.run s pos with
    | none => exact ⟨[], pos, .nil, .inl hr⟩
    | some m =>
      obtain ⟨v, next⟩ := m
      rcases Nat.eq_or_lt_of_le (run_bounds r s pos _ hr).1 with rfl | hlt
      · exact ⟨[], pos, .nil, .inr ⟨v, hr⟩⟩
      · obtain ⟨vs, stop, hs, hidle⟩ := ih _ hr (Nat.ne_of_gt hlt)
        exact ⟨v :: vs, stop, .cons hr hlt hs, hidle⟩

theorem run_many_iff {vs : List α} : (many r).run s pos = some ⟨vs, stop⟩ ↔
    Steps (r.run s) pos vs stop ∧ Idle (r.run s) stop := by
  constructor
  · intro h
    obtain ⟨ws, last, hs, hidle⟩ := exists_steps r s pos
    rw [run_many_of_steps hs hidle, Option.some.injEq, Match.mk.injEq] at h
    obtain ⟨rfl, rfl⟩ := h
    exact ⟨hs, hidle⟩
  · rintro ⟨hs, hidle⟩
    exact run_many_of_steps hs hidle

/-- A step of a list after its first item: a separator, and an item where that ends. -/
def nextItem (item : Rule β) (sep : Rule γ) (s : Text) (pos : Nat) : Option (Match β) :=
  (sep.run s pos).bind fun m => item.run s m.stop

theorem run_separatedBy_iff {vs : List β} : (separatedBy item sep).run s pos = some ⟨vs, stop⟩ ↔
    ∃ v first ws, vs = v :: ws ∧ item.run s pos = some ⟨v, first⟩ ∧
      Steps (nextItem item sep s) first ws stop ∧ Idle (nextItem item sep s) stop := by
  have hstep : (before sep item).run s = nextItem item sep s := by
    funext p
    exact run_before s p sep item
  rw [run_separatedBy, Option.bind_eq_some_iff, ← hstep]
  constructor
  · rintro ⟨⟨v, first⟩, hv, hrest⟩
    obtain ⟨⟨ws, last⟩, hws, he⟩ := Option.map_eq_some_iff.mp hrest
    obtain ⟨rfl, rfl⟩ := Match.mk.inj he
    exact ⟨v, first, ws, rfl, hv, run_many_iff.mp hws⟩
  · rintro ⟨v, first, ws, rfl, hv, hws⟩
    exact ⟨⟨v, first⟩, hv, by rw [run_many_iff.mpr hws, Option.map_some]⟩

theorem run_separatedBy_isSome :
    ((separatedBy item sep).run s pos).isSome ↔ (item.run s pos).isSome := by
  rw [run_separatedBy]
  cases item.run s pos <;> rfl

theorem run_separatedBy_last {vs : List β}
    (h : (separatedBy item sep).run s pos = some ⟨vs, stop⟩) :
    ∃ v start, vs.getLast? = some v ∧ item.run s start = some ⟨v, stop⟩ := by
  obtain ⟨v, first, ws, rfl, hv, hws, -⟩ := run_separatedBy_iff.mp h
  rw [List.getLast?_cons]
  rcases hws.last with ⟨rfl, rfl⟩ | ⟨w, start, hw, hstep⟩
  · exact ⟨v, pos, rfl, hv⟩
  · obtain ⟨m, -, hitem⟩ := Option.bind_eq_some_iff.mp hstep
    exact ⟨w, m.stop, by rw [hw, Option.getD_some], hitem⟩

/-- A repetition takes a step for as long as one advances, and so does a list of items with
separators: it ends where an item ends, so a separator that no item follows is left unread. -/
theorem repetition_takes_every_step (r : Rule α) (item : Rule β) (sep : Rule γ) (s : Text)
    (pos : Nat) :
    ((many r).run s pos).isSome ∧
    (∀ vs stop, (many r).run s pos = some ⟨vs, stop⟩ ↔
      Steps (r.run s) pos vs stop ∧ Idle (r.run s) stop) ∧
    (∀ vs stop, (many r).run s pos = some ⟨vs, stop⟩ → (many r).run s stop = some ⟨[], stop⟩) ∧
    (((separatedBy item sep).run s pos).isSome ↔ (item.run s pos).isSome) ∧
    (∀ vs stop, (separatedBy item sep).run s pos = some ⟨vs, stop⟩ ↔
      ∃ v first ws, vs = v :: ws ∧ item.run s pos = some ⟨v, first⟩ ∧
        Steps (nextItem item sep s) first ws stop ∧ Idle (nextItem item sep s) stop) ∧
    (∀ vs stop, (separatedBy item sep).run s pos = some ⟨vs, stop⟩ →
      ∃ v start, vs.getLast? = some v ∧ item.run s start = some ⟨v, stop⟩) ∧
    (∀ v first ws stop m, item.run s pos = some ⟨v, first⟩ →
      Steps (nextItem item sep s) first ws stop → sep.run s stop = some m →
      item.run s m.stop = none → (separatedBy item sep).run s pos = some ⟨v :: ws, stop⟩) := by
  refine ⟨rfl, fun _ _ => run_many_iff, ?_, run_separatedBy_isSome, fun _ _ => run_separatedBy_iff,
    fun _ _ => run_separatedBy_last, ?_⟩
  · intro vs stop h
    exact run_many_of_idle (run_many_iff.mp h).2
  · intro v first ws stop m hv hws hsep hitem
    have hidle : nextItem item sep s stop = none := by
      rw [nextItem, hsep, Option.bind_some, hitem]
    exact run_separatedBy_iff.mpr ⟨v, first, ws, rfl, hv, hws, .inl hidle⟩

/-- A separator with no item after it stays unread, and a match of nothing ends a repetition. -/
theorem repetition_takes_every_step_dangling :
    let item := text "a"
    let sep := text ","
    let s := Text.ofString "a,a,b"
    ((many (optional item)).run s 0 = some ⟨[some "a"], 1⟩ ∧
      (many (optional item)).run s 1 = some ⟨[], 1⟩) ∧
    ((separatedBy item sep).run s 0 = some ⟨["a", "a"], 3⟩ ∧
      ∃ v start, [Text.ofString "a", "a"].getLast? = some v ∧ item.run s start = some ⟨v, 3⟩) ∧
    (item.run s 0 = some ⟨"a", 1⟩ ∧ Steps (nextItem item sep s) 1 ["a"] 3 ∧
      sep.run s 3 = some ⟨",", 4⟩ ∧ item.run s 4 = none ∧
      (separatedBy item sep).run s 0 = some ⟨["a", "a"], 3⟩) := by
  intro item sep s
  obtain ⟨-, -, hagain, -, -, hlast, hdangling⟩ :=
    repetition_takes_every_step (optional item) item sep s 0
  have hmany : (many (optional item)).run s 0 = some ⟨[some "a"], 1⟩ := by decide
  have hlist : (separatedBy item sep).run s 0 = some ⟨["a", "a"], 3⟩ := by decide
  have hfirst : item.run s 0 = some ⟨"a", 1⟩ := by decide
  have hstep : nextItem item sep s 1 = some ⟨"a", 3⟩ := by decide
  have hsteps : Steps (nextItem item sep s) 1 ["a"] 3 := .cons hstep (by decide) .nil
  have hsep : sep.run s 3 = some ⟨",", 4⟩ := by decide
  have hitem : item.run s 4 = none := by decide
  exact ⟨⟨hmany, hagain _ _ hmany⟩, ⟨hlist, hlast _ _ hlist⟩, hfirst, hsteps, hsep, hitem,
    hdangling _ _ _ _ _ hfirst hsteps hsep hitem⟩

end MailEnvelope.Rule
