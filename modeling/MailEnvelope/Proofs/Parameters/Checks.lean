import Mathlib.Data.List.Forall2

namespace MailEnvelope.Checks

variable {α β ε : Type}

@[simp] theorem map_eq_ok_iff {f : α → β} {r : Except ε α} {b : β} :
    r.map f = .ok b ↔ ∃ a, r = .ok a ∧ f a = b := by
  cases r <;> simp [Except.map]

@[simp] theorem map_eq_error_iff {f : α → β} {r : Except ε α} {e : ε} :
    r.map f = .error e ↔ r = .error e := by
  cases r <;> simp [Except.map]

theorem bind_eq_ok_iff {r : Except ε α} {f : α → Except ε β} {b : β} :
    r.bind f = .ok b ↔ ∃ a, r = .ok a ∧ f a = .ok b := by
  cases r <;> simp [Except.bind]

theorem bind_eq_error_iff {r : Except ε α} {f : α → Except ε β} {e : ε} :
    r.bind f = .error e ↔ r = .error e ∨ ∃ a, r = .ok a ∧ f a = .error e := by
  cases r <;> simp [Except.bind]

variable {check : α → Except ε β} {xs : List α}

theorem mapM_cons {x : α} :
    (x :: xs).mapM check = (check x).bind fun y => (xs.mapM check).map (y :: ·) := by
  rw [List.mapM_cons]
  cases check x <;> rfl

theorem mapM_eq_ok_iff {ys : List β} :
    xs.mapM check = .ok ys ↔ List.Forall₂ (fun x y => check x = .ok y) xs ys := by
  induction xs generalizing ys with
  | nil => simp [pure, Except.pure, eq_comm]
  | cons x xs ih =>
    simp only [mapM_cons, bind_eq_ok_iff, map_eq_ok_iff, ih, List.forall₂_cons_left_iff]
    constructor
    · rintro ⟨y, hy, zs, hzs, rfl⟩
      exact ⟨y, zs, hy, hzs, rfl⟩
    · rintro ⟨y, zs, hy, hzs, rfl⟩
      exact ⟨y, hy, zs, hzs, rfl⟩

/-- The first member that does not pass decides. -/
theorem mapM_eq_error_iff {e : ε} : xs.mapM check = .error e ↔
    ∃ front x back, xs = front ++ x :: back ∧ (∀ w ∈ front, ∃ y, check w = .ok y) ∧
      check x = .error e := by
  induction xs with
  | nil => simp [pure, Except.pure]
  | cons x xs ih =>
    simp only [mapM_cons, bind_eq_error_iff, map_eq_error_iff, ih]
    constructor
    · rintro (hx | ⟨y, hx, front, w, back, rfl, hfront, hw⟩)
      · exact ⟨[], x, xs, rfl, by simp, hx⟩
      · exact ⟨x :: front, w, back, rfl, List.forall_mem_cons.mpr ⟨⟨y, hx⟩, hfront⟩, hw⟩
    · rintro ⟨front, w, back, he, hfront, hw⟩
      cases front with
      | nil =>
        obtain ⟨rfl, -⟩ := List.cons.inj he
        exact .inl hw
      | cons v front =>
        obtain ⟨rfl, rfl⟩ := List.cons.inj he
        obtain ⟨⟨y, hy⟩, hfront⟩ := List.forall_mem_cons.mp hfront
        exact .inr ⟨y, hy, front, w, back, rfl, hfront, hw⟩

/-- To set each member as soon as it has passed is to set them all when all have passed. -/
theorem foldlM_map_eq {γ : Type} {set : γ → β → γ} (a : γ) (xs : List α) :
    xs.foldlM (fun a x => (check x).map (set a)) a = (xs.mapM check).map (·.foldl set a) := by
  induction xs generalizing a with
  | nil => rfl
  | cons x xs ih =>
    rw [List.foldlM_cons, mapM_cons]
    cases check x with
    | error e => rfl
    | ok y =>
      change xs.foldlM _ (set a y) = _
      rw [ih]
      cases xs.mapM check <;> rfl

theorem exists_last {P : α → Prop} (h : ∃ x ∈ xs, P x) :
    ∃ front x back, xs = front ++ x :: back ∧ P x ∧ ∀ y ∈ back, ¬ P y := by
  induction xs with
  | nil =>
    obtain ⟨x, hx, -⟩ := h
    cases hx
  | cons w xs ih =>
    by_cases hrest : ∃ x ∈ xs, P x
    · obtain ⟨front, x, back, rfl, hx, hback⟩ := ih hrest
      exact ⟨w :: front, x, back, rfl, hx, hback⟩
    · obtain ⟨x, hmem, hx⟩ := h
      have hw : P w := by
        rcases List.mem_cons.mp hmem with rfl | hmem
        · exact hx
        · exact absurd ⟨x, hmem, hx⟩ hrest
      exact ⟨[], w, xs, rfl, hw, fun y hy hP => hrest ⟨y, hy, hP⟩⟩

/-- Where one key at most is found, a key that is found is any other one that is. -/
theorem some_eq_some_iff_of_found {κ : Type} {found : Option κ} {sets on : κ → Prop}
    (hsets : ∀ k, sets k ↔ found = some k ∧ on k) {j k : κ} (hj : sets j) :
    some j = some k ↔ sets k := by
  constructor
  · rintro ⟨⟩
    exact hj
  · intro hk
    exact ((hsets j).mp hj).1.symm.trans ((hsets k).mp hk).1

theorem find?_word_eq_some_iff {κ τ : Type} [DecidableEq τ] (all : List κ) {word : κ → τ} {k : κ}
    {t : τ} (hall : ∀ k, k ∈ all) (hword : Function.Injective word) :
    all.find? (word · = t) = some k ↔ word k = t := by
  constructor
  · intro h
    have hk := List.find?_some h
    exact of_decide_eq_true hk
  · rintro rfl
    have hsome : (all.find? (word · = word k)).isSome :=
      List.find?_isSome.mpr ⟨k, hall k, decide_eq_true rfl⟩
    obtain ⟨j, hj⟩ := Option.isSome_iff_exists.mp hsome
    have hjk := List.find?_some hj
    rw [hj, hword (of_decide_eq_true hjk)]

end MailEnvelope.Checks
