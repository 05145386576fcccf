import MailEnvelope.FlatCommand
import MailEnvelope.Proofs.Text.Numeral

namespace MailEnvelope.Args

variable {decode : Bool} {args : Args} {i j k : Text} {v : Option Text} {e : Text × Option Text}
  {m n : Nat} {p : Param} {ps qs : List Param}

theorem lookup_cons (j : Text) (e : Text × Option Text) (es : Args) :
    List.lookup j (e :: es) = if j = e.1 then some e.2 else List.lookup j es := by
  rw [List.lookup_cons]
  by_cases h : j = e.1
  · simp [h]
  · simp [h, beq_false_of_ne h]

/-- Of all keywords only the one that is inserted gets a new value. -/
theorem lookup_insert (k j : Text) (v : Option Text) (args : Args) :
    (args.insert k v).lookup j = if j = k then some v else args.lookup j := by
  induction args with
  | nil => exact lookup_cons j (k, v) []
  | cons e es ih =>
    rw [insert]
    split
    · next hk =>
      -- The new entry stands in the place of the one that it replaces.
      rw [lookup_cons, lookup_cons, ← hk]
      split <;> rfl
    · next hk =>
      split
      · exact lookup_cons j (k, v) (e :: es)
      · rw [lookup_cons, lookup_cons, ih]
        by_cases hj : j = e.1
        · have hjk : j ≠ k := fun h => hk (h.symm.trans hj)
          rw [if_pos hj, if_neg hjk, if_pos hj]
        · rw [if_neg hj, if_neg hj]

theorem ofParams?_eq_none_iff : ofParams? decode ps = none ↔ ps = [] := by
  simp [ofParams?]

theorem ofParams?_singleton (p : Param) : ofParams? decode [p] =
    some [(p.keyword, if decode then p.value.map Xtext.decode else p.value)] := rfl

theorem getD_ofParams? : (ofParams? decode ps).getD [] = ps.foldl (insertParam decode) [] := by
  unfold ofParams?
  split
  · next h => rw [h]; rfl
  · rfl

/-- A keyword that is the shortest numeral of an array index. -/
def IsIndex (k : Text) (n : Nat) : Prop := k = Text.numeral 10 n ∧ n < 2 ^ 32 - 1

/-- A parameter with the first keyword was sent before all that have the second one. -/
def SentBefore (ps : List Param) (j k : Text) : Prop :=
  j ≠ k ∧ ∃ front p back, ps = front ++ p :: back ∧ p.keyword = j ∧ ∀ q ∈ front, q.keyword ≠ k

/-- The order in which the keywords of some parameters are listed. -/
inductive ComesBefore (ps : List Param) (j k : Text) : Prop
  | indices {m n : Nat} : IsIndex j m → IsIndex k n → m < n → ComesBefore ps j k
  | index {m : Nat} : IsIndex j m → (∀ n, ¬ IsIndex k n) → ComesBefore ps j k
  | sent : (∀ m, ¬ IsIndex j m) → (∀ n, ¬ IsIndex k n) → SentBefore ps j k → ComesBefore ps j k

def Ordered (ps : List Param) (args : Args) : Prop :=
  args.Pairwise fun d e => ComesBefore ps d.1 e.1

theorem index?_eq_some_iff : index? k = some n ↔ IsIndex k n := by
  unfold index?
  dsimp only
  rw [Option.ite_none_right_eq_some, Option.some.injEq]
  constructor
  · rintro ⟨hk, rfl⟩
    exact hk
  · rintro ⟨rfl, hn⟩
    rw [Text.numeralValue_numeral (by decide) (by decide)]
    exact ⟨⟨rfl, hn⟩, rfl⟩

theorem IsIndex.unique (hm : IsIndex k m) (hn : IsIndex k n) : m = n :=
  Option.some.inj ((index?_eq_some_iff.mpr hm).symm.trans (index?_eq_some_iff.mpr hn))

theorem precedes_iff : precedes k j ↔ ∃ m, IsIndex k m ∧ ∀ n, IsIndex j n → m < n := by
  simp only [precedes, Option.any_eq_true, Option.all_eq_true, decide_eq_true_eq,
    index?_eq_some_iff]

theorem not_precedes_self : ¬ precedes k k := by
  intro h
  obtain ⟨m, hm, hlt⟩ := precedes_iff.mp h
  exact Nat.lt_irrefl m (hlt m hm)

theorem ComesBefore.ne (h : ComesBefore ps j k) : j ≠ k := by
  rintro rfl
  cases h with
  | indices hm hn hlt => exact Nat.ne_of_lt hlt (hm.unique hn)
  | index hm hno => exact hno _ hm
  | sent _ _ h => exact h.1 rfl

theorem Ordered.nodup (h : Ordered ps args) : (args.map Prod.fst).Nodup :=
  List.pairwise_map.mpr (h.imp ComesBefore.ne)

theorem ComesBefore.append (h : ComesBefore ps j k) (qs : List Param) :
    ComesBefore (ps ++ qs) j k := by
  cases h with
  | indices hm hn hlt => exact .indices hm hn hlt
  | index hm hno => exact .index hm hno
  | sent hj hk h =>
    obtain ⟨hne, front, p, back, rfl, hp, hfront⟩ := h
    exact .sent hj hk ⟨hne, front, p, back ++ qs, List.append_assoc .., hp, hfront⟩

theorem ComesBefore.of_precedes (h : precedes k j) : ComesBefore ps k j := by
  obtain ⟨m, hm, hlt⟩ := precedes_iff.mp h
  by_cases hj : ∃ n, IsIndex j n
  · obtain ⟨n, hn⟩ := hj
    exact .indices hm hn (hlt n hn)
  · exact .index hm (not_exists.mp hj)

/-- What is put before a keyword is before all that come after that one. -/
theorem ComesBefore.precedes (h : ComesBefore ps i j) (hk : precedes k i) : precedes k j := by
  obtain ⟨m, hm, hlt⟩ := precedes_iff.mp hk
  refine precedes_iff.mpr ⟨m, hm, ?_⟩
  intro n hn
  cases h with
  | indices hi hj hij =>
    obtain rfl := hj.unique hn
    exact Nat.lt_trans (hlt _ hi) hij
  | index _ hno => exact absurd hn (hno n)
  | sent _ hno _ => exact absurd hn (hno n)

/-- A keyword that is new comes after all that it is not put before. -/
theorem ComesBefore.of_new (hj : ∃ q ∈ ps, q.keyword = j) (hnew : ∀ q ∈ ps, q.keyword ≠ k)
    (h : ¬ Args.precedes k j) : ComesBefore ps j k := by
  obtain ⟨q, hq, rfl⟩ := hj
  by_cases hk : ∃ m, IsIndex k m
  · obtain ⟨m, hm⟩ := hk
    have hn : ∃ n, IsIndex q.keyword n ∧ n ≤ m := by
      by_contra hno
      simp only [not_exists, not_and, not_le] at hno
      exact h (precedes_iff.mpr ⟨m, hm, hno⟩)
    obtain ⟨n, hn, hle⟩ := hn
    refine .indices hn hm (Nat.lt_of_le_of_ne hle ?_)
    rintro rfl
    exact hnew q hq (hn.1.trans hm.1.symm)
  · have hk := not_exists.mp hk
    by_cases hi : ∃ n, IsIndex q.keyword n
    · obtain ⟨n, hn⟩ := hi
      exact .index hn hk
    · obtain ⟨front, back, rfl⟩ := List.append_of_mem hq
      exact .sent (not_exists.mp hi) hk ⟨hnew q hq, front, q, back, rfl, rfl,
        fun r hr => hnew r (List.mem_append_left _ hr)⟩

theorem mem_insert_iff (h : Ordered ps args) :
    e ∈ args.insert k v ↔ e = (k, v) ∨ e ∈ args ∧ e.1 ≠ k := by
  induction args with
  | nil => simp [insert]
  | cons d args ih =>
    obtain ⟨hd, hargs⟩ := List.pairwise_cons.mp h
    rw [insert]
    split
    · next heq =>
      have hother : e ∈ args → e.1 ≠ k := by
        intro he
        rw [heq]
        exact (hd e he).ne.symm
      have hgone : ¬ (e = d ∧ e.1 ≠ k) := by
        rintro ⟨rfl, hne⟩
        exact hne heq.symm
      rw [List.mem_cons, List.mem_cons, or_and_right, and_iff_left_of_imp hother,
        or_iff_right hgone]
    · next hne =>
      split
      · next hfirst =>
        have hafter : e ∈ d :: args → e.1 ≠ k := by
          rintro he rfl
          rcases List.mem_cons.mp he with rfl | he
          · exact hne rfl
          · exact not_precedes_self ((hd e he).precedes hfirst)
        rw [List.mem_cons, and_iff_left_of_imp hafter]
      · have hother : e = d → e.1 ≠ k := by
          rintro rfl
          exact Ne.symm hne
        rw [List.mem_cons, List.mem_cons, ih hargs, or_and_right, and_iff_left_of_imp hother,
          or_left_comm]

/-- A keyword that was there keeps its place, and a new one finds its own. -/
theorem Ordered.insert (h : Ordered ps args) (hnew : (∀ e ∈ args, e.1 ≠ k) →
    ∀ e ∈ args, ¬ precedes k e.1 → ComesBefore ps e.1 k) : Ordered ps (args.insert k v) := by
  induction args with
  | nil => exact List.pairwise_singleton _ _
  | cons d args ih =>
    obtain ⟨hd, hargs⟩ := List.pairwise_cons.mp h
    rw [Args.insert]
    split
    · next heq =>
      refine List.pairwise_cons.mpr ⟨?_, hargs⟩
      rw [heq]
      exact hd
    · next hne =>
      split
      · next hfirst =>
        refine List.pairwise_cons.mpr ⟨?_, h⟩
        intro e he
        rcases List.mem_cons.mp he with rfl | he
        · exact .of_precedes hfirst
        · exact .of_precedes ((hd e he).precedes hfirst)
      · next hlater =>
        have hnone (hno : ∀ e ∈ args, e.1 ≠ k) : ∀ e ∈ d :: args, e.1 ≠ k :=
          List.forall_mem_cons.mpr ⟨Ne.symm hne, hno⟩
        refine List.pairwise_cons.mpr ⟨?_, ih hargs fun hno e he =>
          hnew (hnone hno) e (List.mem_cons_of_mem d he)⟩
        intro e he
        rcases (mem_insert_iff hargs).mp he with rfl | ⟨he, -⟩
        · -- The keyword stands further on, or is put somewhere behind this one.
          by_cases hno : ∀ e ∈ args, e.1 ≠ k
          · exact hnew (hnone hno) d List.mem_cons_self hlater
          · simp only [not_forall, not_not] at hno
            obtain ⟨f, hf, rfl⟩ := hno
            exact hd f hf
        · exact hd e he

end MailEnvelope.Args
