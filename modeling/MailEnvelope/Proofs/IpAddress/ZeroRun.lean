import MailEnvelope.Proofs.IpAddress.Groups

namespace MailEnvelope.IpAddress.V6

/-- The first five groups are zero and the sixth is all ones. -/
def Mapped (gs : List Nat) : Prop := ∃ g k, gs = [0, 0, 0, 0, 0, 65535, g, k]

/-- The longest run of zero groups, the first one if there are more of its length, and the groups
around it. -/
structure LongestRun (gs front : List Nat) (n : Nat) (back : List Nat) : Prop where
  eq_append : gs = front ++ List.replicate n 0 ++ back
  longest : ∀ f m b, gs = f ++ List.replicate m 0 ++ b → m ≤ n
  first : ∀ f b, gs = f ++ List.replicate n 0 ++ b → front.length ≤ f.length

variable {gs front back f b : List Nat} {n m : Nat}

theorem append_inj_of_length {α : Type} {w x y v z : List α} (he : w ++ x ++ y = v ++ x ++ z)
    (hwv : w.length ≤ v.length) (hvw : v.length ≤ w.length) : w = v ∧ y = z := by
  rw [List.append_assoc, List.append_assoc] at he
  obtain ⟨rfl, hyz⟩ := List.append_inj he (Nat.le_antisymm hwv hvw)
  exact ⟨rfl, List.append_cancel_left hyz⟩

theorem LongestRun.unique (h : LongestRun gs front n back) (h' : LongestRun gs f m b) :
    front = f ∧ n = m ∧ back = b := by
  obtain rfl : n = m :=
    Nat.le_antisymm (h'.longest _ _ _ h.eq_append) (h.longest _ _ _ h'.eq_append)
  have he := h.eq_append.symm.trans h'.eq_append
  obtain ⟨hf, hb⟩ :=
    append_inj_of_length he (h.first _ _ h'.eq_append) (h'.first _ _ h.eq_append)
  exact ⟨hf, rfl, hb⟩

theorem exists_leadingZeros (gs : List Nat) :
    ∃ back, gs = List.replicate (leadingZeros (ofGroups gs)) 0 ++ back := by
  induction gs with
  | nil => exact ⟨[], rfl⟩
  | cons g gs ih =>
    rcases Nat.eq_zero_or_pos g with rfl | hg
    · obtain ⟨back, hb⟩ := ih
      refine ⟨back, ?_⟩
      have hl : leadingZeros (ofGroups (0 :: gs)) = leadingZeros (ofGroups gs) + 1 := by
        simp [leadingZeros, ofGroups]
      rw [hl, List.replicate_succ, List.cons_append, ← hb]
    · refine ⟨g :: gs, ?_⟩
      have hl : leadingZeros (ofGroups (g :: gs)) = 0 := by
        simp [leadingZeros, ofGroups]
        omega
      simp [hl]

theorem le_leadingZeros (n : Nat) (b : List Nat) :
    n ≤ leadingZeros (ofGroups (List.replicate n 0 ++ b)) := by
  rw [leadingZeros, ofGroups, List.map_append, List.map_replicate,
    List.takeWhile_append_of_pos (by simp), List.length_append, List.length_replicate]
  exact Nat.le_add_right ..

theorem zeroRun_cons {g : Nat} (h : g :: gs = f ++ List.replicate n 0 ++ b) :
    n ≤ leadingZeros (ofGroups (g :: gs)) ∨
      ∃ f', f = g :: f' ∧ gs = f' ++ List.replicate n 0 ++ b := by
  cases f with
  | nil =>
    rw [h]
    exact .inl (le_leadingZeros n b)
  | cons k f =>
    obtain ⟨rfl, hgs⟩ := List.cons.inj h
    exact .inr ⟨f, rfl, hgs⟩

/-- The run that the program finds is the longest one. -/
theorem exists_longestRun (gs : List Nat) : ∃ front back,
    LongestRun gs front (longestZeroRun (ofGroups gs)).2 back ∧
      front.length = (longestZeroRun (ofGroups gs)).1 := by
  induction gs with
  | nil =>
    refine ⟨[], [], ⟨rfl, ?_, fun _ _ _ => Nat.zero_le _⟩, rfl⟩
    intro f m b h
    simp at h
    simp [h.2.1]
  | cons g gs ih =>
    obtain ⟨front, back, hrun, hfront⟩ := ih
    have hc : ofGroups (g :: gs) = .whole g :: ofGroups gs := rfl
    rw [hc, longestZeroRun]
    split
    · next hle =>
      obtain ⟨back, hz⟩ := exists_leadingZeros (g :: gs)
      refine ⟨[], back, ⟨hz, ?_, fun _ _ _ => Nat.zero_le _⟩, rfl⟩
      intro f m b h
      rcases zeroRun_cons h with hm | ⟨f', -, h'⟩
      · exact hm
      · exact (hrun.longest f' m b h').trans hle
    · next hlt =>
      refine ⟨g :: front, back, ⟨?_, ?_, ?_⟩, by simp [hfront]⟩
      · rw [List.cons_append, List.cons_append, ← hrun.eq_append]
      · intro f m b h
        rcases zeroRun_cons h with hm | ⟨f', -, h'⟩
        · rw [hc] at hm
          dsimp only
          omega
        · exact hrun.longest f' m b h'
      · intro f b h
        rcases zeroRun_cons h with hm | ⟨f', rfl, h'⟩
        · exact absurd hm hlt
        · have hf := hrun.first f' b h'
          simpa using hf

theorem isMapped_iff (hl : gs.length = 8) : isMapped (ofGroups gs) ↔ Mapped gs := by
  constructor
  · intro h
    match gs, hl with
    | [a, b, c, d, e, f, g, k], _ =>
      simp [isMapped, ofGroups] at h
      obtain ⟨⟨rfl, rfl, rfl, rfl, rfl⟩, hf⟩ := h
      obtain rfl : f = 65535 := by omega
      exact ⟨g, k, rfl⟩
  · rintro ⟨g, k, rfl⟩
    rfl

theorem render_cases (hl : gs.length = 8) :
    (∃ g k, gs = [0, 0, 0, 0, 0, 65535, g, k] ∧ render (ofGroups gs) =
      Text.ofString "::ffff:" ++ dotted (groupOctets (.whole g) ++ groupOctets (.whole k))) ∨
    ¬ Mapped gs ∧ ∃ front n back, LongestRun gs front n back ∧
      (n < 2 ∧ render (ofGroups gs) = hexGroups (ofGroups gs) ∨
        2 ≤ n ∧ render (ofGroups gs) =
          hexGroups (ofGroups front) ++ Text.ofString "::" ++ hexGroups (ofGroups back)) := by
  rw [render]
  split
  · next hm =>
    obtain ⟨g, k, rfl⟩ := (isMapped_iff hl).mp hm
    exact .inl ⟨g, k, rfl, rfl⟩
  · next hm =>
    obtain ⟨front, back, hrun, hfront⟩ := exists_longestRun gs
    refine .inr ⟨fun h => hm ((isMapped_iff hl).mpr h), front, _, back, hrun, ?_⟩
    -- The run is a pair of its start and its length, and both are known of the groups around it.
    generalize longestZeroRun (ofGroups gs) = run at hrun hfront ⊢
    obtain ⟨start, n⟩ := run
    dsimp only at hrun hfront ⊢
    split
    · next hn => exact .inl ⟨hn, rfl⟩
    · next hn =>
      obtain ⟨rfl, -, -⟩ := hrun
      have htake : (ofGroups (front ++ List.replicate n 0 ++ back)).take start =
          ofGroups front := by simp [ofGroups, ← hfront]
      have hdrop : (ofGroups (front ++ List.replicate n 0 ++ back)).drop (start + n) =
          ofGroups back := by
        rw [ofGroups, List.map_append]
        exact List.drop_left' (by simp [hfront])
      rw [htake, hdrop]
      exact .inr ⟨by omega, rfl⟩

end MailEnvelope.IpAddress.V6
