import MailEnvelope.Proofs.Rule.Reads

namespace MailEnvelope

def Text.StandsAt (t s : Text) (pos : Nat) : Prop := ∃ p b, s = p ++ (t ++ b) ∧ p.length = pos

namespace Rule

variable {α β γ : Type} {s t : Text} {pos stop : Nat}

/-- What follows a match can be put in the place of anything else. -/
def NoLookahead (r : Rule α) : Prop :=
  ∀ s pos v stop u, r.run s pos = some ⟨v, stop⟩ → r.run (s.take stop ++ u) pos = some ⟨v, stop⟩

/-- A rule that matches nowhere past the end of a text. -/
def Inside (r : Rule α) : Prop := ∀ s pos m, r.run s pos = some m → pos ≤ s.length

/-- A rule that reads what a grammar derives, whatever follows it. -/
structure Closed (r : Rule α) (derives : Text → α → Prop) : Prop where
  inside : Inside r
  reads_iff : ∀ a v b, Reads r a v b ↔ derives a v

theorem Inside.bounds {r : Rule α} {v : α} (h : Inside r) (hm : r.run s pos = some ⟨v, stop⟩) :
    pos ≤ stop ∧ stop ≤ s.length := by
  have hb := run_bounds r s pos _ hm
  rw [Nat.max_eq_right (h s pos _ hm)] at hb
  exact hb

theorem inside_text (ht : t ≠ []) : Inside (text t) := by
  intro s pos m h
  simp only [run, Option.ite_none_right_eq_some, List.isPrefixOf_iff_prefix] at h
  by_contra hpos
  rw [List.drop_of_length_le (by omega), List.prefix_nil] at h
  exact ht h.1

theorem inside_textAnyCase (t : Text) : Inside (textAnyCase t) := by
  intro s pos m h
  simp only [run, Option.ite_none_right_eq_some] at h
  exact h.1.1

theorem Inside.map {r : Rule α} (h : Inside r) (f : α → β) : Inside (map f r) := by
  intro s pos m hm
  rw [run_map, Option.map_eq_some_iff] at hm
  obtain ⟨n, hn, -⟩ := hm
  exact h s pos n hn

theorem Inside.before {x : Rule α} (h : Inside x) (y : Rule β) : Inside (before x y) := by
  intro s pos m hm
  rw [run_before, Option.bind_eq_some_iff] at hm
  obtain ⟨n, hn, -⟩ := hm
  exact h s pos n hn

theorem Inside.orElse {x y : Rule α} (hx : Inside x) (hy : Inside y) : Inside (orElse x y) := by
  intro s pos m hm
  rw [run, Option.or_eq_some_iff] at hm
  rcases hm with hm | ⟨-, hm⟩
  · exact hx s pos m hm
  · exact hy s pos m hm

theorem inside_oneOf {rs : List (Rule α)} (h : ∀ r ∈ rs, Inside r) : Inside (oneOf rs) := by
  induction rs with
  | nil =>
    intro s pos m hm
    cases hm
  | cons r rs ih =>
    obtain ⟨hr, hrs⟩ := List.forall_mem_cons.mp h
    exact hr.orElse (ih hrs)

namespace Closed

variable {r : Rule α} {derives : Text → α → Prop} {v : α}

theorem run_iff (h : Closed r derives) : r.run s pos = some ⟨v, stop⟩ ↔
    ∃ a, derives a v ∧ a.StandsAt s pos ∧ stop = pos + a.length := by
  constructor
  · intro hm
    obtain ⟨hpos, hstop⟩ := h.inside.bounds hm
    have hlength := List.length_take_of_le (Nat.le_trans hpos hstop)
    rw [run_eq_some_iff_reads hpos hstop, h.reads_iff] at hm
    refine ⟨slice s pos stop, hm, ⟨s.take pos, s.drop stop, ?_, hlength⟩, ?_⟩
    · rw [slice_append_drop s hpos, List.take_append_drop]
    · rw [length_slice hstop, Nat.add_sub_cancel' hpos]
  · rintro ⟨a, ha, ⟨p, b, rfl, rfl⟩, rfl⟩
    exact ((h.reads_iff a v b).mpr ha).run_after p

theorem noLookahead (h : Closed r derives) : NoLookahead r := by
  intro s pos v stop u hm
  obtain ⟨a, ha, ⟨p, b, rfl, rfl⟩, rfl⟩ := h.run_iff.mp hm
  have htake : (p ++ (a ++ b)).take (p.length + a.length) = p ++ a := by
    rw [← List.append_assoc, ← List.length_append, List.take_left]
  rw [htake, List.append_assoc]
  exact h.run_iff.mpr ⟨a, ha, ⟨p, u, rfl, rfl⟩, rfl⟩

theorem isSome_iff (h : Closed r derives) :
    (r.run s pos).isSome ↔ ∃ v a, derives a v ∧ a.StandsAt s pos := by
  rw [Option.isSome_iff_exists]
  constructor
  · rintro ⟨⟨v, stop⟩, hm⟩
    obtain ⟨a, ha, hs, -⟩ := h.run_iff.mp hm
    exact ⟨v, a, ha, hs⟩
  · rintro ⟨v, a, ha, hs⟩
    exact ⟨_, h.run_iff.mpr ⟨a, ha, hs, rfl⟩⟩

theorem unique (h : Closed r derives) {a c : Text} {w : α} (ha : derives a v)
    (hs : a.StandsAt s pos) (hc : derives c w) (hs' : c.StandsAt s pos) : c = a ∧ w = v := by
  obtain ⟨p, b, rfl, rfl⟩ := hs
  obtain ⟨q, d, he, hq⟩ := hs'
  obtain ⟨rfl, hcut⟩ := List.append_inj he hq.symm
  obtain ⟨rfl, rfl, -⟩ :=
    ((h.reads_iff c w d).mpr hc).unique ((h.reads_iff a v b).mpr ha) hcut.symm
  exact ⟨rfl, rfl⟩

end Closed
end Rule
end MailEnvelope
