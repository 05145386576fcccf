import MailEnvelope.Proofs.Grammar.Basic
import MailEnvelope.Proofs.Rule.Reads
import MailEnvelope.Proofs.Rule.Steps

namespace MailEnvelope.Rule

variable {α β : Type} {a b c : Text}

/-- Readings one after another, none of them empty, up to where the rule has no more to read. -/
inductive ReadsEach (r : Rule α) (b : Text) : Text → List α → Prop
  | nil : (∀ a v c, b = a ++ c → Reads r a v c → a = []) → ReadsEach r b [] []
  | cons {a v t vs} : Reads r a v (t ++ b) → a ≠ [] → ReadsEach r b t vs →
      ReadsEach r b (a ++ t) (v :: vs)

theorem ReadsEach.unique {r : Rule α} {vs ws : List α} {d : Text} (h : ReadsEach r b a vs)
    (h' : ReadsEach r d c ws) (he : a ++ b = c ++ d) : a = c ∧ vs = ws := by
  induction h generalizing c ws with
  | nil hb =>
    cases h' with
    | nil => exact ⟨rfl, rfl⟩
    | cons hx hne _ => exact absurd (hb _ _ _ (he.trans (List.append_assoc ..)) hx) hne
  | cons hx hne _ ih =>
    cases h' with
    | nil hd => exact absurd (hd _ _ _ (he.symm.trans (List.append_assoc ..)) hx) hne
    | cons hy _ ht =>
      rw [List.append_assoc, List.append_assoc] at he
      obtain ⟨rfl, rfl, hr⟩ := hx.unique hy he
      obtain ⟨rfl, rfl⟩ := ih ht hr
      exact ⟨rfl, rfl⟩

theorem eq_nil_of_idle {r : Rule α} {s : Text} {pos : Nat} {v : α} (hidle : Idle (r.run s) pos)
    (hpos : pos ≤ s.length) (hs : s.drop pos = a ++ c) (hr : Reads r a v c) : a = [] := by
  have hrun := hr.run_after (s.take pos)
  rw [← hs, List.take_append_drop, List.length_take_of_le hpos] at hrun
  have hstop := hidle.stop_eq _ hrun
  exact List.length_eq_zero_iff.mp (Nat.add_eq_left.mp hstop)

theorem readsEach_of_steps {r : Rule α} {s : Text} {pos stop : Nat} {vs : List α}
    (h : Steps (r.run s) pos vs stop) (hidle : Idle (r.run s) stop) (hpos : pos ≤ s.length) :
    ∃ a b, s.drop pos = a ++ b ∧ stop = pos + a.length ∧ ReadsEach r b a vs := by
  induction h with
  | @nil pos =>
    exact ⟨[], s.drop pos, rfl, rfl, .nil fun a v c hs hr => eq_nil_of_idle hidle hpos hs hr⟩
  | @cons pos next stop v vs hr hlt _ ih =>
    have hle := Nat.le_of_lt hlt
    have hnext : next ≤ s.length := by
      have hb := (run_bounds r s pos _ hr).2
      rwa [Nat.max_eq_right hpos] at hb
    have hlength := length_slice hnext pos
    obtain ⟨a, b, hs, rfl, ha⟩ := ih hidle hnext
    rw [run_eq_some_iff_reads hle hnext, hs] at hr
    have hne : slice s pos next ≠ [] := by
      rw [← List.length_pos_iff, hlength]
      omega
    refine ⟨slice s pos next ++ a, b, ?_, ?_, .cons hr hne ha⟩
    · rw [← slice_append_drop s hle, hs, List.append_assoc]
    · rw [List.length_append, hlength, ← Nat.add_assoc, Nat.add_sub_cancel' hle]

theorem reads_many {r : Rule α} {vs : List α} : Reads (many r) a vs b ↔ ReadsEach r b a vs := by
  obtain ⟨ws, stop, hs, hidle⟩ := exists_steps r (a ++ b) 0
  obtain ⟨c, d, he, hstop, hr⟩ := readsEach_of_steps hs hidle (Nat.zero_le _)
  rw [List.drop_zero] at he
  rw [Nat.zero_add] at hstop
  have hm : Reads (many r) a vs b ↔ ws = vs ∧ c.length = a.length := by
    rw [Reads, run_many_of_steps hs hidle, hstop, Option.some.injEq, Match.mk.injEq]
  rw [hm]
  -- Both sides cut the same text, so they agree once the lengths or the readings do.
  constructor
  · rintro ⟨rfl, hl⟩
    obtain ⟨rfl, rfl⟩ := List.append_inj he hl.symm
    exact hr
  · intro h
    obtain ⟨rfl, rfl⟩ := h.unique hr he
    exact ⟨rfl, rfl⟩

theorem ReadsEach.eq_nil_iff {r : Rule α} {vs : List α} (h : ReadsEach r b a vs) :
    vs = [] ↔ a = [] := by
  cases h with
  | nil => simp
  | cons _ hne _ => simp [hne]

theorem reads_manyOne {r : Rule α} {vs : List α} :
    Reads (manyOne r) a vs b ↔ ReadsEach r b a vs ∧ a ≠ [] := by
  rw [manyOne, reads_filter, reads_many]
  apply and_congr_right
  intro h
  simpa using not_congr h.eq_nil_iff

theorem reads_separatedBy {item : Rule α} {sep : Rule β} {vs : List α} :
    Reads (separatedBy item sep) a vs b ↔ ∃ a₁ a₂ v ws, a = a₁ ++ a₂ ∧ vs = v :: ws ∧
      Reads item a₁ v (a₂ ++ b) ∧ ReadsEach (before sep item) b a₂ ws := by
  simp only [separatedBy, reads_map, reads_both, reads_many]
  constructor
  · rintro ⟨v, ⟨a₁, a₂, ha, hi, hm⟩, rfl⟩
    exact ⟨a₁, a₂, v.1, v.2, ha, rfl, hi, hm⟩
  · rintro ⟨a₁, a₂, v, ws, ha, rfl, hi, hm⟩
    exact ⟨(v, ws), ⟨a₁, a₂, ha, hi, hm⟩, rfl⟩

theorem separated_of_reads {item : Rule α} {sep : Rule β} {vs : List α} {I : Text → α → Prop}
    {S : Text → Prop} (hI : ∀ a v b, Reads item a v b → I a v) (hS : ∀ a v b, Reads sep a v b → S a)
    (h : Reads (separatedBy item sep) a vs b) : Grammar.Separated S I a vs := by
  obtain ⟨a₁, a₂, v, ws, rfl, rfl, hi, hm⟩ := reads_separatedBy.mp h
  induction hm generalizing a₁ v with
  | nil => simpa using Grammar.Separated.one (hI _ _ _ hi)
  | cons hx _ ht ih =>
    obtain ⟨s, x, rfl, ⟨w, hs⟩, hy⟩ := reads_before.mp hx
    have hrest := ih x _ (reads_separatedBy.mpr ⟨x, _, _, _, rfl, rfl, hy, ht⟩) hy
    simpa using Grammar.Separated.more (hI _ _ _ hi) (hS _ _ _ hs) hrest

/-- Items with separators are read as such, where `F` is what may follow an item: a separator may,
and so may the rest, which does not go on with a separator and an item. -/
theorem reads_of_separated {item : Rule α} {sep : Rule β} {vs : List α} {I : Text → α → Prop}
    {S F : Text → Prop} (hI : ∀ a v b, I a v → F b → Reads item a v b)
    (hS : ∀ w a v b, S w → Reads item a v b →
      w ≠ [] ∧ F (w ++ (a ++ b)) ∧ ∃ u, Reads sep w u (a ++ b))
    (hb : F b) (hend : Fails (before sep item) b) (h : Grammar.Separated S I a vs) :
    Reads (separatedBy item sep) a vs b := by
  induction h with
  | @one t v ht =>
    have hnil : ReadsEach (before sep item) b [] [] :=
      .nil fun a v c he hv => absurd hv (fails_iff.mp hend a v c he)
    exact reads_separatedBy.mpr ⟨t, [], v, [], by simp, rfl, hI t v b ht hb, hnil⟩
  | @more t v w u vs ht hw hu ih =>
    obtain ⟨a₁, a₂, v₁, ws, rfl, rfl, hi, hm⟩ := reads_separatedBy.mp ih
    obtain ⟨hne, hf, x, hx⟩ := hS w a₁ v₁ (a₂ ++ b) hw hi
    have hstep : Reads (before sep item) (w ++ a₁) v₁ (a₂ ++ b) :=
      reads_before.mpr ⟨w, a₁, rfl, ⟨x, hx⟩, hi⟩
    refine reads_separatedBy.mpr ⟨t, w ++ a₁ ++ a₂, v, v₁ :: ws, by simp, rfl, ?_, ?_⟩
    · apply hI t v _ ht
      simpa using hf
    · exact .cons hstep (by simp [hne]) hm

end MailEnvelope.Rule
