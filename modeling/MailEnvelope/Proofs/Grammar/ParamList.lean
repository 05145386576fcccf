import MailEnvelope.Proofs.Grammar.Echo

namespace MailEnvelope

/-- The name has letters and digits of ASCII only. A value is missing or is visible ASCII without an
equals sign; neither is empty. -/
structure Param.WellFormed (p : Param) : Prop where
  name_ne_nil : p.name ≠ []
  name_units : ∀ u ∈ p.name, (48 ≤ u ∧ u ≤ 57) ∨ (65 ≤ u ∧ u ≤ 90) ∨ (97 ≤ u ∧ u ≤ 122)
  value_ne_nil : p.value ≠ some []
  value_units : ∀ v ∈ p.value, ∀ u ∈ v, (33 ≤ u ∧ u ≤ 60) ∨ (62 ≤ u ∧ u ≤ 126)

/-- Texts one after the other, with some spaces and tabs between each two of them. -/
inductive Text.Spaced : List Text → Text → Prop
  | nil : Spaced [] []
  | one {t} : Spaced [t] t
  | more {t w b s ts} : w ≠ [] → (∀ u ∈ w, u = 9 ∨ u = 32) → Spaced (s :: ts) b →
      Spaced (t :: s :: ts) (t ++ w ++ b)

namespace Grammar
open Text

variable {t : Text} {p : Param} {ps qs : List Param}

theorem run_letterOrDigit_iff : Run .letterOrDigit t ↔
    t ≠ [] ∧ ∀ u ∈ t, (48 ≤ u ∧ u ≤ 57) ∨ (65 ≤ u ∧ u ≤ 90) ∨ (97 ≤ u ∧ u ≤ 122) := by
  simp [Run, CharClass.letterOrDigit, CharClass.ofRanges]

theorem run_paramValue_iff :
    Run .paramValue t ↔ t ≠ [] ∧ ∀ u ∈ t, (33 ≤ u ∧ u ≤ 60) ∨ (62 ≤ u ∧ u ≤ 126) := by
  simp [Run, CharClass.paramValue, CharClass.ofRanges]

theorem run_blank_iff : Run .blank t ↔ t ≠ [] ∧ ∀ u ∈ t, u = 9 ∨ u = 32 := by
  have hblank (u : Nat) : CharClass.blank u ↔ u = 9 ∨ u = 32 := by
    simp [CharClass.blank, CharClass.ofRanges]
    omega
  simp only [Run, hblank]

theorem param_wellFormed (h : Param.Derives t p) : p.WellFormed := by
  cases h with
  | flag hn =>
    obtain ⟨hne, hunits⟩ := run_letterOrDigit_iff.mp hn
    exact ⟨hne, hunits, Option.some_ne_none _ ∘ Eq.symm, by simp⟩
  | value hn hv =>
    obtain ⟨hne, hunits⟩ := run_letterOrDigit_iff.mp hn
    obtain ⟨hvne, hvunits⟩ := run_paramValue_iff.mp hv
    exact ⟨hne, hunits, by simpa using hvne, by simpa using hvunits⟩

theorem param_render (h : p.WellFormed) : Param.Derives p.render p := by
  obtain ⟨n, v⟩ := p
  have hn := run_letterOrDigit_iff.mpr ⟨h.name_ne_nil, h.name_units⟩
  cases v with
  | none => exact .flag hn
  | some v =>
    have hne : v ≠ [] := fun he => h.value_ne_nil (congrArg some he)
    exact .value hn (run_paramValue_iff.mpr ⟨hne, h.value_units v rfl⟩)

theorem spaced_of_paramList (h : Param.DeriveList t ps) :
    (∀ p ∈ ps, p.WellFormed) ∧ Spaced (ps.map Param.render) t := by
  induction h with
  | one hp =>
    rw [param_eq_render hp]
    exact ⟨List.forall_mem_singleton.mpr (param_wellFormed hp), .one⟩
  | @more t p w _ ps hp hw hrest ih =>
    obtain ⟨hall, hspaced⟩ := ih
    obtain ⟨hne, hblank⟩ := run_blank_iff.mp hw
    refine ⟨List.forall_mem_cons.mpr ⟨param_wellFormed hp, hall⟩, ?_⟩
    rw [param_eq_render hp]
    cases hrest with
    | one => exact .more hne hblank hspaced
    | more => exact .more hne hblank hspaced

theorem paramList_of_spaced (h : Spaced ((p :: ps).map Param.render) t)
    (hp : p.WellFormed) (hps : ∀ q ∈ ps, q.WellFormed) : Param.DeriveList t (p :: ps) := by
  induction ps generalizing p t with
  | nil =>
    cases h with
    | one => exact .one (param_render hp)
  | cons q ps ih =>
    obtain ⟨hq, hps⟩ := List.forall_mem_cons.mp hps
    cases h with
    | more hne hblank hrest =>
      exact .more (param_render hp) (run_blank_iff.mpr ⟨hne, hblank⟩) (ih hrest hq hps)

theorem parseList?_eq_some_iff : Param.parseList? t = some ps ↔
    (∀ p ∈ ps, p.WellFormed) ∧ Spaced (ps.map Param.render) t := by
  rw [parse?_paramList_iff]
  constructor
  · rintro (⟨rfl, rfl⟩ | h)
    · exact ⟨List.forall_mem_nil _, .nil⟩
    · exact spaced_of_paramList h
  · intro ⟨hps, h⟩
    cases ps with
    | nil =>
      cases h
      exact .inl ⟨rfl, rfl⟩
    | cons p ps =>
      obtain ⟨hp, hps⟩ := List.forall_mem_cons.mp hps
      exact .inr (paramList_of_spaced h hp hps)

theorem eq_nil_of_parseList? (h : Param.parseList? t = some ps) : t = [] ↔ ps = [] := by
  rcases parse?_paramList_iff.mp h with ⟨rfl, rfl⟩ | h
  · simp
  · obtain ⟨u, s, rfl, -⟩ := paramList_exists_cons h
    exact iff_of_false (List.cons_ne_nil u s) h.ne_nil

theorem spaced_intercalate (ts : List Text) : Spaced ts (List.intercalate (ofString " ") ts) := by
  induction ts with
  | nil => exact .nil
  | cons t ts ih =>
    cases ts with
    | nil =>
      rw [List.intercalate_singleton]
      exact .one
    | cons s ts =>
      rw [List.intercalate_cons_cons]
      exact .more (by decide) (by decide) ih

theorem parseList?_renderList_iff :
    Param.parseList? (Param.renderList ps) = some ps ↔ ∀ p ∈ ps, p.WellFormed := by
  rw [parseList?_eq_some_iff]
  exact and_iff_left (spaced_intercalate _)

theorem parseList?_append {a b : Text} (ha : a ≠ []) (hb : b ≠ [])
    (hps : Param.parseList? a = some ps) (hqs : Param.parseList? b = some qs) :
    Param.parseList? (a ++ ofString " " ++ b) = some (ps ++ qs) := by
  have hfirst := (parse?_paramList_iff.mp hps).resolve_left fun h => ha h.1
  have hsecond := (parse?_paramList_iff.mp hqs).resolve_left fun h => hb h.1
  exact parse?_paramList_iff.mpr (.inr (hfirst.append run_space hsecond))

theorem paramList_exists_concat (h : Param.DeriveList t ps) :
    ∃ s u, t = s ++ [u] ∧ paramUnit u := by
  have hparam {a p} (hp : Param.Derives a p) : ∃ s u, a = s ++ [u] ∧ paramUnit u := by
    cases hp with
    | flag hn =>
      obtain ⟨s, u, rfl, hu⟩ := hn.exists_concat
      exact ⟨s, u, rfl, paramUnit_of_letterOrDigit hu⟩
    | @value n _ _ hv =>
      obtain ⟨s, u, rfl, hu⟩ := hv.exists_concat
      exact ⟨n ++ ofString "=" ++ s, u, (List.append_assoc ..).symm,
        by simp [paramUnit, orUnit, hu]⟩
  induction h with
  | one hp => exact hparam hp
  | @more a p w b ps hp hw _ ih =>
    obtain ⟨s, u, rfl, hu⟩ := ih
    exact ⟨a ++ w ++ s, u, (List.append_assoc ..).symm, hu⟩

/-- The equals sign is in neither of the two classes, so it says whether a value was written. -/
theorem equals_mem_render_iff (h : p.WellFormed) : '='.toNat ∈ p.render ↔ p.value ≠ none := by
  obtain ⟨n, v⟩ := p
  cases v with
  | none =>
    have hno : '='.toNat ∉ n := by
      intro hu
      have hrange := h.name_units 61 hu
      omega
    exact iff_of_false hno fun hne => hne rfl
  | some v =>
    refine iff_of_true ?_ (Option.some_ne_none v)
    change '='.toNat ∈ n ++ [61] ++ v
    simp

/-- The texts that are read are the written lists of well-formed parameters. Nothing of a list is
lost when it is written, and a value that is missing is not taken for one that is there. -/
theorem paramList_exact :
    (∀ t ps, Param.parseList? t = some ps ↔
      (∀ p ∈ ps, p.WellFormed) ∧ Spaced (ps.map Param.render) t ∧ (t = [] ↔ ps = [])) ∧
    (∀ ps, Param.parseList? (Param.renderList ps) = some ps ↔ ∀ p ∈ ps, p.WellFormed) ∧
    (∀ (ps qs : List Param) t, (∀ p ∈ ps, p.WellFormed) → (∀ q ∈ qs, q.WellFormed) →
      Spaced (ps.map Param.render) t → Spaced (qs.map Param.render) t → ps = qs) ∧
    (∀ p : Param, p.WellFormed → ('='.toNat ∈ p.render ↔ p.value ≠ none)) := by
  refine ⟨?_, fun _ => parseList?_renderList_iff, ?_, fun _ => equals_mem_render_iff⟩
  · intro t ps
    rw [parseList?_eq_some_iff]
    constructor
    · intro ⟨hps, h⟩
      exact ⟨hps, h, eq_nil_of_parseList? (parseList?_eq_some_iff.mpr ⟨hps, h⟩)⟩
    · intro ⟨hps, h, _⟩
      exact ⟨hps, h⟩
  · intro ps qs t hps hqs h h'
    have hread := parseList?_eq_some_iff.mpr ⟨hps, h⟩
    rw [parseList?_eq_some_iff.mpr ⟨hqs, h'⟩] at hread
    exact (Option.some.inj hread).symm

theorem paramList_exact_tabs :
    let ps : List Param := [⟨"X", some "!~"⟩, ⟨"x", none⟩, ⟨"X", some "!~"⟩]
    let qs : List Param := [⟨"X", some "!~"⟩, ⟨"x", none⟩]
    let t := Text.ofString "X=!~\t x  X=!~"
    Param.parseList? t = some ps ∧
    ((∀ p ∈ ps, p.WellFormed) ∧ Spaced (ps.map Param.render) t) ∧
    Param.parseList? (Param.renderList ps) = some ps ∧
    ((∀ q ∈ qs, q.WellFormed) ∧ ¬ Spaced (qs.map Param.render) t) ∧
    '='.toNat ∈ Param.render ⟨"X", some "!~"⟩ := by
  intro ps qs t
  obtain ⟨hread, hwrite, hunique, hequals⟩ := paramList_exact
  have ht : Param.parseList? t = some ps := by decide
  obtain ⟨hps, hspaced, -⟩ := (hread t ps).mp ht
  have hqs : ∀ q ∈ qs, q.WellFormed := (hwrite qs).mp (by decide)
  refine ⟨ht, ⟨hps, hspaced⟩, (hwrite ps).mpr hps, ⟨hqs, ?_⟩, ?_⟩
  · intro h
    exact absurd (hunique ps qs t hps hqs hspaced h) (by decide)
  · exact (hequals _ (hps _ List.mem_cons_self)).mpr (by decide)

end Grammar
end MailEnvelope
