import MailEnvelope.Proofs.IpAddress.Positional

namespace MailEnvelope.IpAddress.V6
open Grammar

/-- Numbers in a base without needless digits, with a fixed text between any two. -/
def Numbers (between : Text) (base : Nat) (t : Text) (ns : List Nat) : Prop :=
  Separated (· = between) (fun u n => Text.Shortest base n u) t ns

/-- Groups in hexadecimal, where there are any. -/
def HexText (t : Text) (gs : List Nat) : Prop := Beside (Numbers ":" 16) t gs

/-- The one text for eight groups: a mapped IPv4 address keeps its four octets, and otherwise the
longest run of at least two zero groups, and nothing else, is left out. -/
inductive CanonicalText : List Nat → Text → Prop
  | mapped {g k t} : Numbers "." 10 t [g / 256, g % 256, k / 256, k % 256] →
      CanonicalText [0, 0, 0, 0, 0, 65535, g, k] (Text.ofString "::ffff:" ++ t)
  | whole {gs t} : ¬ Mapped gs → (∀ f n b, gs = f ++ List.replicate n 0 ++ b → n < 2) →
      HexText t gs → CanonicalText gs t
  | gap {gs front n back f b} : ¬ Mapped gs → LongestRun gs front n back → 2 ≤ n →
      HexText f front → HexText b back → CanonicalText gs (f ++ Text.ofString "::" ++ b)

variable {t : Text} {gs : List Nat} {base : Nat}

theorem numbers_iff {between : Text} (hb : 1 < base) (hb' : base ≤ 16) {ns : List Nat} :
    Numbers between base t ns ↔
      ns ≠ [] ∧ t = List.intercalate between (ns.map (Text.numeral base)) := by
  have hitem : ∀ ps, List.Forall₂ (fun u n => Text.Shortest base n u) ps ns ↔
      ps = ns.map (Text.numeral base) := by
    intro ps
    simp only [Text.shortest_iff hb hb']
    rw [← List.forall₂_map_right_iff, List.forall₂_eq_eq_eq]
  simp only [Numbers, separated_iff, hitem]
  constructor
  · rintro ⟨_, hne, ht, rfl⟩
    exact ⟨by simpa using hne, ht⟩
  · rintro ⟨hne, ht⟩
    exact ⟨_, by simpa using hne, ht, rfl⟩

theorem hexText_iff : HexText t gs ↔ t = hexGroups (ofGroups gs) := by
  rw [HexText, Beside, numbers_iff (by decide) (by decide), hexGroups_ofGroups, groupTexts]
  cases gs with
  | nil => simp
  | cons g gs => simp

theorem quadText_iff {a b c d : Nat} :
    Numbers "." 10 t [a, b, c, d] ↔ t = dotted [(a : Int), b, c, d] := by
  rw [numbers_iff (by decide) (by decide), dotted_eq_intercalate, quadTexts]
  simp

/-- What is rendered is the canonical text, and no other text is. -/
theorem canonicalText_iff (h : EightGroups gs) :
    CanonicalText gs t ↔ t = render (ofGroups gs) := by
  rcases render_cases h.length_eq with ⟨g, k, rfl, hr⟩ | ⟨hm, front, n, back, hrun, hr⟩
  · rw [hr, groupOctets_whole (h.lt g (by simp)), groupOctets_whole (h.lt k (by simp))]
    constructor
    · intro ht
      cases ht with
      | mapped hq => rw [quadText_iff.mp hq]; rfl
      | whole hm => exact absurd ⟨g, k, rfl⟩ hm
      | gap hm => exact absurd ⟨g, k, rfl⟩ hm
    · rintro rfl
      exact .mapped (quadText_iff.mpr rfl)
  · rcases hr with ⟨hn, hr⟩ | ⟨hn, hr⟩
    · rw [hr, ← hexText_iff]
      constructor
      · intro ht
        cases ht with
        | mapped => exact absurd ⟨_, _, rfl⟩ hm
        | whole _ _ ht => exact ht
        | gap _ hrun' hn' =>
          obtain ⟨-, rfl, -⟩ := hrun.unique hrun'
          omega
      · intro ht
        refine .whole hm ?_ ht
        intro f m b he
        exact (hrun.longest f m b he).trans_lt hn
    · rw [hr]
      constructor
      · intro ht
        cases ht with
        | mapped => exact absurd ⟨_, _, rfl⟩ hm
        | whole _ hno => exact absurd (hno _ _ _ hrun.eq_append) (by omega)
        | gap _ hrun' _ hf hb =>
          obtain ⟨rfl, rfl, rfl⟩ := hrun.unique hrun'
          rw [hexText_iff.mp hf, hexText_iff.mp hb]
      · rintro rfl
        exact .gap hm hrun hn (hexText_iff.mpr rfl) (hexText_iff.mpr rfl)

/-- Whatever is read as eight groups of sixteen bits is rendered as their canonical text, which is
an address, is read as them again and is its own canonical text. -/
theorem canonical_of_eight (ht : expand t = .ok (ofGroups gs)) (h : EightGroups gs) :
    ∃ a, canonical t = .ok a ∧ Run .ipv6Unit a ∧ isValid a ∧ expand a = .ok (ofGroups gs) ∧
      (∀ u, CanonicalText gs u ↔ u = a) ∧ canonical a = .ok a := by
  have hs := spells_render h
  exact ⟨_, canonical_of_expand ht, hs.units, hs.valid, hs.expand_eq,
    fun _ => canonicalText_iff h, canonical_of_expand hs.expand_eq⟩

/-- Of two runs of zeros the first is left out. A group of five digits can be read all the same, so
the text need not be an address itself. -/
theorem canonical_of_eight_tie :
    let t := Text.ofString "2001:DB8:0:0:1:0:00:00001"
    let gs := [0x2001, 0xDB8, 0, 0, 1, 0, 0, 1]
    expand t = .ok (ofGroups gs) ∧ EightGroups gs ∧ isValid t = false ∧
      canonical t = .ok "2001:db8::1:0:0:1" ∧ isValid "2001:db8::1:0:0:1" ∧
      ∀ u, CanonicalText gs u ↔ u = Text.ofString "2001:db8::1:0:0:1" := by
  intro t gs
  have ht : expand t = .ok (ofGroups gs) := by decide
  have h : EightGroups gs := ⟨rfl, by decide⟩
  have hc : canonical t = .ok "2001:db8::1:0:0:1" := by decide
  obtain ⟨a, ha, -, hvalid, -, htext, -⟩ := canonical_of_eight ht h
  obtain rfl := Except.ok.inj (ha.symm.trans hc)
  exact ⟨ht, h, by decide, hc, hvalid, htext⟩

end MailEnvelope.IpAddress.V6
