import MailEnvelope.Proofs.Grammar.Path
import MailEnvelope.Proofs.Grammar.WellFormed
import MailEnvelope.Proofs.Rule.Closed

namespace MailEnvelope

namespace LocalPart
open Grammar Rule

/-- A printable unit stands after a backslash, or as itself if it is no quote and no backslash. -/
abbrev SpellsUnit (u : Nat) (w : Text) : Prop :=
  32 ≤ u ∧ u ≤ 126 ∧ (w = [u] ∧ u ≠ '"'.toNat ∧ u ≠ '\\'.toNat ∨ w = ['\\'.toNat, u])

def Spells (s e : Text) : Prop := ∃ ws, List.Forall₂ SpellsUnit s ws ∧ e = ws.flatten

def inQuotes (e : Text) : Text := Text.ofString "\"" ++ e ++ Text.ofString "\""

variable {s t e w : Text} {u : Nat}

theorem Spells.cons (hu : SpellsUnit u w) (h : Spells s e) : Spells (u :: s) (w ++ e) := by
  obtain ⟨ws, hws, rfl⟩ := h
  exact ⟨w :: ws, .cons hu hws, rfl⟩

theorem spelling_iff : Spelling s e ↔ Spells s e := by
  constructor
  · intro h
    induction h with
    | nil => exact ⟨[], .nil, rfl⟩
    | plain hu _ ih =>
      obtain ⟨hlow, hhigh, hne⟩ := quotedText_iff.mp hu
      exact ih.cons ⟨hlow, hhigh, .inl ⟨rfl, hne⟩⟩
    | escaped hu _ ih =>
      obtain ⟨hlow, hhigh⟩ := quotedPair_iff.mp hu
      exact ih.cons ⟨hlow, hhigh, .inr rfl⟩
  · rintro ⟨ws, h, rfl⟩
    induction h with
    | nil => exact .nil
    | cons hu _ ih =>
      obtain ⟨hlow, hhigh, ⟨rfl, hne⟩ | rfl⟩ := hu
      · exact .plain (quotedText_iff.mpr ⟨hlow, hhigh, hne⟩) ih
      · exact .escaped (quotedPair_iff.mpr ⟨hlow, hhigh⟩) ih

theorem closed_quotedString :
    Closed quotedString fun t s => ∃ e, t = inQuotes e ∧ Spells s e where
  inside := ((inside_text (by decide)).before _).map _
  reads_iff _ _ _ := by
    simp only [reads_quotedString, spelling_iff]
    rfl

theorem length_escapeUnit_le (h : SpellsUnit u w) : (escapeUnit u).length ≤ w.length := by
  obtain ⟨-, -, ⟨rfl, hquote, hslash⟩ | rfl⟩ := h
  · rw [escapeUnit, if_neg (not_or.mpr ⟨hquote, hslash⟩)]
  · unfold escapeUnit
    split
    · exact Nat.le_refl _
    · exact Nat.le_succ _

/-- A unit that may stand for itself does so in what is rendered, so each unit is written as short
as it can be. -/
theorem length_escape_le (h : Spells s e) : (s.flatMap escapeUnit).length ≤ e.length := by
  obtain ⟨ws, hws, rfl⟩ := h
  induction hws with
  | nil => exact Nat.le_refl _
  | cons hu _ ih =>
    rw [List.flatMap_cons, List.flatten_cons, List.length_append, List.length_append]
    exact Nat.add_le_add (length_escapeUnit_le hu) ih

theorem parse?_quoted_iff :
    rule.parse? t = some (.quoted s) ↔ ∃ e, t = inQuotes e ∧ Spells s e := by
  rw [parse?_eq_some_iff_reads]
  constructor
  · intro h
    cases localPart_of_reads h with
    | quoted he => exact ⟨_, rfl, spelling_iff.mp he⟩
  · rintro ⟨e, rfl, he⟩
    exact reads_localPart (.quoted (spelling_iff.mpr he)) (outside_nil _)

/-- What stands between quotes is read as the text that it spells, up to the first quote that no
backslash precedes, and what is rendered is one of its shortest spellings. -/
theorem quotes_read_as_spelled :
    (∀ input pos, (quotedString.run input pos).isSome ↔
      ∃ s e, Spells s e ∧ (inQuotes e).StandsAt input pos) ∧
    (∀ input pos s e, Spells s e → (inQuotes e).StandsAt input pos →
      quotedString.run input pos = some ⟨s, pos + (inQuotes e).length⟩ ∧
      ∀ s' e', Spells s' e' → (inQuotes e').StandsAt input pos → s' = s) ∧
    (∀ s : Text, (∀ u ∈ s, 32 ≤ u ∧ u ≤ 126) → ∃ e, (quoted s).render = inQuotes e ∧
      Spells s e ∧ ∀ e', Spells s e' → e.length ≤ e'.length) ∧
    (∀ t t' v v', rule.parse? t = some (.quoted v) → rule.parse? t' = some (.quoted v') →
      (v = v' ↔ ∃ s e e', Spells s e ∧ Spells s e' ∧ t = inQuotes e ∧ t' = inQuotes e')) := by
  refine ⟨?_, ?_, ?_, ?_⟩
  · intro input pos
    rw [closed_quotedString.isSome_iff]
    constructor
    · rintro ⟨s, _, ⟨e, rfl, hs⟩, hat⟩
      exact ⟨s, e, hs, hat⟩
    · rintro ⟨s, e, hs, hat⟩
      exact ⟨s, _, ⟨e, rfl, hs⟩, hat⟩
  · intro input pos s e hs hat
    refine ⟨closed_quotedString.run_iff.mpr ⟨_, ⟨e, rfl, hs⟩, hat, rfl⟩, ?_⟩
    intro s' e' hs' hat'
    exact (closed_quotedString.unique ⟨e, rfl, hs⟩ hat ⟨e', rfl, hs'⟩ hat').2
  · intro s hs
    exact ⟨s.flatMap escapeUnit, rfl, spelling_iff.mp (spelling_escape hs),
      fun e' he' => length_escape_le he'⟩
  · intro t t' v v' ht ht'
    constructor
    · rintro rfl
      obtain ⟨e, rfl, he⟩ := parse?_quoted_iff.mp ht
      obtain ⟨e', rfl, he'⟩ := parse?_quoted_iff.mp ht'
      exact ⟨v, e, e', he, he', rfl, rfl⟩
    · rintro ⟨s, e, e', he, he', rfl, rfl⟩
      rw [parse?_quoted_iff.mpr ⟨e, rfl, he⟩] at ht
      rw [parse?_quoted_iff.mpr ⟨e', rfl, he'⟩] at ht'
      obtain rfl := LocalPart.quoted.inj (Option.some.inj ht)
      exact LocalPart.quoted.inj (Option.some.inj ht')

/-- A needless backslash, an escaped quote, and two backslashes right before the closing quote. -/
theorem quotes_read_as_spelled_escapes :
    let input := Text.ofString "a\"x\\y\\\"\\\\\"b\""
    let s := Text.ofString "xy\"\\"
    let e := Text.ofString "x\\y\\\"\\\\"
    let e' := Text.ofString "xy\\\"\\\\"
    (Spells s e ∧ (inQuotes e).StandsAt input 1 ∧ quotedString.run input 1 = some ⟨s, 10⟩) ∧
    ((∀ u ∈ s, 32 ≤ u ∧ u ≤ 126) ∧ ∃ e, (quoted s).render = inQuotes e ∧ Spells s e ∧
      ∀ e', Spells s e' → e.length ≤ e'.length) ∧
    rule.parse? (inQuotes e) = some (.quoted s) ∧ rule.parse? (inQuotes e') = some (.quoted s) ∧
      ∃ s d d', Spells s d ∧ Spells s d' ∧ inQuotes e = inQuotes d ∧ inQuotes e' = inQuotes d' := by
  intro input s e e'
  obtain ⟨-, hrun, hrender, hsame⟩ := quotes_read_as_spelled
  have hs : Spells s e := by
    refine ⟨["x", "\\y", "\\\"", "\\\\"], ?_, ?_⟩ <;> decide
  have hat : (inQuotes e).StandsAt input 1 := ⟨"a", "b\"", by decide, by decide⟩
  have hprintable : ∀ u ∈ s, 32 ≤ u ∧ u ≤ 126 := by decide
  have he : rule.parse? (inQuotes e) = some (.quoted s) := by decide
  have he' : rule.parse? (inQuotes e') = some (.quoted s) := by decide
  exact ⟨⟨hs, hat, (hrun _ _ _ _ hs hat).1⟩, ⟨hprintable, hrender s hprintable⟩, he, he',
    (hsame _ _ _ _ he he').mp rfl⟩

end LocalPart

namespace Grammar
open Rule

theorem closed_bracketed : Closed FormalLiteral.bracketed fun t l =>
    ∃ s, t = Text.ofString "[" ++ s ++ Text.ofString "]" ∧ FormalLiteral.Derives s l where
  inside := by
    apply inside_oneOf
    intro r hr
    obtain ⟨form, -, rfl⟩ := List.mem_map.mp hr
    exact (inside_text (by decide)).before _
  reads_iff _ _ _ := reads_bracketed

theorem closed_path : Closed Path.rule Path.Derives where
  inside := (inside_text (by decide)).before _
  reads_iff _ _ _ := reads_path

theorem closed_reversePath : Closed ReversePath.rule ReversePath.Derives where
  inside := ((inside_text (by decide)).map _).orElse (closed_path.inside.map _)
  reads_iff _ _ _ := reads_reversePath

theorem closed_forwardPath : Closed ForwardPath.rule ForwardPath.Derives where
  inside := ((inside_textAnyCase _).map _).orElse (closed_path.inside.map _)
  reads_iff _ _ _ := reads_forwardPath

/-- Each of these rules has read its closing delimiter when it stops, and nothing after that changes
what it has read. -/
theorem nothing_read_ahead :
    NoLookahead LocalPart.quotedString ∧ NoLookahead FormalLiteral.bracketed ∧
    NoLookahead Path.rule ∧ NoLookahead ReversePath.rule ∧ NoLookahead ForwardPath.rule :=
  ⟨LocalPart.closed_quotedString.noLookahead, closed_bracketed.noLookahead,
    closed_path.noLookahead, closed_reversePath.noLookahead, closed_forwardPath.noLookahead⟩

/-- Quoted text with the delimiters of a path in it, after a source route, and more of them where
the line went on. -/
theorem nothing_read_ahead_delimiters :
    let s := Text.ofString "x<@a.b,@c:\"d>\\\"@[e\"@[IPv6:0:0::1]> SIZE=1"
    let u := Text.ofString "\"@[1.2.3.4]>"
    let m : Mailbox := ⟨.quoted "d>\"@[e", .literal (.formal (.ip (.v6 "::1")))⟩
    (Path.rule.run s 1 = some ⟨m, 34⟩ ∧ Path.rule.run (s.take 34 ++ u) 1 = some ⟨m, 34⟩) ∧
    (ForwardPath.rule.run "<PostMaster>" 0 = some ⟨.postmaster, 12⟩ ∧
      ForwardPath.rule.run ((Text.ofString "<PostMaster>").take 12 ++ u) 0 =
        some ⟨.postmaster, 12⟩) := by
  intro s u m
  obtain ⟨-, -, hpath, -, hforward⟩ := nothing_read_ahead
  have hs : Path.rule.run s 1 = some ⟨m, 34⟩ := by decide
  have hp : ForwardPath.rule.run "<PostMaster>" 0 = some ⟨.postmaster, 12⟩ := by decide
  exact ⟨⟨hs, hpath _ _ _ _ u hs⟩, hp, hforward _ _ _ _ u hp⟩

end Grammar

end MailEnvelope
