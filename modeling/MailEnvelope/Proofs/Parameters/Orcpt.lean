import MailEnvelope.Proofs.Parameters.Values
import MailEnvelope.Proofs.Xtext.Encode

namespace MailEnvelope.Orcpt
open Grammar Rule

/-- A value is the kind of an address, a semicolon, and the address as it is encoded. -/
structure Split (v a x : Text) : Prop where
  eq_append : v = a ++ Text.ofString ";" ++ x
  kind : Run .atomUnit a
  ne_nil : x ≠ []
  encoded : ∃ ps, Xtext.Strict x ps

variable {v a b s x y : Text}

/-- No kind has a semicolon in it, so the first one ends it, whatever the address holds. -/
theorem Split.notMem (h : Split v a x) : ';'.toNat ∉ a := notMem_of_all h.kind.2 (by decide)

theorem Split.unique (h : Split v a x) (h' : Split v b y) : b = a ∧ y = x := by
  have he : b ++ Text.ofString ";" ++ y = a ++ Text.ofString ";" ++ x :=
    h'.eq_append.symm.trans h.eq_append
  rw [List.append_assoc, List.append_assoc] at he
  exact cut_unique h'.notMem h.notMem he

theorem parse?_iff_split {r : Orcpt} :
    parse? v = some r ↔ ∃ a x, Split v a x ∧ r = ⟨a, Xtext.decode x⟩ := by
  rw [parse?_eq_some_iff]
  constructor
  · intro ⟨a, x, hv, ha, hx, hr⟩
    obtain ⟨-, hne, hps⟩ := Xtext.parse?_rule_iff.mp hx
    exact ⟨a, x, ⟨hv, ha, hne, hps⟩, hr⟩
  · intro ⟨a, x, h, hr⟩
    exact ⟨a, x, h.eq_append, h.kind, Xtext.parse?_rule_iff.mpr ⟨rfl, h.ne_nil, h.encoded⟩, hr⟩

theorem Split.parse?_eq (h : Split v a x) : parse? v = some ⟨a, Xtext.decode x⟩ :=
  parse?_iff_split.mpr ⟨a, x, h, rfl⟩

theorem isSome_parse?_iff : (parse? v).isSome ↔ ∃ a x, Split v a x := by
  rw [Option.isSome_iff_exists]
  constructor
  · intro ⟨_, hr⟩
    obtain ⟨a, x, h, -⟩ := parse?_iff_split.mp hr
    exact ⟨a, x, h⟩
  · intro ⟨a, x, h⟩
    exact ⟨_, h.parse?_eq⟩

theorem split_encode (ha : Run .atomUnit a) (hs : s.Unicode) (hne : s ≠ []) :
    Split (a ++ Text.ofString ";" ++ Xtext.encode s) a (Xtext.encode s) :=
  ⟨rfl, ha, Xtext.encode_ne_nil hs hne, Xtext.encode_strict s⟩

theorem parse?_encode (ha : Run .atomUnit a) (hs : s.Unicode) (hne : s ≠ []) :
    parse? (a ++ Text.ofString ";" ++ Xtext.encode s) = some ⟨a, s⟩ := by
  rw [(split_encode ha hs hne).parse?_eq, Xtext.decode_encode hs]

/-- A value is read if it can be split, and it is read as it is split: there is no other way. An
address of characters comes back with the kind that it was given. -/
theorem read_at_first_semicolon :
    (∀ v, (parse? v).isSome ↔ ∃ a x, Split v a x) ∧
    (∀ v a x, Split v a x → parse? v = some ⟨a, Xtext.decode x⟩ ∧ ';'.toNat ∉ a ∧
      ∀ b y, Split v b y → b = a ∧ y = x) ∧
    (∀ a (s : Text), Run .atomUnit a → s.Unicode → s ≠ [] →
      parse? (a ++ Text.ofString ";" ++ Xtext.encode s) = some ⟨a, s⟩) := by
  refine ⟨fun _ => isSome_parse?_iff, ?_, fun _ _ => parse?_encode⟩
  intro v a x h
  exact ⟨h.parse?_eq, h.notMem, fun b y h' => h.unique h'⟩

theorem read_at_first_of_two :
    let v := Text.ofString "x+2B;a;b+3B+C3+A9"
    let s := Text.ofString "a=é"
    (Split v "x+2B" "a;b+3B+C3+A9" ∧ parse? v = some ⟨"x+2B", "a;b;é"⟩) ∧
    (¬ ∃ a x, Split "x;y+e9" a x) ∧
    s.Unicode ∧ s ≠ [] ∧ parse? "x+2B;a+3D+C3+A9" = some ⟨"x+2B", s⟩ := by
  intro v s
  obtain ⟨hsome, hread, hback⟩ := read_at_first_semicolon
  have hkind : Run .atomUnit "x+2B" := ⟨by decide, by decide⟩
  have hs : s.Unicode := Text.unicode_ofChars _
  have hne : s ≠ [] := by decide
  have hsplit : Split v "x+2B" "a;b+3B+C3+A9" := by
    let x := Text.ofString "a;b+3B+C3+A9"
    have hx : Xtext.rule.parse? x = some x := by decide
    obtain ⟨-, hne, hps⟩ := Xtext.parse?_rule_iff.mp hx
    exact ⟨by decide, hkind, hne, hps⟩
  have hlower : ¬ ∃ a x, Split "x;y+e9" a x := by
    rw [← hsome]
    decide
  have hdecode : Xtext.decode "a;b+3B+C3+A9" = "a;b;é" := by decide
  have hencode : "x+2B" ++ Text.ofString ";" ++ Xtext.encode s =
    Text.ofString "x+2B;a+3D+C3+A9" := by decide
  have hv := (hread v _ _ hsplit).1
  have hw := hback "x+2B" s hkind hs hne
  rw [hdecode] at hv
  rw [hencode] at hw
  exact ⟨⟨hsplit, hv⟩, hlower, hs, hne, hw⟩

end MailEnvelope.Orcpt
