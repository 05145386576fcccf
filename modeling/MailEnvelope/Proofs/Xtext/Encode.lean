import MailEnvelope.Proofs.Grammar.Names
import MailEnvelope.Proofs.Text.Unicode
import MailEnvelope.Proofs.Xtext.Decode

namespace MailEnvelope.Xtext
open Rule Grammar

/-- Encoded text and its pieces: plain units, and escapes with digits in upper case. -/
inductive Strict : Text → List Piece → Prop
  | nil : Strict [] []
  | plain {u t ps} : CharClass.xtextPlain u → Strict t ps → Strict (u :: t) (.plain u :: ps)
  | octet {high low t ps} : CharClass.upperHexDigit high → CharClass.upperHexDigit low →
      Strict t ps → Strict ('+'.toNat :: high :: low :: t) (.octet (octetOfDigits high low) :: ps)

variable {a b t : Text} {ps qs : List Piece}

theorem hexDigit_of_upper {u : Nat} (hu : CharClass.upperHexDigit u) : CharClass.hexDigit u :=
  ofRanges_mono (by decide) hu

theorem Strict.pieces_eq (h : Strict t ps) : pieces t = ps := by
  induction h with
  | nil => rfl
  | @plain u t ps hu _ ih =>
    have hplus : u ≠ '+'.toNat := ne_of_class hu (by decide)
    rw [pieces_plain fun _ _ _ _ he => hplus he.1, ih]
  | octet hh hl _ ih =>
    rw [pieces_escape ⟨rfl, hexDigit_of_upper hh, hexDigit_of_upper hl⟩, ih]

theorem Strict.append (ha : Strict a ps) (hb : Strict b qs) : Strict (a ++ b) (ps ++ qs) := by
  induction ha with
  | nil => exact hb
  | plain hu _ ih => exact .plain hu ih
  | octet hh hl _ ih => exact .octet hh hl ih

def unitRule : Rule Text :=
  .orElse (.unit .xtextPlain) (.consumed (.both (.text "+") (.span .upperHexDigit 2 (some 2))))

theorem reads_unitRule {v : Text} : Reads unitRule a v b ↔
    v = a ∧ ((∃ u, a = [u] ∧ CharClass.xtextPlain u) ∨ ∃ high low, a = ['+'.toNat, high, low] ∧
      CharClass.upperHexDigit high ∧ CharClass.upperHexDigit low) := by
  simp only [unitRule, reads_orElse, reads_unit, reads_consumed, reads_both, reads_text,
    reads_span_max]
  constructor
  · rintro (⟨u, rfl, rfl, hu⟩ | ⟨-, rfl, ⟨_, _⟩, _, ds, rfl, ⟨rfl, -⟩, -, hmin, hmax, hd, -⟩)
    · exact ⟨rfl, .inl ⟨u, rfl, hu⟩⟩
    · obtain ⟨high, low, rfl⟩ := List.length_eq_two.mp (Nat.le_antisymm hmax hmin)
      exact ⟨rfl, .inr ⟨high, low, rfl, hd high (by simp), hd low (by simp)⟩⟩
  · rintro ⟨rfl, ⟨u, rfl, hu⟩ | ⟨high, low, rfl, hh, hl⟩⟩
    · exact .inl ⟨u, rfl, rfl, hu⟩
    · refine .inr ⟨rfl, rfl, (_, _), ['+'.toNat], [high, low], rfl, ⟨rfl, rfl⟩, rfl, ?_⟩
      simp [hh, hl]

theorem strict_of_readsEach {vs : List Text} (h : ReadsEach unitRule b t vs) :
    ∃ ps, Strict t ps := by
  induction h with
  | nil => exact ⟨[], .nil⟩
  | cons hx _ _ ih =>
    obtain ⟨ps, hps⟩ := ih
    obtain ⟨-, ⟨u, rfl, hu⟩ | ⟨high, low, rfl, hh, hl⟩⟩ := reads_unitRule.mp hx
    · exact ⟨_, .plain hu hps⟩
    · exact ⟨_, .octet hh hl hps⟩

theorem readsEach_of_strict (h : Strict t ps) : ∃ vs, ReadsEach unitRule [] t vs := by
  induction h with
  | nil => exact ⟨[], .nil fun a _ c he _ => (List.append_eq_nil_iff.mp he.symm).1⟩
  | plain hu _ ih =>
    obtain ⟨vs, hvs⟩ := ih
    exact ⟨_, .cons (reads_unitRule.mpr ⟨rfl, .inl ⟨_, rfl, hu⟩⟩) (List.cons_ne_nil _ _) hvs⟩
  | octet hh hl _ ih =>
    obtain ⟨vs, hvs⟩ := ih
    exact ⟨_, .cons (reads_unitRule.mpr ⟨rfl, .inr ⟨_, _, rfl, hh, hl⟩⟩) (List.cons_ne_nil _ _) hvs⟩

theorem parse?_rule_iff {v : Text} :
    rule.parse? t = some v ↔ v = t ∧ t ≠ [] ∧ ∃ ps, Strict t ps := by
  have hrule : rule = consumed (manyOne unitRule) := rfl
  rw [parse?_eq_some_iff_reads, hrule, reads_consumed]
  simp only [reads_manyOne]
  constructor
  · rintro ⟨rfl, vs, hvs, hne⟩
    exact ⟨rfl, hne, strict_of_readsEach hvs⟩
  · rintro ⟨rfl, hne, ps, hps⟩
    obtain ⟨vs, hvs⟩ := readsEach_of_strict hps
    exact ⟨rfl, vs, hvs, hne⟩

theorem hexDigit_upperHexDigit : ∀ n < 16, CharClass.upperHexDigit (upperHexDigit n) := by decide

theorem digitValue_upperHexDigit : ∀ n < 16, Text.digitValue (upperHexDigit n) = n := by decide

theorem octetOfDigits_upperHexDigit (o : UInt8) :
    octetOfDigits (upperHexDigit (o.toNat / 16)) (upperHexDigit (o.toNat % 16)) = o := by
  have ho := o.toNat_lt
  rw [octetOfDigits, digitValue_upperHexDigit _ (by omega), digitValue_upperHexDigit _ (by omega),
    Nat.div_add_mod, UInt8.ofNat_toNat]

def pieceOf (o : UInt8) : Piece :=
  if CharClass.xtextPlain o.toNat then .plain o.toNat else .octet o

theorem strict_encodeOctets (os : List UInt8) :
    Strict (os.flatMap encodeOctet) (os.map pieceOf) := by
  induction os with
  | nil => exact .nil
  | cons o os ih =>
    rw [List.flatMap_cons, List.map_cons, encodeOctet, pieceOf]
    split
    · next hplain => exact .plain hplain ih
    · have ho := o.toNat_lt
      have h := Strict.octet (hexDigit_upperHexDigit (o.toNat / 16) (by omega))
        (hexDigit_upperHexDigit (o.toNat % 16) (by omega)) ih
      rwa [octetOfDigits_upperHexDigit] at h

theorem assemble_octets (run os : List UInt8) (ps : List Piece) :
    assemble run (os.map .octet ++ ps) = assemble (run ++ os) ps := by
  induction os generalizing run with
  | nil => simp
  | cons o os ih => simp [assemble, ih]

theorem pieceOf_high {o : UInt8} (ho : 128 ≤ o.toNat) : pieceOf o = .octet o := by
  rw [pieceOf, if_neg]
  simp [CharClass.xtextPlain, CharClass.ofRanges]
  omega

theorem map_pieceOf_char (c : Char) :
    ((String.utf8EncodeChar c).map pieceOf = [.plain c.toNat] ∧ c.toNat < 128) ∨
      (String.utf8EncodeChar c).map pieceOf = (String.utf8EncodeChar c).map .octet := by
  by_cases hc : c.toNat < 128
  · have ho : (UInt8.ofNat c.toNat).toNat = c.toNat := by
      rw [UInt8.toNat_ofNat']
      omega
    rw [Text.utf8EncodeChar_ascii hc, List.map_singleton, List.map_singleton, pieceOf, ho]
    split
    · exact .inl ⟨rfl, hc⟩
    · exact .inr rfl
  · right
    apply List.map_congr_left
    intro o ho
    exact pieceOf_high (Text.utf8EncodeChar_high (Nat.le_of_not_lt hc) o ho)

theorem readOctets_flatMap (cs : List Char) :
    readOctets (cs.flatMap String.utf8EncodeChar) = Text.ofChars cs := by
  rw [readOctets, Text.ofUtf8?_flatMap, Option.getD_some]

/-- The octets that wait are those of whole characters, so each run is read as characters again. -/
theorem assemble_chars (cs ds : List Char) :
    assemble (cs.flatMap String.utf8EncodeChar)
      ((ds.flatMap String.utf8EncodeChar).map pieceOf) = Text.ofChars (cs ++ ds) := by
  induction ds generalizing cs with
  | nil =>
    rw [List.append_nil]
    exact readOctets_flatMap cs
  | cons d ds ih =>
    rw [List.flatMap_cons, List.map_append]
    obtain ⟨hplain, hd⟩ | hescaped := map_pieceOf_char d
    · have hunits : Text.unitsOfChar d = [d.toNat] := if_pos (by omega)
      have hrest := ih []
      rw [List.flatMap_nil, List.nil_append] at hrest
      rw [hplain, List.singleton_append, assemble, readOctets_flatMap, hrest]
      simp [Text.ofChars, hunits]
    · have hrest := ih (cs ++ [d])
      rw [List.flatMap_append, List.flatMap_singleton, List.append_assoc] at hrest
      rw [hescaped, assemble_octets]
      exact hrest

theorem decode_encode_chars (t : Text) : decode (encode t) = Text.ofChars t.toChars := by
  rw [decode, encode, (strict_encodeOctets _).pieces_eq]
  exact assemble_chars [] t.toChars

theorem decode_encode (h : t.Unicode) : decode (encode t) = t := by
  rw [decode_encode_chars, Text.ofChars_toChars h]

theorem Strict.paramValue (h : Strict t ps) : ∀ u ∈ t, CharClass.paramValue u := by
  induction h with
  | nil => simp
  | plain hu _ ih => exact List.forall_mem_cons.mpr ⟨ofRanges_mono (by decide) hu, ih⟩
  | octet hh hl _ ih =>
    refine List.forall_mem_cons.mpr ⟨by decide, List.forall_mem_cons.mpr ⟨?_, ?_⟩⟩
    · exact ofRanges_mono (by decide) hh
    · exact List.forall_mem_cons.mpr ⟨ofRanges_mono (by decide) hl, ih⟩

theorem encode_strict (t : Text) : ∃ ps, Strict (encode t) ps := ⟨_, strict_encodeOctets t.toUtf8⟩

theorem encode_ne_nil (h : t.Unicode) (hne : t ≠ []) : encode t ≠ [] := by
  intro he
  have hd := decode_encode h
  rw [he] at hd
  exact hne (hd.symm.trans readOctets_nil)

theorem run_encode (h : t.Unicode) (hne : t ≠ []) : Run .paramValue (encode t) := by
  obtain ⟨ps, hps⟩ := encode_strict t
  exact ⟨encode_ne_nil h hne, hps.paramValue⟩

theorem parse?_encode (h : t.Unicode) (hne : t ≠ []) :
    rule.parse? (encode t) = some (encode t) :=
  parse?_rule_iff.mpr ⟨rfl, encode_ne_nil h hne, encode_strict t⟩

/-- In encoded text a plus is nothing but the start of an escape. -/
theorem Strict.after_plus (h : Strict t ps) (ht : t = a ++ '+'.toNat :: b) :
    ∃ high low c, b = high :: low :: c ∧ CharClass.upperHexDigit high ∧
      CharClass.upperHexDigit low := by
  induction h generalizing a with
  | nil => simp at ht
  | @plain u t ps hu _ ih =>
    obtain ⟨-, he⟩ | ⟨s, -, hs⟩ := List.cons_eq_append_iff.mp ht
    · exact absurd (List.cons.inj he).1.symm (ne_of_class hu (by decide))
    · exact ih hs
  | @octet high low t ps hh hl _ ih =>
    obtain ⟨-, he⟩ | ⟨s, -, hs⟩ := List.cons_eq_append_iff.mp ht
    · exact ⟨high, low, t, (List.cons.inj he).2, hh, hl⟩
    obtain ⟨-, he⟩ | ⟨s, -, hs⟩ := List.cons_eq_append_iff.mp hs
    · exact absurd (List.cons.inj he).1.symm (ne_of_class hh (by decide))
    obtain ⟨-, he⟩ | ⟨s, -, hs⟩ := List.cons_eq_append_iff.mp hs
    · exact absurd (List.cons.inj he).1.symm (ne_of_class hl (by decide))
    · exact ih hs

/-- Text of characters comes back, and what it is encoded as is visible, has no equals sign, and has
a plus only where an escape begins. -/
theorem encoded_comes_back (h : t.Unicode) :
    decode (encode t) = t ∧
    (∀ u ∈ encode t, 33 ≤ u ∧ u ≤ 126 ∧ u ≠ '='.toNat) ∧
    (∀ a b, encode t = a ++ '+'.toNat :: b → ∃ high low c, b = high :: low :: c ∧
      CharClass.upperHexDigit high ∧ CharClass.upperHexDigit low) ∧
    (t ≠ [] → rule.parse? (encode t) = some (encode t)) := by
  obtain ⟨ps, hps⟩ := encode_strict t
  refine ⟨decode_encode h, ?_, fun a b he => hps.after_plus he, parse?_encode h⟩
  intro u hu
  have hvalue := hps.paramValue u hu
  simp [CharClass.paramValue, CharClass.ofRanges] at hvalue ⊢
  omega

theorem encoded_comes_back_mixed :
    let t := Text.ofString "ß41+ 0=A\uFEFF𝄞\n"
    let e := Text.ofString "+C3+9F41+2B+200+3DA+EF+BB+BF+F0+9D+84+9E+0A"
    t.Unicode ∧ t ≠ [] ∧ encode t = e ∧ decode e = t ∧ rule.parse? e = some e := by
  intro t e
  have ht : t.Unicode := Text.unicode_ofChars _
  have hne : t ≠ [] := by decide
  have he : encode t = e := by decide
  obtain ⟨hback, -, -, hrule⟩ := encoded_comes_back ht
  rw [he] at hback hrule
  exact ⟨ht, hne, he, hback, hrule hne⟩

end MailEnvelope.Xtext
