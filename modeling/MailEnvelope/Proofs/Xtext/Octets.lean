import MailEnvelope.Proofs.Xtext.Encode

namespace MailEnvelope.Xtext
open Rule

def Piece.value : Piece → UInt8
  | .plain u => UInt8.ofNat u
  | .octet o => o

/-- The octets that encoded text denotes: a plain unit is its own code, an escape is its octet. -/
def Denotes (t : Text) (os : List UInt8) : Prop := ∃ ps, Strict t ps ∧ ps.map Piece.value = os

/-- What must not stand for itself: the plus, the equals sign and all that is not visible. -/
def NeedsEscape (o : UInt8) : Prop :=
  o.toNat = '+'.toNat ∨ o.toNat = '='.toNat ∨ o.toNat < 33 ∨ 126 < o.toNat

/-- Encoded text for some octets with no needless escape. -/
def Canonical (t : Text) (os : List UInt8) : Prop :=
  ∃ ps, Strict t ps ∧ ps.map Piece.value = os ∧ ∀ o, .octet o ∈ ps → NeedsEscape o

/-- Encoded text around the octets of some escapes, with no escape right before or after them. -/
inductive MaximalRun : Text → Text → List UInt8 → Text → Prop
  | mk {a r b ps run qs} : Strict a ps → Strict r (run.map .octet) → Strict b qs → run ≠ [] →
      (∀ o, ps.getLast? ≠ some (.octet o)) → (∀ o, qs.head? ≠ some (.octet o)) →
      MaximalRun (a ++ r ++ b) a run b

variable {a b t : Text} {ps qs : List Piece} {run os : List UInt8} {o : UInt8}

theorem needsEscape_iff : NeedsEscape o ↔ ¬ CharClass.xtextPlain o.toNat := by
  simp [NeedsEscape, CharClass.xtextPlain, CharClass.ofRanges]
  omega

theorem Strict.denotes_iff (h : Strict t ps) : Denotes t os ↔ ps.map Piece.value = os := by
  constructor
  · intro ⟨qs, hqs, hos⟩
    rw [← h.pieces_eq, hqs.pieces_eq, hos]
  · intro hos
    exact ⟨ps, h, hos⟩

theorem strict_pieces (h : rule.parse? t = some t) : Strict t (pieces t) := by
  obtain ⟨-, -, ps, hps⟩ := parse?_rule_iff.mp h
  rwa [hps.pieces_eq]

theorem assemble_front (h : ∀ o, ps.getLast? ≠ some (.octet o)) (qs : List Piece) :
    assemble [] (ps ++ qs) = assemble [] ps ++ assemble [] qs := by
  obtain rfl | ⟨fs, p, rfl⟩ := List.eq_nil_or_concat ps
  · rw [List.nil_append, assemble, readOctets_nil, List.nil_append]
  · cases p with
    | plain u => simp [assemble_cut, assemble, readOctets_nil]
    | octet o => exact absurd (by simp) (h o)

theorem assemble_back (h : ∀ o, qs.head? ≠ some (.octet o)) :
    assemble run qs = readOctets run ++ assemble [] qs := by
  cases qs with
  | nil => rw [assemble, assemble, readOctets_nil, List.append_nil]
  | cons p qs =>
    cases p with
    | plain u => rw [assemble, assemble, readOctets_nil, List.nil_append]
    | octet o => exact absurd rfl (h o)

theorem MaximalRun.decode_eq (h : MaximalRun t a run b) :
    decode t = decode a ++ readOctets run ++ decode b := by
  obtain ⟨ha, hr, hb, -, hfront, hback⟩ := h
  rw [decode, decode, decode, ((ha.append hr).append hb).pieces_eq, ha.pieces_eq, hb.pieces_eq,
    List.append_assoc, assemble_front hfront, assemble_octets, List.nil_append,
    assemble_back hback, List.append_assoc]

theorem MaximalRun.after_plain {c s : Text} {u : Nat} (hc : Strict c ps)
    (hu : CharClass.xtextPlain u) (h : MaximalRun s a run b) :
    MaximalRun (c ++ u :: s) (c ++ u :: a) run b := by
  obtain @⟨a, r, b, fs, run, qs, ha, hr, hb, hne, hfront, hback⟩ := h
  have hsplit : c ++ u :: (a ++ r ++ b) = (c ++ u :: a) ++ r ++ b := by simp
  rw [hsplit]
  refine .mk (hc.append (.plain hu ha)) hr hb hne ?_ hback
  intro o ho
  rw [List.getLast?_append_cons] at ho
  cases fs with
  | nil => cases ho
  | cons f fs => exact hfront o (by rwa [List.getLast?_cons_cons] at ho)

theorem xtextPlain_ascii {u : Nat} (hu : CharClass.xtextPlain u) : u < 128 := by
  simp [CharClass.xtextPlain, CharClass.ofRanges] at hu
  omega

theorem toNat_of_plain {u : Nat} (hu : CharClass.xtextPlain u) : (UInt8.ofNat u).toNat = u := by
  have hlt := xtextPlain_ascii hu
  rw [UInt8.toNat_ofNat']
  omega

theorem Strict.ascii_of_plain {u : Nat} (h : Strict t ps) (hu : .plain u ∈ ps) :
    (UInt8.ofNat u).toNat < 128 := by
  induction h with
  | nil => cases hu
  | plain hw _ ih =>
    obtain hp | hp := List.mem_cons.mp hu
    · obtain rfl := Piece.plain.inj hp
      rw [toNat_of_plain hw]
      exact xtextPlain_ascii hw
    · exact ih hp
  | octet _ _ _ ih =>
    obtain hp | hp := List.mem_cons.mp hu
    · cases hp
    · exact ih hp

theorem exists_char_of_plain {u : Nat} (hu : CharClass.xtextPlain u) :
    ∃ c : Char, Text.unitsOfChar c = [u] ∧ String.utf8EncodeChar c = [UInt8.ofNat u] := by
  have hlt := xtextPlain_ascii hu
  have hc : (Char.ofNat u).toNat = u := Text.toNat_charOfNat (.inl (by omega))
  refine ⟨Char.ofNat u, ?_, ?_⟩
  · rw [Text.unitsOfChar, hc, if_pos (by omega)]
  · rw [Text.utf8EncodeChar_ascii (by omega), hc]

theorem exists_chars_of_run (h : run ≠ [] → Text.IsUtf8 run) :
    ∃ cs, readOctets run = Text.ofChars cs ∧ cs.flatMap String.utf8EncodeChar = run := by
  by_cases hne : run = []
  · exact ⟨[], by rw [hne, readOctets_nil]; rfl, hne.symm⟩
  · obtain ⟨cs, rfl⟩ := h hne
    exact ⟨cs, readOctets_flatMap cs, rfl⟩

/-- Where every run is UTF-8, all the octets together are that of the text that is decoded. The
octets that wait are those of escapes right before the text. -/
theorem exists_chars {r : Text} (hr : Strict r (run.map .octet)) (ht : Strict t ps)
    (h : ∀ a os b, MaximalRun (r ++ t) a os b → Text.IsUtf8 os) :
    ∃ cs, assemble run ps = Text.ofChars cs ∧
      cs.flatMap String.utf8EncodeChar = run ++ ps.map Piece.value := by
  induction ht generalizing r run with
  | nil =>
    have hrun : run ≠ [] → Text.IsUtf8 run := fun hne =>
      h [] run [] (.mk (a := []) .nil hr .nil hne (by simp) (by simp))
    simpa [assemble] using exists_chars_of_run hrun
  | @plain u t ps hu ht ih =>
    have hrun : run ≠ [] → Text.IsUtf8 run := by
      intro hne
      exact h [] run (u :: t) (.mk (a := []) .nil hr (.plain hu ht) hne (by simp) (by simp))
    obtain ⟨cs, hcs, hcs'⟩ := exists_chars_of_run hrun
    obtain ⟨c, hc, hc'⟩ := exists_char_of_plain hu
    have hnil : Strict [] (([] : List UInt8).map .octet) := .nil
    obtain ⟨ds, hds, hds'⟩ := ih hnil fun a os b hos => h _ os b (hos.after_plain hr hu)
    refine ⟨cs ++ c :: ds, ?_, ?_⟩
    · rw [assemble, hcs, hds]
      simp [Text.ofChars, hc]
    · simp [hcs', hc', hds', Piece.value]
  | @octet high low t ps hh hl ht ih =>
    have hr' : Strict (r ++ ['+'.toNat, high, low])
        ((run ++ [octetOfDigits high low]).map .octet) := by
      rw [List.map_append]
      exact hr.append (.octet hh hl .nil)
    obtain ⟨cs, hcs, hcs'⟩ := ih hr' fun a os b hos => h a os b (by simpa using hos)
    exact ⟨cs, hcs, by simpa [Piece.value] using hcs'⟩

/-- Between plain units the octets of UTF-8 are UTF-8 again. -/
theorem MaximalRun.isUtf8 (h : MaximalRun t a run b) (ht : Denotes t os) (hos : Text.IsUtf8 os) :
    Text.IsUtf8 run := by
  obtain @⟨a, r, b, ps, run, qs, ha, hr, hb, -, hfront, hback⟩ := h
  have hvalue : Piece.value ∘ Piece.octet = id := rfl
  rw [((ha.append hr).append hb).denotes_iff] at ht
  simp only [List.map_append, List.map_map, hvalue, List.map_id] at ht
  subst ht
  have hright : Text.IsUtf8 (run ++ qs.map Piece.value) := by
    obtain rfl | ⟨fs, p, rfl⟩ := List.eq_nil_or_concat ps
    · exact hos
    · cases p with
      | plain u =>
        have hu := ha.ascii_of_plain (u := u) (by simp)
        have hcut : Text.IsUtf8
            (fs.map Piece.value ++ UInt8.ofNat u :: (run ++ qs.map Piece.value)) := by
          simpa [Piece.value] using hos
        exact (hcut.cut hu).2
      | octet o => exact absurd (by simp) (hfront o)
  cases qs with
  | nil => simpa using hright
  | cons p qs =>
    cases p with
    | plain u => exact (hright.cut (hb.ascii_of_plain List.mem_cons_self)).1
    | octet o => exact absurd rfl (hback o)

theorem value_pieceOf (o : UInt8) : (pieceOf o).value = o := by
  unfold pieceOf
  split <;> simp [Piece.value]

theorem pieceOf_eq_octet {w : UInt8} (h : pieceOf w = .octet o) : NeedsEscape o := by
  unfold pieceOf at h
  split at h
  · cases h
  · next hplain =>
    cases h
    exact needsEscape_iff.mpr hplain

theorem escape_octetOfDigits {high low : Nat} (hh : CharClass.upperHexDigit high)
    (hl : CharClass.upperHexDigit low) :
    escape (octetOfDigits high low) = ['+'.toNat, high, low] := by
  have digit : ∀ u < 71, CharClass.upperHexDigit u →
      Text.digitValue u < 16 ∧ upperHexDigit (Text.digitValue u) = u := by decide
  have small : ∀ u, CharClass.upperHexDigit u → u < 71 := by
    intro u hu
    simp [CharClass.upperHexDigit, CharClass.ofRanges] at hu
    omega
  obtain ⟨hh', hhigh⟩ := digit high (small high hh) hh
  obtain ⟨hl', hlow⟩ := digit low (small low hl) hl
  have hnat : (octetOfDigits high low).toNat =
      16 * Text.digitValue high + Text.digitValue low := by
    rw [octetOfDigits, UInt8.toNat_ofNat']
    omega
  rw [escape, hnat, Nat.mul_add_div (by omega), Nat.div_eq_of_lt hl', Nat.add_zero,
    Nat.mul_add_mod, Nat.mod_eq_of_lt hl', hhigh, hlow]

/-- Octets have one such text, and it is what they are encoded as. -/
theorem canonical_iff : Canonical t os ↔ t = os.flatMap encodeOctet := by
  constructor
  · intro ⟨ps, hps, hos, hneeds⟩
    rw [← hos]
    clear hos
    induction hps with
    | nil => rfl
    | @plain u t ps hu _ ih =>
      have hrest := ih fun o ho => hneeds o (List.mem_cons_of_mem _ ho)
      rw [List.map_cons, List.flatMap_cons, ← hrest, Piece.value, encodeOctet, toNat_of_plain hu,
        if_pos hu, List.singleton_append]
    | @octet high low t ps hh hl _ ih =>
      have hrest := ih fun o ho => hneeds o (List.mem_cons_of_mem _ ho)
      have hplain := needsEscape_iff.mp (hneeds _ List.mem_cons_self)
      rw [List.map_cons, List.flatMap_cons, ← hrest, Piece.value, encodeOctet, if_neg hplain,
        escape_octetOfDigits hh hl]
      rfl
  · intro ht
    rw [ht]
    refine ⟨os.map pieceOf, strict_encodeOctets os, ?_, ?_⟩
    · have hvalue : Piece.value ∘ pieceOf = id := funext value_pieceOf
      rw [List.map_map, hvalue, List.map_id]
    · intro o ho
      obtain ⟨w, -, hw⟩ := List.mem_map.mp ho
      exact pieceOf_eq_octet hw

/-- Decoding keeps the octets of encoded text where its escapes spell characters, and makes one
character of each octet of a run where they do not. -/
theorem octets_kept (hx : rule.parse? t = some t) :
    (∃! os, Denotes t os) ∧ ∀ os, Denotes t os →
      ((∀ a run b, MaximalRun t a run b → Text.IsUtf8 run) →
        (decode t).toUtf8 = os ∧ (∀ y, Canonical y os ↔ y = encode (decode t)) ∧
          (Canonical t os → encode (decode t) = t)) ∧
      ∀ a run b, MaximalRun t a run b → ¬ Text.IsUtf8 run →
        decode t = decode a ++ Text.ofBytes run ++ decode b := by
  obtain ⟨-, -, ps, hps⟩ := parse?_rule_iff.mp hx
  refine ⟨⟨ps.map Piece.value, ⟨ps, hps, rfl⟩, fun os hos => (hps.denotes_iff.mp hos).symm⟩, ?_⟩
  intro os hos
  refine ⟨?_, ?_⟩
  · intro hruns
    have hnil : Strict [] (([] : List UInt8).map .octet) := .nil
    obtain ⟨cs, hcs, hcs'⟩ := exists_chars hnil hps hruns
    have hutf8 : (decode t).toUtf8 = os := by
      rw [decode, hps.pieces_eq, hcs, Text.toUtf8_ofChars, hcs', List.nil_append]
      exact hps.denotes_iff.mp hos
    have hcanonical : ∀ y, Canonical y os ↔ y = encode (decode t) := by
      intro y
      rw [canonical_iff, encode, hutf8]
    exact ⟨hutf8, hcanonical, fun ht => ((hcanonical t).mp ht).symm⟩
  · intro a run b hrun hnot
    rw [hrun.decode_eq, readOctets, Text.ofUtf8?_eq_none hnot, Option.getD_none]

theorem octets_kept_respelled :
    let t := Text.ofString "+41z+C3+A9"
    let y := Text.ofString "Az+C3+A9"
    let os : List UInt8 := [0x41, 0x7A, 0xC3, 0xA9]
    let x := Text.ofString "q" ++ Text.ofString "+C3" ++ Text.ofString "z+C3+A9"
    (rule.parse? t = some t ∧ Denotes t os ∧
      (∀ a run b, MaximalRun t a run b → Text.IsUtf8 run) ∧
      (decode t).toUtf8 = os ∧ encode (decode t) = y) ∧
    (rule.parse? y = some y ∧ Denotes y os ∧
      (∀ a run b, MaximalRun y a run b → Text.IsUtf8 run) ∧
      Canonical y os ∧ encode (decode y) = y) ∧
    (rule.parse? x = some x ∧ MaximalRun x "q" [0xC3] "z+C3+A9" ∧ ¬ Text.IsUtf8 [0xC3] ∧
      decode x = Text.ofString "qÃzé") := by
  intro t y os x
  have ht : rule.parse? t = some t := by decide
  have hy : rule.parse? y = some y := by decide
  have hx : rule.parse? x = some x := by decide
  have hos : Text.IsUtf8 os := by decide
  have htos : Denotes t os := ⟨pieces t, strict_pieces ht, by decide⟩
  have hyos : Denotes y os := ⟨pieces y, strict_pieces hy, by decide⟩
  have htruns : ∀ a run b, MaximalRun t a run b → Text.IsUtf8 run := fun _ _ _ h =>
    h.isUtf8 htos hos
  have hyruns : ∀ a run b, MaximalRun y a run b → Text.IsUtf8 run := fun _ _ _ h =>
    h.isUtf8 hyos hos
  have hcanonical : Canonical y os := canonical_iff.mpr (by decide)
  have hrun : MaximalRun x "q" [0xC3] "z+C3+A9" :=
    .mk (strict_pieces (t := "q") (by decide)) (strict_pieces (t := "+C3") (by decide))
      (strict_pieces (t := "z+C3+A9") (by decide)) (by decide) nofun nofun
  have hnot : ¬ Text.IsUtf8 [0xC3] := by decide
  obtain ⟨hutf8, hall, -⟩ := ((octets_kept ht).2 os htos).1 htruns
  obtain ⟨-, -, hback⟩ := ((octets_kept hy).2 os hyos).1 hyruns
  obtain ⟨qs, hqs, -⟩ := (octets_kept hx).1
  refine ⟨⟨ht, htos, htruns, hutf8, ((hall y).mp hcanonical).symm⟩,
    ⟨hy, hyos, hyruns, hcanonical, hback hcanonical⟩, hx, hrun, hnot, ?_⟩
  rw [((octets_kept hx).2 qs hqs).2 _ _ _ hrun hnot]
  decide

end MailEnvelope.Xtext
