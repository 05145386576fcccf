import MailEnvelope.Proofs.Grammar.Basic
import MailEnvelope.Proofs.IpAddress.Quad
import MailEnvelope.Proofs.IpAddress.ZeroRun

namespace MailEnvelope.IpAddress.V6

def Parts (x : Nat) (ps : List Text) : Prop := ∀ p ∈ ps, p ≠ [] ∧ x ∉ p

theorem splitAtGap_append {p r : Text} (hp : ':'.toNat ∉ p) :
    splitAtGap (p ++ r) = (splitAtGap r).map fun (front, back) => (p ++ front, back) := by
  induction p with
  | nil => simp
  | cons u p ih =>
    simp only [List.mem_cons, not_or] at hp
    obtain ⟨hu, hp⟩ := hp
    rw [List.cons_append, splitAtGap, if_neg fun h => hu h.1.symm, ih hp, Option.map_map]
    rfl

theorem splitAtGap_colon {u : Nat} {r : Text} (hu : u ≠ ':'.toNat) :
    splitAtGap (':'.toNat :: u :: r) =
      (splitAtGap (u :: r)).map fun (front, back) => (':'.toNat :: front, back) := by
  rw [splitAtGap, if_neg]
  rintro ⟨-, h⟩
  exact hu (Option.some.inj h)

theorem intercalate_cons_cons (p q : Text) (ps : List Text) :
    List.intercalate ":" (p :: q :: ps) = p ++ ':'.toNat :: List.intercalate ":" (q :: ps) := by
  rw [List.intercalate_cons_cons, List.append_assoc]
  rfl

/-- The first gap is not among parts with one colon between any two. -/
theorem splitAtGap_intercalate {ps : List Text} (h : Parts ':'.toNat ps) (r : Text) :
    splitAtGap (List.intercalate ":" ps ++ r) =
      (splitAtGap r).map fun (front, back) => (List.intercalate ":" ps ++ front, back) := by
  induction ps with
  | nil => simp
  | cons p ps ih =>
    obtain ⟨-, hp⟩ := h p (by simp)
    cases ps with
    | nil => simpa using splitAtGap_append hp
    | cons q ps =>
      -- The part after the colon is not empty, so the colon is no gap.
      obtain ⟨hq, hq'⟩ := h q (by simp)
      obtain ⟨u, s, rfl⟩ := List.exists_cons_of_ne_nil hq
      have hu : u ≠ ':'.toNat := fun he => hq' (by simp [he])
      have hs := ih fun t ht => h t (List.mem_cons_of_mem _ ht)
      rw [List.intercalate_cons_cons_left, List.cons_append] at hs
      rw [intercalate_cons_cons, List.intercalate_cons_cons_left, List.append_assoc,
        List.cons_append, List.cons_append, splitAtGap_append hp, splitAtGap_colon hu, hs,
        Option.map_map, Option.map_map]
      congr 1
      funext ⟨front, back⟩
      simp

def groupTexts (gs : List Nat) : List Text := gs.map (Text.numeral 16)

theorem hexGroups_ofGroups (gs : List Nat) :
    hexGroups (ofGroups gs) = List.intercalate ":" (groupTexts gs) := by
  rw [hexGroups, ofGroups, List.map_map, groupTexts]
  rfl

theorem isGroup_numeral {g : Nat} (hg : g < 65536) : isGroup (Text.numeral 16 g) :=
  isGroup_iff.mpr ⟨List.length_pos_iff.mpr Text.numeral_ne_nil,
    (Text.numeral_length_le (by decide) (by decide)).mpr hg, Text.numeral_hexDigit⟩

theorem parts_groupTexts (gs : List Nat) : Parts ':'.toNat (groupTexts gs) := by
  intro p hp
  obtain ⟨g, -, rfl⟩ := List.mem_map.mp hp
  refine ⟨Text.numeral_ne_nil, fun hm => ?_⟩
  exact absurd (Text.numeral_hexDigit _ hm) (by decide)

theorem pieces_intercalate {ps : List Text} (h : Parts ':'.toNat ps) :
    pieces (List.intercalate ":" ps) = ps := by
  cases ps with
  | nil => rfl
  | cons p ps =>
    obtain ⟨hp, -⟩ := h p (by simp)
    obtain ⟨u, s, rfl⟩ := List.exists_cons_of_ne_nil hp
    rw [pieces, if_neg (by simp)]
    exact List.splitOn_intercalate _ (fun q hq => (h q hq).2) (by simp)

theorem pieceGroups_numeral {g : Nat} (hg : g < 65536) :
    pieceGroups (Text.numeral 16 g) = ofGroups [g] := by
  have hdot : '.'.toNat ∉ Text.numeral 16 g := by
    intro hm
    exact absurd (Text.numeral_hexDigit _ hm) (by decide)
  have hv := Text.numeralValue_numeral (b := 16) (by decide) (by decide) g
  rw [pieceGroups, if_neg hdot,
    Number.leadingHex_of_hexDigits Text.numeral_ne_nil Text.numeral_hexDigit (by omega), hv]
  rfl

theorem flatMap_groupTexts {gs : List Nat} (h : ∀ g ∈ gs, g < 65536) :
    (groupTexts gs).flatMap pieceGroups = ofGroups gs := by
  induction gs with
  | nil => rfl
  | cons g gs ih =>
    have hg := pieceGroups_numeral (h g (by simp))
    have hgs := ih fun k hk => h k (List.mem_cons_of_mem _ hk)
    rw [groupTexts, List.map_cons, List.flatMap_cons, hg]
    exact congrArg (_ :: ·) hgs

theorem all_isGroup_groupTexts {gs : List Nat} (h : ∀ g ∈ gs, g < 65536) :
    ∀ p ∈ groupTexts gs, isGroup p := by
  intro p hp
  obtain ⟨g, hg, rfl⟩ := List.mem_map.mp hp
  exact isGroup_numeral (h g hg)

/-- An address with a gap between its first and its last parts. -/
def gapText (f b : List Text) : Text :=
  List.intercalate ":" f ++ Text.ofString "::" ++ List.intercalate ":" b

theorem splitAtGap_gapText {f b : List Text} (hf : Parts ':'.toNat f) :
    splitAtGap (gapText f b) = some (List.intercalate ":" f, List.intercalate ":" b) := by
  have hgap : splitAtGap (Text.ofString "::" ++ List.intercalate ":" b) =
      some ([], List.intercalate ":" b) := by
    rw [show Text.ofString "::" = [':'.toNat, ':'.toNat] from rfl]
    simp [splitAtGap]
  rw [gapText, List.append_assoc, splitAtGap_intercalate hf, hgap]
  simp

theorem expand_intercalate {ps : List Text} (hp : Parts ':'.toNat ps) :
    expand (List.intercalate ":" ps) = .ok (ps.flatMap pieceGroups) := by
  have hs : splitAtGap (List.intercalate ":" ps) = none := by
    simpa [splitAtGap] using splitAtGap_intercalate hp []
  rw [expand, hs]
  simp only [groups_eq_flatMap, pieces_intercalate hp]

/-- A gap stands for the zeros that make the groups around it eight. -/
theorem expand_gapText {f b : List Text} {fs bs : List Nat} {n : Nat} (hf : Parts ':'.toNat f)
    (hb : Parts ':'.toNat b) (hfs : f.flatMap pieceGroups = ofGroups fs)
    (hbs : b.flatMap pieceGroups = ofGroups bs) (hn : fs.length + n + bs.length = 8) :
    expand (gapText f b) = .ok (ofGroups (fs ++ List.replicate n 0 ++ bs)) := by
  rw [expand, splitAtGap_gapText hf]
  simp only [groups_eq_flatMap, pieces_intercalate hf, pieces_intercalate hb, hfs, hbs, ofGroups,
    List.length_map]
  rw [if_pos (by omega), show 8 - (fs.length + bs.length) = n by omega]
  simp

theorem gapText_valid {f b : List Text} {n : Nat} (hf : Parts ':'.toNat f)
    (hb : Parts ':'.toNat b) (hg : ∀ p ∈ f, isGroup p) (hn : countPieces b = some n)
    (hle : f.length + n ≤ 7) : isValid (gapText f b) := by
  rw [isValid, splitAtGap_gapText hf]
  simp only [pieces_intercalate hf, pieces_intercalate hb, hn, Option.any_some, Bool.and_eq_true,
    List.all_eq_true, decide_eq_true_eq]
  exact ⟨hg, hle⟩

theorem intercalate_valid {ps : List Text} (hp : Parts ':'.toNat ps)
    (hn : countPieces ps = some 8) : isValid (List.intercalate ":" ps) := by
  have hs : splitAtGap (List.intercalate ":" ps) = none := by
    simpa [splitAtGap] using splitAtGap_intercalate hp []
  rw [isValid, hs]
  simpa [pieces_intercalate hp] using hn

/-- The text is an address, and is read as these groups. -/
structure Spells (t : Text) (gs : List Nat) : Prop where
  units : Grammar.Run .ipv6Unit t
  valid : isValid t
  expand_eq : expand t = .ok (ofGroups gs)

theorem ipv6Unit_of_hexDigit {u : Nat} (hu : CharClass.hexDigit u) : CharClass.ipv6Unit u := by
  simp [CharClass.hexDigit, CharClass.ipv6Unit, CharClass.ofRanges] at hu ⊢
  omega

theorem intercalate_units {ps : List Text} (h : ∀ p ∈ ps, ∀ u ∈ p, CharClass.ipv6Unit u) :
    ∀ u ∈ List.intercalate ":" ps, CharClass.ipv6Unit u := by
  refine intercalate_mem ?_ h
  intro u hu
  rw [List.mem_singleton.mp hu]
  decide

theorem gapText_units {f b : List Text} (hf : ∀ p ∈ f, ∀ u ∈ p, CharClass.ipv6Unit u)
    (hb : ∀ p ∈ b, ∀ u ∈ p, CharClass.ipv6Unit u) : Grammar.Run .ipv6Unit (gapText f b) := by
  refine ⟨by simp [gapText, Text.ofString, Text.ofChars, Text.unitsOfChar], ?_⟩
  intro u hu
  rw [gapText, List.mem_append, List.mem_append] at hu
  rcases hu with (hu | hu) | hu
  · exact intercalate_units hf u hu
  · have hcolon : ∀ w ∈ Text.ofString "::", CharClass.ipv6Unit w := by decide
    exact hcolon u hu
  · exact intercalate_units hb u hu

theorem groupTexts_units (gs : List Nat) : ∀ p ∈ groupTexts gs, ∀ u ∈ p, CharClass.ipv6Unit u := by
  intro p hp u hu
  obtain ⟨g, -, rfl⟩ := List.mem_map.mp hp
  exact ipv6Unit_of_hexDigit (Text.numeral_hexDigit u hu)

theorem groupOctets_whole {g : Nat} (hg : g < 65536) :
    groupOctets (.whole g) = [((g / 256 : Nat) : Int), (g % 256 : Nat)] := by
  have hn : (BitVec.ofNat 32 g).toNat = g := Nat.mod_eq_of_lt (by omega)
  have hw : (Number.toWord (.whole g)).toInt = g := by
    rw [Number.toWord, BitVec.ofInt_natCast, BitVec.toInt_eq_toNat_of_lt (by omega), hn]
  rw [groupOctets, hw]
  rfl

/-- Four octets would be read as two groups. -/
theorem isGroup_of_isDottedQuad {t : Text} (h : isDottedQuad t) : isGroup t = false := by
  by_contra hgroup
  have hx := pieceGroups_of_isGroup (t := t) (by simpa using hgroup)
  obtain ⟨g, -, k, -, hgk⟩ := pieceGroups_of_isDottedQuad h
  have hl := congrArg List.length (hx.symm.trans hgk)
  simp [ofGroups] at hl

theorem colon_notMem_dotted (i j k l : Nat) : ':'.toNat ∉ dotted [(i : Int), j, k, l] := by
  intro hm
  have hd := dotted_mem (c := fun u => u != ':'.toNat) (by decide) ?_ i j k l _ hm
  · exact absurd hd (by decide)
  · intro u hu
    apply bne_iff_ne.mpr
    rintro rfl
    exact absurd hu (by decide)

theorem countPieces_mapped {quad : Text} (h : isDottedQuad quad) :
    countPieces [Text.numeral 16 65535, quad] = some 3 := by
  have hnot := isGroup_of_isDottedQuad h
  rw [countPieces, if_pos (isGroup_numeral (by decide)), countPieces, if_neg (by simp [hnot]),
    if_pos h]
  rfl

theorem mapped_eq_gapText {g k : Nat} (hg : g < 65536) (hk : k < 65536) :
    Text.ofString "::ffff:" ++ dotted (groupOctets (.whole g) ++ groupOctets (.whole k)) =
      gapText [] [Text.numeral 16 65535,
        dotted [((g / 256 : Nat) : Int), (g % 256 : Nat), (k / 256 : Nat), (k % 256 : Nat)]] := by
  have hm : Text.ofString "::ffff:" =
      Text.ofString "::" ++ Text.numeral 16 65535 ++ Text.ofString ":" := by decide
  rw [groupOctets_whole hg, groupOctets_whole hk, hm, gapText]
  simp

theorem spells_mapped {g k : Nat} (hg : g < 65536) (hk : k < 65536) :
    Spells (Text.ofString "::ffff:" ++ dotted (groupOctets (.whole g) ++ groupOctets (.whole k)))
      [0, 0, 0, 0, 0, 65535, g, k] := by
  obtain ⟨hquad, hgroups⟩ := isDottedQuad_dotted (a := g / 256) (b := g % 256) (c := k / 256)
    (d := k % 256) (by omega) (by omega) (by omega) (by omega)
  have hcolon := colon_notMem_dotted (g / 256) (g % 256) (k / 256) (k % 256)
  have hunits := dotted_mem (c := .ipv6Unit) (by decide)
    (fun u hu => ipv6Unit_of_hexDigit (Number.hexDigit_of_digit hu))
    (g / 256) (g % 256) (k / 256) (k % 256)
  rw [mapped_eq_gapText hg hk]
  generalize dotted [((g / 256 : Nat) : Int), (g % 256 : Nat), (k / 256 : Nat),
    (k % 256 : Nat)] = quad at *
  have hne : quad ≠ [] := by
    rintro rfl
    exact absurd hquad (by decide)
  have hparts : Parts ':'.toNat [Text.numeral 16 65535, quad] := by
    intro p hp
    rcases List.mem_cons.mp hp with rfl | hp
    · exact parts_groupTexts [65535] _ (by simp [groupTexts])
    · rw [List.mem_singleton.mp hp]
      exact ⟨hne, hcolon⟩
  have hvalid := gapText_valid (f := []) (by simp [Parts]) hparts (by simp)
    (countPieces_mapped hquad) (by decide)
  have hback : [Text.numeral 16 65535, quad].flatMap pieceGroups = ofGroups [65535, g, k] := by
    rw [List.flatMap_cons, List.flatMap_cons, pieceGroups_numeral (by decide), hgroups,
      Nat.div_add_mod, Nat.div_add_mod]
    rfl
  refine ⟨gapText_units (by simp) ?_, hvalid, ?_⟩
  · intro p hp
    rcases List.mem_cons.mp hp with rfl | hp
    · exact groupTexts_units [65535] _ (by simp [groupTexts])
    · rw [List.mem_singleton.mp hp]
      exact hunits
  · have hfront : ([] : List Text).flatMap pieceGroups = ofGroups [] := rfl
    exact expand_gapText (n := 5) (by simp [Parts]) hparts hfront hback rfl

theorem spells_hexGroups {gs : List Nat} (h : EightGroups gs) :
    Spells (hexGroups (ofGroups gs)) gs := by
  have hn := countPieces_of_all_isGroup (all_isGroup_groupTexts h.lt)
  rw [groupTexts, List.length_map, h.length_eq] at hn
  have hvalid := intercalate_valid (parts_groupTexts gs) hn
  rw [hexGroups_ofGroups]
  refine ⟨⟨?_, intercalate_units (groupTexts_units gs)⟩, hvalid, ?_⟩
  · intro hnil
    rw [hnil] at hvalid
    exact absurd hvalid (by decide)
  · rw [expand_intercalate (parts_groupTexts gs), flatMap_groupTexts h.lt]

theorem spells_gap {front back : List Nat} {n : Nat}
    (h : EightGroups (front ++ List.replicate n 0 ++ back)) (hn : 2 ≤ n) :
    Spells (hexGroups (ofGroups front) ++ Text.ofString "::" ++ hexGroups (ofGroups back))
      (front ++ List.replicate n 0 ++ back) := by
  have hl := h.length_eq
  simp only [List.length_append, List.length_replicate] at hl
  have hf : ∀ g ∈ front, g < 65536 := fun g hg => h.lt g (by simp [hg])
  have hb : ∀ g ∈ back, g < 65536 := fun g hg => h.lt g (by simp [hg])
  have hc := countPieces_of_all_isGroup (all_isGroup_groupTexts hb)
  have hvalid := gapText_valid (parts_groupTexts front) (parts_groupTexts back)
    (all_isGroup_groupTexts hf) hc (by simp only [groupTexts, List.length_map]; omega)
  rw [hexGroups_ofGroups, hexGroups_ofGroups]
  exact ⟨gapText_units (groupTexts_units front) (groupTexts_units back), hvalid,
    expand_gapText (parts_groupTexts front) (parts_groupTexts back) (flatMap_groupTexts hf)
      (flatMap_groupTexts hb) hl⟩

theorem spells_render {gs : List Nat} (h : EightGroups gs) : Spells (render (ofGroups gs)) gs := by
  rcases render_cases h.length_eq with ⟨g, k, rfl, hr⟩ | ⟨-, front, n, back, hrun, hr⟩
  · rw [hr]
    exact spells_mapped (h.lt g (by simp)) (h.lt k (by simp))
  · rcases hr with ⟨-, hr⟩ | ⟨hn, hr⟩
    · rw [hr]
      exact spells_hexGroups h
    · rw [hr]
      obtain ⟨rfl, -, -⟩ := hrun
      exact spells_gap h hn

theorem canonical_of_expand {t : Text} {gs : List Nat} (h : expand t = .ok (ofGroups gs)) :
    canonical t = .ok (render (ofGroups gs)) := by
  rw [canonical, h]
  rfl

theorem canonical_of_isValid {t : Text} (h : isValid t) : ∃ a, canonical t = .ok a ∧
    Grammar.Run .ipv6Unit a ∧ isValid a ∧ canonical a = .ok a := by
  obtain ⟨gs, hgs, h8⟩ := expand_of_isValid h
  have hs := spells_render h8
  exact ⟨_, canonical_of_expand hgs, hs.units, hs.valid, canonical_of_expand hs.expand_eq⟩

end MailEnvelope.IpAddress.V6
