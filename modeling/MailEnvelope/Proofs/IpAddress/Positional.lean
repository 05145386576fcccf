import MailEnvelope.Proofs.Grammar.Literal
import MailEnvelope.Proofs.IpAddress.Canonical

namespace MailEnvelope.IpAddress
open Grammar

inductive Quad : Text → List Nat → Prop
  | mk {s t u v i j k l} : Octet s i → Octet t j → Octet u k → Octet v l →
      Quad (s ++ Text.ofString "." ++ t ++ Text.ofString "." ++ u ++ Text.ofString "." ++ v)
        [i, j, k, l]

def V6.Group (t : Text) (g : Nat) : Prop :=
  1 ≤ t.length ∧ t.length ≤ 4 ∧ (∀ u ∈ t, CharClass.hexDigit u) ∧ Text.numeralValue 16 t = g

/-- Groups with a colon between any two; four decimal octets may stand for the last two. -/
inductive V6.Written : Text → List Nat → Prop
  | group {t g} : Group t g → Written t [g]
  | quad {t i j k l} : Quad t [i, j, k, l] → Written t [256 * i + j, 256 * k + l]
  | more {t u g gs} : Group t g → Written u gs → Written (t ++ Text.ofString ":" ++ u) (g :: gs)

/-- What stands on one side of a gap, where there may be no group. -/
def V6.Beside (groups : Text → List Nat → Prop) (t : Text) (gs : List Nat) : Prop :=
  t = [] ∧ gs = [] ∨ groups t gs

/-- The eight groups that an address denotes: those that are written, and for a gap as many zeros as
are missing. -/
inductive V6.Positional : Text → List Nat → Prop
  | whole {t gs} : Written t gs → gs.length = 8 → Positional t gs
  | gap {f fs b bs n} : Beside (Separated (· = Text.ofString ":") Group) f fs →
      Beside Written b bs → 0 < n → fs.length + n + bs.length = 8 →
      Positional (f ++ Text.ofString "::" ++ b) (fs ++ List.replicate n 0 ++ bs)

variable {t u f b : Text} {g i j k l : Nat} {gs fs bs : List Nat}

theorem quad_text (p q r s : Text) : p ++ Text.ofString "." ++ q ++ Text.ofString "." ++ r ++
    Text.ofString "." ++ s = List.intercalate "." [p, q, r, s] := by
  simp [List.intercalate, List.intersperse]

theorem octet_dot_notMem (h : Octet t i) : '.'.toNat ∉ t := notMem_of_all h.2.2.1 (by decide)

theorem octet_leadingDecimal (h : Octet t i) : Number.leadingDecimal t = .whole i ∧ i ≤ 255 := by
  obtain ⟨hmin, -, hd, hv, hle⟩ := h
  have hr := Number.leadingDecimal_of_digits (List.length_pos_iff.mp hmin) hd (by omega)
  exact ⟨by rw [hr, hv], hle⟩

theorem Quad.splitOn (h : Quad t [i, j, k, l]) : ∃ p q r s,
    t.splitOn '.'.toNat = [p, q, r, s] ∧ Octet p i ∧ Octet q j ∧ Octet r k ∧ Octet s l := by
  obtain @⟨p, q, r, s, _, _, _, _, hp, hq, hr, hs⟩ := h
  refine ⟨p, q, r, s, ?_, hp, hq, hr, hs⟩
  rw [quad_text]
  apply List.splitOn_intercalate
  · intro x hx
    simp only [List.mem_cons, List.not_mem_nil, or_false] at hx
    rcases hx with rfl | rfl | rfl | rfl
    · exact octet_dot_notMem hp
    · exact octet_dot_notMem hq
    · exact octet_dot_notMem hr
    · exact octet_dot_notMem hs
  · simp

theorem ipv4_iff_quad {a : IpAddress} : Ipv4 t a ↔
    ∃ i j k l : Nat, Quad t [i, j, k, l] ∧ a = .v4 (dotted [(i : Int), j, k, l]) := by
  constructor
  · intro h
    obtain ⟨hs, ht, hu, hv⟩ := h
    exact ⟨_, _, _, _, .mk hs ht hu hv, rfl⟩
  · rintro ⟨i, j, k, l, h, rfl⟩
    obtain ⟨hs, ht, hu, hv⟩ := h
    exact .quad hs ht hu hv

theorem Quad.exists_four (h : Quad t gs) : ∃ i j k l, gs = [i, j, k, l] := by
  obtain ⟨-, -, -, -⟩ := h
  exact ⟨_, _, _, _, rfl⟩

theorem Quad.colon_notMem (h : Quad t gs) : ':'.toNat ∉ t := by
  obtain ⟨i, j, k, l, rfl⟩ := h.exists_four
  exact (ipv4_iff_quad.mpr ⟨i, j, k, l, h, rfl⟩).colon_notMem

theorem Quad.ne_nil (h : Quad t gs) : t ≠ [] := by
  obtain ⟨-, -, -, -⟩ := h
  simp [show Text.ofString "." = ['.'.toNat] from rfl]

theorem Quad.le (h : Quad t gs) : ∀ n ∈ gs, n ≤ 255 := by
  obtain ⟨hs, ht, hu, hv⟩ := h
  simp [(octet_leadingDecimal hs).2, (octet_leadingDecimal ht).2, (octet_leadingDecimal hu).2,
    (octet_leadingDecimal hv).2]

theorem Quad.values (h : Quad t gs) : (t.splitOn '.'.toNat).map (Text.numeralValue 10) = gs := by
  obtain ⟨i, j, k, l, rfl⟩ := h.exists_four
  obtain ⟨p, q, r, s, ht, hp, hq, hr, hs⟩ := h.splitOn
  rw [ht]
  simp [hp.2.2.2.1, hq.2.2.2.1, hr.2.2.2.1, hs.2.2.2.1]

theorem Quad.pieceGroups (h : Quad t [i, j, k, l]) :
    V6.pieceGroups t = V6.ofGroups [256 * i + j, 256 * k + l] := by
  obtain ⟨p, q, r, s, ht, hp, hq, hr, hs⟩ := h.splitOn
  exact V6.pieceGroups_of_splitOn ht (octet_leadingDecimal hp) (octet_leadingDecimal hq)
    (octet_leadingDecimal hr) (octet_leadingDecimal hs)

theorem exists_quad (h : V6.isDottedQuad t) : ∃ i j k l, Quad t [i, j, k, l] := by
  obtain ⟨p, q, r, s, ht, hp, hq, hr, hs⟩ := V6.isDottedQuad_iff.mp h
  have octet : ∀ {x}, V6.isOctet x → Octet x (Text.numeralValue 10 x) := by
    intro x hx
    obtain ⟨hmin, hmax, hd, hv, -⟩ := V6.isOctet_iff.mp hx
    exact ⟨hmin, hmax, hd, rfl, hv⟩
  have hquad := Quad.mk (octet hp) (octet hq) (octet hr) (octet hs)
  rw [quad_text, ← ht] at hquad
  exact ⟨_, _, _, _, (List.intercalate_splitOn '.'.toNat) ▸ hquad⟩

namespace V6

theorem group_iff : Group t g ↔ isGroup t ∧ Text.numeralValue 16 t = g := by
  simp only [Group, isGroup_iff, and_assoc]

theorem group_of_isGroup (h : isGroup t) : Group t (Text.numeralValue 16 t) :=
  group_iff.mpr ⟨h, rfl⟩

theorem Group.lt (h : Group t g) : g < 65536 := by
  obtain ⟨hg, rfl⟩ := group_iff.mp h
  exact numeralValue_lt_of_isGroup hg

theorem Group.pieceGroups (h : Group t g) : pieceGroups t = ofGroups [g] := by
  obtain ⟨hg, rfl⟩ := group_iff.mp h
  exact pieceGroups_of_isGroup hg

theorem Group.part (h : Group t g) : t ≠ [] ∧ ':'.toNat ∉ t := by
  obtain ⟨hmin, -, hd, -⟩ := h
  exact ⟨List.length_pos_iff.mp hmin, fun hm => absurd (hd _ hm) (by decide)⟩

theorem written_of_separated (h : Separated (· = Text.ofString ":") Group t gs) : Written t gs := by
  induction h with
  | one hg => exact .group hg
  | more hg hw _ ih =>
    subst hw
    exact .more hg ih

theorem Written.lt (h : Written t gs) : ∀ g ∈ gs, g < 65536 := by
  induction h with
  | group hg => simpa using hg.lt
  | quad hq =>
    have hle := hq.le
    simp only [List.mem_cons, List.not_mem_nil, or_false, forall_eq_or_imp, forall_eq] at hle ⊢
    omega
  | more hg _ ih => exact List.forall_mem_cons.mpr ⟨hg.lt, ih⟩

theorem Beside.lt {P : Text → List Nat → Prop} (hP : ∀ {t gs}, P t gs → Written t gs)
    (h : Beside P t gs) : ∀ g ∈ gs, g < 65536 := by
  rcases h with ⟨-, rfl⟩ | h
  · simp
  · exact (hP h).lt

theorem Positional.eightGroups (h : Positional t gs) : EightGroups gs := by
  cases h with
  | whole hw hl => exact ⟨hl, hw.lt⟩
  | gap hf hb _ hl =>
    refine ⟨by simpa [Nat.add_assoc] using hl, ?_⟩
    intro g hg
    simp only [List.mem_append, List.mem_replicate] at hg
    rcases hg with (hg | ⟨-, rfl⟩) | hg
    · exact hf.lt written_of_separated g hg
    · decide
    · exact hb.lt id g hg

/-- The pieces of a text without a gap, which are read as the groups that it denotes. -/
structure Pieces (ps : List Text) (t : Text) (gs : List Nat) : Prop where
  text_eq : t = List.intercalate ":" ps
  parts : Parts ':'.toNat ps
  groups_eq : ps.flatMap pieceGroups = ofGroups gs

theorem Written.pieces (h : Written t gs) : ∃ p ps, Pieces (p :: ps) t gs := by
  induction h with
  | @group t g hg =>
    refine ⟨t, [], by simp, ?_, ?_⟩
    · simpa [Parts] using hg.part
    · rw [List.flatMap_singleton, hg.pieceGroups]
  | @quad t i j k l hq =>
    refine ⟨t, [], by simp, ?_, ?_⟩
    · simpa [Parts] using ⟨hq.ne_nil, hq.colon_notMem⟩
    · rw [List.flatMap_singleton, hq.pieceGroups]
  | @more t u g gs hg _ ih =>
    obtain ⟨p, ps, rfl, hparts, hgs⟩ := ih
    refine ⟨t, p :: ps, ?_, ?_, ?_⟩
    · rw [List.intercalate_cons_cons]
    · exact List.forall_mem_cons.mpr ⟨hg.part, hparts⟩
    · rw [List.flatMap_cons, hgs, hg.pieceGroups]
      rfl

theorem Beside.pieces {P : Text → List Nat → Prop} (hP : ∀ {t gs}, P t gs → Written t gs)
    (h : Beside P t gs) : ∃ ps, Pieces ps t gs := by
  rcases h with ⟨rfl, rfl⟩ | h
  · exact ⟨[], rfl, by simp [Parts], rfl⟩
  · obtain ⟨p, ps, hps⟩ := (hP h).pieces
    exact ⟨p :: ps, hps⟩

theorem Positional.expand_eq (h : Positional t gs) : expand t = .ok (ofGroups gs) := by
  cases h with
  | whole hw _ =>
    obtain ⟨p, ps, rfl, hparts, hgs⟩ := hw.pieces
    rw [expand_intercalate hparts, hgs]
  | gap hf hb _ hl =>
    obtain ⟨f, rfl, hfp, hfs⟩ := hf.pieces written_of_separated
    obtain ⟨b, rfl, hbp, hbs⟩ := hb.pieces id
    exact expand_gapText hfp hbp hfs hbs hl

theorem eq_of_splitAtGap (h : splitAtGap t = some (f, b)) : t = f ++ Text.ofString "::" ++ b := by
  induction t generalizing f with
  | nil => cases h
  | cons u t ih =>
    rw [splitAtGap] at h
    split at h
    · next hgap =>
      obtain ⟨rfl, ht⟩ := hgap
      obtain ⟨rfl, rfl⟩ := Prod.mk.inj (Option.some.inj h)
      rw [← List.cons_head?_tail ht]
      rfl
    · obtain ⟨⟨front, back⟩, hs, hfb⟩ := Option.map_eq_some_iff.mp h
      obtain ⟨rfl, rfl⟩ := Prod.mk.inj hfb
      rw [ih hs]
      rfl

theorem intercalate_pieces (t : Text) : List.intercalate ":" (pieces t) = t := by
  rw [pieces]
  split
  · next ht => rw [ht, List.intercalate_nil]
  · exact List.intercalate_splitOn _

theorem pieces_eq_nil (h : pieces t = []) : t = [] := by
  rw [← intercalate_pieces t, h, List.intercalate_nil]

theorem written_of_countPieces {p : Text} {ps : List Text} {n : Nat}
    (h : countPieces (p :: ps) = some n) :
    ∃ gs, Written (List.intercalate ":" (p :: ps)) gs ∧ gs.length = n := by
  induction ps generalizing p n with
  | nil =>
    rw [countPieces] at h
    rw [List.intercalate_singleton]
    split at h
    · next hp => exact ⟨_, .group (group_of_isGroup hp), Option.some.inj h⟩
    · split at h
      · next hq =>
        obtain ⟨i, j, k, l, hq⟩ := exists_quad hq
        exact ⟨_, .quad hq, Option.some.inj h⟩
      · cases h
  | cons q ps ih =>
    rw [countPieces] at h
    split at h
    · next hp =>
      obtain ⟨m, hm, rfl⟩ := Option.map_eq_some_iff.mp h
      obtain ⟨gs, hgs, rfl⟩ := ih hm
      rw [List.intercalate_cons_cons]
      exact ⟨_, .more (group_of_isGroup hp) hgs, rfl⟩
    · cases h

theorem exists_written {n : Nat} (h : countPieces (pieces t) = some n) :
    ∃ gs, Beside Written t gs ∧ gs.length = n := by
  cases hp : pieces t with
  | nil =>
    rw [hp] at h
    exact ⟨[], .inl ⟨pieces_eq_nil hp, rfl⟩, Option.some.inj h⟩
  | cons p ps =>
    obtain ⟨gs, hgs, hl⟩ := written_of_countPieces (hp ▸ h)
    rw [← hp, intercalate_pieces] at hgs
    exact ⟨gs, .inr hgs, hl⟩

theorem exists_separated (h : ∀ p ∈ pieces t, isGroup p) :
    ∃ gs, Beside (Separated (· = Text.ofString ":") Group) t gs ∧
      gs.length = (pieces t).length := by
  have hgroups : List.Forall₂ Group (pieces t) ((pieces t).map (Text.numeralValue 16)) := by
    rw [List.forall₂_map_right_iff, List.forall₂_same]
    intro p hp
    exact group_of_isGroup (h p hp)
  refine ⟨(pieces t).map (Text.numeralValue 16), ?_, List.length_map _⟩
  by_cases hp : pieces t = []
  · exact .inl ⟨pieces_eq_nil hp, by rw [hp, List.map_nil]⟩
  · exact .inr (separated_iff.mpr ⟨_, hp, (intercalate_pieces t).symm, hgroups⟩)

theorem exists_positional (h : isValid t) : ∃ gs, Positional t gs := by
  rw [isValid] at h
  cases hs : splitAtGap t with
  | none =>
    simp only [hs, decide_eq_true_eq] at h
    obtain ⟨gs, ⟨-, rfl⟩ | hgs, hl⟩ := exists_written h
    · cases hl
    · exact ⟨gs, .whole hgs hl⟩
  | some fb =>
    obtain ⟨f, b⟩ := fb
    simp only [hs, Bool.and_eq_true, List.all_eq_true, Option.any_eq_true, decide_eq_true_eq] at h
    -- A quad may only stand at the end, so what is before the gap is all groups.
    obtain ⟨hf, m, hb, hle⟩ := h
    obtain ⟨fs, hfs, hfl⟩ := exists_separated hf
    obtain ⟨bs, hbs, hbl⟩ := exists_written hb
    have hgap := Positional.gap (n := 8 - (fs.length + bs.length)) hfs hbs (by omega) (by omega)
    rw [eq_of_splitAtGap hs]
    exact ⟨_, hgap⟩

end V6
end MailEnvelope.IpAddress
