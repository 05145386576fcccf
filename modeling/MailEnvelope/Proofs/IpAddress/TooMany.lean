import MailEnvelope.Proofs.IpAddress.Positional

namespace MailEnvelope.IpAddress.V6
open Grammar Rule

structure FirstGap (t f b : Text) : Prop where
  eq_append : t = f ++ Text.ofString "::" ++ b
  first : ∀ f' b', t = f' ++ Text.ofString "::" ++ b' → f.length ≤ f'.length

/-- A piece between colons counts for one group, and for two with a dot in it. -/
inductive Counts : Text → Nat → Prop
  | plain {p} : ':'.toNat ∉ p → '.'.toNat ∉ p → Counts p 1
  | dotted {p} : ':'.toNat ∉ p → '.'.toNat ∈ p → Counts p 2

/-- How many groups stand on one side of a gap. -/
inductive CountsAll : Text → Nat → Prop
  | none : CountsAll [] 0
  | pieces {t ns} : t ≠ [] → Separated (· = Text.ofString ":") Counts t ns → CountsAll t ns.sum

/-- There is a gap, and no room for a zero in it. -/
def TooMany (t : Text) : Prop :=
  ∃ f b m n, FirstGap t f b ∧ CountsAll f m ∧ CountsAll b n ∧ 8 < m + n

/-- While the rule is run, an address is expanded that has too many groups. Whatever is run on the
way may raise the error, also where its value would not be used. -/
inductive Raises (s : Text) : {α : Type} → Rule α → Nat → Prop
  | address {pos b stop e} :
      (before (.textAnyCase "IPv6:") (.spanOne .ipv6Unit)).run s pos = some ⟨b, stop⟩ →
      isValid b → canonical b = .error e → Raises s V6.rule pos
  | filterMap {α β : Type} {f : α → Option β} {r : Rule α} {pos} : Raises s r pos →
      Raises s (filterMap f r) pos
  | consumed {α : Type} {r : Rule α} {pos} : Raises s r pos → Raises s (consumed r) pos
  | left {α β : Type} {a : Rule α} {b : Rule β} {pos} : Raises s a pos → Raises s (both a b) pos
  | right {α β : Type} {a : Rule α} {b : Rule β} {pos m} : a.run s pos = some m →
      Raises s b m.stop → Raises s (both a b) pos
  | first {α : Type} {a b : Rule α} {pos} : Raises s a pos → Raises s (orElse a b) pos
  | second {α : Type} {a b : Rule α} {pos} : a.run s pos = none → Raises s b pos →
      Raises s (orElse a b) pos
  | optional {α : Type} {r : Rule α} {pos} : Raises s r pos → Raises s (optional r) pos
  | step {α : Type} {r : Rule α} {pos} : Raises s r pos → Raises s (many r) pos
  | later {α : Type} {r : Rule α} {pos m} : r.run s pos = some m → m.stop ≠ pos →
      Raises s (many r) m.stop → Raises s (many r) pos

variable {t f b : Text} {n : Nat} {gs ks : List Nat}

theorem FirstGap.unique {f' b' : Text} (h : FirstGap t f b) (h' : FirstGap t f' b') :
    f = f' ∧ b = b' := by
  have he := h.eq_append.symm.trans h'.eq_append
  exact append_inj_of_length he (h.first _ _ h'.eq_append) (h'.first _ _ h.eq_append)

theorem firstGap_of_splitAtGap (h : splitAtGap t = some (f, b)) : FirstGap t f b := by
  refine ⟨eq_of_splitAtGap h, ?_⟩
  intro f' b' he
  induction t generalizing f f' with
  | nil => cases h
  | cons u t ih =>
    rw [splitAtGap] at h
    split at h
    · obtain ⟨rfl, -⟩ := Prod.mk.inj (Option.some.inj h)
      exact Nat.zero_le _
    · next hgap =>
      obtain ⟨⟨front, back⟩, hs, hfb⟩ := Option.map_eq_some_iff.mp h
      obtain ⟨rfl, rfl⟩ := Prod.mk.inj hfb
      cases f' with
      | nil =>
        obtain ⟨rfl, rfl⟩ := List.cons.inj he
        exact absurd ⟨rfl, rfl⟩ hgap
      | cons w f' =>
        have hle := ih hs f' (List.cons.inj he).2
        simpa using hle

theorem splitAtGap_ne_none (f b : Text) :
    splitAtGap (f ++ Text.ofString "::" ++ b) ≠ none := by
  induction f with
  | nil => simp [show Text.ofString "::" = [':'.toNat, ':'.toNat] from rfl, splitAtGap]
  | cons u f ih =>
    rw [List.cons_append, List.cons_append, splitAtGap]
    split
    · simp
    · simpa using ih

theorem splitAtGap_eq_some_iff : splitAtGap t = some (f, b) ↔ FirstGap t f b := by
  constructor
  · exact firstGap_of_splitAtGap
  · intro h
    cases hs : splitAtGap t with
    | none =>
      rw [h.eq_append] at hs
      exact absurd hs (splitAtGap_ne_none f b)
    | some fb =>
      obtain ⟨rfl, rfl⟩ := (firstGap_of_splitAtGap hs).unique h
      rfl

theorem notMem_of_mem_splitOn {x : Nat} {p : Text} (h : p ∈ t.splitOn x) : x ∉ p := by
  induction t generalizing p with
  | nil =>
    rw [List.splitOn_nil, List.mem_singleton] at h
    simp [h]
  | cons u t ih =>
    rw [List.splitOn_cons_eq_if_modifyHead] at h
    split at h
    · rcases List.mem_cons.mp h with rfl | h
      · simp
      · exact ih h
    · next hu =>
      obtain ⟨q, qs, hq⟩ := List.exists_cons_of_ne_nil (List.splitOn_ne_nil x t)
      rw [hq, List.modifyHead_cons] at h
      rw [hq] at ih
      rcases List.mem_cons.mp h with rfl | h
      · have hx := ih List.mem_cons_self
        simp only [beq_iff_eq] at hu
        simp [hx, Ne.symm hu]
      · exact ih (List.mem_cons_of_mem _ h)

theorem counts_iff : Counts t n ↔ ':'.toNat ∉ t ∧ (pieceGroups t).length = n := by
  rw [pieceGroups]
  constructor
  · intro h
    cases h with
    | plain hc hd =>
      rw [if_neg hd]
      exact ⟨hc, rfl⟩
    | dotted hc hd =>
      rw [if_pos hd]
      exact ⟨hc, rfl⟩
  · rintro ⟨hc, rfl⟩
    split
    · next hd => exact .dotted hc hd
    · next hd => exact .plain hc hd

theorem forall₂_counts_iff {ps : List Text} {ns : List Nat} : List.Forall₂ Counts ps ns ↔
    (∀ p ∈ ps, ':'.toNat ∉ p) ∧ ps.map (fun p => (pieceGroups p).length) = ns := by
  have hcounts : Counts = fun p n => ':'.toNat ∉ p ∧ (pieceGroups p).length = n := by
    funext p n
    exact propext counts_iff
  rw [hcounts, List.forall₂_and_left, ← List.forall₂_eq_eq_eq, List.forall₂_map_left_iff]

theorem countsAll_iff : CountsAll t n ↔ n = (groups t).length := by
  rw [groups_eq_flatMap, List.length_flatMap]
  constructor
  · intro h
    cases h with
    | none => rfl
    | pieces ht hs =>
      obtain ⟨ps, hne, rfl, hps⟩ := separated_iff.mp hs
      obtain ⟨hc, rfl⟩ := forall₂_counts_iff.mp hps
      have hsplit := List.splitOn_intercalate ':'.toNat hc hne
      rw [pieces, if_neg ht]
      exact congrArg (fun qs => (qs.map fun p => (pieceGroups p).length).sum) hsplit.symm
  · rintro rfl
    rw [pieces]
    split
    · next ht =>
      rw [ht]
      exact .none
    · next ht =>
      have hcounts := forall₂_counts_iff.mpr ⟨fun p => notMem_of_mem_splitOn (t := t), rfl⟩
      exact .pieces ht (separated_iff.mpr
        ⟨_, List.splitOn_ne_nil _ t, (List.intercalate_splitOn _).symm, hcounts⟩)

/-- The groups that are written leave room for what a gap stands for, or there is an error. -/
theorem expand_eq_error_iff {e : ExpandError} : expand t = .error e ↔ TooMany t := by
  rw [expand]
  cases hs : splitAtGap t with
  | none =>
    simp only [reduceCtorEq, false_iff]
    rintro ⟨f, b, m, n, hgap, -⟩
    rw [splitAtGap_eq_some_iff.mpr hgap] at hs
    cases hs
  | some fb =>
    obtain ⟨f, b⟩ := fb
    have hgap := splitAtGap_eq_some_iff.mp hs
    dsimp only
    constructor
    · intro h
      split at h
      · cases h
      · next hlt =>
        exact ⟨f, b, _, _, hgap, countsAll_iff.mpr rfl, countsAll_iff.mpr rfl, by omega⟩
    · rintro ⟨f', b', m, n, hgap', hm, hn, hlt⟩
      obtain ⟨rfl, rfl⟩ := hgap.unique hgap'
      obtain rfl := countsAll_iff.mp hm
      obtain rfl := countsAll_iff.mp hn
      rw [if_neg (by omega)]

theorem canonical_eq_error_iff {e : ExpandError} : canonical t = .error e ↔ TooMany t := by
  rw [← expand_eq_error_iff (e := e), canonical]
  cases expand t <;> simp [Except.map]

theorem expand_positional (h : isValid t) : ∃ gs, EightGroups gs ∧ expand t = .ok (ofGroups gs) ∧
    ∀ ks, Positional t ks ↔ ks = gs := by
  obtain ⟨gs, hp⟩ := exists_positional h
  refine ⟨gs, hp.eightGroups, hp.expand_eq, ?_⟩
  intro ks
  constructor
  · intro hk
    exact ofGroups_inj (Except.ok.inj (hk.expand_eq.symm.trans hp.expand_eq))
  · rintro rfl
    exact hp

/-- What is accepted as an address is expanded without an error, so none is raised on the way. -/
theorem not_raises (s : Text) {α : Type} (r : Rule α) (pos : Nat) : ¬ Raises s r pos := by
  intro h
  induction h with
  | address _ hvalid he =>
    obtain ⟨a, ha, -⟩ := canonical_of_isValid hvalid
    rw [ha] at he
    cases he
  | filterMap _ ih | consumed _ ih | left _ ih | right _ _ ih | first _ ih | second _ _ ih
  | optional _ ih | step _ ih | later _ _ _ ih => exact ih

/-- An address has eight groups, and only a gap among too many is an error, which no address has: so
no rule raises it, whatever the text and the position. -/
theorem addresses_never_raise :
    (∀ t, isValid t → ∃ gs, EightGroups gs ∧ expand t = .ok (ofGroups gs) ∧
      ∀ ks, Positional t ks ↔ ks = gs) ∧
    (∀ t e, (expand t = .error e ↔ TooMany t) ∧ (canonical t = .error e ↔ TooMany t)) ∧
    (∀ s (α : Type) (r : Rule α) pos, ¬ Raises s r pos) :=
  ⟨fun _ => expand_positional, fun _ _ => ⟨expand_eq_error_iff, canonical_eq_error_iff⟩,
    fun s _ => not_raises s⟩

/-- Four octets count as two groups: with them the first text is full, and the second is too long
for its gap. -/
theorem addresses_never_raise_quad :
    (isValid "1:2:3:4:5::1.2.3.4" ∧
      expand "1:2:3:4:5::1.2.3.4" = .ok (ofGroups [1, 2, 3, 4, 5, 0, 0x102, 0x304]) ∧
      ∀ ks, Positional "1:2:3:4:5::1.2.3.4" ks ↔ ks = [1, 2, 3, 4, 5, 0, 0x102, 0x304]) ∧
    isValid "1:2:3:4:5:6:7::1.2.3.4" = false ∧ TooMany "1:2:3:4:5:6:7::1.2.3.4" := by
  have hvalid : isValid "1:2:3:4:5::1.2.3.4" := by decide
  have hexpand : expand "1:2:3:4:5::1.2.3.4" =
      .ok (ofGroups [1, 2, 3, 4, 5, 0, 0x102, 0x304]) := by decide
  have herror : expand "1:2:3:4:5:6:7::1.2.3.4" = .error .tooManyGroups := by decide
  obtain ⟨gs, -, hgs, hks⟩ := addresses_never_raise.1 _ hvalid
  obtain rfl := ofGroups_inj (Except.ok.inj (hgs.symm.trans hexpand))
  exact ⟨⟨hvalid, hexpand, hks⟩, by decide, (addresses_never_raise.2.1 _ _).1.mp herror⟩

end MailEnvelope.IpAddress.V6
