import MailEnvelope.Proofs.Grammar.LocalPart

namespace MailEnvelope.Grammar
open Rule IpAddress

variable {a b t : Text}

theorem reads_octet {n : Nat} :
    Reads V4.octet a n b ↔ Octet a n ∧ (a.length = 3 ∨ Outside .digit b) := by
  simp only [V4.octet, reads_filter, reads_map, reads_span_max, decide_eq_true_eq, Octet]
  constructor
  · rintro ⟨⟨v, ⟨rfl, hmin, hmax, hd, hb⟩, rfl⟩, hn⟩
    exact ⟨⟨hmin, hmax, hd, rfl, hn⟩, hb⟩
  · rintro ⟨⟨hmin, hmax, hd, rfl, hn⟩, hb⟩
    exact ⟨⟨a, ⟨rfl, hmin, hmax, hd, hb⟩, rfl⟩, hn⟩

theorem reads_dotOctet {n : Nat} : Reads V4.dotOctet a n b ↔
    ∃ t, a = Text.ofString "." ++ t ∧ Octet t n ∧ (t.length = 3 ∨ Outside .digit b) := by
  simp only [V4.dotOctet, reads_before, reads_text, reads_octet]
  constructor
  · rintro ⟨_, t, rfl, ⟨_, rfl, rfl⟩, h⟩
    exact ⟨t, rfl, h⟩
  · rintro ⟨t, rfl, h⟩
    exact ⟨_, t, rfl, ⟨_, rfl, rfl⟩, h⟩

theorem ipv4_of_reads {v : IpAddress} (h : Reads V4.rule a v b) : Ipv4 a v := by
  simp only [V4.rule, reads_map, reads_both, reads_octet, reads_dotOctet] at h
  obtain ⟨⟨⟨i, j⟩, k, l⟩, ⟨_, _, rfl, ⟨s, _, rfl, ⟨hs, -⟩, t, rfl, ht, -⟩,
    _, _, rfl, ⟨u, rfl, hu, -⟩, v, rfl, hv, -⟩, rfl⟩ := h
  simpa only [List.append_assoc] using Ipv4.quad hs ht hu hv

theorem reads_ipv4 {v : IpAddress} (h : Ipv4 a v) (hb : Outside .digit b) :
    Reads V4.rule a v b := by
  obtain @⟨s, t, u, v, i, j, k, l, hs, ht, hu, hv⟩ := h
  have hdot : ∀ c, Outside .digit (Text.ofString "." ++ c) := fun c => outside_cons.mpr (by decide)
  simp only [V4.rule, reads_map, reads_both, reads_octet, reads_dotOctet]
  refine ⟨((i, j), k, l), ⟨s ++ (Text.ofString "." ++ t), Text.ofString "." ++ u ++
    (Text.ofString "." ++ v), by simp only [List.append_assoc], ?_, ?_⟩, rfl⟩
  · refine ⟨s, _, rfl, ⟨hs, .inr ?_⟩, t, rfl, ht, .inr ?_⟩
    · rw [List.append_assoc]
      exact hdot _
    · rw [List.append_assoc, List.append_assoc]
      exact hdot _
  · refine ⟨_, _, rfl, ⟨u, rfl, hu, .inr ?_⟩, v, rfl, hv, .inr hb⟩
    rw [List.append_assoc]
    exact hdot _

theorem reads_ipv6 {v : IpAddress} : Reads V6.rule a v b ↔ Ipv6 a v ∧ Outside .ipv6Unit b := by
  simp only [V6.rule, reads_filterMap, reads_before, reads_anyCase, reads_spanOne]
  constructor
  · rintro ⟨t, ⟨k, _, rfl, ⟨_, rfl, hk⟩, rfl, ht, hb⟩, hv⟩
    by_cases hvalid : V6.isValid t
    · rw [if_pos hvalid] at hv
      cases hc : V6.canonical t with
      | error e => simp [hc, Except.toOption] at hv
      | ok c =>
        obtain rfl : .v6 c = v := by simpa [hc, Except.toOption] using hv
        exact ⟨.canonical hk ht hvalid hc, hb⟩
    · rw [if_neg hvalid] at hv
      cases hv
  · rintro ⟨@⟨k, t, c, hk, ht, hvalid, hc⟩, hb⟩
    refine ⟨t, ⟨k, t, rfl, ⟨k, rfl, hk⟩, rfl, ht, hb⟩, ?_⟩
    simp [hvalid, hc, Except.toOption]

theorem Ipv4.mem {v : IpAddress} (h : Ipv4 t v) : ∀ x ∈ t, CharClass.digit x ∨ x = '.'.toNat := by
  obtain ⟨hs, ht, hu, hv⟩ := h
  intro x hx
  simp only [List.mem_append, show Text.ofString "." = ['.'.toNat] from rfl,
    List.mem_singleton] at hx
  rcases hx with (((((hx | hx) | hx) | hx) | hx) | hx) | hx
  · exact .inl (hs.2.2.1 x hx)
  · exact .inr hx
  · exact .inl (ht.2.2.1 x hx)
  · exact .inr hx
  · exact .inl (hu.2.2.1 x hx)
  · exact .inr hx
  · exact .inl (hv.2.2.1 x hx)

theorem Ipv4.notMem {v : IpAddress} {x : Nat} (h : Ipv4 t v) (hx : CharClass.digit x = false)
    (hdot : x ≠ '.'.toNat) : x ∉ t := by
  intro hm
  rcases h.mem x hm with hd | hd
  · simp [hx] at hd
  · exact hdot hd

theorem Ipv4.colon_notMem {v : IpAddress} (h : Ipv4 t v) : ':'.toNat ∉ t :=
  h.notMem (by decide) (by decide)

theorem Ipv6.colon_mem {v : IpAddress} (h : Ipv6 t v) : ':'.toNat ∈ t := by
  obtain ⟨hk, -, -, -⟩ := h
  exact List.mem_append_left _ ((hk.mem_iff (by decide)).mpr (by decide))

/-- A tag, a colon and what it stands before, whether or not that is an IPv6 address. -/
inductive Tagged : Text → FormalLiteral → Prop
  | mk {tag value} : Label tag → Run .literalContent value →
      Tagged (tag ++ Text.ofString ":" ++ value) (.tagged tag value)

theorem Tagged.colon_mem {l : FormalLiteral} (h : Tagged t l) : ':'.toNat ∈ t := by
  obtain ⟨-, -⟩ := h
  simp [show Text.ofString ":" = [':'.toNat] from rfl]

theorem literalContent_of_digit (u : Nat) (hu : CharClass.digit u) : CharClass.literalContent u :=
  ofRanges_mono (by decide) hu

theorem literalContent_of_ipv6Unit (u : Nat) (hu : CharClass.ipv6Unit u) :
    CharClass.literalContent u :=
  ofRanges_mono (by decide) hu

theorem Ipv4.content {v : IpAddress} (h : Ipv4 t v) : ∀ u ∈ t, CharClass.literalContent u := by
  intro u hu
  rcases h.mem u hu with hd | rfl
  · exact literalContent_of_digit u hd
  · decide

theorem Ipv6.content {v : IpAddress} (h : Ipv6 t v) : ∀ u ∈ t, CharClass.literalContent u := by
  obtain ⟨hk, hb, -, -⟩ := h
  refine List.forall_mem_append.mpr ⟨?_, ?_⟩
  · exact hk.forall_mem (fun _ hu => ofRanges_mono (by decide) hu) (by decide)
  · intro u hu
    exact literalContent_of_ipv6Unit u (hb.2 u hu)

theorem Tagged.content {l : FormalLiteral} (h : Tagged t l) :
    ∀ u ∈ t, CharClass.literalContent u := by
  obtain ⟨ht, hv⟩ := h
  refine List.forall_mem_append.mpr ⟨List.forall_mem_append.mpr ⟨?_, by decide⟩, hv.2⟩
  intro u hu
  exact ofRanges_mono (by decide) (ht.run.2 u hu)

theorem bracket_notMem (h : ∀ u ∈ t, CharClass.literalContent u) : ']'.toNat ∉ t :=
  notMem_of_all h (by decide)

theorem formal_derives_iff {l : FormalLiteral} : FormalLiteral.Derives t l ↔
    (∃ v, Ipv4 t v ∧ l = .ip v) ∨ (∃ v, Ipv6 t v ∧ l = .ip v) ∨
      ((∀ v, ¬ Ipv6 t v) ∧ Tagged t l) := by
  constructor
  · intro h
    cases h with
    | ipv4 h => exact .inl ⟨_, h, rfl⟩
    | ipv6 h => exact .inr (.inl ⟨_, h, rfl⟩)
    | tagged ht hv hn => exact .inr (.inr ⟨hn, .mk ht hv⟩)
  · rintro (⟨v, h, rfl⟩ | ⟨v, h, rfl⟩ | ⟨hn, ht, hv⟩)
    · exact .ipv4 h
    · exact .ipv6 h
    · exact .tagged ht hv hn

theorem formal_content {l : FormalLiteral} (h : FormalLiteral.Derives t l) :
    ∀ u ∈ t, CharClass.literalContent u := by
  rcases formal_derives_iff.mp h with ⟨v, hv, -⟩ | ⟨v, hv, -⟩ | ⟨-, ht⟩
  · exact hv.content
  · exact hv.content
  · exact ht.content

theorem reads_tagRule {l : FormalLiteral} :
    Reads FormalLiteral.tagRule a l b ↔ Tagged a l ∧ Outside .literalContent b := by
  simp only [FormalLiteral.tagRule, reads_map, reads_both, reads_followedBy, reads_text,
    reads_label, reads_spanOne]
  constructor
  · rintro ⟨⟨_, _⟩, ⟨_, value, rfl, ⟨tag, _, rfl, ⟨rfl, ht, -⟩, _, rfl, rfl⟩, rfl, hv, hb⟩, rfl⟩
    exact ⟨.mk ht hv, hb⟩
  · rintro ⟨@⟨tag, value, ht, hv⟩, hb⟩
    refine ⟨(tag, value), ⟨_, value, rfl, ⟨tag, _, rfl, ⟨rfl, ht, ?_⟩, _, rfl, rfl⟩, rfl, hv, hb⟩,
      rfl⟩
    exact outside_cons.mpr (by decide)

/-- No form goes on with what is no content of a literal. -/
theorem reads_v4Form {l : FormalLiteral} (hb : Outside .literalContent b) :
    Reads FormalLiteral.v4 t l b ↔ ∃ v, Ipv4 t v ∧ l = .ip v := by
  rw [FormalLiteral.v4, reads_map]
  constructor
  · rintro ⟨v, hv, rfl⟩
    exact ⟨v, ipv4_of_reads hv, rfl⟩
  · rintro ⟨v, hv, rfl⟩
    exact ⟨v, reads_ipv4 hv (hb.mono literalContent_of_digit), rfl⟩

theorem reads_v6Form {l : FormalLiteral} (hb : Outside .literalContent b) :
    Reads FormalLiteral.v6 t l b ↔ ∃ v, Ipv6 t v ∧ l = .ip v := by
  rw [FormalLiteral.v6, reads_map]
  constructor
  · rintro ⟨v, hv, rfl⟩
    exact ⟨v, (reads_ipv6.mp hv).1, rfl⟩
  · rintro ⟨v, hv, rfl⟩
    exact ⟨v, reads_ipv6.mpr ⟨hv, hb.mono literalContent_of_ipv6Unit⟩, rfl⟩

theorem reads_tagForm {l : FormalLiteral} (hb : Outside .literalContent b) :
    Reads FormalLiteral.tagRule t l b ↔ Tagged t l := by
  rw [reads_tagRule]
  exact and_iff_left hb

theorem outside_bracket : Outside .literalContent (Text.ofString "]" ++ b) :=
  outside_cons.mpr (by decide)

/-- What holds no closing bracket is enclosed by the first one, so a rule that reads what it derives
between brackets, and reads no such bracket there, fails where it derives nothing. -/
theorem fails_enclosed {r : Rule FormalLiteral} {D : Text → FormalLiteral → Prop}
    (hr : ∀ {a l b}, Reads r a l b ↔
      ∃ t, a = Text.ofString "[" ++ t ++ Text.ofString "]" ∧ D t l)
    (hD : ∀ {t l}, D t l → ∀ u ∈ t, CharClass.literalContent u) (ht : ']'.toNat ∉ t) :
    Fails r (Text.ofString "[" ++ t ++ Text.ofString "]" ++ b) ↔ ∀ l, ¬ D t l := by
  have hclose : Text.ofString "]" = [']'.toNat] := rfl
  rw [fails_iff]
  constructor
  · intro h l hl
    exact h _ l b rfl (hr.mpr ⟨t, rfl, hl⟩)
  · intro h a l c he hread
    obtain ⟨u, rfl, hu⟩ := hr.mp hread
    simp only [List.append_assoc, hclose, List.singleton_append] at he
    obtain ⟨rfl, -⟩ := cut_unique ht (bracket_notMem (hD hu)) (List.append_cancel_left he)
    exact h l hu

theorem fails_bracketed {form : Rule FormalLiteral} {D : Text → FormalLiteral → Prop}
    (hform : ∀ {t l b}, Reads form t l (Text.ofString "]" ++ b) ↔ D t l)
    (hD : ∀ {t l}, D t l → ∀ u ∈ t, CharClass.literalContent u)
    (ht : ∀ u ∈ t, CharClass.literalContent u) :
    Fails (between (text "[") form (text "]"))
      (Text.ofString "[" ++ t ++ Text.ofString "]" ++ b) ↔ ∀ l, ¬ D t l := by
  apply fails_enclosed _ hD (bracket_notMem ht)
  intro a l b
  simp only [reads_between_text, hform]

/-- Each form reaches the closing bracket on its own, so the first that does is the one derived. The
later forms hold a colon, and never compete with the first. -/
theorem reads_bracketed {l : FormalLiteral} : Reads FormalLiteral.bracketed a l b ↔
    ∃ t, a = Text.ofString "[" ++ t ++ Text.ofString "]" ∧ FormalLiteral.Derives t l := by
  have hv4 : ∀ {t l}, (∃ v, Ipv4 t v ∧ l = FormalLiteral.ip v) →
      ∀ u ∈ t, CharClass.literalContent u := fun ⟨_, hv, _⟩ => hv.content
  have hv6 : ∀ {t l}, (∃ v, Ipv6 t v ∧ l = FormalLiteral.ip v) →
      ∀ u ∈ t, CharClass.literalContent u := fun ⟨_, hv, _⟩ => hv.content
  simp only [FormalLiteral.bracketed, FormalLiteral.forms, oneOf, List.map_cons, List.map_nil,
    List.foldr_cons, List.foldr_nil, reads_orElse, reads_between_text, reads_v4Form outside_bracket,
    reads_v6Form outside_bracket, reads_tagForm outside_bracket, reads_never, and_false, or_false]
  constructor
  · rintro (⟨t, rfl, v, hv, rfl⟩ | ⟨-, ⟨t, rfl, v, hv, rfl⟩ | ⟨hf, t, rfl, ht⟩⟩)
    · exact ⟨t, rfl, .ipv4 hv⟩
    · exact ⟨t, rfl, .ipv6 hv⟩
    · have hn := (fails_bracketed (reads_v6Form outside_bracket) hv6 ht.content).mp hf
      exact ⟨t, rfl, formal_derives_iff.mpr (.inr (.inr ⟨fun v hv => hn _ ⟨v, hv, rfl⟩, ht⟩))⟩
  · rintro ⟨t, rfl, h⟩
    rcases formal_derives_iff.mp h with ⟨v, hv, rfl⟩ | ⟨v, hv, rfl⟩ | ⟨hn, ht⟩
    · exact .inl ⟨t, rfl, v, hv, rfl⟩
    · refine .inr ⟨(fails_bracketed (reads_v4Form outside_bracket) hv4 hv.content).mpr ?_,
        .inl ⟨t, rfl, v, hv, rfl⟩⟩
      rintro l ⟨w, hw, -⟩
      exact hw.colon_notMem hv.colon_mem
    · refine .inr ⟨(fails_bracketed (reads_v4Form outside_bracket) hv4 ht.content).mpr ?_,
        .inr ⟨(fails_bracketed (reads_v6Form outside_bracket) hv6 ht.content).mpr ?_, t, rfl, ht⟩⟩
      · rintro l ⟨w, hw, -⟩
        exact hw.colon_notMem ht.colon_mem
      · rintro l ⟨w, hw, -⟩
        exact hn w hw

/-- A form that has to reach the end of the text reads all of it. -/
theorem reads_toEnd {r : Rule FormalLiteral} {l : FormalLiteral} :
    Reads (followedBy r atEnd) a l b ↔ Reads r a l [] ∧ b = [] := by
  simp only [reads_followedBy, reads_atEnd]
  constructor
  · rintro ⟨_, _, rfl, hr, -, rfl, rfl⟩
    rw [List.append_nil]
    exact ⟨hr, rfl⟩
  · rintro ⟨hr, rfl⟩
    exact ⟨a, [], (List.append_nil a).symm, hr, (), rfl, rfl⟩

theorem fails_toEnd {r : Rule FormalLiteral} :
    Fails (followedBy r atEnd) t ↔ ∀ l, ¬ Reads r t l [] := by
  rw [fails_iff]
  constructor
  · intro h l hl
    exact h t l [] (List.append_nil t).symm (reads_toEnd.mpr ⟨hl, rfl⟩)
  · rintro h a l b rfl hr
    obtain ⟨hl, rfl⟩ := reads_toEnd.mp hr
    rw [List.append_nil] at h
    exact h l hl

/-- The inside of a literal alone is read as it is between brackets. -/
theorem parse?_formal_iff {l : FormalLiteral} :
    FormalLiteral.parse? t = some l ↔ FormalLiteral.Derives t l := by
  rw [FormalLiteral.parse?, parse?_eq_some_iff_reads, formal_derives_iff]
  simp only [FormalLiteral.content, FormalLiteral.forms, oneOf, List.map_cons, List.map_nil,
    List.foldr_cons, List.foldr_nil, reads_orElse, reads_toEnd, fails_toEnd, List.append_nil,
    reads_v4Form (outside_nil _), reads_v6Form (outside_nil _), reads_tagForm (outside_nil _),
    reads_never, and_false, or_false, and_true]
  constructor
  · rintro (h | ⟨-, h | ⟨hn, ht⟩⟩)
    · exact .inl h
    · exact .inr (.inl h)
    · exact .inr (.inr ⟨fun v hv => hn _ ⟨v, hv, rfl⟩, ht⟩)
  · -- A quad holds no colon, and both other forms do.
    rintro (h | ⟨v, hv, rfl⟩ | ⟨hn, ht⟩)
    · exact .inl h
    · refine .inr ⟨?_, .inl ⟨v, hv, rfl⟩⟩
      rintro _ ⟨_, hw, -⟩
      exact hw.colon_notMem hv.colon_mem
    · refine .inr ⟨?_, .inr ⟨?_, ht⟩⟩
      · rintro _ ⟨_, hw, -⟩
        exact hw.colon_notMem ht.colon_mem
      · rintro _ ⟨v, hv, -⟩
        exact hn v hv

end MailEnvelope.Grammar
