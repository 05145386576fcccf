import MailEnvelope.Proofs.Grammar.Echo

namespace MailEnvelope

def CharClass.printable : CharClass := ofRanges [(32, 126)]

def CharClass.printableOrTab : CharClass := ofRanges [(9, 9), (32, 126)]

/-- None of the units that could end a line or hide in one. -/
theorem CharClass.harmless_of_printableOrTab {u : Nat} (h : printableOrTab u) :
    u ≠ '\r'.toNat ∧ u ≠ '\n'.toNat ∧ u ≠ 0 ∧ u ≤ 126 := by
  simp [printableOrTab, ofRanges] at h ⊢
  omega

abbrev Text.Within (c : CharClass) (t : Text) : Prop := ∀ u ∈ t, c u

namespace Grammar
open Text

variable {a b t : Text} {c : CharClass}

theorem within_append (ha : Within c a) (hb : Within c b) : Within c (a ++ b) :=
  List.forall_mem_append.mpr ⟨ha, hb⟩

theorem Run.printable {rs : List (Nat × Nat)} (h : Run (CharClass.ofRanges rs) t)
    (hrs : ∀ r ∈ rs, 32 ≤ r.1 ∧ r.2 ≤ 126) : Within .printable t :=
  fun u hu => ofRanges_mono (by simpa using hrs) (h.2 u hu)

theorem within_tab (h : Within .printable t) : Within .printableOrTab t :=
  fun u hu => ofRanges_mono (by decide) (h u hu)

theorem AnyCase.printable {word : Text} (h : AnyCase word t) (hw : Within .printable word) :
    Within .printable t :=
  h.forall_mem (fun _ hu => ofRanges_mono (by decide) hu) hw

theorem Separated.within {α : Type} {S : Text → Prop} {I : Text → α → Prop} {vs : List α}
    (h : Separated S I t vs) (hI : ∀ t v, I t v → Within c t) (hS : ∀ t, S t → Within c t) :
    Within c t := by
  induction h with
  | one hi => exact hI _ _ hi
  | more hi hs _ ih => exact within_append (within_append (hI _ _ hi) (hS _ hs)) ih

theorem Separated.forall_values {α : Type} {S : Text → Prop} {I : Text → α → Prop} {vs : List α}
    {P : α → Prop} (h : Separated S I t vs) (hI : ∀ t v, I t v → P v) : ∀ v ∈ vs, P v := by
  induction h with
  | one hi => simpa using hI _ _ hi
  | more hi _ _ ih => exact List.forall_mem_cons.mpr ⟨hI _ _ hi, ih⟩

theorem Joined.printable {P : Text → Prop} {sep : Text} (h : Joined sep P t)
    (hsep : Within .printable sep) (hP : ∀ t, P t → Within .printable t) : Within .printable t := by
  obtain ⟨parts, h⟩ := h
  refine h.within (fun u _ hu => hP u hu.1) ?_
  rintro w rfl
  exact hsep

theorem Domain.printable (h : Domain t) : Within .printable t :=
  Joined.printable h (by decide) fun _ hl => hl.run.printable (by decide)

theorem DotString.printable (h : DotString t) : Within .printable t :=
  Joined.printable h (by decide) fun _ hr => hr.printable (by decide)

/-- A backslash is as printable as what follows it. -/
theorem Spelling.printable_spelled {s e : Text} (h : Spelling s e) : Within .printable e := by
  induction h with
  | nil => exact List.forall_mem_nil _
  | plain hu _ ih =>
    exact List.forall_mem_cons.mpr ⟨ofRanges_mono (by decide) hu, ih⟩
  | escaped hu _ ih =>
    exact List.forall_mem_cons.mpr
      ⟨by decide, List.forall_mem_cons.mpr ⟨ofRanges_mono (by decide) hu, ih⟩⟩

theorem localPart_printable {l : MailEnvelope.LocalPart} (h : LocalPart.Derives t l) :
    Within .printable t := by
  cases h with
  | atom hd => exact hd.printable
  | quoted hs => exact within_append (within_append (by decide) hs.printable_spelled) (by decide)

theorem formal_printable {l : FormalLiteral} (h : FormalLiteral.Derives t l) :
    Within .printable t :=
  fun u hu => ofRanges_mono (by decide) (formal_content h u hu)

theorem domainPart_printable {d : DomainPart} (h : DomainPart.Derives t d) :
    Within .printable t := by
  cases h with
  | domain hd => exact hd.printable
  | literal hl => exact within_append (within_append (by decide) (formal_printable hl)) (by decide)

theorem mailbox_printable {m : Mailbox} (h : Mailbox.Derives t m) : Within .printable t := by
  obtain ⟨hl, hd⟩ := h
  exact within_append (within_append (localPart_printable hl) (by decide)) (domainPart_printable hd)

theorem Route.printable (h : Route t) : Within .printable t := by
  obtain ⟨ds, h⟩ := h
  refine h.within ?_ ?_
  · rintro _ d ⟨hd, rfl⟩
    exact within_append (by decide) hd.printable
  · rintro w rfl
    decide

theorem path_printable {m : Mailbox} (h : Path.Derives t m) : Within .printable t := by
  cases h with
  | direct hm => exact within_append (within_append (by decide) (mailbox_printable hm)) (by decide)
  | routed hr hm =>
    have hroute := within_append hr.printable (b := Text.ofString ":") (by decide)
    exact within_append (within_append (by decide) (within_append hroute (mailbox_printable hm)))
      (by decide)

theorem reversePath_printable {p : ReversePath} (h : ReversePath.Derives t p) :
    Within .printable t := by
  cases h with
  | null => decide
  | mailbox hm => exact path_printable hm

theorem forwardPath_printable {p : ForwardPath} (h : ForwardPath.Derives t p) :
    Within .printable t := by
  cases h with
  | postmaster hk => exact hk.printable (by decide)
  | mailbox hm => exact path_printable hm

theorem param_printable {p : Param} (h : Param.Derives t p) : Within .printable t := by
  cases h with
  | flag hn => exact hn.printable (by decide)
  | value hn hv =>
    exact within_append (within_append (hn.printable (by decide)) (by decide))
      (hv.printable (by decide))

/-- Only the blanks between parameters may be tabs. -/
theorem paramList_within {ps : List Param} (h : Param.DeriveList t ps) :
    Within .printableOrTab t :=
  h.within (fun _ _ hp => within_tab (param_printable hp))
    fun _ hw u hu => ofRanges_mono (by decide) (hw.2 u hu)

theorem suffix_within {ps : List Param} (h : Param.DeriveSuffix t ps) :
    Within .printableOrTab t := by
  cases h with
  | nil => exact List.forall_mem_nil _
  | params h => exact within_append (by decide) (paramList_within h)

theorem mail_within {c : MailCommand} (h : MailCommand.Derives t c) : Within .printableOrTab t := by
  obtain ⟨hk, hp, hs⟩ := h
  exact within_append (within_tab (within_append (hk.printable (by decide))
    (reversePath_printable hp))) (suffix_within hs)

theorem rcpt_within {c : RcptCommand} (h : RcptCommand.Derives t c) : Within .printableOrTab t := by
  obtain ⟨hk, hp, hs⟩ := h
  exact within_append (within_tab (within_append (hk.printable (by decide))
    (forwardPath_printable hp))) (suffix_within hs)

theorem paramList_params_printable {ps : List Param} (h : Param.DeriveList t ps) :
    ∀ p ∈ ps, Within .printable p.render :=
  h.forall_values fun _ _ hp => param_eq_render hp ▸ param_printable hp

theorem suffix_params_printable {ps : List Param} (h : Param.DeriveSuffix t ps) :
    ∀ p ∈ ps, Within .printable p.render := by
  cases h with
  | nil => exact List.forall_mem_nil _
  | params h => exact paramList_params_printable h

theorem renderList_printable {ps : List Param} (h : ∀ p ∈ ps, Within .printable p.render) :
    Within .printable (Param.renderList ps) :=
  IpAddress.intercalate_mem (by decide) (List.forall_mem_map.mpr h)

end Grammar
end MailEnvelope
