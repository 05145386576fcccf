import MailEnvelope.Proofs.FlatCommand.Address
import MailEnvelope.Proofs.Grammar.Printable

namespace MailEnvelope
open Grammar Text

/-! The texts of a value are those that it or a part of it holds or is rendered as. -/

def LocalPart.value : LocalPart → Text
  | .atom value => value
  | .quoted value => value

def LocalPart.texts (l : LocalPart) : List Text := [l.value, l.render]

def FormalLiteral.held : FormalLiteral → List Text
  | .ip (.v4 address) => [address]
  | .ip (.v6 address) => [address]
  | .tagged tag value => [tag, value]

def AddressLiteral.texts (l : AddressLiteral) : List Text :=
  match l with
  | .formal f => f.held ++ [l.render]
  | .freeform value => [value, l.render]

def DomainPart.texts : DomainPart → List Text
  | .domain name => [name]
  | .literal l => l.texts

def Mailbox.texts (m : Mailbox) : List Text :=
  m.localPart.texts ++ m.domainPart.texts ++ [m.render]

def ReversePath.texts (p : ReversePath) : List Text :=
  (p.mailbox?.map Mailbox.texts).getD [] ++ [p.render]

def ForwardPath.texts (p : ForwardPath) : List Text :=
  (p.mailbox?.map Mailbox.texts).getD [] ++ [p.render]

def Param.texts (p : Param) : List Text := p.name :: p.value.toList

def Param.listTexts (ps : List Param) : List Text := ps.flatMap texts ++ [renderList ps]

def MailCommand.texts (c : MailCommand) : List Text :=
  c.reversePath.texts ++ Param.listTexts c.params

def RcptCommand.texts (c : RcptCommand) : List Text :=
  c.forwardPath.texts ++ Param.listTexts c.params

/-- A backslash is added before some units, and none is left out. -/
theorem LocalPart.value_subset (l : LocalPart) : l.value ⊆ l.render := by
  cases l with
  | atom value => exact List.Subset.refl _
  | quoted value =>
    intro u hu
    have hesc : u ∈ escapeUnit u := by
      unfold escapeUnit
      split <;> simp
    have hmem : u ∈ value.flatMap escapeUnit := List.mem_flatMap.mpr ⟨u, hu, hesc⟩
    simp [render, hmem]

theorem FormalLiteral.held_subset (l : FormalLiteral) : ∀ s ∈ l.held, s ⊆ l.render := by
  match l with
  | .ip (.v4 address) => simp [held, render]
  | .ip (.v6 address) => simp [held, render]
  | .tagged tag value => simp [held, render]

theorem AddressLiteral.texts_subset (l : AddressLiteral) : ∀ s ∈ l.texts, s ⊆ l.render := by
  cases l with
  | formal f =>
    have hf : f.render ⊆ (formal f).render := by simp [render]
    simp only [texts, List.forall_mem_append, List.forall_mem_singleton]
    exact ⟨fun s hs => List.Subset.trans (f.held_subset s hs) hf, List.Subset.refl _⟩
  | freeform value => simp [texts, render]

theorem DomainPart.texts_subset (d : DomainPart) : ∀ s ∈ d.texts, s ⊆ d.render := by
  cases d with
  | domain name => simp [texts, render]
  | literal l => exact l.texts_subset

theorem Mailbox.texts_subset (m : Mailbox) : ∀ s ∈ m.texts, s ⊆ m.render := by
  have hlocal : m.localPart.render ⊆ m.render := by simp [render]
  have hdomain : m.domainPart.render ⊆ m.render := by simp [render]
  simp only [texts, LocalPart.texts, List.forall_mem_append, List.forall_mem_cons]
  refine ⟨⟨⟨?_, hlocal, List.forall_mem_nil _⟩, ?_⟩, List.Subset.refl _, List.forall_mem_nil _⟩
  · exact List.Subset.trans m.localPart.value_subset hlocal
  · intro s hs
    exact List.Subset.trans (m.domainPart.texts_subset s hs) hdomain

theorem Param.texts_subset (p : Param) : ∀ s ∈ p.texts, s ⊆ p.render := by
  obtain ⟨name, value⟩ := p
  cases value <;> simp [texts, render]

/-- A reader that accepts texts and octets of a class only, and nothing of what it answers with is
or is rendered as anything but printable text. -/
structure LetsThrough {α : Type} (c : CharClass) (parse? : Text → Option α)
    (texts : α → List Text) : Prop where
  text : ∀ t v, parse? t = some v → Within c t
  octets : ∀ bs v, parse? (Text.ofBytes bs) = some v → ∀ b ∈ bs, c b.toNat
  value : ∀ t v, parse? t = some v → ∀ s ∈ texts v, Within .printable s

theorem LetsThrough.of_text {α : Type} {c : CharClass} {parse? : Text → Option α}
    {texts : α → List Text} (h : ∀ t v, parse? t = some v → Within c t)
    (hv : ∀ t v, parse? t = some v → ∀ s ∈ texts v, Within .printable s) :
    LetsThrough c parse? texts where
  text := h
  octets _ v hbs b hb := h _ v hbs b.toNat (List.mem_map_of_mem hb)
  value := hv

namespace Grammar

variable {t : Text}

theorem mailbox_texts_printable {m : Mailbox} (h : m.WellFormed) :
    ∀ s ∈ m.texts, Within .printable s :=
  fun s hs u hu => mailbox_printable (mailbox_render h) u (m.texts_subset s hs hu)

theorem reversePath_texts_printable {p : ReversePath} (h : ReversePath.Derives t p) :
    ∀ s ∈ p.texts, Within .printable s := by
  refine List.forall_mem_append.mpr ⟨?_, ?_⟩
  · cases h with
    | null => exact List.forall_mem_nil _
    | mailbox hm => exact mailbox_texts_printable (path_wellFormed hm)
  · exact List.forall_mem_singleton.mpr (reversePath_printable (reversePath_render h))

theorem forwardPath_texts_printable {p : ForwardPath} (h : ForwardPath.Derives t p) :
    ∀ s ∈ p.texts, Within .printable s := by
  refine List.forall_mem_append.mpr ⟨?_, ?_⟩
  · cases h with
    | postmaster => exact List.forall_mem_nil _
    | mailbox hm => exact mailbox_texts_printable (path_wellFormed hm)
  · exact List.forall_mem_singleton.mpr (forwardPath_printable (forwardPath_render h))

theorem listTexts_printable {ps : List Param} (h : ∀ p ∈ ps, Within .printable p.render) :
    ∀ s ∈ Param.listTexts ps, Within .printable s := by
  refine List.forall_mem_append.mpr ⟨?_, ?_⟩
  · intro s hs u hu
    obtain ⟨p, hp, hs⟩ := List.mem_flatMap.mp hs
    exact h p hp u (p.texts_subset s hs hu)
  · exact List.forall_mem_singleton.mpr (renderList_printable h)

end Grammar

theorem MailCommand.letsThrough : LetsThrough .printableOrTab parse? texts := by
  refine .of_text (fun _ _ h => mail_within (parse?_mail_iff.mp h)) ?_
  intro t c h
  obtain ⟨-, hp, hs⟩ := parse?_mail_iff.mp h
  exact List.forall_mem_append.mpr
    ⟨reversePath_texts_printable hp, listTexts_printable (suffix_params_printable hs)⟩

theorem RcptCommand.letsThrough : LetsThrough .printableOrTab parse? texts := by
  refine .of_text (fun _ _ h => rcpt_within (parse?_rcpt_iff.mp h)) ?_
  intro t c h
  obtain ⟨-, hp, hs⟩ := parse?_rcpt_iff.mp h
  exact List.forall_mem_append.mpr
    ⟨forwardPath_texts_printable hp, listTexts_printable (suffix_params_printable hs)⟩

theorem Mailbox.letsThrough : LetsThrough .printable parse? texts :=
  .of_text (fun _ _ h => mailbox_printable (parse?_mailbox_iff.mp h))
    fun _ _ h => mailbox_texts_printable (mailbox_wellFormed (parse?_mailbox_iff.mp h))

theorem Param.letsThrough : LetsThrough .printableOrTab parseList? listTexts := by
  refine .of_text ?_ ?_
  · intro t ps h
    rcases parse?_paramList_iff.mp h with ⟨rfl, -⟩ | h
    · exact List.forall_mem_nil _
    · exact paramList_within h
  · intro t ps h
    rcases parse?_paramList_iff.mp h with ⟨-, rfl⟩ | h
    · exact listTexts_printable (List.forall_mem_nil _)
    · exact listTexts_printable (paramList_params_printable h)

theorem FormalLiteral.letsThrough :
    LetsThrough .printable parse? fun l => (AddressLiteral.formal l).texts := by
  refine .of_text (fun _ _ h => formal_printable (parse?_formal_iff.mp h)) ?_
  intro t l h s hs u hu
  have hl := DomainPart.Derives.literal (formal_render (formal_wellFormed (parse?_formal_iff.mp h)))
  exact domainPart_printable hl u ((AddressLiteral.formal l).texts_subset s hs hu)

/-- The address of a bounce is empty, and that of the postmaster is a word. -/
theorem FlatCommand.address_printable {o : FlatOptions} {name line : Text} {f : FlatCommand}
    (h : parse? o name line = some f) : Within .printable f.address := by
  obtain ⟨v, p, ps, -, hp, -, rfl⟩ := parse?_eq_some_iff_read.mp h
  have ha := read?_hasAddress hp
  cases p with
  | null => exact List.forall_mem_nil _
  | postmaster =>
    have hword : Within .printable (Text.ofString "postmaster") := by decide
    exact hword
  | mailbox m => exact mailbox_printable (parse?_mailbox_iff.mp ha)

/-- Whatever is accepted is printable but for tabs between parameters, and whatever comes out of it
is printable. -/
theorem only_printable_passes :
    LetsThrough .printableOrTab MailCommand.parse? MailCommand.texts ∧
    LetsThrough .printableOrTab RcptCommand.parse? RcptCommand.texts ∧
    LetsThrough .printable Mailbox.parse? Mailbox.texts ∧
    (∀ t, Mailbox.isAddress t → Within .printable t) ∧
    LetsThrough .printableOrTab Param.parseList? Param.listTexts ∧
    LetsThrough .printable FormalLiteral.parse? (fun l => (AddressLiteral.formal l).texts) ∧
    (∀ o name line f, FlatCommand.parse? o name line = some f → Within .printable f.address) ∧
    ∀ u, CharClass.printableOrTab u → u ≠ '\r'.toNat ∧ u ≠ '\n'.toNat ∧ u ≠ 0 ∧ u ≤ 126 := by
  refine ⟨MailCommand.letsThrough, RcptCommand.letsThrough, Mailbox.letsThrough, ?_,
    Param.letsThrough, FormalLiteral.letsThrough, fun _ _ _ _ => FlatCommand.address_printable,
    fun _ => CharClass.harmless_of_printableOrTab⟩
  intro t h
  obtain ⟨m, hm⟩ := Option.isSome_iff_exists.mp h
  exact Mailbox.letsThrough.text t m hm

theorem only_printable_passes_tab :
    let line := Text.ofString "mail From:<@r:\"\\a >\"@[ipv6:0::1]> X=1\t Y"
    let m : Mailbox := ⟨.quoted "a >", .literal (.formal (.ip (.v6 "::1")))⟩
    let c : MailCommand := ⟨.mailbox m, [⟨"X", some "1"⟩, ⟨"Y", none⟩]⟩
    (MailCommand.parse? line = some c ∧ Within .printableOrTab line ∧
      ∀ s ∈ c.texts, Within .printable s) ∧
    (Mailbox.isAddress m.render ∧ Within .printable m.render) ∧
    ∃ f, FlatCommand.parse? {} "MAIL FROM" line = some f ∧ Within .printable f.address := by
  intro line m c
  obtain ⟨hmail, -, -, haddress, -, -, hflat, -⟩ := only_printable_passes
  have hc : MailCommand.parse? line = some c := by decide
  have hm : Mailbox.isAddress m.render := by decide
  have hf : FlatCommand.parse? {} "MAIL FROM" line =
      some ⟨m.render, some [("X", some "1"), ("Y", none)]⟩ := by decide
  exact ⟨⟨hc, hmail.text _ _ hc, hmail.value _ _ hc⟩, ⟨hm, haddress _ hm⟩, _, hf, hflat _ _ _ _ hf⟩

end MailEnvelope
