import MailEnvelope.FlatCommand
import MailEnvelope.Proofs.Grammar.Echo
import MailEnvelope.Proofs.Text.Blank

namespace MailEnvelope
open Grammar

inductive AnyPath where
  | null
  | postmaster
  | mailbox (mailbox : Mailbox)
  deriving DecidableEq

def ReversePath.toAny : ReversePath → AnyPath
  | .null => .null
  | .mailbox m => .mailbox m

def ForwardPath.toAny : ForwardPath → AnyPath
  | .postmaster => .postmaster
  | .mailbox m => .mailbox m

namespace AnyPath

def mailbox? : AnyPath → Option Mailbox
  | .mailbox m => some m
  | _ => none

def address : AnyPath → Text
  | .null => []
  | .postmaster => "postmaster"
  | .mailbox m => m.render

/-- Only a mailbox can be too long. -/
def Fits (o : FlatOptions) (p : AnyPath) : Prop :=
  ∀ m, p = .mailbox m → m.localPart.render.length ≤ o.maxLocalPart ∧ m.render.length ≤ o.maxPath

/-- How a path is known from its address. -/
def HasAddress (a : Text) : AnyPath → Prop
  | .null => a = []
  | .postmaster => a = Text.ofString "postmaster"
  | .mailbox m => Mailbox.parse? a = some m

theorem fits_iff {o : FlatOptions} {p : AnyPath} : p.Fits o ↔ p.mailbox?.all (·.fits o) := by
  cases p with
  | null => simp [Fits, mailbox?]
  | postmaster => simp [Fits, mailbox?]
  | mailbox m => simp [Fits, mailbox?, Mailbox.fits]

/-- No mailbox is empty, and none goes without an at sign. -/
theorem HasAddress.unique {a : Text} {p q : AnyPath} (hp : p.HasAddress a) (hq : q.HasAddress a) :
    p = q := by
  have hempty : Mailbox.parse? [] = none := by decide
  have hname : Mailbox.parse? (Text.ofString "postmaster") = none := by decide
  have hne : Text.ofString "postmaster" ≠ [] := by decide
  cases p <;> cases q <;> simp_all [HasAddress]

end AnyPath

namespace FlatCommand

variable {o : FlatOptions} {name line t : Text} {v : Verb} {p : AnyPath} {ps : List Param}

def Verb.read? : Verb → Text → Option (AnyPath × List Param)
  | .mail, t => (MailCommand.parse? t).map fun c => (c.reversePath.toAny, c.params)
  | .rcpt, t => (RcptCommand.parse? t).map fun c => (c.forwardPath.toAny, c.params)

theorem ofName?_eq_some_iff : Verb.ofName? name = some v ↔ name.trim.upper = v.text := by
  constructor
  · intro h
    have hv := List.find?_some h
    simpa using Eq.symm (of_decide_eq_true hv)
  · intro h
    unfold Verb.ofName?
    rw [h]
    cases v <;> decide

theorem verb_text_injective : Function.Injective Verb.text := by
  intro v w h
  cases v <;> cases w <;> first | rfl | exact absurd h (by decide)

theorem parse?_eq : parse? o name line = (Verb.ofName? name).bind fun v =>
    (v.read? line.trim).bind fun (p, ps) => ofPath? o p.mailbox? p.address ps := by
  unfold parse?
  congr 1
  funext v
  cases v with
  | mail =>
    simp only [Verb.read?, Option.bind_map]
    congr 1
    funext ⟨p, ps⟩
    cases p <;> rfl
  | rcpt =>
    simp only [Verb.read?, Option.bind_map]
    congr 1
    funext ⟨p, ps⟩
    cases p <;> rfl

theorem parse?_eq_some_iff_read {f : FlatCommand} : parse? o name line = some f ↔
    ∃ (v : Verb) (p : AnyPath) (ps : List Param), name.trim.upper = v.text ∧
      v.read? line.trim = some (p, ps) ∧ p.Fits o ∧
      f = ⟨p.address, Args.ofParams? o.decodeValues ps⟩ := by
  simp only [parse?_eq, Option.bind_eq_some_iff, ofName?_eq_some_iff, ofPath?, AnyPath.fits_iff,
    Option.ite_none_right_eq_some, Option.some.injEq, Prod.exists]
  constructor
  · rintro ⟨v, hv, p, ps, hp, hfit, rfl⟩
    exact ⟨v, p, ps, hv, hp, hfit, rfl⟩
  · rintro ⟨v, p, ps, hv, hp, hfit, rfl⟩
    exact ⟨v, hv, p, ps, hp, hfit, rfl⟩

def Verb.lineOf (v : Verb) (address : Text) : Text :=
  v.text ++ Text.ofString ":<" ++ address ++ Text.ofString ">"

theorem read?_hasAddress (h : v.read? t = some (p, ps)) : p.HasAddress p.address := by
  have hmailbox : ∀ {u m}, Path.Derives u m → (AnyPath.mailbox m).HasAddress m.render :=
    fun hm => parse?_mailbox_iff.mpr (mailbox_render (path_wellFormed hm))
  cases v with
  | mail =>
    obtain ⟨c, hc, he⟩ := Option.map_eq_some_iff.mp h
    obtain ⟨rfl, rfl⟩ := Prod.mk.inj he
    obtain ⟨-, hp, -⟩ := parse?_mail_iff.mp hc
    cases hp with
    | null => rfl
    | mailbox hm => exact hmailbox hm
  | rcpt =>
    obtain ⟨c, hc, he⟩ := Option.map_eq_some_iff.mp h
    obtain ⟨rfl, rfl⟩ := Prod.mk.inj he
    obtain ⟨-, hp, -⟩ := parse?_rcpt_iff.mp hc
    cases hp with
    | postmaster => rfl
    | mailbox hm => exact hmailbox hm

theorem reversePath_render_eq (p : ReversePath) :
    p.render = Text.ofString "<" ++ p.toAny.address ++ Text.ofString ">" := by
  cases p <;> rfl

theorem forwardPath_render_eq (p : ForwardPath) :
    p.render = Text.ofString "<" ++ p.toAny.address ++ Text.ofString ">" := by
  cases p <;> rfl

theorem read?_lineOf (h : v.read? t = some (p, ps)) :
    v.read? (v.lineOf p.address) = some (p, []) := by
  cases v with
  | mail =>
    obtain ⟨c, hc, he⟩ := Option.map_eq_some_iff.mp h
    obtain ⟨rfl, rfl⟩ := Prod.mk.inj he
    obtain ⟨-, hp, -⟩ := parse?_mail_iff.mp hc
    have hline := MailCommand.Derives.mk (anyCase_refl _) (reversePath_render hp) .nil
    rw [reversePath_render_eq, List.append_nil] at hline
    exact Option.map_eq_some_iff.mpr ⟨_, parse?_mail_iff.mpr hline, rfl⟩
  | rcpt =>
    obtain ⟨c, hc, he⟩ := Option.map_eq_some_iff.mp h
    obtain ⟨rfl, rfl⟩ := Prod.mk.inj he
    obtain ⟨-, hp, -⟩ := parse?_rcpt_iff.mp hc
    have hline := RcptCommand.Derives.mk (anyCase_refl _) (forwardPath_render hp) .nil
    rw [forwardPath_render_eq, List.append_nil] at hline
    exact Option.map_eq_some_iff.mpr ⟨_, parse?_rcpt_iff.mpr hline, rfl⟩

theorem trim_lineOf (v : Verb) (a : Text) : (v.lineOf a).trim = v.lineOf a := by
  cases v with
  | mail =>
    exact Text.trim_of_ends (u := 'M'.toNat) (v := '>'.toNat) (by decide) (by decide)
      (Text.ofString "AIL FROM:<" ++ a)
  | rcpt =>
    exact Text.trim_of_ends (u := 'R'.toNat) (v := '>'.toNat) (by decide) (by decide)
      (Text.ofString "CPT TO:<" ++ a)

/-- The address tells the path, and alone in a line it is read as that path again. -/
theorem address_stands_for_path (o : FlatOptions) (name line : Text) :
    ((∃ f, parse? o name line = some f) ↔
      ∃ (v : Verb) (p : AnyPath) (ps : List Param), name.trim.upper = v.text ∧
        v.read? line.trim = some (p, ps) ∧ p.Fits o) ∧
    (∀ (f : FlatCommand) (v : Verb) (p : AnyPath) (ps : List Param),
      parse? o name line = some f → name.trim.upper = v.text → v.read? line.trim = some (p, ps) →
        ∀ q : AnyPath, q.HasAddress f.address ↔ q = p) ∧
    (∀ f, parse? o name line = some f →
      parse? o name (name.trim.upper ++ Text.ofString ":<" ++ f.address ++ Text.ofString ">") =
        some ⟨f.address, none⟩) ∧
    (∀ x y : Text, (∀ u ∈ x, Text.isBlank u) → (∀ u ∈ y, Text.isBlank u) →
      parse? o name (x ++ line ++ y) = parse? o name line) := by
  refine ⟨?_, ?_, ?_, ?_⟩
  · constructor
    · rintro ⟨f, hf⟩
      obtain ⟨v, p, ps, hv, hp, hfit, -⟩ := parse?_eq_some_iff_read.mp hf
      exact ⟨v, p, ps, hv, hp, hfit⟩
    · rintro ⟨v, p, ps, hv, hp, hfit⟩
      exact ⟨_, parse?_eq_some_iff_read.mpr ⟨v, p, ps, hv, hp, hfit, rfl⟩⟩
  · intro f v p ps hf hv hp q
    obtain ⟨w, r, rs, hw, hr, -, rfl⟩ := parse?_eq_some_iff_read.mp hf
    obtain rfl : w = v := verb_text_injective (hw.symm.trans hv)
    obtain ⟨rfl, rfl⟩ := Prod.mk.inj (Option.some.inj (hr.symm.trans hp))
    constructor
    · intro hq
      exact hq.unique (read?_hasAddress hr)
    · rintro rfl
      exact read?_hasAddress hr
  · intro f hf
    obtain ⟨v, p, ps, hv, hp, hfit, rfl⟩ := parse?_eq_some_iff_read.mp hf
    apply parse?_eq_some_iff_read.mpr
    refine ⟨v, p, [], hv, ?_, hfit, rfl⟩
    -- The name in upper case is the text of the verb, so this is the line of the path alone.
    rw [hv]
    change v.read? (v.lineOf p.address).trim = _
    rw [trim_lineOf]
    exact read?_lineOf hp
  · intro x y hx hy
    rw [parse?_eq, parse?_eq, Text.trim_append hx hy]

theorem address_stands_for_path_quoted :
    (∃ (v : Verb) (p : AnyPath) (ps : List Param),
      (Text.ofString " mail From").trim.upper = v.text ∧
        v.read? (Text.ofString "MAIL FROM:<@r:\"\\a\"@[ipv6:0::1]> X ").trim = some (p, ps) ∧
          p.Fits {}) ∧
    (∀ q : AnyPath, q.HasAddress "\"a\"@[IPv6:::1]" ↔
      q = .mailbox ⟨.quoted "a", .literal (.formal (.ip (.v6 "::1")))⟩) ∧
    parse? {} " mail From" ((Text.ofString " mail From").trim.upper ++ Text.ofString ":<" ++
      Text.ofString "\"a\"@[IPv6:::1]" ++ Text.ofString ">") = some ⟨"\"a\"@[IPv6:::1]", none⟩ ∧
    parse? {} " mail From" (Text.ofString "\t" ++
      Text.ofString "MAIL FROM:<@r:\"\\a\"@[ipv6:0::1]> X " ++ Text.ofString " ") =
        parse? {} " mail From" "MAIL FROM:<@r:\"\\a\"@[ipv6:0::1]> X " := by
  obtain ⟨hiff, hpath, hagain, htrim⟩ := address_stands_for_path {} " mail From"
    "MAIL FROM:<@r:\"\\a\"@[ipv6:0::1]> X "
  have hf : parse? {} " mail From" "MAIL FROM:<@r:\"\\a\"@[ipv6:0::1]> X " =
      some ⟨"\"a\"@[IPv6:::1]", some [("X", none)]⟩ := by decide
  have hp : Verb.mail.read? (Text.ofString "MAIL FROM:<@r:\"\\a\"@[ipv6:0::1]> X ").trim =
      some (.mailbox ⟨.quoted "a", .literal (.formal (.ip (.v6 "::1")))⟩, [⟨"X", none⟩]) := by
    decide
  have hline := hagain _ hf
  dsimp only at hline
  exact ⟨hiff.mp ⟨_, hf⟩, hpath _ .mail _ _ hf (by decide) hp, hline,
    htrim _ _ (by decide) (by decide)⟩

end FlatCommand
end MailEnvelope
