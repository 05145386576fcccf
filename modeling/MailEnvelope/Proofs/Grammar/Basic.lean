import Mathlib.Data.List.Forall2
import MailEnvelope.Command

namespace MailEnvelope
namespace Grammar

/-- One or more units of a class. -/
def Run (c : CharClass) (t : Text) : Prop := t ≠ [] ∧ ∀ u ∈ t, c u

/-- A parser that answers with what a grammar derives, and with nothing where it derives nothing. -/
structure Decides {α : Type} (parse? : Text → Option α) (derives : Text → α → Prop) : Prop where
  some_iff : ∀ t v, parse? t = some v ↔ derives t v
  none_iff : ∀ t, parse? t = none ↔ ∀ v, ¬ derives t v
  unique : ∀ t v w, derives t v → derives t w → v = w

theorem Decides.of_some_iff {α : Type} {parse? : Text → Option α} {derives : Text → α → Prop}
    (h : ∀ t v, parse? t = some v ↔ derives t v) : Decides parse? derives where
  some_iff := h
  none_iff t := by
    simp only [← h]
    exact Option.eq_none_iff_forall_ne_some
  unique t v w hv hw := by
    rw [← h] at hv hw
    exact Option.some.inj (hv.symm.trans hw)

/-- Two units that are the same but for the case of an ASCII letter. -/
def SameLetter (u w : Nat) : Prop :=
  u = w ∨ (65 ≤ u ∧ u ≤ 90 ∧ w = u + 32) ∨ (65 ≤ w ∧ w ≤ 90 ∧ u = w + 32)

/-- A text that is the given one but for the case of ASCII letters. -/
def AnyCase (word t : Text) : Prop := List.Forall₂ SameLetter word t

/-- One or more items with a separator between any two, and the values of the items. -/
inductive Separated {α : Type} (separator : Text → Prop) (item : Text → α → Prop) :
    Text → List α → Prop
  | one {t v} : item t v → Separated separator item t [v]
  | more {t v w u vs} : item t v → separator w → Separated separator item u vs →
      Separated separator item (t ++ w ++ u) (v :: vs)

theorem Separated.ne_nil {α : Type} {separator : Text → Prop} {item : Text → α → Prop} {t : Text}
    {vs : List α} (h : Separated separator item t vs) : vs ≠ [] := by
  cases h with
  | one => exact List.cons_ne_nil _ _
  | more => exact List.cons_ne_nil _ _

theorem Separated.append {α : Type} {separator : Text → Prop} {item : Text → α → Prop}
    {t w u : Text} {vs ws : List α} (ht : Separated separator item t vs) (hw : separator w)
    (hu : Separated separator item u ws) : Separated separator item (t ++ w ++ u) (vs ++ ws) := by
  induction ht with
  | one hi => exact .more hi hw hu
  | more hi hs _ ih =>
    rw [List.append_assoc, List.append_assoc, ← List.append_assoc _ w]
    exact .more hi hs ih

/-- With one text for the separator, the items are the pieces between its places. -/
theorem separated_iff {α : Type} {between t : Text} {item : Text → α → Prop} {vs : List α} :
    Separated (· = between) item t vs ↔
      ∃ ps, ps ≠ [] ∧ t = List.intercalate between ps ∧ List.Forall₂ item ps vs := by
  constructor
  · intro h
    induction h with
    | @one t v ht => exact ⟨[t], by simp, by simp, .cons ht .nil⟩
    | @more t v w u vs ht hw _ ih =>
      obtain ⟨ps, hne, rfl, hps⟩ := ih
      refine ⟨t :: ps, by simp, ?_, .cons ht hps⟩
      rw [List.intercalate_cons_of_ne_nil hne, hw]
  · rintro ⟨ps, hne, rfl, h⟩
    induction h with
    | nil => exact absurd rfl hne
    | @cons p v ps vs hp hps ih =>
      cases hps with
      | nil =>
        rw [List.intercalate_singleton]
        exact .one hp
      | cons hq hqs =>
        rw [List.intercalate_cons_cons]
        exact .more hp rfl (ih (by simp))

/-- One or more parts with a fixed text between any two. -/
def Joined (between : Text) (part : Text → Prop) (t : Text) : Prop :=
  ∃ parts, Separated (· = between) (fun u v => part u ∧ v = u) t parts

/-- The first and the last unit are letters or digits, and so are those between, or hyphens. -/
inductive Label : Text → Prop
  | one {u} : CharClass.letterOrDigit u → Label [u]
  | long {u t w} : CharClass.letterOrDigit u → (∀ x ∈ t, CharClass.letterDigitHyphen x) →
      CharClass.letterOrDigit w → Label (u :: (t ++ [w]))

def Domain (t : Text) : Prop := Joined "." Label t

def DotString (t : Text) : Prop := Joined "." (Run .atomUnit) t

/-- The ways to write a text between quotes: each unit as itself or after a backslash. -/
inductive Spelling : Text → Text → Prop
  | nil : Spelling [] []
  | plain {u s e} : CharClass.quotedText u → Spelling s e → Spelling (u :: s) (u :: e)
  | escaped {u s e} : CharClass.quotedPair u → Spelling s e →
      Spelling (u :: s) ('\\'.toNat :: u :: e)

/-- One to three digits, and the number that they write. -/
def Octet (t : Text) (n : Nat) : Prop :=
  1 ≤ t.length ∧ t.length ≤ 3 ∧ (∀ u ∈ t, CharClass.digit u) ∧ Text.numeralValue 10 t = n ∧ n ≤ 255

inductive Ipv4 : Text → IpAddress → Prop
  | quad {s t u v i j k l} : Octet s i → Octet t j → Octet u k → Octet v l →
      Ipv4 (s ++ Text.ofString "." ++ t ++ Text.ofString "." ++ u ++ Text.ofString "." ++ v)
        (.v4 (IpAddress.dotted [(i : Int), j, k, l]))

/-- An address is known by its canonical text. -/
inductive Ipv6 : Text → IpAddress → Prop
  | canonical {k b a} : AnyCase "IPv6:" k → Run .ipv6Unit b → IpAddress.V6.isValid b →
      IpAddress.V6.canonical b = .ok a → Ipv6 (k ++ b) (.v6 a)

/-- Domains to pass on the way, each after an at sign. -/
def Route (t : Text) : Prop :=
  ∃ ds, Separated (· = Text.ofString ",") (fun u d => Domain d ∧ u = Text.ofString "@" ++ d) t ds

end Grammar

open Grammar

inductive LocalPart.Derives : Text → LocalPart → Prop
  | atom {t} : DotString t → Derives t (.atom t)
  | quoted {s e} : Spelling s e →
      Derives (Text.ofString "\"" ++ e ++ Text.ofString "\"") (.quoted s)

/-- The inside of an address literal. A tag is read only where there is no IPv6 address. -/
inductive FormalLiteral.Derives : Text → FormalLiteral → Prop
  | ipv4 {t a} : Ipv4 t a → Derives t (.ip a)
  | ipv6 {t a} : Ipv6 t a → Derives t (.ip a)
  | tagged {tag value} : Label tag → Run .literalContent value →
      (∀ a, ¬ Ipv6 (tag ++ Text.ofString ":" ++ value) a) →
      Derives (tag ++ Text.ofString ":" ++ value) (.tagged tag value)

inductive DomainPart.Derives : Text → DomainPart → Prop
  | domain {t} : Domain t → Derives t (.domain t)
  | literal {t l} : FormalLiteral.Derives t l →
      Derives (Text.ofString "[" ++ t ++ Text.ofString "]") (.literal (.formal l))

inductive Mailbox.Derives : Text → Mailbox → Prop
  | mk {t u l d} : LocalPart.Derives t l → DomainPart.Derives u d →
      Derives (t ++ Text.ofString "@" ++ u) ⟨l, d⟩

/-- A source route leaves no trace in the value. -/
inductive Path.Derives : Text → Mailbox → Prop
  | direct {t m} : Mailbox.Derives t m → Derives (Text.ofString "<" ++ t ++ Text.ofString ">") m
  | routed {r t m} : Route r → Mailbox.Derives t m →
      Derives (Text.ofString "<" ++ (r ++ Text.ofString ":" ++ t) ++ Text.ofString ">") m

inductive ReversePath.Derives : Text → ReversePath → Prop
  | null : Derives (Text.ofString "<>") .null
  | mailbox {t m} : Path.Derives t m → Derives t (.mailbox m)

inductive ForwardPath.Derives : Text → ForwardPath → Prop
  | postmaster {t} : AnyCase "<postmaster>" t → Derives t .postmaster
  | mailbox {t m} : Path.Derives t m → Derives t (.mailbox m)

inductive Param.Derives : Text → Param → Prop
  | flag {n} : Run .letterOrDigit n → Derives n ⟨n, none⟩
  | value {n v} : Run .letterOrDigit n → Run .paramValue v →
      Derives (n ++ Text.ofString "=" ++ v) ⟨n, some v⟩

def Param.DeriveList (t : Text) (ps : List Param) : Prop :=
  Separated (Run .blank) Param.Derives t ps

inductive Param.DeriveSuffix : Text → List Param → Prop
  | nil : DeriveSuffix [] []
  | params {t ps} : Param.DeriveList t ps → DeriveSuffix (Text.ofString " " ++ t) ps

inductive MailCommand.Derives : Text → MailCommand → Prop
  | mk {k t p s ps} : AnyCase "MAIL FROM:" k → ReversePath.Derives t p → Param.DeriveSuffix s ps →
      Derives (k ++ t ++ s) ⟨p, ps⟩

inductive RcptCommand.Derives : Text → RcptCommand → Prop
  | mk {k t p s ps} : AnyCase "RCPT TO:" k → ForwardPath.Derives t p → Param.DeriveSuffix s ps →
      Derives (k ++ t ++ s) ⟨p, ps⟩

end MailEnvelope
