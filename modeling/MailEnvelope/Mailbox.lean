import MailEnvelope.IpAddress

namespace MailEnvelope

/-- A quoted local part is known by the text between its quotes, without the backslashes. -/
inductive LocalPart where
  | atom (value : Text)
  | quoted (value : Text)
  deriving DecidableEq

inductive FormalLiteral where
  | ip (address : IpAddress)
  | tagged (tag value : Text)
  deriving DecidableEq

/-- A free-form literal is bracketed text that has no formal reading. -/
inductive AddressLiteral where
  | formal (literal : FormalLiteral)
  | freeform (value : Text)
  deriving DecidableEq

inductive DomainPart where
  | domain (name : Text)
  | literal (literal : AddressLiteral)
  deriving DecidableEq

structure Mailbox where
  localPart : LocalPart
  domainPart : DomainPart
  deriving DecidableEq

namespace LocalPart

def atomRule : Rule Text := .spanOne .atomUnit

def dotAtom : Rule Text := .consumed (.separatedBy atomRule (.text "."))

/-- One unit between quotes; after a backslash any printable unit stands for itself. -/
def quotedUnit : Rule Text :=
  .orElse (.unit .quotedText) (.before (.text "\\") (.unit .quotedPair))

def quotedString : Rule Text :=
  .map List.flatten (.between (.text "\"") (.many quotedUnit) (.text "\""))

def rule : Rule LocalPart := .orElse (.map .atom dotAtom) (.map .quoted quotedString)

/-- Only the quote and the backslash need a backslash. -/
def escapeUnit (u : Nat) : Text :=
  if u = '"'.toNat ∨ u = '\\'.toNat then ['\\'.toNat, u] else [u]

def render : LocalPart → Text
  | .atom value => value
  | .quoted value => Text.ofString "\"" ++ value.flatMap escapeUnit ++ Text.ofString "\""

end LocalPart

namespace DomainName

/-- A letter or digit, then letters, digits and hyphens. The longest such run is read, and it is no
label if it ends in a hyphen: nothing that may follow a label could take the hyphen. -/
def label : Rule Text :=
  .filter (fun t => t.getLast? != some '-'.toNat)
    (.consumed (.both (.unit .letterOrDigit) (.span .letterDigitHyphen 0 none)))

def rule : Rule Text := .consumed (.separatedBy label (.text "."))

end DomainName

namespace FormalLiteral

def v4 : Rule FormalLiteral := .map .ip IpAddress.V4.rule

def v6 : Rule FormalLiteral := .map .ip IpAddress.V6.rule

def tagRule : Rule FormalLiteral :=
  .map (fun (tag, value) => .tagged tag value)
    (.both (.followedBy DomainName.label (.text ":")) (.spanOne .literalContent))

/-- In this order, so "IPv6:" is a tag only before what is no IPv6 address. -/
def forms : List (Rule FormalLiteral) := [v4, v6, tagRule]

/-- Each form has to reach the closing bracket on its own. -/
def bracketed : Rule FormalLiteral :=
  .oneOf (forms.map fun form => .between (.text "[") form (.text "]"))

def content : Rule FormalLiteral := .oneOf (forms.map fun form => .followedBy form .atEnd)

def parse? (t : Text) : Option FormalLiteral := content.parse? t

def render : FormalLiteral → Text
  | .ip (.v4 address) => address
  | .ip (.v6 address) => Text.ofString "IPv6:" ++ address
  | .tagged tag value => tag ++ Text.ofString ":" ++ value

end FormalLiteral

namespace AddressLiteral

def notBracket : CharClass := fun u => u != '['.toNat && u != ']'.toNat

def freeformRule : Rule AddressLiteral :=
  .map .freeform (.between (.text "[") (.span notBracket 0 none) (.text "]"))

def rule : Rule AddressLiteral := .orElse (.map .formal FormalLiteral.bracketed) freeformRule

def parse? (t : Text) : Option AddressLiteral := rule.parse? t

def upgrade? (value : Text) : Option FormalLiteral := FormalLiteral.parse? value

def render : AddressLiteral → Text
  | .formal literal => Text.ofString "[" ++ literal.render ++ Text.ofString "]"
  | .freeform value => Text.ofString "[" ++ value ++ Text.ofString "]"

end AddressLiteral

namespace DomainPart

def rule : Rule DomainPart :=
  .orElse (.map .domain DomainName.rule)
    (.map (fun l => .literal (.formal l)) FormalLiteral.bracketed)

def render : DomainPart → Text
  | .domain name => name
  | .literal l => l.render

end DomainPart

namespace Mailbox

def rule : Rule Mailbox :=
  .map (fun (localPart, domainPart) => ⟨localPart, domainPart⟩)
    (.both (.followedBy LocalPart.rule (.text "@")) DomainPart.rule)

def parse? (t : Text) : Option Mailbox := rule.parse? t

def isAddress (t : Text) : Bool := (parse? t).isSome

def render (m : Mailbox) : Text := m.localPart.render ++ Text.ofString "@" ++ m.domainPart.render

end Mailbox
end MailEnvelope
