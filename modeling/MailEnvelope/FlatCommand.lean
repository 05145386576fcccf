import MailEnvelope.Command
import MailEnvelope.Value

namespace MailEnvelope

/-- Lengths are those of the rendered text. -/
structure FlatOptions where
  maxLocalPart : Int := 64
  maxPath : Int := 254
  decodeValues : Bool := true
  deriving DecidableEq

/-- The option to decode values, as it is given: it may be there and still have no value. -/
inductive DecodeOption where
  | absent
  | empty
  | given (decode : Bool)
  deriving DecidableEq

/-- The default is for an option that is absent, and one without a value counts as false. -/
def DecodeOption.decodes : DecodeOption → Bool
  | .absent => true
  | .empty => false
  | .given decode => decode

def FlatOptions.decoding (o : FlatOptions) (d : DecodeOption) : FlatOptions :=
  { o with decodeValues := d.decodes }

/-- Values by keyword; a keyword without a value is a flag. Array indices stand first, in the order
of their numbers, and then the other keywords in the order in which they were put in. -/
abbrev Args := List (Text × Option Text)

/-- A command with its path as one text, and without a record of parameters if it has none. -/
structure FlatCommand where
  address : Text
  args : Option Args
  deriving DecidableEq

namespace Args

/-- The number of a keyword that is an array index: its shortest numeral, below 2^32 - 1. -/
def index? (k : Text) : Option Nat :=
  let n := Text.numeralValue 10 k
  if k = Text.numeral 10 n ∧ n < Nat.pow 2 32 - 1 then some n else none

/-- Whether a new keyword is put before one that is there. -/
def precedes (k j : Text) : Bool :=
  (index? k).any fun m => (index? j).all fun n => m < n

/-- A keyword that is there already keeps its place and gets the new value. -/
def insert (k : Text) (v : Option Text) : Args → Args
  | [] => [(k, v)]
  | e :: es =>
    if k = e.1 then (k, v) :: es
    else if precedes k e.1 then (k, v) :: e :: es
    else e :: insert k v es

def insertParam (decode : Bool) (args : Args) (p : Param) : Args :=
  args.insert p.keyword (if decode then p.value.map Xtext.decode else p.value)

def ofParams? (decode : Bool) (ps : List Param) : Option Args :=
  if ps = [] then none else some (ps.foldl (insertParam decode) [])

end Args

namespace Mailbox

def fits (o : FlatOptions) (m : Mailbox) : Bool :=
  m.localPart.render.length ≤ o.maxLocalPart && m.render.length ≤ o.maxPath

end Mailbox

namespace FlatCommand

inductive Verb where
  | mail
  | rcpt
  deriving DecidableEq

def Verb.text : Verb → Text
  | .mail => "MAIL FROM"
  | .rcpt => "RCPT TO"

def Verb.ofName? (name : Text) : Option Verb :=
  [Verb.mail, Verb.rcpt].find? (·.text = name.trim.upper)

def ofPath? (o : FlatOptions) (mailbox : Option Mailbox) (address : Text) (ps : List Param) :
    Option FlatCommand :=
  if mailbox.all (·.fits o) then some ⟨address, Args.ofParams? o.decodeValues ps⟩ else none

def parse? (o : FlatOptions) (name line : Text) : Option FlatCommand :=
  (Verb.ofName? name).bind fun
    | .mail => (MailCommand.parse? line.trim).bind fun c =>
      ofPath? o c.reversePath.mailbox? c.reversePath.address c.params
    | .rcpt => (RcptCommand.parse? line.trim).bind fun c =>
      ofPath? o c.forwardPath.mailbox? c.forwardPath.address c.params

end FlatCommand
end MailEnvelope
