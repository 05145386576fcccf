import MailEnvelope.Mailbox

namespace MailEnvelope

structure Reply where
  responseCode : Int
  message : String
  code : Option String
  deriving DecidableEq

/-- Why a parameter is refused. -/
inductive Refusal where
  | invalidSize
  | messageTooLarge (limit : Int)
  | unknownBody
  | smtpUtf8Unsupported
  | smtpUtf8TakesNoValue
  | requireTlsTakesNoValue
  | invalidRet
  | missingEnvid
  | invalidEnvid
  | unknownNotify
  | combinedNever
  | invalidOrcpt
  deriving DecidableEq

def Refusal.reply : Refusal → Reply
  | invalidSize => ⟨501, "Error: Invalid SIZE parameter value", none⟩
  | messageTooLarge limit =>
    ⟨552, s!"Error: message exceeds fixed maximum message size {limit}", some "SYSTEM_FULL"⟩
  | unknownBody => ⟨501, "Error: Unknown BODY parameter value", none⟩
  | smtpUtf8Unsupported => ⟨555, "Error: SMTPUTF8 is not supported", none⟩
  | smtpUtf8TakesNoValue =>
    ⟨501, "Invalid SMTPUTF8 parameter. This flag does not accept a value", none⟩
  | requireTlsTakesNoValue =>
    ⟨501, "Invalid REQUIRETLS parameter. This flag does not accept a value", none⟩
  | invalidRet => ⟨501, "Invalid RET parameter value. Must be FULL or HDRS", none⟩
  | missingEnvid => ⟨501, "Error: ENVID requires a value", none⟩
  | invalidEnvid => ⟨501, "Error: Invalid ENVID parameter value", none⟩
  | unknownNotify =>
    ⟨501, "Error: NOTIFY parameter must be NEVER, SUCCESS, FAILURE, or DELAY", none⟩
  | combinedNever => ⟨501, "Error: NOTIFY=NEVER cannot be combined with other values", none⟩
  | invalidOrcpt => ⟨501, "Error: Invalid ORCPT parameter value", none⟩

/-- A value, or the refusal of one that is none. -/
def Refusal.ifNone {α : Type} (e : Refusal) : Option α → Except Refusal α
  | some a => .ok a
  | none => .error e

namespace Xtext

/-- A unit of encoded text: one that stands for itself, or "+" with the two hexadecimal digits of
an octet. -/
inductive Piece where
  | plain (u : Nat)
  | octet (b : UInt8)
  deriving DecidableEq

def octetOfDigits (high low : Nat) : UInt8 :=
  UInt8.ofNat (16 * Text.digitValue high + Text.digitValue low)

/-- A "+" without two digits after it stands for itself. -/
def pieces : Text → List Piece
  | u :: high :: low :: t =>
    if u = '+'.toNat ∧ CharClass.hexDigit high ∧ CharClass.hexDigit low then
      .octet (octetOfDigits high low) :: pieces t
    else .plain u :: pieces (high :: low :: t)
  | u :: t => .plain u :: pieces t
  | [] => []

/-- UTF-8 where the octets are that, and one character for each octet where they are not. -/
def readOctets (bs : List UInt8) : Text := (Text.ofUtf8? bs).getD (Text.ofBytes bs)

/-- Octets wait in `run` for the end of their run, and are read together. -/
def assemble (run : List UInt8) : List Piece → Text
  | [] => readOctets run
  | .octet b :: ps => assemble (run ++ [b]) ps
  | .plain u :: ps => readOctets run ++ u :: assemble [] ps

def decode (t : Text) : Text := assemble [] (pieces t)

def upperHexDigit (n : Nat) : Nat := if n < 10 then 48 + n else 55 + n

def escape (b : UInt8) : Text :=
  ['+'.toNat, upperHexDigit (b.toNat / 16), upperHexDigit (b.toNat % 16)]

def encodeOctet (b : UInt8) : Text := if CharClass.xtextPlain b.toNat then [b.toNat] else escape b

def encode (t : Text) : Text := t.toUtf8.flatMap encodeOctet

/-- Encoded text as the standard has it: escapes in upper case, and all else plain. -/
def rule : Rule Text :=
  .consumed <| .manyOne <|
    .orElse (.unit .xtextPlain) (.consumed (.both (.text "+") (.span .upperHexDigit 2 (some 2))))

end Xtext

/-- The recipient that the sender named first, with the kind of its address. -/
structure Orcpt where
  addressType : Text
  address : Text
  deriving DecidableEq

namespace Orcpt

def rule : Rule Orcpt :=
  .map (fun (addressType, address) => ⟨addressType, Xtext.decode address⟩)
    (.both (.followedBy LocalPart.atomRule (.text ";")) Xtext.rule)

def parse? (t : Text) : Option Orcpt := rule.parse? t

end Orcpt

/-- When the sender wants to hear of a delivery. -/
inductive NotifyValue where
  | never
  | success
  | failure
  | delay
  deriving DecidableEq

namespace NotifyValue

def keyword : NotifyValue → Text
  | never => "NEVER"
  | success => "SUCCESS"
  | failure => "FAILURE"
  | delay => "DELAY"

def ofKeyword? (t : Text) : Option NotifyValue :=
  [never, success, failure, delay].find? (·.keyword = t)

def parseOne (t : Text) : Except Refusal NotifyValue :=
  Refusal.unknownNotify.ifNone (ofKeyword? t)

/-- Reads values with commas between them, in any case. An unknown one is found before a NEVER that
does not stand alone. -/
def parseList (t : Text) : Except Refusal (List NotifyValue) := do
  let values ← (t.upper.splitOn ','.toNat).mapM parseOne
  if never ∈ values ∧ 1 < values.length then .error .combinedNever else .ok values

end NotifyValue

/-- A value that is one of some words, in any case. -/
def readWord {κ : Type} (all : List κ) (word : κ → Text) (refusal : Refusal) (value : Option Text) :
    Except Refusal κ :=
  refusal.ifNone (all.find? fun k => some (word k) = value.map Text.upper)

inductive BodyType where
  | sevenBit
  | eightBitMime
  deriving DecidableEq

namespace BodyType

def keyword : BodyType → Text
  | sevenBit => "7BIT"
  | eightBitMime => "8BITMIME"

def parse : Option Text → Except Refusal BodyType :=
  readWord [sevenBit, eightBitMime] keyword .unknownBody

end BodyType

inductive ReturnContent where
  | full
  | headers
  deriving DecidableEq

namespace ReturnContent

def keyword : ReturnContent → Text
  | full => "FULL"
  | headers => "HDRS"

def parse : Option Text → Except Refusal ReturnContent :=
  readWord [full, headers] keyword .invalidRet

end ReturnContent

end MailEnvelope
