import MailEnvelope.Text

namespace MailEnvelope
namespace Text

/-- The digits of a number, without leading zeros; letters in lower case. -/
def numeral (base n : Nat) : Text := (Nat.toDigits base n).map Char.toNat

def signedNumeral (base : Nat) (n : Int) : Text :=
  if n < 0 then '-'.toNat :: numeral base n.natAbs else numeral base n.natAbs

def digitValue (u : Nat) : Nat :=
  if u ≤ 57 then u - 48 else if u ≤ 70 then u - 55 else u - 87

def numeralValue (base : Nat) (t : Text) : Nat :=
  t.foldl (fun n u => base * n + digitValue u) 0

end Text

/-- What digits stand for in double precision: a whole number of 53 significant bits, or an
infinity for one that is too large. Where there are no digits the number is undefined. -/
inductive Number where
  | whole (n : Int)
  | infinite (negative : Bool)
  | undefined
  deriving DecidableEq

namespace Number

/-- The nearest multiple of a power of two; of two that are equally near, the even multiple. -/
def roundAt (shift n : Nat) : Nat :=
  let unit := Nat.pow 2 shift
  let q := n / unit
  let r := n % unit
  if 2 * r < unit ∨ (2 * r = unit ∧ q % 2 = 0) then q * unit else (q + 1) * unit

def round (n : Nat) : Nat := roundAt (n.log2 - 52) n

/-- A magnitude that does not round to one below 2^1024 is infinite. -/
def ofMagnitude (negative : Bool) (n : Nat) : Number :=
  let m := round n
  if m.log2 < 1024 then .whole (if negative then -(m : Int) else m) else .infinite negative

def ofDigits (base : Nat) (negative : Bool) (digits : Text) : Number :=
  if digits = [] then .undefined else ofMagnitude negative (Text.numeralValue base digits)

/-- The low 32 bits; what is no finite number has none. -/
def toWord : Number → BitVec 32
  | whole n => BitVec.ofInt 32 n
  | _ => 0

def render (base : Nat) : Number → Text
  | whole n => Text.signedNumeral base n
  | infinite false => "Infinity"
  | infinite true => "-Infinity"
  | undefined => "NaN"

def dropSign : Text → Bool × Text
  | u :: t => if u = '-'.toNat then (true, t) else (false, if u = '+'.toNat then t else u :: t)
  | [] => (false, [])

def dropHexMark : Text → Text
  | u :: v :: t => if u = '0'.toNat ∧ (v = 'x'.toNat ∨ v = 'X'.toNat) then t else u :: v :: t
  | t => t

/-- The number at the start of a text, after blanks and a sign; what follows its digits is
ignored. -/
def leadingDecimal (t : Text) : Number :=
  let (negative, body) := dropSign (Text.trimLeft t)
  ofDigits 10 negative (body.takeWhile CharClass.digit)

/-- As `leadingDecimal`, with hexadecimal digits and a possible "0x" before them. -/
def leadingHex (t : Text) : Number :=
  let (negative, body) := dropSign (Text.trimLeft t)
  ofDigits 16 negative ((dropHexMark body).takeWhile CharClass.hexDigit)

end Number
end MailEnvelope
