namespace MailEnvelope

/-- A set of code units. -/
abbrev CharClass := Nat → Bool

namespace CharClass

/-- The units in any of some ranges, each given by its first and its last unit. -/
def ofRanges (ranges : List (Nat × Nat)) : CharClass :=
  fun u => ranges.any fun r => r.1 ≤ u && u ≤ r.2

/-- Membership of a number that need not be a unit. -/
def holdsAt (c : CharClass) : Int → Bool
  | .ofNat u => c u
  | .negSucc _ => false

def digit : CharClass := ofRanges [(48, 57)]

def letter : CharClass := ofRanges [(65, 90), (97, 122)]

def letterOrDigit : CharClass := ofRanges [(48, 57), (65, 90), (97, 122)]

def hexDigit : CharClass := ofRanges [(48, 57), (65, 70), (97, 102)]

def upperHexDigit : CharClass := ofRanges [(48, 57), (65, 70)]

def letterDigitHyphen : CharClass := ofRanges [(45, 45), (48, 57), (65, 90), (97, 122)]

def atomUnit : CharClass :=
  ofRanges
    [(33, 33), (35, 39), (42, 43), (45, 45), (47, 57), (61, 61), (63, 63), (65, 90), (94, 126)]

/-- What stands for itself between quotes: all that is printable but the quote and the backslash. -/
def quotedText : CharClass := ofRanges [(32, 33), (35, 91), (93, 126)]

/-- What a backslash between quotes may precede. -/
def quotedPair : CharClass := ofRanges [(32, 126)]

/-- The content of a tagged address literal: no blank, no bracket, no backslash. -/
def literalContent : CharClass := ofRanges [(33, 90), (94, 126)]

def ipv6Unit : CharClass := ofRanges [(46, 46), (48, 58), (65, 70), (97, 102)]

def paramValue : CharClass := ofRanges [(33, 60), (62, 126)]

/-- What stands for itself in xtext: all that is visible but the plus and the equals sign. -/
def xtextPlain : CharClass := ofRanges [(33, 42), (44, 60), (62, 126)]

def blank : CharClass := ofRanges [(9, 9), (32, 32)]

end CharClass

/-- Text as a sequence of UTF-16 code units. -/
abbrev Text := List Nat

namespace Text

/-- A character above U+FFFF takes two units, a high surrogate and a low one. -/
def unitsOfChar (c : Char) : Text :=
  if c.toNat < 0x10000 then [c.toNat]
  else [0xD800 + (c.toNat - 0x10000) / 0x400, 0xDC00 + (c.toNat - 0x10000) % 0x400]

def ofChars (cs : List Char) : Text := cs.flatMap unitsOfChar

def ofString (s : String) : Text := ofChars s.toList

instance : Coe String Text := ⟨ofString⟩

/-- An octet becomes the unit of the same value, so none above 127 passes for ASCII. -/
def ofBytes (bs : List UInt8) : Text := bs.map UInt8.toNat

def isHighSurrogate (u : Nat) : Bool := 0xD800 ≤ u && u < 0xDC00

def isLowSurrogate (u : Nat) : Bool := 0xDC00 ≤ u && u < 0xE000

/-- A surrogate on its own reads as U+FFFD. -/
def charOfUnit (u : Nat) : Char :=
  if u < 0xD800 ∨ (0xE000 ≤ u ∧ u < 0x10000) then Char.ofNat u else '\uFFFD'

def charOfPair (high low : Nat) : Char :=
  Char.ofNat (0x10000 + (high - 0xD800) * 0x400 + (low - 0xDC00))

def toChars : Text → List Char
  | [] => []
  | [u] => [charOfUnit u]
  | u :: v :: t =>
    if isHighSurrogate u && isLowSurrogate v then charOfPair u v :: toChars t
    else charOfUnit u :: toChars (v :: t)

def toString (t : Text) : String := String.ofList t.toChars

def toUtf8 (t : Text) : List UInt8 := t.toChars.flatMap String.utf8EncodeChar

def ofUtf8? (bs : List UInt8) : Option Text :=
  bs.toByteArray.utf8Decode?.map fun cs => ofChars cs.toList

/-- Space separators, line ends, tabs and the byte order mark. -/
def isBlank : CharClass := CharClass.ofRanges
  [(0x0009, 0x000D), (0x0020, 0x0020), (0x00A0, 0x00A0), (0x1680, 0x1680), (0x2000, 0x200A),
   (0x2028, 0x2029), (0x202F, 0x202F), (0x205F, 0x205F), (0x3000, 0x3000), (0xFEFF, 0xFEFF)]

def trimLeft (t : Text) : Text := t.dropWhile isBlank

def trimRight (t : Text) : Text := (t.reverse.dropWhile isBlank).reverse

def trim (t : Text) : Text := trimRight (trimLeft t)

def foldUnit (u : Nat) : Nat := if 65 ≤ u ∧ u ≤ 90 then u + 32 else u

/-- ASCII letters in lower case; all else stays as it is. -/
def fold (t : Text) : Text := t.map foldUnit

/-- The characters outside ASCII whose upper case is ASCII. -/
def upperToAscii : List (Nat × Text) :=
  [(0x00DF, "SS"), (0x0131, "I"), (0x017F, "S"), (0xFB00, "FF"), (0xFB01, "FI"), (0xFB02, "FL"),
   (0xFB03, "FFI"), (0xFB04, "FFL"), (0xFB05, "ST"), (0xFB06, "ST")]

def upperUnit (u : Nat) : Text :=
  if 97 ≤ u ∧ u ≤ 122 then [u - 32] else (upperToAscii.lookup u).getD [u]

/-- Upper case for comparison with ASCII words: a character whose upper case is not ASCII stays as
it is, which is just as different from every such word. -/
def upper (t : Text) : Text := t.flatMap upperUnit

end Text
end MailEnvelope
