import MailEnvelope.Number
import MailEnvelope.Rule

namespace MailEnvelope

/-- An IP address, known by its text. -/
inductive IpAddress where
  | v4 (address : Text)
  | v6 (address : Text)
  deriving DecidableEq

namespace IpAddress

def dotted (octets : List Int) : Text :=
  List.intercalate "." (octets.map (Text.signedNumeral 10))

namespace V4

/-- Leading zeros are read, but three digits are all that an octet may have. -/
def octet : Rule Nat :=
  .filter (· ≤ 255) (.map (Text.numeralValue 10) (.span .digit 1 (some 3)))

def dotOctet : Rule Nat := .before (.text ".") octet

def rule : Rule IpAddress :=
  .map (fun ((a, b), (c, d)) => .v4 (dotted [a, b, c, d]))
    (.both (.both octet dotOctet) (.both dotOctet dotOctet))

end V4

namespace V6

def splitAtGap : Text → Option (Text × Text)
  | [] => none
  | u :: t =>
    if u = ':'.toNat ∧ t.head? = some ':'.toNat then some ([], t.tail)
    else (splitAtGap t).map fun (front, back) => (u :: front, back)

/-- Two octets as one group. A number that is no octet reaches into its neighbour, and the group
is what a signed word of 32 bits holds of it. -/
def joinOctets (high low : Number) : Number := .whole (high.toWord <<< 8 ||| low.toWord).toInt

/-- The two groups of four octets; one that is missing counts as zero. -/
def dottedGroups (t : Text) : List Number :=
  let octets := (t.splitOn '.'.toNat).map Number.leadingDecimal
  let octet := fun i => octets.getD i (.whole 0)
  [joinOctets (octet 0) (octet 1), joinOctets (octet 2) (octet 3)]

def pieceGroups (piece : Text) : List Number :=
  if '.'.toNat ∈ piece then dottedGroups piece else [Number.leadingHex piece]

def groups (t : Text) : List Number :=
  if t = [] then [] else (t.splitOn ':'.toNat).flatMap pieceGroups

inductive ExpandError where
  /-- There is a "::", and more than eight groups are written around it. -/
  | tooManyGroups
  deriving DecidableEq

def ExpandError.message : ExpandError → String
  | .tooManyGroups => "Invalid array length"

/-- All groups of an address, with the zeros that "::" stands for. Text that is no address is read
as far as its digits go. -/
def expand (t : Text) : Except ExpandError (List Number) :=
  match splitAtGap t with
  | none => .ok (groups t)
  | some (front, back) =>
    let written := (groups front).length + (groups back).length
    if written ≤ 8 then .ok (groups front ++ List.replicate (8 - written) (.whole 0) ++ groups back)
    else .error .tooManyGroups

def leadingZeros (gs : List Number) : Nat := (gs.takeWhile (· = .whole 0)).length

/-- Start and length of the longest run of zero groups, the first one among equals. -/
def longestZeroRun : List Number → Nat × Nat
  | [] => (0, 0)
  | g :: gs =>
    let here := leadingZeros (g :: gs)
    let later := longestZeroRun gs
    if later.2 ≤ here then (0, here) else (later.1 + 1, later.2)

def hexGroups (gs : List Number) : Text := List.intercalate ":" (gs.map (Number.render 16))

/-- The octets of a group as a signed word of 32 bits; all that is above the low octet goes into
the first number. -/
def groupOctets (g : Number) : List Int := [g.toWord.toInt / 256, g.toWord.toInt % 256]

/-- An IPv4 address in an IPv6 one: five zero groups and one of sixteen ones before it. -/
def isMapped (gs : List Number) : Bool :=
  (gs.take 5).all (· = .whole 0) && gs[5]? = some (.whole 0xFFFF)

/-- "::" replaces the longest run of at least two zero groups, and a mapped IPv4 address keeps its
decimal octets. -/
def render (gs : List Number) : Text :=
  if isMapped gs then
    Text.ofString "::ffff:" ++
      dotted (groupOctets (gs.getD 6 (.whole 0)) ++ groupOctets (gs.getD 7 (.whole 0)))
  else
    let run := longestZeroRun gs
    if run.2 < 2 then hexGroups gs
    else hexGroups (gs.take run.1) ++ Text.ofString "::" ++ hexGroups (gs.drop (run.1 + run.2))

def canonical (t : Text) : Except ExpandError Text := (expand t).map render

def isGroup (t : Text) : Bool := 1 ≤ t.length && t.length ≤ 4 && t.all CharClass.hexDigit

def isOctet (t : Text) : Bool :=
  1 ≤ t.length && t.length ≤ 3 && t.all CharClass.digit && Text.numeralValue 10 t ≤ 255 &&
    (t.length = 1 || t.head? != some '0'.toNat)

def isDottedQuad (t : Text) : Bool :=
  let octets := t.splitOn '.'.toNat
  octets.length = 4 && octets.all isOctet

/-- How many groups are written, if all of them are well formed; four decimal octets count as two
and may only come last. -/
def countPieces : List Text → Option Nat
  | [] => some 0
  | [piece] => if isGroup piece then some 1 else if isDottedQuad piece then some 2 else none
  | piece :: next :: pieces =>
    if isGroup piece then (countPieces (next :: pieces)).map (· + 1) else none

def pieces (t : Text) : List Text := if t = [] then [] else t.splitOn ':'.toNat

/-- Eight groups, or fewer with "::" for at least one. No zone may follow them: what is read for an
address has no percent sign, being a run of hexadecimal digits, colons and dots. -/
def isValid (t : Text) : Bool :=
  match splitAtGap t with
  | none => countPieces (pieces t) = some 8
  | some (front, back) =>
    (pieces front).all isGroup &&
      (countPieces (pieces back)).any fun n => (pieces front).length + n ≤ 7

/-- The text of the address is the canonical one, however it was written. -/
def rule : Rule IpAddress :=
  .filterMap (fun t => if isValid t then (canonical t).toOption.map .v6 else none)
    (.before (.textAnyCase "IPv6:") (.spanOne .ipv6Unit))

end V6
end IpAddress
end MailEnvelope
