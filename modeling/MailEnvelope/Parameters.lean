import MailEnvelope.Command
import MailEnvelope.Value

namespace MailEnvelope

/-- What a server offers. A maximum size of zero is no maximum. -/
structure EnvelopeOptions where
  maxSize : Int := 0
  hideSize : Bool := false
  hideDsn : Bool := false
  hideSmtpUtf8 : Bool := false
  deriving DecidableEq

/-- Each parameter in turn is checked on its own and set; the first one that is refused decides. -/
def Param.interpret {σ α : Type} (check : Param → Except Refusal σ) (set : α → σ → α) (start : α)
    (ps : List Param) : Except Refusal α :=
  ps.foldlM (fun a p => (check p).map (set a)) start

inductive MailKeyword where
  | size
  | body
  | smtpUtf8
  | requireTls
  | ret
  | envid
  deriving DecidableEq

namespace MailKeyword

def text : MailKeyword → Text
  | size => "SIZE"
  | body => "BODY"
  | smtpUtf8 => "SMTPUTF8"
  | requireTls => "REQUIRETLS"
  | ret => "RET"
  | envid => "ENVID"

def ofText? (t : Text) : Option MailKeyword :=
  [size, body, smtpUtf8, requireTls, ret, envid].find? (·.text = t)

end MailKeyword

inductive MailSetting where
  | size (n : Nat)
  | body (type : BodyType)
  | smtpUtf8
  | requireTls
  | ret (content : ReturnContent)
  | envid (id : Text)
  | extra (p : Param)
  deriving DecidableEq

namespace MailSetting

def largestSize : Nat := Nat.pow 2 53 - 1

/-- The size that a number stands for. Larger ones are not exact, as others are rounded to them. -/
def sizeOf? : Number → Option Nat
  | .whole (.ofNat n) => if n ≤ largestSize then some n else none
  | _ => none

/-- Digits are read as one number, however many there are. -/
def parseSize (o : EnvelopeOptions) : Option Text → Except Refusal Nat
  | none => .error .invalidSize
  | some value =>
    if value = [] ∨ !value.all CharClass.digit then .error .invalidSize
    else
      match sizeOf? (Number.ofDigits 10 false value) with
      | none => .error .invalidSize
      | some n =>
        if o.hideSize = false ∧ o.maxSize ≠ 0 ∧ o.maxSize < n then
          .error (.messageTooLarge o.maxSize)
        else .ok n

def parseEnvid : Option Text → Except Refusal Text
  | none => .error .missingEnvid
  | some value =>
    match Xtext.rule.parse? value with
    | none => .error .invalidEnvid
    | some id => .ok (Xtext.decode id)

def flag (value : Option Text) (refusal : Refusal) (setting : MailSetting) :
    Except Refusal MailSetting :=
  if value.isSome then .error refusal else .ok setting

def ofParam (o : EnvelopeOptions) (p : Param) : Except Refusal MailSetting :=
  match MailKeyword.ofText? p.keyword with
  | some .size => (parseSize o p.value).map .size
  | some .body => (BodyType.parse p.value).map .body
  | some .smtpUtf8 =>
    if o.hideSmtpUtf8 then .error .smtpUtf8Unsupported
    else flag p.value .smtpUtf8TakesNoValue .smtpUtf8
  | some .requireTls => flag p.value .requireTlsTakesNoValue .requireTls
  | some .ret => if o.hideDsn then .ok (.extra p) else (ReturnContent.parse p.value).map .ret
  | some .envid => if o.hideDsn then .ok (.extra p) else (parseEnvid p.value).map .envid
  | none => .ok (.extra p)

end MailSetting

/-- What the parameters of MAIL FROM ask for; `extra` holds those that are not interpreted. -/
structure MailParameters where
  size : Option Nat := none
  bodyType : BodyType := .sevenBit
  smtpUtf8 : Bool := false
  requireTls : Bool := false
  ret : Option ReturnContent := none
  envid : Option Text := none
  extra : List Param := []
  deriving DecidableEq

namespace MailParameters

def set (m : MailParameters) : MailSetting → MailParameters
  | .size n => { m with size := some n }
  | .body type => { m with bodyType := type }
  | .smtpUtf8 => { m with smtpUtf8 := true }
  | .requireTls => { m with requireTls := true }
  | .ret content => { m with ret := some content }
  | .envid id => { m with envid := some id }
  | .extra p => { m with extra := m.extra ++ [p] }

def ofParams (o : EnvelopeOptions) : List Param → Except Refusal MailParameters :=
  Param.interpret (MailSetting.ofParam o) set {}

end MailParameters

inductive RcptKeyword where
  | notify
  | orcpt
  deriving DecidableEq

namespace RcptKeyword

def text : RcptKeyword → Text
  | notify => "NOTIFY"
  | orcpt => "ORCPT"

def ofText? (t : Text) : Option RcptKeyword := [notify, orcpt].find? (·.text = t)

end RcptKeyword

inductive RcptSetting where
  | notify (values : List NotifyValue)
  | orcpt (recipient : Orcpt)
  | extra (p : Param)
  deriving DecidableEq

namespace RcptSetting

def parseOrcpt (value : Option Text) : Except Refusal Orcpt :=
  Refusal.invalidOrcpt.ifNone (value.bind Orcpt.parse?)

/-- A NOTIFY without a value is refused as one with an empty value. -/
def ofParam (o : EnvelopeOptions) (p : Param) : Except Refusal RcptSetting :=
  match RcptKeyword.ofText? p.keyword with
  | some .notify =>
    if o.hideDsn then .ok (.extra p) else (NotifyValue.parseList (p.value.getD [])).map .notify
  | some .orcpt => if o.hideDsn then .ok (.extra p) else (parseOrcpt p.value).map .orcpt
  | none => .ok (.extra p)

end RcptSetting

structure RcptParameters where
  notify : Option (List NotifyValue) := none
  orcpt : Option Orcpt := none
  extra : List Param := []
  deriving DecidableEq

namespace RcptParameters

def set (r : RcptParameters) : RcptSetting → RcptParameters
  | .notify values => { r with notify := some values }
  | .orcpt recipient => { r with orcpt := some recipient }
  | .extra p => { r with extra := r.extra ++ [p] }

def ofParams (o : EnvelopeOptions) : List Param → Except Refusal RcptParameters :=
  Param.interpret (RcptSetting.ofParam o) set {}

end RcptParameters
end MailEnvelope
