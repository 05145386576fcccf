import MailEnvelope.Mailbox

namespace MailEnvelope

/-- Where a message comes from; the null path is that of a bounce. -/
inductive ReversePath where
  | null
  | mailbox (mailbox : Mailbox)
  deriving DecidableEq

/-- Where a message goes to; the postmaster of the server itself needs no domain. -/
inductive ForwardPath where
  | postmaster
  | mailbox (mailbox : Mailbox)
  deriving DecidableEq

/-- A parameter as it was sent. No value and an empty one are different things. -/
structure Param where
  name : Text
  value : Option Text
  deriving DecidableEq

structure MailCommand where
  reversePath : ReversePath
  params : List Param
  deriving DecidableEq

structure RcptCommand where
  forwardPath : ForwardPath
  params : List Param
  deriving DecidableEq

namespace Path

def sourceRoute : Rule (List Text) :=
  .separatedBy (.before (.text "@") DomainName.rule) (.text ",")

/-- A source route must be well formed, but is not part of the value. -/
def rule : Rule Mailbox :=
  .between (.text "<")
    (.before (.optional (.followedBy sourceRoute (.text ":"))) Mailbox.rule)
    (.text ">")

def render (m : Mailbox) : Text := Text.ofString "<" ++ m.render ++ Text.ofString ">"

end Path

namespace ReversePath

def rule : Rule ReversePath :=
  .orElse (.map (fun _ => .null) (.text "<>")) (.map .mailbox Path.rule)

def render : ReversePath → Text
  | .null => "<>"
  | .mailbox m => Path.render m

def mailbox? : ReversePath → Option Mailbox
  | .null => none
  | .mailbox m => some m

def address : ReversePath → Text
  | .null => []
  | .mailbox m => m.render

end ReversePath

namespace ForwardPath

def rule : Rule ForwardPath :=
  .orElse (.map (fun _ => .postmaster) (.textAnyCase "<postmaster>")) (.map .mailbox Path.rule)

def render : ForwardPath → Text
  | .postmaster => "<postmaster>"
  | .mailbox m => Path.render m

def mailbox? : ForwardPath → Option Mailbox
  | .postmaster => none
  | .mailbox m => some m

def address : ForwardPath → Text
  | .postmaster => "postmaster"
  | .mailbox m => m.render

end ForwardPath

namespace Param

def nameRule : Rule Text := .spanOne .letterOrDigit

def valueRule : Rule Text := .spanOne .paramValue

def rule : Rule Param :=
  .map (fun (name, value) => ⟨name, value⟩)
    (.both nameRule (.optional (.before (.text "=") valueRule)))

def blanks : Rule Text := .spanOne .blank

def listRule : Rule (List Param) := .separatedBy rule blanks

/-- Reads a parameter list; the empty text is the empty list. -/
def parseList? (t : Text) : Option (List Param) :=
  Rule.parse? (.map (·.getD []) (.optional listRule)) t

def render (p : Param) : Text :=
  match p.value with
  | none => p.name
  | some value => p.name ++ Text.ofString "=" ++ value

def renderList (ps : List Param) : Text := List.intercalate " " (ps.map render)

/-- Keywords are compared in upper case. -/
def keyword (p : Param) : Text := p.name.upper

/-- Parameters after a path, with one space before them. -/
def suffix : Rule (List Param) :=
  .map (·.getD []) (.optional (.before (.text " ") listRule))

end Param

namespace MailCommand

def rule : Rule MailCommand :=
  .map (fun (reversePath, params) => ⟨reversePath, params⟩)
    (.both (.before (.textAnyCase "MAIL FROM:") ReversePath.rule) Param.suffix)

/-- Reads a command line without its line end. -/
def parse? (line : Text) : Option MailCommand := rule.parse? line

end MailCommand

namespace RcptCommand

def rule : Rule RcptCommand :=
  .map (fun (forwardPath, params) => ⟨forwardPath, params⟩)
    (.both (.before (.textAnyCase "RCPT TO:") ForwardPath.rule) Param.suffix)

def parse? (line : Text) : Option RcptCommand := rule.parse? line

end RcptCommand
end MailEnvelope
