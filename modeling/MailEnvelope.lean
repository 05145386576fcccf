import MailEnvelope.FlatCommand
import MailEnvelope.Rule
import MailEnvelope.Proofs.Rule.Locality
import MailEnvelope.Proofs.Rule.Evaluation
import MailEnvelope.Proofs.Rule.Steps
import MailEnvelope.Proofs.Rule.Reads
import MailEnvelope.Proofs.Grammar.Basic
import MailEnvelope.Proofs.Rule.Repetition
import MailEnvelope.Proofs.Grammar.LocalPart
import MailEnvelope.Proofs.Grammar.Literal
import MailEnvelope.Proofs.Grammar.Mailbox
import MailEnvelope.Proofs.Grammar.Path
import MailEnvelope.Proofs.Grammar.Command
import MailEnvelope.Proofs.Number.Rounding
import MailEnvelope.Proofs.IpAddress.Groups
import MailEnvelope.Proofs.IpAddress.ZeroRun
import MailEnvelope.Proofs.IpAddress.Canonical
import MailEnvelope.Proofs.IpAddress.Quad
import MailEnvelope.Proofs.Grammar.WellFormed
import MailEnvelope.Proofs.Grammar.Echo
import MailEnvelope.Proofs.FlatCommand.Address
import MailEnvelope.Proofs.Parameters.Settings
import MailEnvelope.Proofs.Parameters.Composition
import MailEnvelope.Proofs.Grammar.Splice
import MailEnvelope.Proofs.Grammar.Printable
import MailEnvelope.Proofs.Printable
import MailEnvelope.Proofs.Parameters.Values
import MailEnvelope.Proofs.Xtext.Decode
import MailEnvelope.Proofs.FlatCommand.Args
import MailEnvelope.Proofs.FlatCommand.Meaning
import MailEnvelope.Proofs.Text.Unicode
import MailEnvelope.Proofs.Xtext.Encode
import MailEnvelope.Proofs.Parameters.Orcpt
import MailEnvelope.Proofs.Parameters.Identifier
import MailEnvelope.Proofs.IpAddress.Equality
import MailEnvelope.Proofs.IpAddress.CanonicalText
import MailEnvelope.Proofs.IpAddress.TooMany
import MailEnvelope.Proofs.Grammar.Brackets
import MailEnvelope.Proofs.Grammar.Forms
import MailEnvelope.Proofs.Grammar.Agreement
import MailEnvelope.Proofs.Xtext.Octets
import MailEnvelope.Proofs.Parameters.Size
import MailEnvelope.Proofs.Parameters.Extra
import MailEnvelope.Proofs.Grammar.ParamList
import MailEnvelope.Proofs.FlatCommand.Record
import MailEnvelope.Proofs.Rule.Closed
import MailEnvelope.Proofs.Grammar.Delimited
import MailEnvelope.Proofs.Parameters.Notify
import MailEnvelope.Proofs.Grammar.DomainName
import MailEnvelope.Proofs.Rule.Span
