import QueryForm.Backend.Client
import QueryForm.Backend.Settings
import QueryForm.Canonical
import QueryForm.Document
import QueryForm.Double.Basic
import QueryForm.Double.Decimal
import QueryForm.Double.Rounding
import QueryForm.Double.Shortest
import QueryForm.Draft
import QueryForm.Edit.Basic
import QueryForm.Edit.Stored
import QueryForm.Fields
import QueryForm.Json.Basic
import QueryForm.Json.Literal
import QueryForm.Json.Nesting
import QueryForm.Json.Numeral
import QueryForm.Json.Quoted
import QueryForm.Json.Reader
import QueryForm.Json.Record
import QueryForm.Json.Surrogates
import QueryForm.Json.Tree
import QueryForm.Json.Writer
import QueryForm.Rule.Basic
import QueryForm.Rule.Stored
import QueryForm.Rule.Token
import QueryForm.Session
import QueryForm.Text.Blank
import QueryForm.Text.Digits
import QueryForm.Text.Percent
import QueryForm.Text.Units
import QueryForm.Value.Basic
import QueryForm.Value.Number
import QueryForm.Proofs.Draft
import QueryForm.Proofs.Json.Grammar
import QueryForm.Proofs.Json.Numeral
import QueryForm.Proofs.Json.Quoted
import QueryForm.Proofs.Json.Reader
import QueryForm.Proofs.Json.Nesting
import QueryForm.Proofs.Json.Surrogates
import QueryForm.Proofs.Json.Literal
import QueryForm.Proofs.Json.Writer
import QueryForm.Proofs.Text.Percent
import QueryForm.Proofs.Backend.Address
import QueryForm.Proofs.Double.Rounding
import QueryForm.Proofs.Value.Number
import QueryForm.Proofs.Canonical
import QueryForm.Proofs.Json.RoundTrip
import QueryForm.Proofs.Document
import QueryForm.Proofs.Session.Step
import QueryForm.Proofs.Session.Notices
import QueryForm.Proofs.Backend.Replies
import QueryForm.Proofs.Session.Identity
import QueryForm.Proofs.Draft.Chunks
import QueryForm.Proofs.Session.Disabled
import QueryForm.Proofs.Backend.Path
import QueryForm.Proofs.Double.Decimal
import QueryForm.Proofs.Double.Shortest
import QueryForm.Proofs.Canonical.Spelling
import QueryForm.Proofs.Canonical.Stable
import QueryForm.Proofs.Double.Nearest
import QueryForm.Proofs.Double.Hexadecimal
import QueryForm.Proofs.Value.Integer
import QueryForm.Proofs.Session.Seeds
import QueryForm.Proofs.Json.Record
import QueryForm.Proofs.Rule.Stored
import QueryForm.Proofs.Edit.Stored
import QueryForm.Proofs.Canonical.Place
import QueryForm.Proofs.Canonical.Scalar
import QueryForm.Proofs.Double.Overflow
import QueryForm.Proofs.Canonical.Vacant
import QueryForm.Proofs.Value.Decimal
import QueryForm.Proofs.Value.Whole
import QueryForm.Proofs.Json.Equality
import QueryForm.Proofs.Canonical.Equality
import QueryForm.Proofs.Edit.Settled
import QueryForm.Proofs.Json.Entry
import QueryForm.Proofs.Session.Independent
import QueryForm.Proofs.Document.Inserted
import QueryForm.Proofs.Json.Escapes
import QueryForm.Proofs.Json.Limit
import QueryForm.Proofs.Json.Guard
import QueryForm.Proofs.Text.Cut
import QueryForm.Proofs.Json.Bytewise
import QueryForm.Proofs.Value.Bytewise
