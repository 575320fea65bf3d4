import PathAttributes.Octets
import PathAttributes.Numeral
import PathAttributes.CodePoint
import PathAttributes.Ipv4
import PathAttributes.Flags
import PathAttributes.AsPath.Text
import PathAttributes.AsPath.Prepend
import PathAttributes.Attr.Descriptor
import PathAttributes.Attr.Wire
import PathAttributes.Attr.Order
import PathAttributes.AttrList.Hash
import PathAttributes.AttrList.Chain
import PathAttributes.AttrList.Decode
import PathAttributes.Notification
import PathAttributes.Json.Parser
import PathAttributes.Json.Printer
import PathAttributes.Form.Message
import PathAttributes.Form.Route
import PathAttributes.Route.Preference
import PathAttributes.Form.Gateway
import PathAttributes.Session.Log
import PathAttributes.Proofs.AttrList.Ascending
import PathAttributes.Proofs.Tlv.Sequence
import PathAttributes.Proofs.AsPath.Whole
import PathAttributes.Proofs.FlagBits
import PathAttributes.Proofs.Section.Value
import PathAttributes.Proofs.Section.Grammar
import PathAttributes.Proofs.Section.Offence
import PathAttributes.Proofs.Section.Reading
import PathAttributes.Proofs.Section.Acceptance
import PathAttributes.Proofs.Section.Rejection
import PathAttributes.Proofs.Section.Wire
import PathAttributes.Proofs.Section.Kept
import PathAttributes.Proofs.Section.RoundTrip
import PathAttributes.Proofs.Section.Reencoding
import PathAttributes.Proofs.AttrList.First
import PathAttributes.Proofs.IntSet.Canonical
import PathAttributes.Proofs.BucketTable.Canonical
import PathAttributes.Proofs.BucketTable.Linked
import PathAttributes.Proofs.BucketTable.Catalogue
import PathAttributes.Proofs.Route.Preference
import PathAttributes.Proofs.BucketTable.Identity
import PathAttributes.Proofs.AsPath.Extended
import PathAttributes.Proofs.Session.Export
import PathAttributes.Proofs.Session.Loop
import PathAttributes.Proofs.Session.Rewrite
import PathAttributes.Proofs.Session.Prescription
import PathAttributes.Proofs.Section.Delivery
import PathAttributes.Proofs.Session.Delivery
import PathAttributes.Proofs.Session.Grouping
import PathAttributes.Proofs.Route.Interning
import PathAttributes.Proofs.Session.Admission
import PathAttributes.Proofs.Session.Accounting
import PathAttributes.Proofs.AsPath.Dense
import PathAttributes.Proofs.AsPath.Reading
import PathAttributes.Proofs.Route.Selection
import PathAttributes.Proofs.Session.Reception
import PathAttributes.Proofs.AttrList.Union
import PathAttributes.Proofs.Session.Arising
import PathAttributes.Proofs.BucketTable.Growth
import PathAttributes.Proofs.Section.Rearrangement
import PathAttributes.Proofs.AttrList.Interchange
import PathAttributes.Proofs.Route.Roll
import PathAttributes.Proofs.Notification
import PathAttributes.Proofs.Section.Delimited
import PathAttributes.Proofs.AttrList.HashInput
import PathAttributes.Proofs.Route.Order
import PathAttributes.Proofs.AttrList.Searched
import PathAttributes.Proofs.Form.Exact
import PathAttributes.Proofs.Form.Unchecked
import PathAttributes.Proofs.Text.Words
import PathAttributes.Proofs.Json.Symbols
import PathAttributes.Proofs.Json.Nesting
import PathAttributes.Proofs.Form.Lawful
import PathAttributes.Proofs.Form.Lossless
