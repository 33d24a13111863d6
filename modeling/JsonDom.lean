import JsonDom.Model.Parser
import JsonDom.Model.Print
import JsonDom.Doc.Value
import JsonDom.Doc.Errors
import JsonDom.Doc.Location
import JsonDom.Doc.Root
import JsonDom.Doc.Layout
import JsonDom.Doc.Member
import JsonDom.Doc.WellFormed
import JsonDom.Doc.RoundTrip
import JsonDom.Doc.Reformat
import JsonDom.Doc.Fidelity
import JsonDom.Doc.Language
import JsonDom.Doc.Prefix
import JsonDom.Doc.Held
import JsonDom.Doc.Session
import JsonDom.Doc.Edit
import JsonDom.Doc.Build
import JsonDom.Doc.Cost
import JsonDom.Doc.Viewer
import JsonDom.Doc.Access
import JsonDom.Doc.TestBasic
import JsonDom.Proof.Framing
import JsonDom.Doc.Numbers
import JsonDom.Doc.Lexeme
import JsonDom.Doc.Stringify
import JsonDom.Doc.NullProperty
import JsonDom.Doc.Payload
import JsonDom.Doc.Converters
import JsonDom.Doc.Forest
import JsonDom.Doc.Parent
import JsonDom.Doc.Destroy
import JsonDom.Doc.Balance
import JsonDom.Doc.CharBag
import JsonDom.Doc.Exhaustion
import JsonDom.Doc.NulByte
