import ToolScript.Text.Blank
import ToolScript.Text.Letter
import ToolScript.Text.Size
import ToolScript.Text.Pattern
import ToolScript.Text.Key
import ToolScript.Data.Dict
import ToolScript.Number.Numeral
import ToolScript.Number.Layout
import ToolScript.Json.Reader
import ToolScript.Json.Printer
import ToolScript.Json.Record
import ToolScript.Tool.Coerce
import ToolScript.Script.Diagnostic
import ToolScript.Markup.TurnId
import ToolScript.Markup.Block
import ToolScript.Stream.Script
import ToolScript.Stream.Element
import ToolScript.Stream.Aside
import ToolScript.Stream.Stage
import ToolScript.Security.Verdict
import ToolScript.Security.Gate
import ToolScript.Tool.Catalog
import ToolScript.Tool.Bridge
import ToolScript.Settings
import ToolScript.Prompt.Usage
import ToolScript.Prompt.Describe
import ToolScript.Dispatch.Dispatcher
import ToolScript.Proofs.Text.Search
import ToolScript.Proofs.Text.Spelling
import ToolScript.Proofs.Markup.Tags
import ToolScript.Proofs.Stream.Hiding
import ToolScript.Proofs.Markup.Decomposition
import ToolScript.Proofs.Stream.Scripts
import ToolScript.Proofs.Dispatch.Handling
import ToolScript.Proofs.Text.NormalKey
import ToolScript.Proofs.Tool.Registration
import ToolScript.Proofs.Dispatch.Gating
import ToolScript.Proofs.Script.Grammar
import ToolScript.Proofs.Script.Lexing
import ToolScript.Proofs.Number.Digits
import ToolScript.Proofs.Script.Writing
import ToolScript.Proofs.Dispatch.Independence
import ToolScript.Proofs.Stream.Blocks
import ToolScript.Proofs.Stream.Buffer
import ToolScript.Proofs.Stream.Elements
import ToolScript.Proofs.Stream.Asides
import ToolScript.Proofs.Stream.Replies
import ToolScript.Proofs.Markup.TurnId
import ToolScript.Proofs.Security.Handshake
import ToolScript.Proofs.Tool.Offers
import ToolScript.Proofs.Tool.History
import ToolScript.Proofs.Markup.Stripping
import ToolScript.Proofs.Json.Numbers
import ToolScript.Proofs.Json.Scanning
import ToolScript.Proofs.Json.RoundTrip
import ToolScript.Proofs.Json.Record
import ToolScript.Proofs.Settings
import ToolScript.Proofs.Script.Numbers
import ToolScript.Proofs.Script.Partition
import ToolScript.Proofs.Markup.Deletion
import ToolScript.Proofs.Markup.Generations
import ToolScript.Proofs.Script.Refusal
import ToolScript.Proofs.Script.Bindings
import ToolScript.Proofs.Script.Running
import ToolScript.Proofs.Script.Diagnostics
import ToolScript.Proofs.Text.Paths
import ToolScript.Proofs.Tool.Arguments
import ToolScript.Proofs.Tool.Overrides
import ToolScript.Proofs.Dispatch.Routing
import ToolScript.Proofs.Dispatch.Naming
import ToolScript.Proofs.Tool.Renaming
import ToolScript.Proofs.Number.Rounding
import ToolScript.Proofs.Json.Opening
import ToolScript.Proofs.Tool.Conversion
import ToolScript.Proofs.Dispatch.Logs
import ToolScript.Proofs.Tool.Keys
import ToolScript.Proofs.Dispatch.Advertising
import ToolScript.Proofs.Prompt.Rendering
import ToolScript.Proofs.Json.Fields
import ToolScript.Proofs.Tool.WellFormed
import ToolScript.Proofs.Security.Switches
import ToolScript.Proofs.Json.Values
import ToolScript.Proofs.Tool.Encoding
import ToolScript.Proofs.Script.Literals
import ToolScript.Proofs.Text.Names
import ToolScript.Proofs.Security.Validation
