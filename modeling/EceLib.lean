import EceLib.Support.Run
import EceLib.Support.Memory
import EceLib.Support.Words
import EceLib.Support.HexText
import EceLib.Support.Stream
import EceLib.Support.CText
import EceLib.Support.Chars
import EceLib.Support.Ownership
import EceLib.Support.AgeList
import EceLib.Support.Related
import EceLib.Support.Segments
import EceLib.Support.Heap
import EceLib.Support.Chain
import EceLib.Support.Precedence
import EceLib.HashMap.Table
import EceLib.HashMap.Registry
import EceLib.HashMap.Keys
import EceLib.HashMap.Counted
import EceLib.HashMap.Gained
import EceLib.HashMap.Refinement
import EceLib.HashMap.Nodes
import EceLib.HashMap.NodeRefinement
import EceLib.HashMap.Work
import EceLib.HashMap.Objects
import EceLib.HashMap.Values
import EceLib.HashMap.Held
import EceLib.Md5
import EceLib.Rule.Syntax
import EceLib.Rule.Create
import EceLib.Rule.Eval
import EceLib.Rule.Tokens
import EceLib.Rule.Accepted
import EceLib.Rule.Spelling
import EceLib.Rule.Assignments
import EceLib.Json.Value
import EceLib.Json.Print
import EceLib.Json.Parse
import EceLib.Json.RoundTrip
import EceLib.Json.Minify
import EceLib.Edge.State
import EceLib.Edge.Attr
import EceLib.Edge.Format
import EceLib.Edge.Product
import EceLib.Edge.Device
import EceLib.Edge.Message
import EceLib.Edge.Packet
import EceLib.Edge.Management
import EceLib.Edge.Processing
import EceLib.Edge.ReportPass
import EceLib.Edge.System
import EceLib.Edge.Accesses
import EceLib.Edge.Cli
import EceLib.Edge.Config
import EceLib.Edge.Tokens
import EceLib.Edge.TokenLayout
import EceLib.Edge.TokenTopics
import EceLib.Edge.References
import EceLib.Edge.TokenReferences
import EceLib.Edge.AttrReferences
import EceLib.Edge.TokenCalls
import EceLib.Edge.FormatUndo
import EceLib.Edge.Owners
import EceLib.Edge.DeviceIdentity
import EceLib.Edge.RecordFile
import EceLib.Edge.Ageing
import EceLib.Edge.Lengths
import EceLib.Edge.Payload
import EceLib.Edge.AddressLevels
import EceLib.Edge.PacketReads
import EceLib.Edge.LogLines
import EceLib.Edge.Storing
import EceLib.Edge.Rendering
import EceLib.Edge.Reports
import EceLib.Edge.DeviceAttrs
import EceLib.Edge.Decoding
import EceLib.Edge.StoredForms
import EceLib.Edge.ValueStore
import EceLib.Edge.RuleText
import EceLib.Edge.RuleVerdict
import EceLib.Edge.SendBounds
import EceLib.Edge.Status
import EceLib.Edge.KeepAlive
import EceLib.Edge.StaysOnline
import EceLib.Edge.Downlink
import EceLib.Edge.Isolation
import EceLib.Edge.Releases
import EceLib.Edge.ReportText
import EceLib.Server
import EceLib.Answer
import EceLib.PacketReport
import EceLib.Provisioning
import EceLib.MissingFormat
import EceLib.Protocol
import EceLib.Dispatch
import EceLib.Support.Stage
import EceLib.Cli.Words
import EceLib.Cli.Filters
import EceLib.Cli.Lookup
import EceLib.Cli.Abbreviations
import EceLib.Cli.CommandRun
import EceLib.Cli.Permission
import EceLib.Cli.Session
import EceLib.Cli.Editor
import EceLib.Support.Zipper
import EceLib.Cli.Draft
import EceLib.Cli.Completions
import EceLib.Cli.Console
import EceLib.Cli.EditorLimits
import EceLib.Cli.ChToHex
import EceLib.Cli.HexStrings
import EceLib.Cli.Commands
