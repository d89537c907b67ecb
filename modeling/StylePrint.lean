import StylePrint.Text.Base64
import StylePrint.Text.Blank
import StylePrint.Text.Percent
import StylePrint.Text.Units
import StylePrint.Text.Utf8
import StylePrint.UrlPath
import StylePrint.Json.Basic
import StylePrint.Json.Numeral
import StylePrint.Json.Printer
import StylePrint.Json.Record
import StylePrint.Json.Shortest
import StylePrint.Json.Token
import StylePrint.Json.Written
import StylePrint.SourceMap.DataUri
import StylePrint.SourceMap.Draft
import StylePrint.SourceMap.Error
import StylePrint.SourceMap.Index
import StylePrint.SourceMap.LinkComment
import StylePrint.SourceMap.Linked
import StylePrint.SourceMap.Mapping
import StylePrint.SourceMap.Raw
import StylePrint.SourceMap.Reading
import StylePrint.SourceMap.Segments
import StylePrint.SourceMap.Vlq
import StylePrint.Sheet.Canonical
import StylePrint.Sheet.Decode
import StylePrint.Sheet.Node
import StylePrint.Layout.Basic
import StylePrint.Layout.Compact
import StylePrint.Layout.Readable
import StylePrint.Layout.Step
import StylePrint.Options
import StylePrint.Config
import StylePrint.Tracker
import StylePrint.Printer
import StylePrint.Session
import StylePrint.CommandLine.Act
import StylePrint.CommandLine.Arguments
import StylePrint.CommandLine.Run
import StylePrint.Main
import StylePrint.Proofs.Outcome
import StylePrint.Proofs.Lookup
import StylePrint.Proofs.Separated
import StylePrint.Proofs.Text.Base64
import StylePrint.Proofs.Text.Percent
import StylePrint.Proofs.Text.Utf8
import StylePrint.Proofs.UrlPath.Address
import StylePrint.Proofs.UrlPath.Beside
import StylePrint.Proofs.UrlPath.Join
import StylePrint.Proofs.UrlPath.Location
import StylePrint.Proofs.UrlPath.Normal
import StylePrint.Proofs.UrlPath.Walk
import StylePrint.Proofs.Json.Ascending
import StylePrint.Proofs.Json.Float
import StylePrint.Proofs.Json.Injective
import StylePrint.Proofs.Json.Integer
import StylePrint.Proofs.Json.Lexeme
import StylePrint.Proofs.Json.Parsed
import StylePrint.Proofs.Json.Record
import StylePrint.Proofs.Json.Respelling
import StylePrint.Proofs.Json.Rounding
import StylePrint.Proofs.Json.Scan
import StylePrint.Proofs.Json.Tree
import StylePrint.Proofs.Caret
import StylePrint.Proofs.SourceMap.Annotation
import StylePrint.Proofs.SourceMap.Carriers
import StylePrint.Proofs.SourceMap.Chaining
import StylePrint.Proofs.SourceMap.Contents
import StylePrint.Proofs.SourceMap.DataText
import StylePrint.Proofs.SourceMap.LinkComment
import StylePrint.Proofs.SourceMap.Linked
import StylePrint.Proofs.SourceMap.Lookup
import StylePrint.Proofs.SourceMap.Nearest
import StylePrint.Proofs.SourceMap.Needed
import StylePrint.Proofs.SourceMap.Order
import StylePrint.Proofs.SourceMap.RawMembers
import StylePrint.Proofs.SourceMap.Reachable
import StylePrint.Proofs.SourceMap.Reading
import StylePrint.Proofs.SourceMap.Remote
import StylePrint.Proofs.SourceMap.Reread
import StylePrint.Proofs.SourceMap.RoundTrip
import StylePrint.Proofs.SourceMap.Scan
import StylePrint.Proofs.SourceMap.Spelling
import StylePrint.Proofs.SourceMap.Tables
import StylePrint.Proofs.SourceMap.Vlq
import StylePrint.Proofs.Sheet.Fields
import StylePrint.Proofs.Sheet.Identity
import StylePrint.Proofs.Sheet.RoundTrip
import StylePrint.Proofs.Sheet.Settled
import StylePrint.Proofs.Sheet.Spelling
import StylePrint.Proofs.Printing.Deletion
import StylePrint.Proofs.Printing.Files
import StylePrint.Proofs.Printing.Finishing
import StylePrint.Proofs.Printing.Fragments
import StylePrint.Proofs.Printing.Heading
import StylePrint.Proofs.Printing.InputMaps
import StylePrint.Proofs.Printing.Landing
import StylePrint.Proofs.Printing.Mark
import StylePrint.Proofs.Printing.Outline
import StylePrint.Proofs.Printing.Piece
import StylePrint.Proofs.Printing.Refusal
import StylePrint.Proofs.Printing.Rendering
import StylePrint.Proofs.Printing.Sightings
import StylePrint.Proofs.Printing.Spacing
import StylePrint.Proofs.Options
import StylePrint.Proofs.Options.Order
import StylePrint.Proofs.Config.Agreement
import StylePrint.Proofs.Config.Lines
import StylePrint.Proofs.Config.Literals
import StylePrint.Proofs.Config.Written
import StylePrint.Proofs.Session.Accuracy
import StylePrint.Proofs.Session.Counting
import StylePrint.Proofs.Session.Dropping
import StylePrint.Proofs.Session.History
import StylePrint.Proofs.Session.Printing
import StylePrint.Proofs.Session.Reads
import StylePrint.Proofs.Session.Sources
import StylePrint.Proofs.Session.Tracking
import StylePrint.Proofs.CommandLine.Beside
import StylePrint.Proofs.CommandLine.Disk
import StylePrint.Proofs.CommandLine.Failure
import StylePrint.Proofs.CommandLine.FileSystem
import StylePrint.Proofs.CommandLine.Folder
import StylePrint.Proofs.CommandLine.Inline
