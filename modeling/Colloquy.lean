import Colloquy.Catalog
import Colloquy.Code.Decode
import Colloquy.Code.Listing
import Colloquy.Code.Opcode
import Colloquy.Code.Script
import Colloquy.Compiler.Assembly
import Colloquy.Compiler.Compile
import Colloquy.Compiler.Lowering
import Colloquy.Compiler.Typing
import Colloquy.Console.Command
import Colloquy.Console.Game
import Colloquy.Console.Options
import Colloquy.Console.Screen
import Colloquy.Console.Typed
import Colloquy.Diagnostic
import Colloquy.Event
import Colloquy.Host.Basic
import Colloquy.Host.Table
import Colloquy.Json.Basic
import Colloquy.Json.Printer
import Colloquy.Json.Reader
import Colloquy.Json.Record
import Colloquy.Main
import Colloquy.Number.Parts
import Colloquy.Number.Printed
import Colloquy.Number.Read
import Colloquy.Number.Remainder
import Colloquy.Number.Shortest
import Colloquy.Parser.Basic
import Colloquy.Parser.Expr
import Colloquy.Parser.Line
import Colloquy.Parser.Story
import Colloquy.Pool
import Colloquy.Proofs.Assembly.Edit
import Colloquy.Proofs.Assembly.Literals
import Colloquy.Proofs.Assembly.Resolved
import Colloquy.Proofs.Catalog
import Colloquy.Proofs.Code.Beyond
import Colloquy.Proofs.Code.Depth
import Colloquy.Proofs.Code.Reloaded
import Colloquy.Proofs.Code.Rendered
import Colloquy.Proofs.Code.Stored
import Colloquy.Proofs.Code.Tiles
import Colloquy.Proofs.Code.Untrusted
import Colloquy.Proofs.Console.Printed
import Colloquy.Proofs.Diagnostic.Flow
import Colloquy.Proofs.Diagnostic.Lowered
import Colloquy.Proofs.Diagnostic.Parsed
import Colloquy.Proofs.Diagnostic.Record
import Colloquy.Proofs.Diagnostic.Scanned
import Colloquy.Proofs.Diagnostic.Sections
import Colloquy.Proofs.Diagnostic.Stays
import Colloquy.Proofs.Json.Number
import Colloquy.Proofs.Json.RoundTrip
import Colloquy.Proofs.Layout.Draft
import Colloquy.Proofs.Layout.Expr
import Colloquy.Proofs.Layout.Flat
import Colloquy.Proofs.Layout.Item
import Colloquy.Proofs.Layout.Label
import Colloquy.Proofs.Layout.Live
import Colloquy.Proofs.Layout.Lowered
import Colloquy.Proofs.Layout.Node
import Colloquy.Proofs.Layout.Part
import Colloquy.Proofs.Layout.Pools
import Colloquy.Proofs.Layout.Spots
import Colloquy.Proofs.Layout.Statement
import Colloquy.Proofs.Layout.Story
import Colloquy.Proofs.Layout.Table
import Colloquy.Proofs.Layout.Unused
import Colloquy.Proofs.Layout.Walk
import Colloquy.Proofs.Layout.WellFormed
import Colloquy.Proofs.Layout.Word
import Colloquy.Proofs.Number.Shortest
import Colloquy.Proofs.Parser.Abreast
import Colloquy.Proofs.Parser.Blind
import Colloquy.Proofs.Parser.Expr
import Colloquy.Proofs.Parser.Implicit
import Colloquy.Proofs.Parser.Laid
import Colloquy.Proofs.Parser.Nested
import Colloquy.Proofs.Parser.Progress
import Colloquy.Proofs.Parser.Recovery
import Colloquy.Proofs.Parser.Reparse
import Colloquy.Proofs.Parser.Story
import Colloquy.Proofs.Parser.Strata
import Colloquy.Proofs.Parser.Total
import Colloquy.Proofs.Parser.Yield
import Colloquy.Proofs.Pool
import Colloquy.Proofs.Readback.Clause
import Colloquy.Proofs.Readback.Exact
import Colloquy.Proofs.Readback.Floats
import Colloquy.Proofs.Readback.Placement
import Colloquy.Proofs.Readback.Still
import Colloquy.Proofs.Readback.Story
import Colloquy.Proofs.Readback.Term
import Colloquy.Proofs.Registry.Named
import Colloquy.Proofs.Registry.RoundTrip
import Colloquy.Proofs.Session.Execution
import Colloquy.Proofs.Session.Faults
import Colloquy.Proofs.Session.Grammar
import Colloquy.Proofs.Session.Guaranteed
import Colloquy.Proofs.Session.Halting
import Colloquy.Proofs.Session.History
import Colloquy.Proofs.Session.Jump
import Colloquy.Proofs.Session.Menu
import Colloquy.Proofs.Session.Noted
import Colloquy.Proofs.Session.Offer
import Colloquy.Proofs.Session.Once
import Colloquy.Proofs.Session.Onward
import Colloquy.Proofs.Session.Pairing
import Colloquy.Proofs.Session.Placed
import Colloquy.Proofs.Session.Recycled
import Colloquy.Proofs.Session.Refused
import Colloquy.Proofs.Session.Replay
import Colloquy.Proofs.Session.Restart
import Colloquy.Proofs.Session.Trail
import Colloquy.Proofs.Session.Transparent
import Colloquy.Proofs.Session.Turn
import Colloquy.Proofs.Session.Unreached
import Colloquy.Proofs.Soundness.Arity
import Colloquy.Proofs.Soundness.Expr
import Colloquy.Proofs.Soundness.Host
import Colloquy.Proofs.Soundness.Inline
import Colloquy.Proofs.Soundness.Playthrough
import Colloquy.Proofs.Soundness.Rules
import Colloquy.Proofs.Soundness.Safe
import Colloquy.Proofs.Soundness.Statement
import Colloquy.Proofs.Source.Column
import Colloquy.Proofs.Source.Position
import Colloquy.Proofs.Story.Chart
import Colloquy.Proofs.Story.Nested
import Colloquy.Proofs.Telling.Basic
import Colloquy.Proofs.Telling.Code
import Colloquy.Proofs.Telling.Expr
import Colloquy.Proofs.Telling.Faithful
import Colloquy.Proofs.Telling.Follow
import Colloquy.Proofs.Telling.Item
import Colloquy.Proofs.Telling.Line
import Colloquy.Proofs.Telling.Play
import Colloquy.Proofs.Telling.Statement
import Colloquy.Proofs.Text.Digits
import Colloquy.Proofs.Timeline.Deleted
import Colloquy.Proofs.Timeline.Group
import Colloquy.Proofs.Timeline.Offset
import Colloquy.Proofs.Timeline.Place
import Colloquy.Proofs.Timeline.Revealed
import Colloquy.Proofs.Timeline.Typewriter
import Colloquy.Proofs.Token.Ended
import Colloquy.Proofs.Token.Escape
import Colloquy.Proofs.Token.Lines
import Colloquy.Proofs.Token.Partition
import Colloquy.Proofs.Token.Reach
import Colloquy.Proofs.Token.Speakers
import Colloquy.Proofs.Token.Spelling
import Colloquy.Proofs.Token.Stream
import Colloquy.Proofs.Token.Unsigned
import Colloquy.Registry
import Colloquy.Session.Basic
import Colloquy.Session.Eval
import Colloquy.Session.Fault
import Colloquy.Session.Perform
import Colloquy.Source.LineIndex
import Colloquy.Source.Span
import Colloquy.Story.Basic
import Colloquy.Story.Outline
import Colloquy.Story.Printer
import Colloquy.Text.Blank
import Colloquy.Text.Quoted
import Colloquy.Timeline.Cue
import Colloquy.Timeline.Markup
import Colloquy.Timeline.Typewriter
import Colloquy.Token.Basic
import Colloquy.Token.Scan
import Colloquy.Value
