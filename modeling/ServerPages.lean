import ServerPages.Text.Basic
import ServerPages.Text.Blank
import ServerPages.Text.Lines
import ServerPages.Text.Encoding
import ServerPages.Text.Quoted
import ServerPages.Position
import ServerPages.Path
import ServerPages.Disk.Basic
import ServerPages.Fault
import ServerPages.Notice
import ServerPages.Log
import ServerPages.Options.Basic
import ServerPages.Input.Stack
import ServerPages.Input.Progress
import ServerPages.Input.Basic
import ServerPages.Markup.Attributes
import ServerPages.Markup.Element
import ServerPages.Markup.Recognition
import ServerPages.Markup.Progress
import ServerPages.Markup.Scan
import ServerPages.Code.Printer
import ServerPages.Code.BraceSyntax
import ServerPages.Code.Margin
import ServerPages.Code.Script
import ServerPages.Page.Settings
import ServerPages.Page.Fragment
import ServerPages.Page.Basic
import ServerPages.Page.Module
import ServerPages.Compile
import ServerPages.Disk.Tree
import ServerPages.Json
import ServerPages.Options.Json
import ServerPages.FaultJson
import ServerPages.Program.Arguments
import ServerPages.Program.Outcome
import ServerPages.Program.Snapshot
import ServerPages.Main
import ServerPages.Proofs.Input.Stack
import ServerPages.Proofs.Markup.Cut
import ServerPages.Proofs.Markup.AttributeList
import ServerPages.Proofs.Markup.Bindings
import ServerPages.Proofs.Input.Reach
import ServerPages.Proofs.Input.Address
import ServerPages.Proofs.Input.Session
import ServerPages.Proofs.Input.Conservation
import ServerPages.Proofs.Input.Position
import ServerPages.Proofs.Markup.Shape
import ServerPages.Proofs.Markup.Reading
import ServerPages.Proofs.Markup.Step
import ServerPages.Proofs.Markup.Lockstep
import ServerPages.Proofs.Markup.Record
import ServerPages.Proofs.Markup.Single
import ServerPages.Proofs.Markup.Inclusion
import ServerPages.Proofs.Markup.Coverage
import ServerPages.Proofs.Markup.Upkeep
import ServerPages.Proofs.Markup.Passage
import ServerPages.Proofs.Markup.Construct
import ServerPages.Proofs.Markup.Termination
import ServerPages.Proofs.Markup.Continuation
import ServerPages.Proofs.Markup.Extension
import ServerPages.Proofs.Markup.Tracking
import ServerPages.Proofs.Markup.Displacement
import ServerPages.Proofs.Code.Action
import ServerPages.Proofs.Code.Printer
import ServerPages.Proofs.Code.Margin
import ServerPages.Proofs.Page.Module
import ServerPages.Proofs.Code.Heading
import ServerPages.Proofs.Page.Fragment
import ServerPages.Proofs.Page.Body
import ServerPages.Proofs.Page.Tidy
import ServerPages.Proofs.Page.TextRuns
import ServerPages.Proofs.Page.Placement
import ServerPages.Proofs.Page.Level
import ServerPages.Proofs.Page.Verbatim
import ServerPages.Proofs.Page.Alike
import ServerPages.Proofs.Page.Tracking
import ServerPages.Proofs.Page.Parts
import ServerPages.Proofs.Page.Directive
import ServerPages.Proofs.Text.Breaks
import ServerPages.Proofs.Text.Lined
import ServerPages.Proofs.Text.Literal
import ServerPages.Proofs.Markup.BareValue
import ServerPages.Proofs.Code.Layout
import ServerPages.Proofs.Code.Weaving
import ServerPages.Proofs.Code.Statement
import ServerPages.Proofs.Code.BlockOpening
import ServerPages.Proofs.Page.Embedding
import ServerPages.Proofs.Input.Advance
import ServerPages.Proofs.Page.Acceptance
import ServerPages.Proofs.Markup.AttributeWalk
import ServerPages.Proofs.Code.StringScan
import ServerPages.Proofs.Page.OpenString
import ServerPages.Proofs.Input.LineNumbers
import ServerPages.Proofs.Page.MethodBody
import ServerPages.Proofs.Markup.Lookahead
import ServerPages.Proofs.Page.EndOfInput
