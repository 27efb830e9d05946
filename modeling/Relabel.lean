import Relabel.Binding.Basic
import Relabel.Binding.Expression
import Relabel.Binding.Scan
import Relabel.Decimal.Double
import Relabel.Decimal.Shortest
import Relabel.Diagnostic
import Relabel.Discovery
import Relabel.Extraction
import Relabel.Fragment.Emission
import Relabel.Fragment.Externs
import Relabel.Fragment.Key
import Relabel.Fragment.Program
import Relabel.Fragment.Recorder
import Relabel.Json.Decode
import Relabel.Json.Reader
import Relabel.Json.Value
import Relabel.Markup.Location
import Relabel.Markup.Reader
import Relabel.Markup.Token
import Relabel.Markup.Tree
import Relabel.Options
import Relabel.Proofs.Binding.Names
import Relabel.Proofs.Binding.Standing
import Relabel.Proofs.Decimal.Whole
import Relabel.Proofs.Extraction.Apart
import Relabel.Proofs.Extraction.Bindings
import Relabel.Proofs.Extraction.Flow
import Relabel.Proofs.Extraction.Lookup
import Relabel.Proofs.Extraction.Members
import Relabel.Proofs.Extraction.Names
import Relabel.Proofs.Extraction.Offsets
import Relabel.Proofs.Extraction.Origin
import Relabel.Proofs.Extraction.Resolution
import Relabel.Proofs.Extraction.Scoping
import Relabel.Proofs.Extraction.Stacks
import Relabel.Proofs.Extraction.Templates
import Relabel.Proofs.Extraction.Visited
import Relabel.Proofs.Extraction.Walk
import Relabel.Proofs.Extraction.Walked
import Relabel.Proofs.Extraction.WellNamed
import Relabel.Proofs.Extraction.Within
import Relabel.Proofs.Fragment.Answers
import Relabel.Proofs.Fragment.Bindings
import Relabel.Proofs.Fragment.Lines
import Relabel.Proofs.Fragment.Loops
import Relabel.Proofs.Fragment.Phrases
import Relabel.Proofs.Fragment.Programs
import Relabel.Proofs.Fragment.Recordings
import Relabel.Proofs.Fragment.Renaming
import Relabel.Proofs.Fragment.Safety
import Relabel.Proofs.Fragment.Settled
import Relabel.Proofs.Fragment.Statements
import Relabel.Proofs.Fragment.Syntax
import Relabel.Proofs.Fragment.Texts
import Relabel.Proofs.Fragment.Values
import Relabel.Proofs.Fragment.Writable
import Relabel.Proofs.Markup.Accounts
import Relabel.Proofs.Markup.Building
import Relabel.Proofs.Markup.Carriers
import Relabel.Proofs.Markup.Closing
import Relabel.Proofs.Markup.Printing
import Relabel.Proofs.Markup.Raw
import Relabel.Proofs.Markup.Sketch
import Relabel.Proofs.Markup.Token
import Relabel.Proofs.Markup.Tree
import Relabel.Proofs.Recovery.Bases
import Relabel.Proofs.Recovery.Calls
import Relabel.Proofs.Recovery.Outcomes
import Relabel.Proofs.Recovery.Records
import Relabel.Proofs.Recovery.References
import Relabel.Proofs.Recovery.RoundTrip
import Relabel.Proofs.Recovery.Spelling
import Relabel.Proofs.Recovery.Unrenamed
import Relabel.Proofs.Replacement
import Relabel.Proofs.Script.Bare
import Relabel.Proofs.Script.Lexing
import Relabel.Proofs.Script.Literals
import Relabel.Proofs.Script.Numerals
import Relabel.Proofs.Script.Renamed
import Relabel.Proofs.Script.Stream
import Relabel.Proofs.SourceMap.Coding
import Relabel.Proofs.SourceMap.Edit
import Relabel.Proofs.SourceMap.Position
import Relabel.Proofs.SourceMap.Vlq
import Relabel.Proofs.Splice.Offsets
import Relabel.Proofs.Splice.Order
import Relabel.Proofs.Splice.Reference
import Relabel.Proofs.Splice.SourceMap
import Relabel.Proofs.Splice.Unchanged
import Relabel.Proofs.Text.Boundary
import Relabel.Proofs.Text.Spelling
import Relabel.Proofs.Text.Standing
import Relabel.Recovery
import Relabel.Removal
import Relabel.Renaming
import Relabel.Replacement
import Relabel.Schema
import Relabel.Scope
import Relabel.Script.Access
import Relabel.Script.Class
import Relabel.Script.Collection
import Relabel.Script.Cursor
import Relabel.Script.Export
import Relabel.Script.Function
import Relabel.Script.Gap
import Relabel.Script.Literal
import Relabel.Script.Module
import Relabel.Script.Name
import Relabel.Script.Numeral
import Relabel.Script.Operation
import Relabel.Script.Pattern
import Relabel.Script.Reader
import Relabel.Script.Rule
import Relabel.Script.Statement
import Relabel.Script.Token
import Relabel.Script.Tree
import Relabel.Source
import Relabel.SourceMap.Basic
import Relabel.SourceMap.Mappings
import Relabel.SourceMap.Position
import Relabel.SourceMap.Vlq
import Relabel.Splice
import Relabel.Text.Classes
import Relabel.Text.CodeSet
import Relabel.Text.Cut
import Relabel.Text.Digits
import Relabel.Text.Hex
import Relabel.Text.Letters
import Relabel.Text.Marks
import Relabel.Text.Piece
import Relabel.Text.Quoted
import Relabel.Text.Span
import Relabel.Text.Spelling
import Relabel.Text.Trim
import Relabel.Text.Uppercase
import Relabel.Usage
import Relabel.Proofs.Extraction.Readable
import Relabel.Proofs.Removal.Appended
import Relabel.Proofs.Removal.Fragments
import Relabel.Proofs.Splice.Permuted
import Relabel.Proofs.Binding.Arguments
import Relabel.Proofs.Binding.Reference
import Relabel.Proofs.Extraction.Disjoint
import Relabel.Proofs.Extraction.Warnings
import Relabel.Proofs.Removal.Extracted
import Relabel.Proofs.SourceMap.Groups
import Relabel.Proofs.Splice.Exact
import Relabel.Proofs.Binding.Literals
import Relabel.Proofs.Removal.Outermost
import Relabel.Proofs.Extraction.Rescoping
import Relabel.Proofs.Scope.Chain
import Relabel.Proofs.SourceMap.Collisions
import Relabel.Proofs.SourceMap.Delimiting
import Relabel.Proofs.SourceMap.Checked
import Relabel.Proofs.SourceMap.Wrapping
