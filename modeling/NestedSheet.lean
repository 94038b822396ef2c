import NestedSheet.Text.Basic
import NestedSheet.Text.Blank
import NestedSheet.Text.Word
import NestedSheet.Text.Decimal
import NestedSheet.Text.Quoted
import NestedSheet.Text.Span
import NestedSheet.Text.Percent
import NestedSheet.Selector.Basic
import NestedSheet.Selector.Parse
import NestedSheet.Selector.Resolve
import NestedSheet.Variables
import NestedSheet.Origin
import NestedSheet.Node.Basic
import NestedSheet.Node.Same
import NestedSheet.Node.Describe
import NestedSheet.Node.Draft
import NestedSheet.Node.Change
import NestedSheet.Options
import NestedSheet.Node.Unsupported
import NestedSheet.Flatten
import NestedSheet.Compile
import NestedSheet.Path
import NestedSheet.Location
import NestedSheet.Layout
import NestedSheet.Component.Basic
import NestedSheet.Component.Name
import NestedSheet.Component.Quoted
import NestedSheet.Component.Number
import NestedSheet.Component.Lexeme
import NestedSheet.Component.Nest
import NestedSheet.Component.Print
import NestedSheet.Component.Declaration
import NestedSheet.Source.Basic
import NestedSheet.Source.Comment
import NestedSheet.Source.Read
import NestedSheet.Css
import NestedSheet.Command.Arguments
import NestedSheet.Command.Disk
import NestedSheet.Command.Run
import NestedSheet.Main
import NestedSheet.Proofs.Passes
import NestedSheet.Proofs.Listing
import NestedSheet.Proofs.Composition
import NestedSheet.Proofs.Trim
import NestedSheet.Proofs.Shape
import NestedSheet.Proofs.Styles
import NestedSheet.Proofs.Positions
import NestedSheet.Proofs.Lexing
import NestedSheet.Proofs.Words
import NestedSheet.Proofs.Reading
import NestedSheet.Proofs.Spelling
import NestedSheet.Proofs.Declarations
import NestedSheet.Proofs.SelectorText
import NestedSheet.Proofs.Statements
import NestedSheet.Proofs.Content
import NestedSheet.Proofs.Chunks
import NestedSheet.Proofs.RoundTrip
import NestedSheet.Proofs.Quotation
import NestedSheet.Proofs.Markers
import NestedSheet.Proofs.References
import NestedSheet.Proofs.Faults
import NestedSheet.Proofs.Closed
import NestedSheet.Proofs.FixedPoint
import NestedSheet.Proofs.Concatenation
import NestedSheet.Proofs.Files
import NestedSheet.Proofs.Isolation
import NestedSheet.Proofs.Segments
import NestedSheet.Proofs.Lossless
import NestedSheet.Proofs.Canonical
import NestedSheet.Proofs.Clean
import NestedSheet.Proofs.Interpolation
import NestedSheet.Proofs.Origins
import NestedSheet.Proofs.Clauses
import NestedSheet.Proofs.Throughout
import NestedSheet.Proofs.Compressed
import NestedSheet.Proofs.Boundaries
import NestedSheet.Proofs.Numbers
import NestedSheet.Proofs.Scanning
import NestedSheet.Proofs.Lookahead
import NestedSheet.Proofs.Stretches
import NestedSheet.Proofs.Brackets
import NestedSheet.Proofs.Nesting
import NestedSheet.Proofs.Respacing
import NestedSheet.Proofs.Leaves
import NestedSheet.Proofs.Printing
import NestedSheet.Proofs.Neighbours
import NestedSheet.Proofs.Gathering
import NestedSheet.Proofs.Preludes
import NestedSheet.Proofs.Values
import NestedSheet.Proofs.Integers
import NestedSheet.Proofs.CrossProduct
import NestedSheet.Proofs.Regrouping
import NestedSheet.Proofs.Levels
import NestedSheet.Proofs.Indentation
import NestedSheet.Proofs.Groups
import NestedSheet.Proofs.Continuation
import NestedSheet.Proofs.Placement
import NestedSheet.Proofs.Identifiers
import NestedSheet.Proofs.Outcomes
import NestedSheet.Proofs.CommentNotes
import NestedSheet.Proofs.StructuredNotes
import NestedSheet.Proofs.LineNotes
import NestedSheet.Proofs.Pieces
import NestedSheet.Proofs.Endings
import NestedSheet.Proofs.Glimpses
import NestedSheet.Proofs.Exchanges
import NestedSheet.Proofs.Movement
import NestedSheet.Proofs.Insertion
import NestedSheet.Proofs.Verbatim
import NestedSheet.Proofs.Reprinting
import NestedSheet.Proofs.FinalSemicolon
import NestedSheet.Proofs.NormalForm
import NestedSheet.Proofs.Paths
import NestedSheet.Proofs.FileUris
