import Galley.Main
import Galley.Proofs.Paragraph.Instruction
import Galley.Proofs.Paragraph.Trim
import Galley.Proofs.Paragraph.GreedyLine
import Galley.Proofs.Paragraph.Conservation
import Galley.Proofs.Paragraph.Growth
import Galley.Proofs.Paragraph.Search
import Galley.Proofs.Paragraph.BreakLines
import Galley.Proofs.Paragraph.Optimality
import Galley.Proofs.Paragraph.Attempts
import Galley.Proofs.Paragraph.GreedyAhead
import Galley.Proofs.Paragraph.Charges
import Galley.Proofs.Paragraph.LineStarts
import Galley.Proofs.Paragraph.LineEnds
import Galley.Proofs.Paragraph.SoftLine
import Galley.Proofs.Paragraph.FreshLine
import Galley.Proofs.Paragraph.Nesting
import Galley.Proofs.Paragraph.Typesetting
import Galley.Proofs.Drawing.Filler
import Galley.Proofs.Drawing.Replay
import Galley.Proofs.Drawing.TextObject
import Galley.Proofs.Paragraph.Yields
import Galley.Proofs.Paragraph.Batches
import Galley.Proofs.Drawing.Advance
import Galley.Proofs.Drawing.SamePage
import Galley.Proofs.Flow
import Galley.Proofs.Paragraph.Failure
import Galley.Proofs.Drawing.Plotter
import Galley.Proofs.Paragraph.Measured
import Galley.Proofs.Drawing.Placement
import Galley.Proofs.Drawing.Justified
import Galley.Proofs.Drawing.LinkSpans
import Galley.Proofs.Drawing.Links
import Galley.Proofs.Markup.Grammar
import Galley.Proofs.Markup.Scanning
import Galley.Proofs.Markup.Acceptance
import Galley.Proofs.Markup.Printing
import Galley.Proofs.Markup.Progress
import Galley.Proofs.Markup.Appending
import Galley.Proofs.Markup.Places
import Galley.Proofs.Paragraph.Sessions
import Galley.Proofs.Paragraph.TrailingSpace
import Galley.Proofs.Paragraph.TextLines
import Galley.Proofs.Paragraph.Tokenwise
import Galley.Proofs.Paragraph.Pieces
import Galley.Proofs.Paragraph.TagBalance
import Galley.Proofs.Paragraph.KeptText
import Galley.Proofs.Paragraph.Appending
import Galley.Proofs.Paragraph.LastRead
import Galley.Proofs.Appending
import Galley.Proofs.LayoutFailure
import Galley.Proofs.LineStarts
import Galley.Proofs.Pdf.Bytes
import Galley.Proofs.Pdf.FileReading
import Galley.Proofs.Pdf.FontResources
import Galley.Proofs.Pdf.Linked
import Galley.Proofs.Pdf.ShowOperator
import Galley.Proofs.Pdf.ToUnicode
import Galley.Proofs.Pdf.Anchors
import Galley.Proofs.Columns
import Galley.Proofs.Drawing.ShowCalls
import Galley.Proofs.Font.Encoding
import Galley.Proofs.Decimal.Rounding
import Galley.Proofs.Drawing.PrintedMoves
import Galley.Proofs.Markup.Segments
import Galley.Proofs.Style.Chains
import Galley.Proofs.Style.Dimensions
import Galley.Proofs.Style.Aliases
import Galley.Proofs.Font.Widths
import Galley.Proofs.Paragraph.KeptLinks
import Galley.Proofs.Paragraph.Indents
import Galley.Proofs.Stream
import Galley.Proofs.Drawing.LinkExtent
import Galley.Proofs.Pdf.Literal
import Galley.Proofs.Pdf.Names
import Galley.Proofs.Pdf.Terms
import Galley.Proofs.Style.Loading
