import JavaTree.Main
import JavaTree.Node
import JavaTree.Proofs.Parser.Capture
import JavaTree.Proofs.Parser.Initializer
import JavaTree.Proofs.Parser.Blocks
import JavaTree.Proofs.Parser.Bodies
import JavaTree.Proofs.Alike
import JavaTree.Proofs.Grammar
import JavaTree.Proofs.Lines
import JavaTree.Proofs.Reread.Members
import JavaTree.Proofs.Reread.Units
import JavaTree.Proofs.Summary.TypeText
import JavaTree.Proofs.Token.Munch
import JavaTree.Proofs.Token.Quoting
import JavaTree.Proofs.Token.Rendered
import JavaTree.Proofs.Token.Spacing
import JavaTree.Proofs.Written.Parts
import JavaTree.Proofs.Written.Statements
import JavaTree.Proofs.Written.Units
import JavaTree.Proofs.Parser.Excerpts
import JavaTree.Proofs.Parser.Progress
import JavaTree.Proofs.Parser.Descent
import JavaTree.Proofs.Formatting
import JavaTree.Proofs.Summary.Skeleton
import JavaTree.Proofs.Summary.Document
import JavaTree.Proofs.Summary.Layouts
import JavaTree.Proofs.Parser.Appended
import JavaTree.Proofs.Parser.Positions
import JavaTree.Proofs.Parser.Spans
import JavaTree.Proofs.Relayout
import JavaTree.Proofs.Token.Respaced
import JavaTree.Proofs.Widening.Units
import JavaTree.Proofs.Parser.Reported
import JavaTree.Proofs.Parser.Capped
import JavaTree.Proofs.Parser.Counter
import JavaTree.Proofs.Parser.Foretold
import JavaTree.Proofs.Parser.Attached
import JavaTree.Proofs.Token.Escaped
import JavaTree.Proofs.Reread.Stored
import JavaTree.Proofs.Token.CodeUnits
import JavaTree.Proofs.Token.Closing
import JavaTree.Proofs.Page.Settled
import JavaTree.Proofs.Page.Nested
import JavaTree.Proofs.Page.Nodes
import JavaTree.Proofs.Walk
import JavaTree.Proofs.Parser.Gathered
import JavaTree.Proofs.Parser.TypeArguments
import JavaTree.Proofs.Parser.UnitSpan
