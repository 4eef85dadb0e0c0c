import YamlEdit.Text.Alphanumeric
import YamlEdit.Text.WhiteSpace
import YamlEdit.Token
import YamlEdit.Token.Lexer
import YamlEdit.Line
import YamlEdit.Indent
import YamlEdit.Line.Scan
import YamlEdit.Node
import YamlEdit.Forest
import YamlEdit.Document
import YamlEdit.Edit
import YamlEdit.Selector
import YamlEdit.Flow
import YamlEdit.Document.Marks
import YamlEdit.Mutation
import YamlEdit.Stage
import YamlEdit.Proofs.Lexer
import YamlEdit.Proofs.Lexer.Words
import YamlEdit.Proofs.Scan
import YamlEdit.Proofs.Ranges
import YamlEdit.Proofs.Columns
import YamlEdit.Proofs.Columns.Dropping
import YamlEdit.Proofs.Columns.Tolerance
import YamlEdit.Proofs.Columns.Overshoot
import YamlEdit.Proofs.BlankLines
import YamlEdit.Proofs.Render
import YamlEdit.Proofs.Placement
import YamlEdit.Proofs.Tree
import YamlEdit.Proofs.Forest
import YamlEdit.Proofs.Lookup
import YamlEdit.Proofs.Parsed
import YamlEdit.Proofs.Forest.WellFormed
import YamlEdit.Proofs.Relabel
import YamlEdit.Proofs.Pending
import YamlEdit.Proofs.RoundTrip
import YamlEdit.Proofs.Rename
import YamlEdit.Proofs.Rename.Reparse
import YamlEdit.Proofs.Delete
import YamlEdit.Proofs.Delete.Rescan
import YamlEdit.Proofs.Delete.Inline
import YamlEdit.Proofs.Delete.Flow
import YamlEdit.Proofs.Lexer.Flow
import YamlEdit.Proofs.Delete.FlowCollection
import YamlEdit.Proofs.Additions
import YamlEdit.Proofs.Additions.Blocks
import YamlEdit.Proofs.Selection
import YamlEdit.Proofs.Stage
import YamlEdit.Proofs.Bounds
import YamlEdit.Proofs.Ranges.Tiling
import YamlEdit.Proofs.Render.Endings
import YamlEdit.Proofs.Render.Order
import YamlEdit.Proofs.Render.Splice
import YamlEdit.Proofs.Brackets
import YamlEdit.Proofs.Lexer.Gaps
import YamlEdit.Proofs.Lexer.Classes
import YamlEdit.Proofs.Brackets.Entries
import YamlEdit.Proofs.Delete.Brackets
import YamlEdit.Proofs.Additions.Brackets
import YamlEdit.Proofs.DocumentOrder
import YamlEdit.Proofs.Selection.Staged
import YamlEdit.Proofs.Forest.Parents
