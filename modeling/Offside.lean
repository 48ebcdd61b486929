import Offside.Build
import Offside.Cli
import Offside.Main
import Offside.Proofs.Build.Limit
import Offside.Proofs.Fixity.Flattened
import Offside.Proofs.Fixity.Reordered
import Offside.Proofs.Fixity.Runs
import Offside.Proofs.Fixity.Scoped
import Offside.Proofs.Fixity.Shaped
import Offside.Proofs.Fixity.Tables
import Offside.Proofs.Layout.Balance
import Offside.Proofs.Layout.Columns
import Offside.Proofs.Layout.Nesting
import Offside.Proofs.Layout.Origins
import Offside.Proofs.Layout.Trees
import Offside.Proofs.Lexeme.Accounted
import Offside.Proofs.Lexeme.Comments
import Offside.Proofs.Parser.Completeness
import Offside.Proofs.Parser.Termination
import Offside.Proofs.Source.Checked
import Offside.Proofs.Source.Conserved
import Offside.Proofs.Source.Dump
import Offside.Proofs.Source.Expression
import Offside.Proofs.Source.Height
import Offside.Proofs.Source.Lines
import Offside.Proofs.Source.Nesting
import Offside.Proofs.Source.Positions
import Offside.Proofs.Source.Recovery
import Offside.Proofs.Source.RoundTrip
import Offside.Proofs.Source.Spans
import Offside.Proofs.Source.TokenTexts
import Offside.Proofs.Source.Traversal
import Offside.Proofs.SymbolTable.Interning
import Offside.SymbolTable
