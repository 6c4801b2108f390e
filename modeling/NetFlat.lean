import NetFlat.Circuit
import NetFlat.Main
import NetFlat.Naming.Group
import NetFlat.Proofs.Gate.Resolution
import NetFlat.Proofs.Scan.Effect
import NetFlat.Proofs.Scan.Factoring
import NetFlat.Proofs.Flattening
import NetFlat.Proofs.Gate.Meaning
import NetFlat.Proofs.Equations
import NetFlat.Proofs.Naming.Names
import NetFlat.Proofs.Declarations
import NetFlat.Proofs.Gate.Connections
import NetFlat.Proofs.Gate.Places
import NetFlat.Proofs.Scan.Places
import NetFlat.Proofs.Scan.Order
import NetFlat.Proofs.Reordering
import NetFlat.Proofs.Text.Lines
import NetFlat.Proofs.Expr.Reading
import NetFlat.Proofs.FlatModule.Reading
import NetFlat.Proofs.Dialect.Lines
import NetFlat.Proofs.Naming.Nets
import NetFlat.Proofs.Circuit.Basic
import NetFlat.Proofs.Circuit.Instances
import NetFlat.Proofs.Circuit.Netlist
import NetFlat.Proofs.Circuit.Flattening
import NetFlat.Proofs.Circuit.Evaluation
import NetFlat.Proofs.Scan.Reduction
import NetFlat.Proofs.Scan.Layout
import NetFlat.Proofs.Locality
import NetFlat.Proofs.DeclaredPorts
import NetFlat.Proofs.Scan.Coverage
import NetFlat.Proofs.Accounting
import NetFlat.Proofs.Naming.Acceptance
import NetFlat.Proofs.Gate.Wiring
import NetFlat.Proofs.LegalNames
import NetFlat.Proofs.Scope.Runs
import NetFlat.Proofs.FlatModule.Emission
import NetFlat.Proofs.Scan.Pieces
import NetFlat.Proofs.Omission
import NetFlat.Proofs.Text.Spread
import NetFlat.Proofs.Dialect.Renderings
import NetFlat.Proofs.Naming.References
import NetFlat.Proofs.Gate.Statement
import NetFlat.Proofs.Renderings
import NetFlat.Proofs.Statistics
import NetFlat.Proofs.Locations
import NetFlat.Proofs.Jobs.Independence
import NetFlat.Proofs.Bytes.Flattening
import NetFlat.Proofs.Text.Marks
import NetFlat.Proofs.Command.Output
import NetFlat.Proofs.Command.Clean
import NetFlat.Proofs.Expr.Evaluation
import NetFlat.Proofs.Gate.Brackets
import NetFlat.Proofs.Gate.Fragments
import NetFlat.Proofs.Scan.Names
import NetFlat.Proofs.EscapedNames
import NetFlat.Proofs.Naming.Groups
import NetFlat.Proofs.Naming.Bits
import NetFlat.Proofs.DeclarationStatements
import NetFlat.Proofs.Naming.Spellings
import NetFlat.Proofs.Naming.Literals
import NetFlat.Proofs.Gate.Pins
import NetFlat.Proofs.Gate.Order
import NetFlat.Proofs.Source.Positions
import NetFlat.Proofs.Source.Tiling
import NetFlat.Proofs.Bytes.Positions
import NetFlat.Proofs.LineTable
import NetFlat.Proofs.Scan.Findings
import NetFlat.Proofs.Diagnostic.Rendering
import NetFlat.Proofs.Bytes.Rendering
import NetFlat.Proofs.Messages
