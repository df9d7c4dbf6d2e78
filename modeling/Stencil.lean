import Stencil.Backend
import Stencil.Body.Visitor
import Stencil.Main
import Stencil.Proofs.Body.Comments
import Stencil.Proofs.Body.Delivery
import Stencil.Proofs.Body.Faults
import Stencil.Proofs.Body.Lookahead
import Stencil.Proofs.Body.Openings
import Stencil.Proofs.Body.RoundTrip
import Stencil.Proofs.CommandLine.GenerateTree
import Stencil.Proofs.Compiler.Asking
import Stencil.Proofs.Compiler.Containment
import Stencil.Proofs.Compiler.Errors
import Stencil.Proofs.Compiler.Linking
import Stencil.Proofs.Compiler.Locality
import Stencil.Proofs.Compiler.Printing
import Stencil.Proofs.Compiler.Sections
import Stencil.Proofs.FileTree
import Stencil.Proofs.FileTree.Changes
import Stencil.Proofs.FileTree.Installing
import Stencil.Proofs.Header.Blocks
import Stencil.Proofs.Header.RoundTrip
import Stencil.Proofs.Module.Literal
import Stencil.Proofs.Naming.Collisions
import Stencil.Proofs.Naming.References
import Stencil.Proofs.Naming.Usable
import Stencil.Proofs.Offsets.Balance
import Stencil.Proofs.Offsets.Shift
import Stencil.Proofs.Offsets.Sources
import Stencil.Proofs.Settings
import Stencil.Proofs.Sink
import Stencil.Proofs.SourceTree.Tables
import Stencil.Proofs.SourceTree.TwoFiles
import Stencil.Proofs.SourceTree.Writing
import Stencil.Proofs.UnitSet.Merging
import Stencil.Proofs.UnitSet.Runs
import Stencil.Sink
