import Tessera.Files.Tree
import Tessera.Main
import Tessera.Schedule.Check
import Tessera.Proofs.Sequence
import Tessera.Proofs.Table
import Tessera.Workers
import Tessera.Proofs.Blocks
import Tessera.Proofs.Accumulation
import Tessera.Proofs.Action
import Tessera.Proofs.Addresses
import Tessera.Proofs.Checked
import Tessera.Proofs.Eviction
import Tessera.Proofs.Layouts
import Tessera.Proofs.Output
import Tessera.Proofs.Interleaving
import Tessera.Proofs.Handshake
import Tessera.Proofs.Proper
import Tessera.Proofs.Residency
import Tessera.Proofs.Validity
import Tessera.Proofs.Allocation
import Tessera.Proofs.Lowerable
import Tessera.Proofs.Execution
import Tessera.Proofs.Sittings
import Tessera.Proofs.Multiplying
import Tessera.Proofs.Operating
import Tessera.Proofs.Orders
import Tessera.Proofs.Pipelines
import Tessera.Proofs.Codec
import Tessera.Proofs.Transparency
import Tessera.Proofs.Determined
import Tessera.Proofs.Fitting
import Tessera.Proofs.Containment
import Tessera.Proofs.Repeated
import Tessera.Proofs.Fragments
import Tessera.Proofs.Allotment
import Tessera.Proofs.Visiting
import Tessera.Proofs.Reordering
import Tessera.Proofs.Crowding
import Tessera.Proofs.Totality
import Tessera.Proofs.Expansion
import Tessera.Proofs.Sweeping
import Tessera.Proofs.Words
import Tessera.Proofs.Wrapping
import Tessera.Proofs.Blockwise
import Tessera.Proofs.Alternation
import Tessera.Proofs.Pages
import Tessera.Proofs.Overruns
import Tessera.Proofs.Serialised
import Tessera.Proofs.Validation
import Tessera.Proofs.Coverage
