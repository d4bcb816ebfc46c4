import CheckHandle.Main
import CheckHandle.Proofs.StubFiles
import CheckHandle.Proofs.Inserted
import CheckHandle.Proofs.Acceptance
import CheckHandle.Proofs.Locality
import CheckHandle.Proofs.Reserved
import CheckHandle.Proofs.Distinct
import CheckHandle.Proofs.DeadCode
import CheckHandle.Proofs.Diagnostics
import CheckHandle.Proofs.StandIn
import CheckHandle.Proofs.Printing
import CheckHandle.Proofs.Closures
import CheckHandle.Proofs.Initializers
import CheckHandle.Proofs.Beside
import CheckHandle.Proofs.Temporaries
import CheckHandle.Proofs.Tiling
import CheckHandle.Proofs.Parameters
import CheckHandle.Proofs.Identifiers
import CheckHandle.Proofs.Watching
import CheckHandle.Proofs.TypeWords
