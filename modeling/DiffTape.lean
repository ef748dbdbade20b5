import DiffTape.Decimal
import DiffTape.Recorder.Lemmas
import DiffTape.Recorder.Session
import DiffTape.Tape.WellFormed
import DiffTape.Proofs.Accesses
import DiffTape.Proofs.Accessors
import DiffTape.Proofs.AllOrNothing
import DiffTape.Proofs.AppendOrder
import DiffTape.Proofs.Checks
import DiffTape.Proofs.Composition
import DiffTape.Proofs.Dependency
import DiffTape.Proofs.Derivatives
import DiffTape.Proofs.DoubleRounding
import DiffTape.Proofs.Drivers
import DiffTape.Proofs.Dual
import DiffTape.Proofs.Exclusion
import DiffTape.Proofs.Frexp
import DiffTape.Proofs.History
import DiffTape.Proofs.Interleaving
import DiffTape.Proofs.Linearity
import DiffTape.Proofs.Locations
import DiffTape.Proofs.Lookup
import DiffTape.Proofs.OneSided
import DiffTape.Proofs.PowerSigns
import DiffTape.Proofs.Provenance
import DiffTape.Proofs.Representation
import DiffTape.Proofs.Retrace
import DiffTape.Proofs.Reuse
import DiffTape.Proofs.Soundness
import DiffTape.Proofs.Strides
import DiffTape.Proofs.Switches
