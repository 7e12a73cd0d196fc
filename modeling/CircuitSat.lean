import CircuitSat.Drawing
import CircuitSat.Engine.Backtracking
import CircuitSat.Engine.Lexicographic
import CircuitSat.Engine.Scripted
import CircuitSat.Session.Enumeration
import CircuitSat.Proofs.Allocation
import CircuitSat.Proofs.Correspondence
import CircuitSat.Proofs.FixedPoint
import CircuitSat.Proofs.Lookup
import CircuitSat.Proofs.Submission
import CircuitSat.Proofs.Circuit.Exploration
import CircuitSat.Proofs.Engine.Adapter
import CircuitSat.Proofs.Engine.Bounded
import CircuitSat.Proofs.Session.Assumptions
import CircuitSat.Proofs.Session.Consultation
import CircuitSat.Proofs.Session.Definitions
import CircuitSat.Proofs.Session.Drawing
import CircuitSat.Proofs.Session.Enumeration
import CircuitSat.Proofs.Session.Exclusion
import CircuitSat.Proofs.Session.Interleaving
import CircuitSat.Proofs.Session.Protocol
import CircuitSat.Proofs.Session.Refusals
import CircuitSat.Proofs.Session.Safety
import CircuitSat.Proofs.Session.Sharing
