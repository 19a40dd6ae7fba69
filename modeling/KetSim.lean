import KetSim.Form.Backend
import KetSim.Backend.Validation
import KetSim.Demo.Program
import KetSim.Main
import KetSim.Proofs.Backend.Devices
import KetSim.Proofs.Backend.Representations
import KetSim.Proofs.Backend.Sampling
import KetSim.Proofs.Backend.States
import KetSim.Proofs.MachineFloat
import KetSim.Proofs.Backend.Validity
import KetSim.Proofs.Backend.History
import KetSim.Proofs.Backend.Clients
import KetSim.Proofs.Backend.Delivery
import KetSim.Proofs.Backend.Submission
import KetSim.Proofs.Backend.CheckedRun
import KetSim.Proofs.Backend.Fleet
import KetSim.Proofs.Circuit.Acceptance
import KetSim.Proofs.Circuit.Keys
import KetSim.Proofs.Json.Number
import KetSim.Proofs.Json.Value
import KetSim.Proofs.Form.Circuit
import KetSim.Proofs.Engine.Accesses
import KetSim.Proofs.Engine.Interleaving
import KetSim.Proofs.Engine.Physical
import KetSim.Proofs.Engine.Renaming
import KetSim.Proofs.Lowering.Renaming
import KetSim.Proofs.Backend.Orders
import KetSim.Proofs.Circuit.Reversible
import KetSim.Proofs.Backend.Certain
import KetSim.Proofs.Lowering.Linear
import KetSim.Proofs.Lowering.Compiling
import KetSim.Proofs.Backend.Expectation
import KetSim.Proofs.Backend.Phase
import KetSim.Proofs.Angle
import KetSim.Proofs.Engine.InverseSampling
import KetSim.Proofs.Lowering.Offsets
import KetSim.Proofs.Circuit.Names
import KetSim.Proofs.Circuit.Binding
import KetSim.Proofs.Engine.InPlace
import KetSim.Proofs.Backend.Reordering
import KetSim.Proofs.Pauli
import KetSim.Proofs.Lowering.Operators
import KetSim.Proofs.Backend.Jobs
import KetSim.Proofs.Backend.Precision
import KetSim.Proofs.Backend.Entangled
import KetSim.Proofs.Backend.Counts
import KetSim.Proofs.Backend.Construction
