import QuantumCompiler.Circuit.Json
import QuantumCompiler.Circuit.Unitary
import QuantumCompiler.CommandLine.Run
import QuantumCompiler.Device.Json
import QuantumCompiler.Device.Preset
import QuantumCompiler.Device.Yaml
import QuantumCompiler.Main
import QuantumCompiler.Metrics
import QuantumCompiler.Pipeline.Compile
import QuantumCompiler.Proofs.Circuit.Relabel
import QuantumCompiler.Proofs.Decomposition.Exact
import QuantumCompiler.Proofs.Decomposition.Preference
import QuantumCompiler.Proofs.Device.Preset
import QuantumCompiler.Proofs.Device.RoundTrip
import QuantumCompiler.Proofs.Device.ShortestPath
import QuantumCompiler.Proofs.Executable.Violation
import QuantumCompiler.Proofs.Layout.BinPacking
import QuantumCompiler.Proofs.Layout.Budget
import QuantumCompiler.Proofs.Layout.Canonical
import QuantumCompiler.Proofs.Layout.Climb
import QuantumCompiler.Proofs.Layout.Store
import QuantumCompiler.Proofs.Peephole.Exact
import QuantumCompiler.Proofs.Peephole.Occupancy
import QuantumCompiler.Proofs.Peephole.Segments
import QuantumCompiler.Proofs.Peephole.Shrinking
import QuantumCompiler.Proofs.Peephole.SinglePass
import QuantumCompiler.Proofs.Peephole.Staircase
import QuantumCompiler.Proofs.Pipeline.Checked
import QuantumCompiler.Proofs.Pipeline.Executable
import QuantumCompiler.Proofs.Pipeline.Meaning
import QuantumCompiler.Proofs.Pipeline.Stable
import QuantumCompiler.Proofs.Route.Failure
import QuantumCompiler.Proofs.Route.Zones
import QuantumCompiler.Proofs.Success.Probability
import QuantumCompiler.RunConfig
