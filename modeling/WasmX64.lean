import WasmX64.Main
import WasmX64.Proofs.Code.Labels
import WasmX64.Proofs.Compile.Sources
import WasmX64.Proofs.Config.MemoryCap
import WasmX64.Proofs.Events.Interleaving
import WasmX64.Proofs.Events.Stream
import WasmX64.Proofs.Execution.Signatures
import WasmX64.Proofs.Execution.Simulation
import WasmX64.Proofs.Execution.Table
import WasmX64.Proofs.Instance.Arguments
import WasmX64.Proofs.Instance.Region
import WasmX64.Proofs.LinearMemory.Bounds
import WasmX64.Proofs.Machine.Operand
import WasmX64.Proofs.Processor.Arithmetic
import WasmX64.Proofs.Processor.Truncation
import WasmX64.Proofs.Stack.Balance
import WasmX64.Proofs.Transfer.Correct
import WasmX64.Proofs.Transfer.Parallel
import WasmX64.Proofs.Wasm.Reading
