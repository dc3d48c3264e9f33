import WgslKernel.Main
import WgslKernel.Proofs.Module.Traversal
import WgslKernel.Proofs.Simulation.Preservation
import WgslKernel.Proofs.Scoping.Kernels
import WgslKernel.Proofs.Memory.RowMajor
import WgslKernel.Proofs.Bindings.Tables
import WgslKernel.Proofs.Codegen.Independence
import WgslKernel.Proofs.Safety.Overflow
import WgslKernel.Proofs.Dispatch.GridLoop
import WgslKernel.Proofs.Listing.Unambiguous
import WgslKernel.Proofs.Listing.Spans
import WgslKernel.Proofs.Interface.Kernels
import WgslKernel.Proofs.Concurrency.Exchange
import WgslKernel.Proofs.Arithmetic.FlooredDivision
import WgslKernel.Proofs.Typing.Textures
import WgslKernel.Proofs.Dispatch.LoadedBounds
import WgslKernel.Proofs.Source.Kernels
import WgslKernel.Proofs.Nesting.LoopExits
import WgslKernel.Proofs.Config.Files
import WgslKernel.Proofs.Source.Literals
import WgslKernel.Proofs.Json.Descriptors
