import WgslKernel.Codegen.Generate
import WgslKernel.Partition

/-!
# Compiling a module

A module is partitioned into offloads and each of them is generated.  Fragment stages come last,
because each of them starts from the closest vertex stage before it.  Of several errors, the one
of the first offload in dispatch order is reported; a broken contract is reported before any error.
-/

namespace WgslKernel

/-- The outcome of generating one offload, with broken contracts taken out. -/
def settle {α : Type} : Except Halt α → Except Fault (Except CodegenError α)
  | .ok a => .ok (.ok a)
  | .error (.error e) => .ok (.error e)
  | .error (.fault f) => .error f

/-- The closest vertex task among the outcomes before an offload, given from the latest on. -/
def vertexTask? : List (Option (Except CodegenError Task)) → Option Task
  | [] => none
  | some (.ok t) :: rest => if t.kind = .vertexFor then some t else vertexTask? rest
  | _ :: rest => vertexTask? rest

namespace Compile

/-- Generate everything but the fragment stages, whose places are left open. -/
def firstPhase (m : Module) (signature : Signature) (config : Config) (offloads : List Offload) :
    Except Fault (List (Option (Except CodegenError Task))) :=
  offloads.mapM fun o =>
    if o.kind = .fragmentFor then .ok none
    else do
      let outcome ← settle (generate m o signature config none)
      .ok (some outcome)

/-- Generate the fragment stages.  `before` are the outcomes so far, the latest first. -/
def secondPhase (m : Module) (signature : Signature) (config : Config) :
    List (Option (Except CodegenError Task)) → List Offload →
      List (Option (Except CodegenError Task)) → Except Fault (List (Except CodegenError Task))
  | before, o :: os, none :: rest => do
    let outcome ← settle (generate m o signature config (vertexTask? before))
    let outcomes ← secondPhase m signature config (some outcome :: before) os rest
    .ok (outcome :: outcomes)
  | before, _ :: os, some outcome :: rest => do
    let outcomes ← secondPhase m signature config (some outcome :: before) os rest
    .ok (outcome :: outcomes)
  | _, _, _ => .ok []

end Compile

/-- Compile a module into its dispatch sequence. -/
def compile (m : Module) (signature : Signature) (config : Config) : Except Halt Kernel := do
  let offloads ← m.partition
  let first ← orFault (Compile.firstPhase m signature config offloads)
  let outcomes ← orFault (Compile.secondPhase m signature config [] offloads first)
  let tasks ← orError (outcomes.mapM id)
  .ok ⟨tasks, signature⟩

end WgslKernel
