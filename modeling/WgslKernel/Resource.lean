import WgslKernel.Fault

/-!
# Resources and their binding slots

A shader sees buffers, textures and samplers.  A `Resource` is the identity of one of them, and a
`BindingMap` gives resources their binding slots: no resource and no slot is used twice, and the
next slot lies above every slot in use.
-/

namespace WgslKernel

/-- Category of a shader-visible resource. -/
inductive ResourceKind where
  /-- A root buffer viewed as plain 32-bit words. -/
  | root
  /-- The same root buffer viewed as atomic words. -/
  | rootAtomic
  | globalTmps
  | globalTmpsAtomic
  | args
  | rets
  | texture
  | storageTexture
  | sampler
  deriving DecidableEq, Repr

/-- Tag of a category in task descriptors. -/
def ResourceKind.tag : ResourceKind → String
  | root => "root"
  | rootAtomic => "root_atomic"
  | globalTmps => "global_tmps"
  | globalTmpsAtomic => "global_tmps_atomic"
  | args => "args"
  | rets => "rets"
  | texture => "texture"
  | storageTexture => "storage_texture"
  | sampler => "sampler"

/-- Identity of a resource: its category, and a number where there are several. -/
structure Resource where
  kind : ResourceKind
  id : Option Nat := none
  deriving DecidableEq, Repr

namespace Resource

/-- The words of a root buffer. -/
def root (buffer : Nat) : Resource := ⟨.root, some buffer⟩

/-- The atomic view of a root buffer. -/
def rootAtomic (buffer : Nat) : Resource := ⟨.rootAtomic, some buffer⟩

/-- The words of the global temporaries. -/
def globalTmps : Resource := ⟨.globalTmps, none⟩

/-- The atomic view of the global temporaries. -/
def globalTmpsAtomic : Resource := ⟨.globalTmpsAtomic, none⟩

/-- The argument block. -/
def args : Resource := ⟨.args, none⟩

/-- The return block. -/
def rets : Resource := ⟨.rets, none⟩

/-- A texture to sample or to load from. -/
def texture (id : Nat) : Resource := ⟨.texture, some id⟩

/-- A texture to store to. -/
def storageTexture (id : Nat) : Resource := ⟨.storageTexture, some id⟩

/-- The sampler of a texture. -/
def sampler (id : Nat) : Resource := ⟨.sampler, some id⟩

/-- Shader identifier of the resource. -/
def name (r : Resource) : String :=
  let id := r.id.getD 0
  match r.kind with
  | .root => s!"root_buffer_{id}_"
  | .rootAtomic => s!"root_buffer_atomic_{id}_"
  | .globalTmps => "global_tmps_"
  | .globalTmpsAtomic => "global_tmps_atomic_"
  | .args => "args_"
  | .rets => "rets_"
  | .texture => s!"texture_{id}_"
  | .storageTexture => s!"storage_texture_{id}_"
  | .sampler => s!"sampler_{id}_"

end Resource

/-- A resource attached at a binding slot. -/
structure Binding where
  resource : Resource
  slot : Nat
  deriving DecidableEq, Repr

/-- Bindings in the order they were made. -/
structure BindingMap where
  bindings : List Binding := []
  deriving DecidableEq, Repr

namespace BindingMap

/-- The slot of a resource. -/
def get? (m : BindingMap) (r : Resource) : Option Nat :=
  (m.bindings.find? fun b => b.resource = r).map Binding.slot

/-- The resource has a slot. -/
def contains (m : BindingMap) (r : Resource) : Bool := (m.get? r).isSome

/-- Attach a resource at a slot.  Both must be new to the map. -/
def add (m : BindingMap) (r : Resource) (slot : Nat) : Except Fault BindingMap :=
  if m.contains r then .error (.alreadyBound r.name)
  else if m.bindings.any (fun b => b.slot == slot) then .error (.slotTaken slot)
  else .ok ⟨m.bindings ++ [⟨r, slot⟩]⟩

/-- Lowest number above every slot in use. -/
def firstFree (m : BindingMap) : Nat :=
  m.bindings.foldl (fun next b => max next (b.slot + 1)) 0

/-- The lowest slot above every slot in use.  Slots are 32-bit words, so nothing lies above the
largest of them: the addition overflows.  The fault is that of the debug profile, which checks
additions; a release build wraps around to slot zero. -/
def nextSlot (m : BindingMap) : Except Fault Nat :=
  match fitWord m.firstFree with
  | some slot => .ok slot
  | none => .error .additionOverflow

/-- Attach a resource at the next slot. -/
def addNext (m : BindingMap) (r : Resource) : Except Fault BindingMap := do
  let slot ← m.nextSlot
  m.add r slot

/-- The map holding the given bindings. -/
def ofBindings (bindings : List Binding) : Except Fault BindingMap :=
  bindings.foldlM (fun m b => m.add b.resource b.slot) {}

/-- How many resources have a slot. -/
def size (m : BindingMap) : Nat := m.bindings.length

/-- No resource has a slot. -/
def isEmpty (m : BindingMap) : Bool := m.bindings.isEmpty

end BindingMap

end WgslKernel
