import WgslKernel.Builder.Basic

/-!
# Statement factories

`Op` is the list of statements a front end can ask for, and `Builder.create` makes one: it checks
what the request itself has to satisfy, and then appends the statement.  A run of a front end is a
list of `Action`s on a `Session`, which numbers the guards it hands out.
-/

namespace WgslKernel

/-- A statement a front end asks for. -/
inductive Op where
  | const (value : Const)
  | loopIndex (loop : StmtId)
  | argLoad (ty : Prim) (arg : Nat)
  | rand (ty : Prim)
  | unary (op : UnaryOp) (operand : StmtId)
  | binary (op : BinaryOp) (lhs rhs : StmtId)
  | extract (composite : StmtId) (index : Nat)
  | rangeFor (bound : RangeBound) (serial : Bool)
  | whileTrue
  | vertexFor
  | fragmentFor
  | branch (cond : StmtId)
  | exitLoop
  | nextIteration
  | localVar (ty : Prim)
  | localLoad (ptr : StmtId)
  | localStore (ptr value : StmtId)
  | globalPtr (field : Field) (indices : List StmtId) (elementOffset : Nat)
  | globalLoad (ptr : StmtId)
  | globalStore (ptr value : StmtId)
  | temporary (ty : Prim) (offset : Nat)
  | temporaryLoad (ptr : StmtId)
  | temporaryStore (ptr value : StmtId)
  | atomic (op : AtomicOp) (dest value : StmtId)
  | atomicLoad (ptr : StmtId)
  | atomicStore (ptr value : StmtId)
  | vertexInput (ty : Prim) (location : Nat)
  | vertexOutput (value : StmtId) (location : Nat)
  | fragmentInput (ty : Prim) (location : Nat)
  | builtinInput (input : BuiltinInput)
  | positionOutput (values : List StmtId)
  | colorOutput (location : Nat) (values : List StmtId)
  | depthOutput (value : StmtId)
  | derivative (axis : Axis) (operand : StmtId)
  | discard
  | textureSample (texture : Texture) (coords : List StmtId)
  | textureSampleLod (texture : Texture) (coords : List StmtId) (level : StmtId)
  | textureLoad (texture : Texture) (coords : List StmtId)
  | textureStore (texture : Texture) (coords values : List StmtId)
  | ret (values : List StmtId)
  deriving DecidableEq, Repr

namespace Builder

/-- Four components out of a list, or the complaint that there are not four. -/
def fourFold (what : FourFold) (values : List StmtId) : Except Fault Quad :=
  match Quad.ofList? values with
  | some q => .ok q
  | none => .error (.notFourFold what values.length)

/-- Append a texture statement with as many coordinates as the texture has. -/
def createTexture (b : Builder) (access : TextureAccess) (texture : Texture)
    (coords : List StmtId) : Except Fault (Builder × StmtId) :=
  if coords.length = texture.dim.coordCount then b.append (.texture access texture coords)
  else .error (.textureCoords texture coords.length)

/-- Make the statement that `op` asks for. -/
def create (b : Builder) : Op → Except Fault (Builder × StmtId)
  | .const value => b.append (.const value)
  | .loopIndex loop => do
    b.expect loop .rangeFor
    if loop ∈ b.module.enclosing b.current then b.append (.loopIndex loop)
    else .error (.loopIndexOutsideBody loop)
  | .argLoad ty arg => b.append (.argLoad ty arg)
  | .rand ty => b.append (.rand ty)
  | .unary op x => b.append (.unary op x)
  | .binary op x y => b.append (.binary op x y)
  | .extract composite index =>
    if index < 4 then b.append (.extract composite index) else .error (.compositeIndex index)
  | .rangeFor bound serial => b.appendWithBlock (.rangeFor bound serial)
  | .whileTrue => b.appendWithBlock .whileTrue
  | .vertexFor => b.appendWithBlock .vertexFor
  | .fragmentFor => b.appendWithBlock .fragmentFor
  | .branch cond => b.appendWithBlocks (.branch cond)
  | .exitLoop =>
    match b.innermostLoop with
    | some (.whileTrue _) => b.append .exitLoop
    | _ => .error .breakOutsideWhile
  | .nextIteration =>
    match b.innermostLoop with
    | some (.whileTrue _) | some (.rangeFor ..) => b.append .nextIteration
    | _ => .error .continueOutsideLoop
  | .localVar ty => b.append (.alloca ty)
  | .localLoad ptr => do b.expect ptr .alloca; b.append (.localLoad ptr)
  | .localStore ptr v => do b.expect ptr .alloca; b.append (.localStore ptr v)
  | .globalPtr field indices elementOffset =>
    if indices.length ≠ field.shape.length then
      .error (.fieldRank field.id field.shape.length indices.length)
    else if elementOffset < field.components then
      b.append (.globalPtr field indices elementOffset)
    else
      .error (.elementOffset elementOffset field.id field.components)
  | .globalLoad ptr => do b.expect ptr .globalPointer; b.append (.globalLoad ptr)
  | .globalStore ptr v => do b.expect ptr .globalPointer; b.append (.globalStore ptr v)
  | .temporary ty offset => b.append (.temporary ty offset)
  | .temporaryLoad ptr => do b.expect ptr .temporary; b.append (.temporaryLoad ptr)
  | .temporaryStore ptr v => do b.expect ptr .temporary; b.append (.temporaryStore ptr v)
  | .atomic op dest v => do b.expect dest .atomicTarget; b.append (.atomic op dest v)
  | .atomicLoad ptr => do b.expect ptr .atomicTarget; b.append (.atomicLoad ptr)
  | .atomicStore ptr v => do b.expect ptr .atomicTarget; b.append (.atomicStore ptr v)
  | .vertexInput ty location => b.append (.vertexInput ty location)
  | .vertexOutput v location => b.append (.vertexOutput v location)
  | .fragmentInput ty location => b.append (.fragmentInput ty location)
  | .builtinInput input => b.append (.builtinInput input)
  | .positionOutput values => do
    let q ← fourFold .position values
    b.append (.builtinOutput (.position q))
  | .colorOutput location values => do
    let q ← fourFold .color values
    b.append (.builtinOutput (.color location q))
  | .depthOutput v => b.append (.builtinOutput (.fragDepth v))
  | .derivative axis x => b.append (.derivative axis x)
  | .discard => b.append .discard
  | .textureSample texture coords => b.createTexture .sample texture coords
  | .textureSampleLod texture coords level => b.createTexture (.sampleLod level) texture coords
  | .textureLoad texture coords => b.createTexture .load texture coords
  | .textureStore texture coords values => do
    let q ← fourFold .texel values
    b.createTexture (.store q) texture coords
  | .ret values => if values = [] then .error .emptyReturn else b.append (.ret values)

end Builder

/-! ## Runs -/

/-- One step of a front end. -/
inductive Action where
  | create (op : Op)
  | openGuard (opening : Opening) (stmt : StmtId)
  /-- Close the guard that was the `handle`-th to be opened. -/
  | closeGuard (handle : Nat)
  deriving DecidableEq, Repr

/-- What a step hands back. -/
inductive Reply where
  | created (id : StmtId)
  | opened (handle : Nat) (block : BlockId)
  | closed
  deriving DecidableEq, Repr

/-- A builder and the guards it has handed out, in order.  Closing a guard uses it up. -/
structure Session where
  builder : Builder := {}
  guards : Array (Option Guard) := #[]
  deriving DecidableEq, Repr

namespace Session

/-- One action of a front end. -/
def step (s : Session) : Action → Except Fault (Session × Reply)
  | .create op => do
    let (b, id) ← s.builder.create op
    .ok ({ s with builder := b }, .created id)
  | .openGuard opening id => do
    let (b, guard) ← s.builder.openGuard opening id
    .ok ({ builder := b, guards := s.guards.push (some guard) },
      .opened s.guards.size guard.block)
  | .closeGuard handle =>
    match s.guards[handle]? with
    | some (some guard) => do
      let b ← s.builder.closeGuard guard
      .ok ({ builder := b, guards := s.guards.setIfInBounds handle none }, .closed)
    | _ => .error (.unknownGuard handle)

/-- The session after a list of steps. -/
def run (s : Session) : List Action → Except Fault Session
  | [] => .ok s
  | a :: as => do
    let (s, _) ← s.step a
    s.run as

end Session

end WgslKernel
