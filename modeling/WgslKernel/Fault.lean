import WgslKernel.Statement

/-!
# Contract violations

A front end that misuses the builder, or asks for something that does not exist, is stopped at
once.  `Fault` lists the ways, and `Fault.message` gives each its text.
-/

namespace WgslKernel

/-- What an operand has to be. -/
inductive Role where
  | alloca
  | globalPointer
  | temporary
  | atomicTarget
  | rangeFor
  deriving DecidableEq, Repr

namespace Role

/-- How a role is named. -/
def describe : Role → String
  | alloca => "an alloca"
  | globalPointer => "a global pointer"
  | temporary => "a global temporary"
  | atomicTarget => "a global pointer or temporary"
  | rangeFor => "a range-for"

/-- Whether a statement of this kind can play the role. -/
def admits : Role → Kind → Bool
  | alloca, .alloca _ => true
  | globalPointer, .globalPtr .. => true
  | temporary, .temporary .. => true
  | atomicTarget, .globalPtr .. => true
  | atomicTarget, .temporary .. => true
  | rangeFor, .rangeFor .. => true
  | _, _ => false

end Role

/-- The block of a statement that a guard opens. -/
inductive Opening where
  | rangeFor
  | whileTrue
  | vertexFor
  | fragmentFor
  /-- The then block for `true`, the else block for `false`. -/
  | branch (taken : Bool)
  deriving DecidableEq, Repr

namespace Opening

/-- How an opening is named. -/
def describe : Opening → String
  | rangeFor => "a range-for"
  | whileTrue => "a while loop"
  | vertexFor => "a vertex-for"
  | fragmentFor => "a fragment-for"
  | branch _ => "an if"

/-- The block to open in a statement of the given kind, if the statement has such a block. -/
def block? : Opening → Kind → Option BlockId
  | rangeFor, .rangeFor _ _ body => some body
  | whileTrue, .whileTrue body => some body
  | vertexFor, .vertexFor body => some body
  | fragmentFor, .fragmentFor body => some body
  | branch taken, .branch _ thenBlock elseBlock => some (if taken then thenBlock else elseBlock)
  | _, _ => none

end Opening

/-- What takes exactly four components. -/
inductive FourFold where
  | position
  | color
  | texel
  deriving DecidableEq, Repr

/-- What takes four values. -/
def FourFold.describe : FourFold → String
  | position => "position output"
  | color => "color output"
  | texel => "texture store"

/-- A violated contract. -/
inductive Fault where
  | indexOutOfBounds (len index : Nat)
  | undefinedOperand (stmt : StmtId) (kind : String) (operand : StmtId)
  | operandOutOfScope (stmt : StmtId) (kind : String) (operand : StmtId)
  | missingStmt (stmt : StmtId)
  | wrongRole (stmt : StmtId) (role : Role) (found : String)
  | loopIndexOutsideBody (loop : StmtId)
  | notOpenable (stmt : StmtId) (opening : Opening)
  | rootGuard
  | guardNotNested (owner : StmtId) (current : BlockId)
  | guardOutOfOrder (block : BlockId) (opened : List BlockId)
  | unknownGuard (handle : Nat)
  | unclosedGuards (count : Nat)
  | breakOutsideWhile
  | continueOutsideLoop
  | compositeIndex (index : Nat)
  | fieldRank (field rank given : Nat)
  | elementOffset (offset field components : Nat)
  | notFourFold (what : FourFold) (given : Nat)
  | textureCoords (texture : Texture) (given : Nat)
  | emptyReturn
  | alreadyBound (name : String)
  | slotTaken (slot : Nat)
  | additionOverflow
  | divisionByZero
  | emptyClamp (low high : Nat)
  deriving DecidableEq, Repr

namespace Fault

/-- How a block is named. -/
def blockRef (b : BlockId) : String := s!"BlockId({b})"

/-- Text of two counts that should have been equal. -/
def unequal (what : String) (left right : Nat) : String :=
  s!"assertion `left == right` failed: {what}\n  left: {left}\n right: {right}"

/-- The text of a broken contract. -/
def message : Fault → String
  | indexOutOfBounds len index =>
    s!"index out of bounds: the len is {len} but the index is {index}"
  | undefinedOperand stmt kind operand =>
    s!"{stmtRef stmt} ({kind}) references {stmtRef operand} which is not defined yet"
  | operandOutOfScope stmt kind operand =>
    s!"{stmtRef stmt} ({kind}) references {stmtRef operand} outside its scope"
  | missingStmt stmt => s!"{stmtRef stmt} does not exist"
  | wrongRole stmt role found =>
    s!"expected {stmtRef stmt} to be {role.describe}, found {found}"
  | loopIndexOutsideBody loop => s!"loop index of {stmtRef loop} requested outside its body"
  | notOpenable stmt opening => s!"{stmtRef stmt} is not {opening.describe}"
  | rootGuard => "cannot open a guard on the module root"
  | guardNotNested owner current =>
    s!"guard for a block of {stmtRef owner} requested while {blockRef current} is open; " ++
      "guards must nest"
  | guardOutOfOrder block opened =>
    let list := String.intercalate ", " (opened.map blockRef)
    s!"guard {blockRef block} closed out of order (open: [{list}])"
  | unknownGuard handle => s!"guard number {handle} is not open"
  | unclosedGuards count => s!"IrBuilder finished with {count} open guard(s)"
  | breakOutsideWhile => "break outside of a while loop"
  | continueOutsideLoop => "continue outside of a loop"
  | compositeIndex index => s!"composite index {index} out of range"
  | fieldRank field rank given =>
    unequal s!"field {field} has {rank} dimension(s), got {given} index(es)" given rank
  | elementOffset offset field components =>
    s!"element offset {offset} out of range for field {field} ({components} component(s))"
  | notFourFold what given => unequal s!"{what.describe} takes 4 components" given 4
  | textureCoords texture given =>
    let needed := texture.dim.coordCount
    unequal
      (s!"texture {texture.id} ({texture.dim.label}) needs {needed} coordinate(s), " ++
        s!"got {given}")
      given needed
  | emptyReturn => "return needs at least one value"
  | alreadyBound name => s!"{name} is already bound"
  | slotTaken slot => s!"binding slot {slot} is already taken"
  | additionOverflow => "attempt to add with overflow"
  | divisionByZero => "attempt to divide by zero"
  | emptyClamp low high => s!"min > max. min = {low}, max = {high}"

end Fault

end WgslKernel
