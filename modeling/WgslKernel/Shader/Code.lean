import WgslKernel.Shader.Expr

/-!
# Shader statements

The body of a shader as a tree.  A `Code` is a sequence of simple lines, branches and loops, with
the bodies of branches and loops as sequences of their own; `Code.text` indents them.
-/

namespace WgslKernel

/-- A statement without a body. -/
inductive Line where
  /-- A named value, with its type unless that is left to be inferred. -/
  | letBind (name : Ident) (type : Option ShaderType) (value : Expr)
  /-- A variable, zero unless it is given a value. -/
  | declare (name : Ident) (type : ShaderType) (value : Option Expr)
  | assign (target value : Expr)
  /-- A call for its effect. -/
  | perform (call : Expr)
  | exitLoop
  | nextIteration
  | discard
  deriving Repr

/-- A line as text. -/
def Line.text : Line → String
  | letBind name (some type) value => s!"let {name.text}: {type.name} = {value.text};"
  | letBind name none value => s!"let {name.text} = {value.text};"
  | declare name type (some value) => s!"var {name.text}: {type.name} = {value.text};"
  | declare name type none => s!"var {name.text}: {type.name};"
  | assign target value => s!"{target.text} = {value.text};"
  | perform call => s!"{call.text};"
  | exitLoop => "break;"
  | nextIteration => "continue;"
  | discard => "discard;"

/-- A counting loop over 32-bit integers. -/
structure LoopHeader where
  counter : Ident
  start : Expr
  stop : Expr
  step : Expr
  deriving Repr

/-- The head of a loop as text. -/
def LoopHeader.text (h : LoopHeader) : String :=
  let v := h.counter.text
  s!"for (var {v}: i32 = {h.start.text}; {v} < {h.stop.text}; {v} = {v} + {h.step.text})"

/-- A sequence of statements. -/
inductive Code where
  | done
  | line (line : Line) (rest : Code)
  | branch (cond : Expr) (yes : Code) (rest : Code)
  | branchElse (cond : Expr) (yes no : Code) (rest : Code)
  | loop (body : Code) (rest : Code)
  | countLoop (header : LoopHeader) (body : Code) (rest : Code)
  deriving Repr

namespace Code

/-- One sequence after another. -/
def append : Code → Code → Code
  | done, d => d
  | line l rest, d => line l (rest.append d)
  | branch c yes rest, d => branch c yes (rest.append d)
  | branchElse c yes no rest, d => branchElse c yes no (rest.append d)
  | loop body rest, d => loop body (rest.append d)
  | countLoop h body rest, d => countLoop h body (rest.append d)

/-- Code before code. -/
instance : Append Code := ⟨append⟩

/-- A sequence of simple lines. -/
def ofLines : List Line → Code
  | [] => done
  | l :: ls => line l (ofLines ls)

/-- A line of text at a nesting depth. -/
def lineAt (depth : Nat) (content : String) : String :=
  String.ofList (List.replicate (4 * depth) ' ') ++ content ++ "\n"

/-- The sequence as shader text. -/
def text (depth : Nat) : Code → String
  | done => ""
  | line l rest => lineAt depth l.text ++ rest.text depth
  | branch c yes rest =>
    lineAt depth s!"if ({c.text}) \x7b" ++ yes.text (depth + 1) ++ lineAt depth "\x7d" ++
      rest.text depth
  | branchElse c yes no rest =>
    lineAt depth s!"if ({c.text}) \x7b" ++ yes.text (depth + 1) ++ lineAt depth "\x7d else \x7b" ++
      no.text (depth + 1) ++ lineAt depth "\x7d" ++ rest.text depth
  | loop body rest =>
    lineAt depth "loop \x7b" ++ body.text (depth + 1) ++ lineAt depth "\x7d" ++ rest.text depth
  | countLoop h body rest =>
    lineAt depth (h.text ++ " \x7b") ++ body.text (depth + 1) ++ lineAt depth "\x7d" ++
      rest.text depth

end Code

end WgslKernel
