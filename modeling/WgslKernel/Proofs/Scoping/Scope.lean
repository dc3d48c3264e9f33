import WgslKernel.Proofs.Codegen.Walk
import WgslKernel.Proofs.Scoping.Names

/-!
# Scopes

A declaration reaches from the line behind it to the closing brace of the block it stands in; the
counter of a loop reaches over the loop's body.
-/

namespace WgslKernel

/-! ## Where names occur -/

/-- A call names the function, unless it is built in. -/
def Callee.names : Callee → List Name
  | func f => if f.isHelper then [.helper f] else []
  | construct _ | bitcast _ => []

namespace Expr

mutual

/-- The names in an expression. -/
def names : Expr → List Name
  | ident n => [.ident n]
  | lit _ => []
  | neg e | bitNot e | paren e | address e | select e _ => e.names
  | binary _ lhs rhs => lhs.names ++ rhs.names
  | call callee args => callee.names ++ namesOf args
  | index e i => e.names ++ i.names

/-- The names in the arguments of a call. -/
def namesOf : List Expr → List Name
  | [] => []
  | e :: es => e.names ++ namesOf es

end

end Expr

/-- The names that a line uses. -/
def Line.names : Line → List Name
  | letBind _ _ e | declare _ _ (some e) | perform e => e.names
  | assign target value => target.names ++ value.names
  | declare _ _ none | exitLoop | nextIteration | discard => []

/-- The names that a line declares. -/
def Line.binds : Line → List Name
  | letBind n _ _ | declare n _ _ => [.ident n]
  | assign _ _ | perform _ | exitLoop | nextIteration | discard => []

/-- The names that the header of a loop uses, apart from the counter it declares. -/
def LoopHeader.names (h : LoopHeader) : List Name := h.start.names ++ h.stop.names ++ h.step.names

/-! ## Scoped code -/

namespace Code

/-- The names declared for the code that follows, the latest first. -/
def binds : Code → List Name
  | done => []
  | line l rest => rest.binds ++ l.binds
  | branch _ _ rest | branchElse _ _ _ rest | loop _ rest | countLoop _ _ rest => rest.binds

/-- All declared names, at any depth, in the order of their declarations. -/
def declared : Code → List Name
  | done => []
  | line l rest => l.binds ++ rest.declared
  | branch _ yes rest => yes.declared ++ rest.declared
  | branchElse _ yes no rest => yes.declared ++ (no.declared ++ rest.declared)
  | loop body rest => body.declared ++ rest.declared
  | countLoop h body rest => .ident h.counter :: (body.declared ++ rest.declared)

/-- The headers of the counting loops, at any depth, in order. -/
def headers : Code → List LoopHeader
  | done => []
  | line _ rest => rest.headers
  | branch _ yes rest => yes.headers ++ rest.headers
  | branchElse _ yes no rest => yes.headers ++ (no.headers ++ rest.headers)
  | loop body rest => body.headers ++ rest.headers
  | countLoop h body rest => h :: (body.headers ++ rest.headers)

/-- Every name is used within the reach of its declaration; those of `scope` are from outside. -/
def Scoped (scope : List Name) : Code → Prop
  | done => True
  | line l rest => l.names ⊆ scope ∧ rest.Scoped (l.binds ++ scope)
  | branch c yes rest => c.names ⊆ scope ∧ yes.Scoped scope ∧ rest.Scoped scope
  | branchElse c yes no rest =>
    c.names ⊆ scope ∧ yes.Scoped scope ∧ no.Scoped scope ∧ rest.Scoped scope
  | loop body rest => body.Scoped scope ∧ rest.Scoped scope
  | countLoop h body rest =>
    h.names ⊆ scope ∧ body.Scoped (.ident h.counter :: scope) ∧ rest.Scoped scope

@[simp] theorem binds_append (c d : Code) : (c ++ d).binds = d.binds ++ c.binds := by
  induction c <;> simp_all [binds]

@[simp] theorem declared_append (c d : Code) : (c ++ d).declared = c.declared ++ d.declared := by
  induction c <;> simp_all [declared]

@[simp] theorem headers_append (c d : Code) : (c ++ d).headers = c.headers ++ d.headers := by
  induction c <;> simp_all [headers]

/-- Code is scoped in sequence. -/
theorem scoped_append {c d : Code} {scope : List Name} :
    (c ++ d).Scoped scope ↔ c.Scoped scope ∧ d.Scoped (c.binds ++ scope) := by
  induction c generalizing scope <;> simp_all [Scoped, binds, and_assoc]

end Code

/-! ## Scoped shaders -/

/-- A declaration outside of all code. -/
structure Decl where
  uses : List Name
  declares : List Name

/-- Every declaration uses only names declared before. -/
def Decl.Scoped (scope : List Name) : List Decl → Prop
  | [] => True
  | d :: ds => d.uses ⊆ scope ∧ Decl.Scoped (scope ++ d.declares) ds

/-- A resource is a variable, and a buffer has a structure for its words. -/
def Global.decls (g : Global) : List Decl :=
  let r := g.binding.resource
  match g.declaration with
  | .buffer .. => [⟨[], [.wordsOf r]⟩, ⟨[.wordsOf r], [.ident (.resource r)]⟩]
  | .handle _ => [⟨[], [.ident (.resource r)]⟩]

/-- The random-number generator: its state, and the two functions that draw a number. -/
def randomDecls : List Decl :=
  [⟨[], [.randStruct]⟩, ⟨[.randStruct], [.ident .randState]⟩,
    ⟨[.ident .randState], [.helper .randU32]⟩, ⟨[.helper .randU32], [.helper .randF32]⟩]

namespace Shader

/-- The entry point, its parameters, and the variable for its result. -/
def entryDecls (s : Shader) : List Decl :=
  match s.stage with
  | .compute => [⟨[], [.entry, .ident .globalInvocationId, .ident .numWorkgroups]⟩]
  | _ =>
    ⟨(if s.layout.inputs.isEmpty then [] else [.inputStruct]) ++
        (if s.layout.outputs.isEmpty then [] else [.outputStruct]),
      .entry :: if s.layout.inputs.isEmpty then [] else [.ident .stageInput]⟩ ::
    if s.returnsOutput then [⟨[.outputStruct], [.ident .stageOutput]⟩] else []

/-- The declarations ahead of the code, in the order of the text. -/
def decls (s : Shader) : List Decl :=
  s.globals.flatMap Global.decls ++ (if s.random then randomDecls else []) ++
    (if s.layout.inputs.isEmpty then [] else [⟨[], [.inputStruct]⟩]) ++
    (if s.layout.outputs.isEmpty then [] else [⟨[], [.outputStruct]⟩]) ++ s.entryDecls

/-- The names declared ahead of the code. -/
def outer (s : Shader) : List Name := s.decls.flatMap Decl.declares

/-- All declared names. -/
def declared (s : Shader) : List Name := s.outer ++ (s.prologue ++ s.body).declared

/-- Every name is declared once, and is used behind its declaration and within its reach. -/
structure WellScoped (s : Shader) : Prop where
  once : (s.declared.map Name.text).Nodup
  decls : Decl.Scoped [] s.decls
  code : (s.prologue ++ s.body).Scoped s.outer

end Shader

end WgslKernel
