import WgslKernel.Proofs.Source.Lowering

/-!
# Shaders read back

The whole text of a generated shader is read as the tokens of its code, and every expression in it
has one tree, the one that is meant.
-/

namespace WgslKernel

open List

open Source

namespace Source

/-- The tokens of an identifier, of a literal behind one minus sign at most, or of a call. -/
inductive IsOperand : List Token → Prop where
  | name (cs : List Char) : IsOperand [.word cs]
  | literal (cs : List Char) : IsOperand [.number cs]
  | negative (cs : List Char) : IsOperand [.symbol ['-'], .number cs]
  | call {ts us : List Token} {t u : Tree} (hcallee : Derives .callee ts t)
    (hargs : Derives .list us u) : IsOperand (ts ++ .symbol ['('] :: (us ++ [.symbol [')']]))

end Source

namespace Codegen

open WgslKernel.Expr

theorem isOperand_lit (l : Literal) : IsOperand (lit l).tokens := by
  change IsOperand l.tokens
  unfold Literal.tokens
  split
  · exact .negative _
  · exact .literal _

/-- **What stands for a statement is read as one operand.** -/
theorem Operand.isOperand {e : Expr} (h : Operand e) : IsOperand (Source.tokens e.text) := by
  have hcall {callee : Callee} {l : Literal} (hl : l.isWritten = true) :
      IsOperand (call callee [lit l]).tokens :=
    .call callee.derives (.last ((lit l).derives _ (fits_of_unary (fits_lit hl) (by decide))))
  rw [tokens_text h.fits]
  cases h with
  | temp | counter | gridIndex => exact .name _
  | const c =>
    cases c with
    | i32 w =>
      simp only [Value.ofConst, ofInt32]
      split
      · exact hcall rfl
      · exact isOperand_lit _
    | f32 bits =>
      simp only [Value.ofConst, ofFloat]
      split
      · exact isOperand_lit _
      · exact hcall rfl
  | word k => exact isOperand_lit _

variable {ctx : Context} {o : Offload} {d : Draft} {root : StmtId}

/-- The bound of a loop fits. -/
theorem GridBounds.fits {bound : RangeBound} {b : GridBound} (h : GridBounds ctx root bound b) :
    b.stop.fits .expression = true := by
  cases h with
  | field | const => exact fits_of_unary (fits_int _) (by decide)
  | loaded => exact fits_word (fits_of_unary (fits_lit rfl) (by decide)) (by decide)

theorem gridPrologue_fits {config : Config} {stop : Expr} (h : stop.fits .expression = true) :
    ∀ l ∈ gridPrologue config stop, l.Fits := by
  have hstride : (Expr.binary .mul (.convert ⟨.i32, 1⟩ (.select (.ident .numWorkgroups) .x))
      (.int config.workgroupSize)).fits .expression = true :=
    fits_binary rfl (fits_int _) (by decide)
  simp [gridPrologue, hstride, h]

/-- The seeding fits. -/
theorem seedLines_fits : ∀ l ∈ seedLines ctx, l.Fits := by
  have hid : (randId ctx.stage).fits .expression = true := by cases ctx.stage <;> rfl
  have hseed : (Expr.binary .bitXor (.lit (.uint 88675123)) (.convert ⟨.u32, 1⟩
      (.word .globalTmps (.lit (.abstract ctx.config.randSeedWord))))).fits .expression = true :=
    fits_binary rfl (fits_single (fits_word (fits_of_unary (fits_lit rfl) (by decide)) (by decide)))
      (by decide)
  simp only [seedLines, forall_mem_cons, Line.fits_letBind, Line.fits_assign]
  exact ⟨hid, ⟨rfl, rfl⟩, ⟨rfl, rfl⟩, ⟨rfl, rfl⟩, ⟨rfl, hseed⟩, forall_mem_nil _⟩

/-! ## Whole shaders -/

/-- **The lines of a shader fit**, and so does every entry of the table it was made from. -/
theorem fits_of_draft {bindings : BindingMap} (hinv : ctx.module.Inv)
    (hadmits : ∀ (i : Nat) (s : Stmt), ctx.module.stmts[i]? = some s →
      ctx.module.Admits s.block s.kind)
    (ho : o ∈ ctx.module.groups) (hstage : ctx.stage = o.kind.stage) (hgrid : ctx.gridLoop = none)
    (h : draft ctx { bindings } o = .ok d) :
    d.state.values.Entries (Fitting ctx.module) ∧
      ∀ l ∈ (assemble ctx o.kind d).shader.prologue.lines ++
        (assemble ctx o.kind d).shader.body.lines, l.Fits := by
  obtain ⟨grid, roots, inner, around, start, code, hd⟩ := drafted_of_draft hinv ho hstage hgrid h
  have hstart : start.values.Entries (Fitting ctx.module) := by
    rw [hd.values]
    exact entries_nil
  have hfound (s : Stmt) (hs : s ∈ inner.stmts) := hd.placed.found_of_mem hs
  have hcode := hd.walks.fits (fun s hs => ⟨hfound s hs, hadmits s.id s (hfound s hs)⟩) hstart
  refine ⟨hd.walks.entries (yields_fitting hfound) hstart, ?_⟩
  have hseeding : ∀ l ∈ (if d.state.random then seedLines ctx else []), l.Fits := by
    split
    · exact seedLines_fits
    · exact forall_mem_nil _
  simp only [assemble, Code.lines_ofLines, forall_mem_append]
  cases hd.frame with
  | bare hprologue hbody =>
    rw [hprologue, hbody]
    exact ⟨⟨forall_mem_nil _, hseeding⟩, hcode⟩
  | @grid root stop _ hprologue hbody =>
    obtain ⟨hkind, hstmts⟩ := (hd.isGrid root).1 rfl
    obtain ⟨bound, -, -, b, -, hbound, rfl, -⟩ := draft_stop hkind hstmts h hprologue
    rw [hprologue, hbody]
    exact ⟨⟨gridPrologue_fits (hbound.fits), hseeding⟩,
      header_fits rfl rfl rfl hcode (forall_mem_nil _)⟩

end Codegen

theorem Line.takes_slot {l : Line} {c : Category} {e : Expr} (h : (c, e) ∈ l.slots) :
    Category.takes .expression c = true := by
  cases l with
  | declare name type value =>
    cases value with
    | none => cases h
    | some value =>
      cases mem_singleton.1 h
      decide
  | letBind | perform =>
    cases mem_singleton.1 h
    decide
  | assign target value =>
    simp only [slots, mem_cons, Prod.mk.injEq, not_mem_nil, or_false] at h
    rcases h with ⟨rfl, -⟩ | ⟨rfl, -⟩ <;> decide
  | exitLoop | nextIteration | discard => cases h

namespace Session

open Codegen

variable {actions : List Action} {s : Session} {m : Module} {o : Offload} {signature : Signature}
  {config : Config} {previous : Option Task} {p : Program}

/-- **Shaders are read as they are meant.**  In every shader that is generated for a finished
module:

* the text that stands for a statement is a name, a literal behind one minus sign at most, or a
  call;
* the text of the shader, with its template lists found by the rules of the language, is read as
  declarations and then the tokens of its code;
* every expression in the code, be it the value or the target of an assignment, a condition or a
  call, stands among these tokens unbroken and holds none of the marks that end a statement, and the
  grammar derives one tree from it.  This is the tree that was meant. -/
theorem program_reads (hrun : Session.run {} actions = .ok s) (hfinish : s.builder.finish = .ok m)
    (ho : o ∈ m.groups) (hp : program m o signature config previous = .ok p) :
    (∃ bindings d, draft (contextOf m o signature config previous) { bindings } o = .ok d ∧
      p = assemble (contextOf m o signature config previous) o.kind d ∧
      ∀ v : Value, ((∃ x, d.state.values.lookup x = some v) ∨ ∃ c, v = .ofConst c) →
        IsOperand (Source.tokens v.expr.text)) ∧
    (∃ front, Source.tokens p.shader.text = front ++ .symbol ['\x7b'] :: p.shader.mainTokens) ∧
    ∀ l ∈ p.shader.prologue.lines ++ p.shader.body.lines, ∀ c e, (c, e) ∈ l.slots →
      e.tokens <:+: p.shader.mainTokens ∧ Source.tokens e.text = e.tokens ∧
      (∀ x ∈ e.tokens, x.isStop = false) ∧ ∀ t, Derives c e.tokens t ↔ t = e.tree := by
  obtain ⟨hinv, hadmits⟩ := inv_of_finish hrun hfinish
  obtain ⟨bindings, d, hd, rfl⟩ := program_eq_ok hp
  have hinv' : (contextOf m o signature config previous).module.Inv := hinv
  obtain ⟨hentries, hlines⟩ := fits_of_draft hinv' hadmits ho rfl rfl hd
  refine ⟨⟨bindings, d, hd, rfl, ?_⟩, Shader.tokens_text hlines, fun l hl c e he => ?_⟩
  · rintro v (⟨x, hx⟩ | ⟨c, rfl⟩)
    · exact (hentries x v hx).1.isOperand
    · exact (Operand.const c).isOperand
  · have hfits : e.fits c = true := hlines l hl (c, e) he
    exact ⟨Shader.isInfix_of_slot hl he, Expr.tokens_text hfits, (e.derives c hfits).isStop,
      Expr.derives_iff hfits (Line.takes_slot he)⟩

/-- A fragment stage with a negative number, the least one, and an infinite float. -/
def extremes : List Action :=
  [.create (.const (.i32 (-7))), .create (.const (.i32 Int32.minValue)),
    .create (.const (.f32 0x7f800000)), .create .fragmentFor, .openGuard .fragmentFor 3,
    .create (.builtinInput .fragCoord), .create (.binary .cmpLt 4 0), .create (.binary .sub 4 2),
    .create (.extract 5 0), .create (.binary .mod 7 1), .create (.colorOutput 0 [7, 7, 8, 8]),
    .closeGuard 0]

/-- The text has one reading: the `<` behind `t4` is an operator, and others open template lists. -/
theorem program_reads_extremes : ∃ s m p e first rest, Session.run {} extremes = .ok s ∧
    s.builder.finish = .ok m ∧ m.groups = [⟨.fragmentFor, [3]⟩] ∧
    program m ⟨.fragmentFor, [3]⟩ {} {} none = .ok p ∧
    p.shader.body.lines = first :: .letBind (.temp 5) (some ⟨.i32, 4⟩) e :: rest ∧
    e.text = "vec4<i32>(t4 < vec4<f32>(f32(-7i)))" ∧
    (∃ front, Source.tokens p.shader.text = front ++ .symbol ['\x7b'] :: p.shader.mainTokens) ∧
    ∀ t, Derives .expression (Source.tokens e.text) t ↔
      t = .call (.template "vec4".toList (.more (.name "i32".toList) .nothing))
        (.more (.binary .lt (.name "t4".toList)
          (.call (.template "vec4".toList (.more (.name "f32".toList) .nothing))
            (.more (.call (.name "f32".toList)
              (.more (.unary '-' (.literal "7i".toList)) .nothing)) .nothing))) .nothing) := by
  have hkernel : ∃ s m p first rest, Session.run {} extremes = .ok s ∧ s.builder.finish = .ok m ∧
      m.groups = [⟨.fragmentFor, [3]⟩] ∧ program m ⟨.fragmentFor, [3]⟩ {} {} none = .ok p ∧
      p.shader.body.lines = first :: .letBind (.temp 5) (some ⟨.i32, 4⟩)
        (.convert ⟨.i32, 4⟩ (.binary .lt (.ident (.temp 4))
          (.convert ⟨.f32, 4⟩ (.convert ⟨.f32, 1⟩ (.int (-7)))))) :: rest :=
    ⟨_, _, _, _, _, rfl, rfl, rfl, rfl, rfl⟩
  obtain ⟨s, m, p, first, rest, hrun, hfinish, hgroups, hp, hlines⟩ := hkernel
  obtain ⟨-, hshader, hexprs⟩ := program_reads hrun hfinish (by simp [hgroups]) hp
  rw [hlines, forall_mem_append, forall_mem_cons, forall_mem_cons] at hexprs
  obtain ⟨-, htokens, -, htree⟩ := hexprs.2.2.1 _ _ mem_cons_self
  refine ⟨s, m, p, _, first, rest, hrun, hfinish, hgroups, hp, hlines, rfl, hshader, fun t => ?_⟩
  rw [htokens, htree]
  rfl

end Session

end WgslKernel
