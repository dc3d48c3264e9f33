import WgslKernel.Proofs.Simulation.Statements

/-!
# Places

An address is exact in the kernel and wraps around in the shader.  The two differ only where it is
outside of every buffer, so a kernel that does not fault reads and writes the same words.
-/

namespace WgslKernel

open List

namespace Module

variable {m : Module} {x : StmtId}

/-- A place is not taken for a number, nor for a place of another sort. -/
theorem Fits.cell {item : Item} {ty : Prim} (h : m.Fits x item)
    (hkind : m.kind? x = some (.alloca ty)) : ∃ w, item = .cell w ∧ ty = .i32 := by
  cases item with
  | cell w =>
    have hcell : m.kind? x = some (.alloca .i32) := h
    rw [hkind] at hcell
    cases hcell
    exact ⟨w, rfl, rfl⟩
  | _ => simp [Fits, isInteger, isNumber, hkind, Kind.isAddress] at h

theorem Fits.place {item : Item} {f : Field} {indices : List StmtId} {offset : Nat}
    (h : m.Fits x item) (hkind : m.kind? x = some (.globalPtr f indices offset)) :
    ∃ i, item = .place f.buffer i ∧ f.dtype = .i32 := by
  cases item with
  | place buffer i =>
    obtain ⟨g, _, _, hg, hbuffer, hdtype⟩ := h
    rw [hkind] at hg
    cases hg
    exact ⟨i, by rw [hbuffer], hdtype⟩
  | _ => simp [Fits, isInteger, isNumber, hkind, Kind.isAddress] at h

theorem Fits.scratch {item : Item} {ty : Prim} {offset : Nat} (h : m.Fits x item)
    (hkind : m.kind? x = some (.temporary ty offset)) : item = .scratch (offset / 4) := by
  cases item with
  | scratch k =>
    obtain ⟨_, hk, rfl⟩ := h
    rw [hkind] at hk
    cases hk
    rfl
  | _ => simp [Fits, isInteger, isNumber, hkind, Kind.isAddress] at h

end Module

namespace Codegen

variable {ctx : Context} {values : Values} {s : Stmt} {l : Lowering}
  {walked visible around : List StmtId} {iter : StmtId → Int32} {inv : Invocation}
  {fuel : Nat} {f : Frame} {store : Store} {x y ptr : StmtId} {v : Value}

attribute [local simp] Kind.operands

/-! ## Addresses -/

theorem lt_of_fitIndex {n k : Nat} (h : fitIndex n = some k) : k = n ∧ n < indexLimit := by
  unfold fitIndex at h
  split at h
  · exact ⟨(Option.some.inj h).symm, by assumption⟩
  · cases h

/-- The size of a field, once it is known to fit a word. -/
theorem fieldElements_eq_ok {id : StmtId} {f : Field} {n : Nat} (h : fieldElements id f = .ok n) :
    f.elementCount = some n ∧ n < indexLimit := by
  unfold fieldElements at h
  split at h
  · rename_i hcount
    cases h
    obtain ⟨k, hk, hfit⟩ := Option.bind_eq_some_iff.1 hcount
    obtain ⟨rfl, hlt⟩ := lt_of_fitIndex hfit
    exact ⟨hk, hlt⟩
  · simp at h

theorem mapM_fitIndex {ns ks : List Nat} (h : ns.mapM fitIndex = some ks) :
    ks = ns ∧ ∀ n ∈ ns, n < indexLimit := by
  induction ns generalizing ks with
  | nil =>
    rw [mapM_nil] at h
    exact ⟨(Option.some.inj h).symm, by simp⟩
  | cons n ns ih =>
    rw [mapM_cons] at h
    obtain ⟨k, hk, htail⟩ := Option.bind_eq_some_iff.1 h
    obtain ⟨ks', hks, heq⟩ := Option.bind_eq_some_iff.1 htail
    obtain ⟨rfl, hn⟩ := lt_of_fitIndex hk
    obtain ⟨rfl, hns⟩ := ih hks
    exact ⟨(Option.some.inj heq).symm, forall_mem_cons.2 ⟨hn, hns⟩⟩

/-- The strides that a pointer is lowered with are those of the field, and fit an index. -/
theorem fieldStrides_eq_ok {id : StmtId} {g : Field} {strides : List Nat}
    (h : fieldStrides id g = .ok strides) :
    g.strides = some strides ∧ ∀ k ∈ strides, k < indexLimit := by
  unfold fieldStrides at h
  split at h
  · rename_i hstrides
    cases h
    obtain ⟨ks, hks, hfit⟩ := Option.bind_eq_some_iff.1 hstrides
    obtain ⟨rfl, hlt⟩ := mapM_fitIndex hfit
    exact ⟨hks, hlt⟩
  · simp at h

theorem length_stridesFrom {components size : Nat} {shape strides : List Nat}
    (h : Field.stridesFrom components shape = some (strides, size)) :
    strides.length = shape.length := by
  induction shape generalizing strides size with
  | nil =>
    cases h
    rfl
  | cons d ds ih =>
    obtain ⟨⟨ks, n⟩, hks, h⟩ := Option.bind_eq_some_iff.1 h
    obtain ⟨total, -, h⟩ := Option.bind_eq_some_iff.1 h
    cases h
    rw [length_cons, length_cons, ih hks]

theorem length_strides {g : Field} {strides : List Nat} (h : g.strides = some strides) :
    strides.length = g.shape.length := by
  obtain ⟨⟨ks, size⟩, hks, rfl⟩ := Option.map_eq_some_iff.1 h
  exact length_stridesFrom hks

theorem dot_eq (is : List Int) (ks : List Nat) :
    Field.dot is ks = (List.zipWith (fun (i : Int) (k : Nat) => i * k) is ks).sum := by
  induction is generalizing ks with
  | nil => rfl
  | cons i is ih =>
    cases ks with
    | nil => rfl
    | cons k ks => rw [Field.dot, ih, zipWith_cons_cons, sum_cons]

theorem eval_index {n : Nat} (h : n < indexLimit) :
    (Expr.int n).eval inv store = .done (.int (Int32.ofInt n)) :=
  eval_int ⟨by omega, by unfold indexLimit at h; omega⟩

/-- The word that an expression has is that of an exact address. -/
def Addresses (inv : Invocation) (store : Store) (e : Expr) (i : Int) : Prop :=
  e.eval inv store = .done (.int (Int32.ofInt i))

/-- Sums of addresses. -/
theorem Addresses.add {e₁ e₂ : Expr} {i j : Int} (h₁ : Addresses inv store e₁ i)
    (h₂ : Addresses inv store e₂ j) : Addresses inv store (.binary .add e₁ e₂) (i + j) := by
  rw [Addresses, eval_onInts h₁ h₂, Int32.ofInt_add]
  rfl

theorem Addresses.strideTerm {e : Expr} {i : Int} {k : Nat} (h : Addresses inv store e i)
    (hk : k < indexLimit) : Addresses inv store (Codegen.strideTerm e k) (i * k) := by
  unfold Codegen.strideTerm
  split
  · rename_i hone
    rwa [hone, Int.natCast_one, Int.mul_one]
  · rw [Addresses, eval_onInts h (eval_index hk), Int32.ofInt_mul]
    rfl

theorem Addresses.foldl {es : List Expr} {is : List Int}
    (h : List.Forall₂ (Addresses inv store) es is) {e : Expr} {i : Int}
    (he : Addresses inv store e i) :
    Addresses inv store (es.foldl (.binary .add) e) (i + is.sum) := by
  induction h generalizing e i with
  | nil => simpa using he
  | cons hhead _ ih =>
    rw [foldl_cons, sum_cons, ← Int.add_assoc]
    exact ih (he.add hhead)

/-- The sum of the terms and the base. -/
theorem Addresses.sumTerms {es : List Expr} {is : List Int}
    (h : List.Forall₂ (Addresses inv store) es is) {base : Nat} (hbase : base < indexLimit) :
    Addresses inv store (Codegen.sumTerms es base) (is.sum + base) := by
  cases h with
  | nil =>
    rw [sum_nil, Int.zero_add]
    exact eval_index hbase
  | cons hhead htail =>
    have hsum := Addresses.foldl htail hhead
    rw [← sum_cons] at hsum
    unfold Codegen.sumTerms
    dsimp only
    split
    · rename_i hzero
      rwa [hzero, Int.natCast_zero, Int.add_zero]
    · exact hsum.add (eval_index hbase)

/-! ## Local variables -/

/-- Giving a variable another value keeps the agreement: no other entry reads the variable. -/
theorem Agrees.assign {env : StmtId → Option Item} {l l' : Locals} {w : Int32}
    (h : Agrees ctx values visible around iter env l)
    (htab : Tabled ctx values walked visible around)
    (hptr : ctx.module.kind? ptr = some (.alloca .i32))
    (hget : l'.get? (.temp ptr) = some ⟨.temp ptr, true, .int w⟩)
    (hrest : ∀ n, n ≠ .temp ptr → l'.get? n = l.get? n) :
    Agrees ctx values visible around iter
      (fun y => if y = ptr then some (.cell w) else env y) l' := by
  refine ⟨fun {x c} hc => ?_, fun {x v} hx hv => ?_, fun {x} hx hplays => ?_⟩
  · have hne : x ≠ ptr := by
      rintro rfl
      rw [hptr] at hc
      cases hc
    rw [if_neg hne, h.consts hc]
  · obtain ⟨item, hitem, hfits, hdenotes⟩ := h.entry hx hv
    by_cases heq : x = ptr
    · subst heq
      obtain ⟨w', rfl, -⟩ := hfits.cell hptr
      exact ⟨.cell w, by simp, hptr, hdenotes.1, hget⟩
    · refine ⟨item, by rw [if_neg heq, hitem], hfits, hdenotes.congr fun n z hn hz => ?_⟩
      refine hrest n fun hn' => heq ?_
      rw [hn'] at hn
      exact (htab.temps hx hv hn).symm
  · obtain ⟨bound, serial, body, hkind⟩ := hplays.rangeFor
    have hne : x ≠ ptr := by
      rintro rfl
      rw [hptr] at hkind
      cases hkind
    rw [if_neg hne, hrest _ (by simp)]
    exact h.counter hx hplays

namespace Standing

variable (h : Standing ctx values s walked visible around)
  (hag : Agrees ctx values visible around iter f.env store.locals)

section Reading

include h hag

/-- A local variable that is read or written. -/
theorem cell (hx : ptr ∈ s.kind.operands) (hplays : ctx.module.Plays ptr .alloca)
    (hv : ctx.value values s.id ptr = .ok v) :
    ∃ w, f.item ptr = .done (.cell w) ∧ v = ⟨.ident (.temp ptr), .ofPrim .i32⟩ ∧
      store.locals.get? (.temp ptr) = some ⟨.temp ptr, true, .int w⟩ ∧
      ctx.module.kind? ptr = some (.alloca .i32) := by
  obtain ⟨ty, hkind⟩ := hplays.alloca
  obtain ⟨item, henv, hfits, hdenotes⟩ := h.value hag hx hv
  obtain ⟨w, rfl, rfl⟩ := hfits.cell hkind
  exact ⟨w, by simp [Frame.item, henv], hdenotes.1, hdenotes.2, hkind⟩

/-- An element of a field that is read or written. -/
theorem place (inv : Invocation) (hx : ptr ∈ s.kind.operands) {g : Field}
    (hfield : fieldOf ctx s.id ptr = .ok g) (hv : ctx.value values s.id ptr = .ok v) :
    ∃ i, f.item ptr = .done (.place g.buffer i) ∧ g.dtype = .i32 ∧
      v.expr.eval inv store = .done (.int (Int32.ofInt i)) := by
  have hkind : ∃ indices offset, ctx.module.kind? ptr = some (.globalPtr g indices offset) := by
    obtain ⟨kind, hkind, hg⟩ := bind_eq_ok.1 hfield
    obtain ⟨t, ht, hkt⟩ := bind_eq_ok.1 hkind
    cases hkt
    split at hg
    · rename_i indices offset hkind
      cases hg
      exact ⟨indices, offset, by
        rw [Module.kind?, Module.stmt_eq_ok.1 (orFault_eq_ok.1 ht), Option.map_some, hkind]⟩
    · simp at hg
  obtain ⟨indices, offset, hkind⟩ := hkind
  obtain ⟨item, henv, hfits, hdenotes⟩ := h.value hag hx hv
  obtain ⟨i, rfl, hdtype⟩ := hfits.place hkind
  exact ⟨i, by simp [Frame.item, henv], hdtype, hdenotes.2.eval inv⟩

/-- The terms of an address, for the words that the indices have. -/
theorem words (inv : Invocation) {indices : List StmtId} {strides : List Nat} {terms : List Expr}
    (hsub : indices ⊆ s.kind.operands) (hnum : indices.all ctx.module.isNumber = true)
    (hlen : indices.length = strides.length) (hlt : ∀ k ∈ strides, k < indexLimit)
    (hterms : indexTerms ctx values s.id indices strides = .ok terms) :
    ∃ ws, f.words indices = .done ws ∧ List.Forall₂ (Addresses inv store) terms
      (List.zipWith (fun (i : Int) (k : Nat) => i * k) (ws.map Int32.toInt) strides) := by
  induction indices generalizing strides terms with
  | nil =>
    cases hterms
    exact ⟨[], rfl, .nil⟩
  | cons index indices ih =>
    cases strides with
    | nil => cases hlen
    | cons k ks =>
      obtain ⟨v, hv, hterms⟩ := bind_eq_ok.1 hterms
      split at hterms
      · rename_i htype
        obtain ⟨es, hes, hterms⟩ := bind_eq_ok.1 hterms
        cases hterms
        rw [all_cons, Bool.and_eq_true] at hnum
        obtain ⟨hk, hks⟩ := forall_mem_cons.1 hlt
        obtain ⟨w, hw, hreads⟩ := h.word_of_type hag (hsub mem_cons_self) hv hnum.1 htype
        obtain ⟨ws, hws, hall⟩ := ih (fun x hx => hsub (mem_cons_of_mem _ hx)) hnum.2
          (Nat.succ.inj hlen) hks hes
        have hhead : Addresses inv store v.expr w.toInt := by
          rw [Addresses, Int32.ofInt_toInt, hreads.eval inv]
        exact ⟨w :: ws, by simp [Frame.words, hw, hws], .cons (hhead.strideTerm hk) hall⟩
      · simp at hterms

/-- A global temporary that is read or written. -/
theorem scratch (hx : ptr ∈ s.kind.operands) (hplays : ctx.module.Plays ptr .temporary)
    (hv : temporarySlot ctx values s.id ptr = .ok v) :
    ∃ k : Nat, f.item ptr = .done (.scratch k) ∧ v = ⟨.lit (.abstract k), .ofPrim .i32⟩ := by
  obtain ⟨ty, offset, hkind⟩ := hplays.temporary
  obtain ⟨kind, -, hslot⟩ := bind_eq_ok.1 hv
  have hvalue : ctx.value values s.id ptr = .ok v := by
    split at hslot
    · exact hslot
    · simp at hslot
  obtain ⟨item, henv, hfits, hdenotes⟩ := h.value hag hx hvalue
  obtain rfl := hfits.scratch hkind
  exact ⟨offset / 4, by simp [Frame.item, henv], hdenotes⟩

end Reading

variable (hmem : f.memory = store.memory)
include h hag hmem

theorem simulates_alloca {ty : Prim} {type : ShaderType} (hkind : s.kind = .alloca ty)
    (htype : shaderType s.id (.ofPrim ty) = .ok type) :
    Simulates (Follows ctx ((s.id, ⟨.ident (.temp s.id), .ofPrim ty⟩) :: values) (s.id :: visible)
      around [s.id] iter f store) (s.kind.perform s.id f)
      ((Code.line (.declare (.temp s.id) type none) .done).exec inv fuel store) := by
  have hint := h.integral
  rw [hkind, Module.isIntegral_alloca] at hint
  subst hint
  obtain rfl := shaderType_i32 htype
  have hconst : ∀ c, s.kind ≠ .const c := fun c hc => by simp [hkind] at hc
  have hfits : ctx.module.kind? s.id = some (.alloca .i32) := by rw [h.kind?, hkind]
  rw [hkind]
  exact h.follows_declare hag hmem (.inl rfl) (show ctx.module.Fits s.id (.cell 0) from hfits)
    hconst ⟨rfl, Locals.get?_cons_self ⟨.temp s.id, true, .int 0⟩ store.locals⟩

theorem simulates_localLoad {type : ShaderType} (hkind : s.kind = .localLoad ptr)
    (hv : ctx.value values s.id ptr = .ok v) (htype : shaderType s.id v.type = .ok type) :
    Simulates (Follows ctx ((s.id, ⟨.ident (.temp s.id), v.type⟩) :: values) (s.id :: visible)
      around [s.id] iter f store) (s.kind.perform s.id f)
      ((Lowering.bound s.id v.type type v.expr).code.exec inv fuel store) := by
  have hplays := h.admits
  rw [hkind] at hplays
  obtain ⟨w, hitem, rfl, hget, -⟩ := h.cell hag (by simp [hkind]) hplays hv
  obtain rfl := shaderType_i32 htype
  have heval : (Expr.ident (.temp ptr)).eval inv store = .done (.int w) :=
    (Reads.temp hget).eval inv
  rw [hkind, Kind.perform, hitem, Lowering.bound, Code.done_append, exec_letBind heval]
  exact h.follows_word hag hmem (.inl rfl) rfl hkind rfl (by simp) w

theorem simulates_localStore {u : Value} (hkind : s.kind = .localStore ptr x)
    (hu : ctx.value values s.id ptr = .ok u) (hv : ctx.value values s.id x = .ok v)
    (heq : v.type = u.type) :
    Simulates (Follows ctx values (s.id :: visible) around [s.id] iter f store)
      (s.kind.perform s.id f)
      ((Lowering.emit (.assign u.expr v.expr)).code.exec inv fuel store) := by
  have hplays := h.admits
  have hint := h.integral
  rw [hkind] at hplays hint
  obtain ⟨w₀, hitem, rfl, hget, hptr⟩ := h.cell hag (by simp [hkind]) hplays hu
  obtain ⟨w, hw, hreads⟩ := h.word_of_type hag (by simp [hkind]) hv hint heq
  obtain ⟨l', hassign, hnames, hget', hrest⟩ :=
    Locals.assign_of_get? (d := .int w) hget rfl rfl
  have hexec : (Lowering.emit (.assign (.ident (.temp ptr)) v.expr)).code.exec inv fuel store =
      .done (.next, { store with locals := l' }) := by
    simp [Lowering.emit, Code.exec, Line.exec, hreads.eval inv, Store.put, hassign]
  rw [hkind, Kind.perform, hw, hexec]
  simp only [Run.done_bind, hitem]
  exact
    { flow := rfl
      memory := hmem
      grows := .of_names hnames
      keeps := fun {y w'} _ hw' => by
        have hne : y ≠ ptr := by
          rintro rfl
          rw [Frame.item, hw'] at hitem
          cases hitem
        exact (Frame.set_env_of_ne hne).trans hw'
      agrees := (hag.assign h.table hptr hget' hrest).pass h.lookup_none
      inLoop := fun hne => absurd rfl hne }

/-- A pointer is computed exactly, or is outside. -/
theorem simulates_globalPtr {g : Field} {indices : List StmtId} {offset base : Nat}
    {strides : List Nat} {terms : List Expr} {type : ShaderType}
    (hkind : s.kind = .globalPtr g indices offset) (hstrides : fieldStrides s.id g = .ok strides)
    (hterms : indexTerms ctx values s.id indices strides = .ok terms)
    (hbase : fitIndex (g.offsetWords + offset) = some base)
    (htype : shaderType s.id (.ofPrim .i32) = .ok type) :
    Simulates (Follows ctx ((s.id, ⟨.ident (.temp s.id), .ofPrim .i32⟩) :: values)
      (s.id :: visible) around [s.id] iter f store) (s.kind.perform s.id f)
      ((Lowering.bound s.id (.ofPrim .i32) type (sumTerms terms base)).code.exec inv fuel
        store) := by
  have hint := h.integral
  have hadmits := h.admits
  rw [hkind, Module.isIntegral_globalPtr] at hint
  rw [hkind] at hadmits
  obtain ⟨hrank, hlt⟩ := fieldStrides_eq_ok hstrides
  obtain ⟨rfl, hfits⟩ := lt_of_fitIndex hbase
  obtain ⟨ws, hws, hall⟩ := h.words hag inv (by simp [hkind]) hint.2
    (hadmits.1.trans (length_strides hrank).symm) hlt hterms
  have heval := Addresses.sumTerms hall hfits
  obtain rfl := shaderType_i32 htype
  have hconst : ∀ c, s.kind ≠ .const c := fun c hc => by simp [hkind] at hc
  have hindex : g.linearIndex (ws.map Int32.toInt) offset =
      some ((List.zipWith (fun (i : Int) (k : Nat) => i * k) (ws.map Int32.toInt) strides).sum +
        ((g.offsetWords + offset : Nat) : Int)) := by
    rw [Field.linearIndex, hrank, Option.bind_eq_bind, Option.bind_some, dot_eq]
    congr 1
    omega
  have hplace : ctx.module.Fits s.id (.place g.buffer
      ((List.zipWith (fun (i : Int) (k : Nat) => i * k) (ws.map Int32.toInt) strides).sum +
        ((g.offsetWords + offset : Nat) : Int))) :=
    ⟨g, indices, offset, by rw [h.kind?, hkind], rfl, hint.1⟩
  rw [hkind, Kind.perform, hws, Lowering.bound, Code.done_append, exec_letBind heval,
    Run.done_bind, hindex]
  exact h.follows_declare hag hmem (.inl rfl) hplace hconst
    ⟨rfl, .temp (Locals.get?_cons_self ⟨.temp s.id, false, .int _⟩ store.locals)⟩

theorem simulates_globalLoad {g : Field} {type : ShaderType} (hkind : s.kind = .globalLoad ptr)
    (hfield : fieldOf ctx s.id ptr = .ok g) (hv : ctx.value values s.id ptr = .ok v)
    (htype : shaderType s.id (.ofPrim g.dtype) = .ok type) :
    Simulates (Follows ctx ((s.id, ⟨.ident (.temp s.id), .ofPrim g.dtype⟩) :: values)
      (s.id :: visible) around [s.id] iter f store) (s.kind.perform s.id f)
      ((Lowering.bound s.id (.ofPrim g.dtype) type
        (fromWord (.word (.root g.buffer) v.expr) g.dtype) .done
        [ctx.useRoot g.buffer]).code.exec inv fuel store) := by
  obtain ⟨i, hitem, hdtype, heval⟩ :=
    h.place hag inv (by simp [hkind]) hfield hv
  rw [hdtype] at htype ⊢
  obtain rfl := shaderType_i32 htype
  have hword : fromWord (.word (.root g.buffer) v.expr) .i32 = .word (.root g.buffer) v.expr := rfl
  rw [hkind, Kind.perform, hitem, Lowering.bound, Code.done_append, hword,
    exec_letBind_word heval rfl, hmem]
  simp only [Run.done_bind]
  refine (read_simulates _ _ fun h₀ h₁ => toInt_ofInt h₀ h₁).bind ?_
  rintro w _ rfl
  exact h.follows_word hag hmem (.inl rfl) rfl hkind rfl (by simp) w

/-- The same word is written. -/
theorem simulates_globalStore {g : Field} {u : Value} (hkind : s.kind = .globalStore ptr x)
    (hfield : fieldOf ctx s.id ptr = .ok g) (hv : ctx.value values s.id x = .ok v)
    (heq : v.type = .ofPrim g.dtype) (hu : ctx.value values s.id ptr = .ok u) :
    Simulates (Follows ctx values (s.id :: visible) around [s.id] iter f store)
      (s.kind.perform s.id f)
      ((Lowering.emit (.assign (.word (.root g.buffer) u.expr) (toWord v.expr g.dtype))
        [ctx.useRoot g.buffer]).code.exec inv fuel store) := by
  have hint := h.integral
  rw [hkind] at hint
  obtain ⟨i, hitem, hdtype, heval⟩ :=
    h.place hag inv (by simp [hkind]) hfield hu
  rw [hdtype] at heq ⊢
  obtain ⟨w, hw, hreads⟩ := h.word_of_type hag (by simp [hkind]) hv hint heq
  have hword : toWord v.expr .i32 = v.expr := rfl
  rw [hkind, Kind.perform, hw, Lowering.emit, hword,
    exec_assign_word heval rfl (hreads.eval inv), hmem]
  simp only [Run.done_bind, hitem]
  refine (write_simulates _ _ w fun h₀ h₁ => toInt_ofInt h₀ h₁).bind ?_
  rintro memory _ rfl
  exact h.follows_effect hag memory

theorem simulates_temporary {ty : Prim} {offset word : Nat} (hkind : s.kind = .temporary ty offset)
    (hword : temporaryWord ctx.config s.id offset = .ok word) :
    Simulates (Follows ctx ((s.id, ⟨.lit (.abstract word), .ofPrim ty⟩) :: values)
      (s.id :: visible) around [s.id] iter f store) (s.kind.perform s.id f)
      (Code.done.exec inv fuel store) := by
  have hint := h.integral
  rw [hkind, Module.isIntegral_temporary] at hint
  subst hint
  obtain ⟨hoffset, -⟩ := temporaryWord_eq_ok hword
  obtain rfl : word = offset / 4 := by omega
  have hfits : ctx.module.Fits s.id (.scratch (offset / 4)) :=
    ⟨offset, by rw [h.kind?, hkind], rfl⟩
  rw [hkind]
  exact h.follows_standIn hag hmem hfits (fun c hc => by simp [hkind] at hc) rfl

theorem simulates_temporaryLoad {type : ShaderType} (hkind : s.kind = .temporaryLoad ptr)
    (hv : temporarySlot ctx values s.id ptr = .ok v)
    (htype : shaderType s.id v.type = .ok type) :
    Simulates (Follows ctx ((s.id, ⟨.ident (.temp s.id), v.type⟩) :: values) (s.id :: visible)
      around [s.id] iter f store) (s.kind.perform s.id f)
      ((Lowering.bound s.id v.type type (fromWord (.word .globalTmps v.expr) v.type.prim) .done
        [ctx.useGlobalTmps]).code.exec inv fuel store) := by
  have hplays := h.admits
  rw [hkind] at hplays
  obtain ⟨k, hitem, rfl⟩ := h.scratch hag (by simp [hkind]) hplays hv
  obtain rfl := shaderType_i32 htype
  have hword : fromWord (.word .globalTmps (.lit (.abstract k))) (ValueType.ofPrim .i32).prim =
      .word .globalTmps (.lit (.abstract k)) := rfl
  rw [hkind, Kind.perform, hitem, Lowering.bound, Code.done_append, hword,
    exec_letBind_word (d := .abstract k) (by simp [Expr.eval, Literal.eval]) rfl, hmem,
    Run.done_bind]
  dsimp only
  refine (read_simulates _ _ fun _ _ => rfl).bind ?_
  rintro w _ rfl
  exact h.follows_word hag hmem (.inl rfl) rfl hkind rfl (by simp) w

theorem simulates_temporaryStore {u : Value} (hkind : s.kind = .temporaryStore ptr x)
    (hu : temporarySlot ctx values s.id ptr = .ok u) (hv : ctx.value values s.id x = .ok v)
    (heq : v.type = u.type) :
    Simulates (Follows ctx values (s.id :: visible) around [s.id] iter f store)
      (s.kind.perform s.id f)
      ((Lowering.emit (.assign (.word .globalTmps u.expr) (toWord v.expr u.type.prim))
        [ctx.useGlobalTmps]).code.exec inv fuel store) := by
  have hplays := h.admits
  have hint := h.integral
  rw [hkind] at hplays hint
  obtain ⟨k, hitem, rfl⟩ := h.scratch hag (by simp [hkind]) hplays hu
  obtain ⟨w, hw, hreads⟩ := h.word_of_type hag (by simp [hkind]) hv hint heq
  have hword : toWord v.expr (ValueType.ofPrim .i32).prim = v.expr := rfl
  rw [hkind, Kind.perform, hw, Lowering.emit, hword,
    exec_assign_word (d := .abstract k) (by simp [Expr.eval, Literal.eval]) rfl (hreads.eval inv),
    hmem, Run.done_bind, hitem, Run.done_bind]
  dsimp only
  refine (write_simulates _ _ w fun _ _ => rfl).bind ?_
  rintro memory _ rfl
  exact h.follows_effect hag memory

omit hmem in
/-- A word of the return block. -/
theorem operandWord (inv : Invocation) (hx : x ∈ s.kind.operands)
    (hnum : ctx.module.isNumber x = true) (hv : ctx.value values s.id x = .ok v) :
    ∃ item w, f.item x = .done item ∧ item.bits = .done w ∧
      (toWord v.expr v.type.prim).eval inv store = .done (.int w) := by
  rcases h.number hag hx hv hnum with ⟨w, henv, htype, hreads⟩ | ⟨bits, henv, htype, hreads⟩
  · refine ⟨.word w, w, by simp [Frame.item, henv], rfl, ?_⟩
    rw [htype]
    exact hreads.eval inv
  · refine ⟨.float bits, bits.toInt32, by simp [Frame.item, henv], rfl, ?_⟩
    rw [htype]
    exact eval_bitcast (hreads.eval inv)

/-- The lines that fill the return block, from word `k` on. -/
theorem simulates_fill {operands : List StmtId} {words : List Expr} (k : Nat)
    (hsub : operands ⊆ s.kind.operands) (hnum : operands.all ctx.module.isNumber = true)
    (hwords : operandWords ctx values s.id operands = .ok words) (inv : Invocation) (fuel : Nat) :
    Simulates (fun memory b => b = (.next, { store with memory })) (f.fill k operands)
      ((Code.ofLines (returnLines k words)).exec inv fuel store) := by
  induction operands generalizing k words f store with
  | nil =>
    cases hwords
    rw [Frame.fill, hmem]
    exact rfl
  | cons x xs ih =>
    obtain ⟨v, hv, hwords⟩ := bind_eq_ok.1 hwords
    obtain ⟨⟨⟩, -, hwords⟩ := bind_eq_ok.1 hwords
    obtain ⟨es, hes, hwords⟩ := bind_eq_ok.1 hwords
    cases hwords
    rw [all_cons, Bool.and_eq_true] at hnum
    obtain ⟨item, w, hitem, hbits, heval⟩ :=
      h.operandWord hag inv (hsub mem_cons_self) hnum.1 (scalar_eq_ok.1 hv).1
    rw [Frame.fill, hitem, Run.done_bind, hbits, Run.done_bind, returnLines, Code.ofLines,
      Code.exec, hmem,
      line_assign_word (d := .abstract k) (by simp [Expr.eval, Literal.eval]) rfl heval,
      Run.bind_andThen]
    refine (write_simulates _ _ w fun _ _ => rfl).bind ?_
    rintro memory _ rfl
    have hag' : Agrees ctx values visible around iter ({ f with memory } : Frame).env
        ({ store with memory } : Store).locals := hag
    exact ih hag' rfl (k + 1) (fun y hy => hsub (mem_cons_of_mem x hy)) hnum.2 hes

/-- The same words are returned. -/
theorem simulates_ret {operands : List StmtId} {words : List Expr}
    (hkind : s.kind = .ret operands)
    (hwords : operandWords ctx values s.id operands = .ok words) :
    Simulates (Follows ctx values (s.id :: visible) around [s.id] iter f store)
      (s.kind.perform s.id f) ((Code.ofLines (returnLines 0 words)).exec inv fuel store) := by
  have hint := h.integral
  rw [hkind] at hint
  have hfill := h.simulates_fill hag hmem 0 (by simp [hkind]) hint hwords
    inv fuel
  rw [hkind, Kind.perform]
  refine hfill.map_left ?_
  rintro memory _ rfl
  exact h.follows_effect hag memory

end Standing

end Codegen

end WgslKernel
