import WgslKernel.Proofs.Interface.Accesses
import WgslKernel.Proofs.Interface.Tokens

/-!
# The stage interface in the text of code

`Calm L` says of a text that no structure is declared in it, and that all that is taken from the
stage structures are members of `L`.  Texts are put together with separators, so expressions, lines
and blocks are calm if their parts are.
-/

namespace WgslKernel

open List

variable {L : StageLayout} {a b s x : String}

/-! ## Calm texts -/

/-- The words that matter for the interface. -/
def reserved : List String := ["struct", "stage_input", "stage_output"]

/-- No structure is declared, and members of the layout are taken from the stage structures. -/
structure Calm (L : StageLayout) (text : String) : Prop where
  unstructured : "struct" ∉ tokens text
  inputs : Heeds "stage_input" (L.inputs.map fun m => m.name.text) (tokens text)
  outputs : Heeds "stage_output" (L.outputs.map fun m => m.name.text) (tokens text)

/-- Fixed text that declares no structure and takes no member. -/
def isPlainText (text : String) : Bool :=
  "struct" ∉ tokens text && neverTaken "stage_input" (tokens text) &&
    neverTaken "stage_output" (tokens text)

theorem calm_of_isPlainText (h : isPlainText x = true) : Calm L x := by
  rw [isPlainText, Bool.and_eq_true, Bool.and_eq_true, decide_eq_true_eq] at h
  exact ⟨h.1.1, heeds_of_neverTaken h.1.2, heeds_of_neverTaken h.2⟩

theorem calm_of_not_reserved (h : ∀ w ∈ reserved, w ∉ tokens x) : Calm L x :=
  ⟨h _ (by decide), heeds_of_not_mem (h _ (by decide)), heeds_of_not_mem (h _ (by decide))⟩

/-- All reserved words have an `s`. -/
theorem calm_of_not_mem (h : 's' ∉ x.toList) : Calm L x := by
  have hs : ∀ w ∈ reserved, 's' ∈ w.toList := by decide
  exact calm_of_not_reserved fun w hw => not_mem_tokens (hs w hw) h

/-- Words that are not reserved. -/
theorem calm_of_isWord (h : isWord x = true) (hother : x ∉ reserved) : Calm L x := by
  rcases eq_or_ne x "" with rfl | hne
  · exact calm_of_isPlainText (by decide)
  · refine calm_of_not_reserved fun w hw => ?_
    rw [tokens_word h hne, mem_singleton]
    rintro rfl
    exact hother hw

theorem not_reserved_of_head (h : x.toList.head? ≠ some 's') : x ∉ reserved := by
  have hhead : ∀ w ∈ reserved, w.toList.head? = some 's' := by decide
  exact fun hw => h (hhead x hw)

theorem not_reserved_of_last (h : x.toList.getLast? ≠ some 't') : x ∉ reserved := by
  have hlast : ∀ w ∈ reserved, w.toList.getLast? = some 't' := by decide
  exact fun hw => h (hlast x hw)

/-! ### Putting texts together -/

/-- Calm texts stay calm when kept apart. -/
theorem Calm.append (ha : Calm L a) (hb : Calm L b) (h : Apart a b) : Calm L (a ++ b) := by
  have htokens := tokens_append h
  refine ⟨?_, ?_, ?_⟩
  · rw [htokens, mem_append, not_or]
    exact ⟨ha.unstructured, hb.unstructured⟩
  · rw [htokens]
    exact ha.inputs.append hb.inputs
  · rw [htokens]
    exact ha.outputs.append hb.outputs

/-- Fixed text that something can follow. -/
def isLead (text : String) : Bool := isPlainText text && !endsWord text

/-- Fixed text that can follow something. -/
def isTail (text : String) : Bool := isPlainText text && !opensWord text

/-- Fixed text that keeps what is around it apart. -/
def isSeparator (text : String) : Bool := isLead text && isTail text && text != ""

theorem Calm.lead (ha : isLead a = true) (hb : Calm L b) : Calm L (a ++ b) := by
  rw [isLead, Bool.and_eq_true, Bool.not_eq_true'] at ha
  exact (calm_of_isPlainText ha.1).append hb (.inl ha.2)

theorem Calm.tail (ha : Calm L a) (hb : isTail b = true) : Calm L (a ++ b) := by
  rw [isTail, Bool.and_eq_true, Bool.not_eq_true'] at hb
  exact ha.append (calm_of_isPlainText hb.1) (.inr hb.2)

theorem Calm.between (ha : Calm L a) (hs : isSeparator s = true) (hb : Calm L b) :
    Calm L (a ++ s ++ b) := by
  rw [isSeparator, Bool.and_eq_true, Bool.and_eq_true, bne_iff_ne] at hs
  have hend : endsWord s = false := by
    have := hs.1.1
    rw [isLead, Bool.and_eq_true, Bool.not_eq_true'] at this
    exact this.2
  exact (ha.tail hs.1.2).append hb (.inl (endsWord_close hs.2 hend))

/-! ## Names and literals -/

theorem Ident.isWord_text (n : Ident) : isWord n.text = true := by
  cases n with
  | resource r => exact r.isWord_name
  | _ => simp +decide [text, toString]

theorem Resource.getLast_name (r : Resource) : r.name.toList.getLast? = some '_' := by
  unfold name
  cases r.kind <;> simp [toString, List.getLast?_cons]

theorem Ident.calm_text {n : Ident} (h : (Name.ident n).isStage = false) : Calm L n.text := by
  refine calm_of_isWord n.isWord_text ?_
  cases n with
  | temp | counter | remainder | seen | wanted | outcome =>
    exact not_reserved_of_head (by simp [text, toString])
  | resource r => exact not_reserved_of_last (by simp [text, r.getLast_name])
  | stageInput | stageOutput => cases h
  | _ => decide

theorem MemberName.isWord_text (name : MemberName) : isWord name.text = true := by
  cases name <;> simp +decide [text, toString]

theorem MemberName.text_ne_empty (name : MemberName) : name.text ≠ "" := by
  cases name <;> simp [text]

theorem MemberName.head_text (name : MemberName) : name.text.toList.head? ≠ some 's' := by
  cases name <;> simp [text, toString]

/-- Members are none of the reserved words. -/
theorem MemberName.text_ne_reserved (name : MemberName) :
    name.text ≠ "struct" ∧ name.text ≠ "stage_input" ∧ name.text ≠ "stage_output" := by
  simpa [reserved] using not_reserved_of_head name.head_text

theorem Selector.calm_text (sel : Selector) : Calm L sel.text := by
  cases sel with
  | stage name => exact calm_of_isWord name.isWord_text (not_reserved_of_head name.head_text)
  | _ => exact calm_of_isPlainText (by decide)

theorem ShaderType.not_mem_name (t : ShaderType) {c : Char} (hc : c = 's' ∨ c = '\x7d') :
    c ∉ t.name.toList := by
  have hvec : c.isDigit = false ∧ c ∉ "vec<>".toList := by rcases hc with rfl | rfl <;> decide
  have hscalar : c ∉ t.scalar.name.toList := by
    rcases hc with rfl | rfl <;> cases t.scalar <;> decide
  have hwidth : c ∉ t.width.repr.toList := by
    intro hmem
    have hdigit := isDigit_toDigits (by simpa using hmem)
    rw [hvec.1] at hdigit
    cases hdigit
  unfold name
  split
  · exact hscalar
  · simp_all [toString]

theorem ShaderType.calm_name (t : ShaderType) : Calm L t.name :=
  calm_of_not_mem (t.not_mem_name (.inl rfl))

/-! ## Code -/

theorem Callee.calm_text (c : Callee) : Calm L c.text := by
  cases c with
  | func f => cases f <;> exact calm_of_isPlainText (by decide)
  | construct type => exact type.calm_name
  | bitcast type => exact (type.calm_name.lead (by decide)).tail (by decide)

theorem Operator.calm_symbol (op : Operator) : Calm L op.symbol := by
  cases op <;> exact calm_of_isPlainText (by decide)

theorem calm_intercalate {texts : List String} (h : ∀ t ∈ texts, Calm L t) :
    Calm L (String.intercalate ", " texts) := by
  have hcons {t : String} {more : List String} (ht : Calm L t)
      (hmore : Calm L (String.intercalate ", " more)) :
      Calm L (String.intercalate ", " (t :: more)) := by
    cases more with
    | nil => simpa using ht
    | cons u more =>
      rw [String.intercalate_cons_cons]
      exact ht.between (by decide) hmore
  induction texts with
  | nil => exact calm_of_isPlainText (by decide)
  | cons t texts ih =>
    obtain ⟨ht, htexts⟩ := forall_mem_cons.1 h
    exact hcons ht (ih htexts)

theorem Expr.texts_eq_map (es : List Expr) : texts es = es.map text := by
  induction es with
  | nil => rfl
  | cons e es ih => rw [texts, ih, map_cons]

/-- What taking a member from a stage structure reads as. -/
theorem tokens_member {base : String} (hword : isWord base = true) (hne : base ≠ "")
    (name : MemberName) : tokens (base ++ "." ++ name.text) = [base, ".", name.text] := by
  rw [tokens_append (.inl (endsWord_close (by decide) (by decide))),
    tokens_append (.inr (by decide)), tokens_word hword hne,
    tokens_word name.isWord_text name.text_ne_empty]
  rfl

/-- **The text of an expression is calm** if the expression is within the layout. -/
theorem Expr.Within.calm {e : Expr} (h : e.Within L) : Calm L e.text := by
  induction h with
  | ident hn => exact Ident.calm_text hn
  | lit l => exact calm_of_not_mem (not_mem_of_isNumeric l.isNumeric_text (by decide))
  | neg _ ih | bitNot _ ih | address _ ih => exact ih.lead (by decide)
  | binary op _ _ iha ihb => exact (iha.between (by decide) op.calm_symbol).between (by decide) ihb
  | paren _ ih => exact (ih.lead (by decide)).tail (by decide)
  | call callee _ ih =>
    refine (callee.calm_text.between (by decide) (calm_intercalate ?_)).tail (by decide)
    rw [Expr.texts_eq_map]
    intro t ht
    obtain ⟨e, he, rfl⟩ := mem_map.1 ht
    exact ih e he
  | select selector _ ih => exact ih.between (by decide) selector.calm_text
  | @input m hm =>
    have htokens : tokens (Expr.input m.name).text = ["stage_input", ".", m.name.text] :=
      tokens_member (by decide) (by decide) _
    obtain ⟨hstruct, hinput, houtput⟩ := m.name.text_ne_reserved
    refine ⟨?_, ?_, ?_⟩ <;> rw [htokens]
    · simp [hstruct.symm]
    · exact heeds_member (mem_map_of_mem hm) (by decide) hinput
    · exact heeds_of_not_mem (by simp [houtput.symm])
  | @output m hm =>
    have htokens : tokens (Expr.output m.name).text = ["stage_output", ".", m.name.text] :=
      tokens_member (by decide) (by decide) _
    obtain ⟨hstruct, hinput, houtput⟩ := m.name.text_ne_reserved
    refine ⟨?_, ?_, ?_⟩ <;> rw [htokens]
    · simp [hstruct.symm]
    · exact heeds_of_not_mem (by simp [hinput.symm])
    · exact heeds_member (mem_map_of_mem hm) (by decide) houtput
  | index _ _ ihe ihi => exact (ihe.between (by decide) ihi).tail (by decide)

/-! ### Lines -/

/-- A line within the layout is calm. -/
theorem Line.Within.calm {l : Line} (h : l.Within L) : Calm L l.text := by
  cases l with
  | letBind n type e =>
    obtain ⟨hn, he⟩ := h
    have hstart : Calm L ("let " ++ n.text) := (Ident.calm_text hn).lead (by decide)
    cases type with
    | none => exact (hstart.between (by decide) he.calm).tail (by decide)
    | some type =>
      have htyped := hstart.between (s := ": ") (by decide) type.calm_name
      exact (htyped.between (by decide) he.calm).tail (by decide)
  | declare n type value =>
    obtain ⟨hn, hvalue⟩ := h
    have hstart : Calm L ("var " ++ n.text) := (Ident.calm_text hn).lead (by decide)
    have htyped := hstart.between (s := ": ") (by decide) type.calm_name
    cases value with
    | none => exact htyped.tail (by decide)
    | some e => exact (htyped.between (by decide) (hvalue e rfl).calm).tail (by decide)
  | assign target value => exact (h.1.calm.between (by decide) h.2.calm).tail (by decide)
  | perform e => exact Expr.Within.calm h |>.tail (by decide)
  | exitLoop | nextIteration | discard => exact calm_of_isPlainText (by decide)

theorem LoopHeader.Within.calm {h : LoopHeader} (hh : h.Within L) : Calm L h.text := by
  have hv := Ident.calm_text (L := L) hh.counter
  have hstart := (hv.lead (a := "for (var ") (by decide)).between (s := ": i32 = ") (by decide)
    hh.start.calm
  have hstop := (hstart.between (s := "; ") (by decide) hv).between (s := " < ") (by decide)
    hh.stop.calm
  have hstep := ((hstop.between (s := "; ") (by decide) hv).between (s := " = ") (by decide)
    hv).between (s := " + ") (by decide) hh.step.calm
  exact hstep.tail (by decide)

/-- Calm text that other text can follow. -/
def Settled (L : StageLayout) (text : String) : Prop := Calm L text ∧ endsWord text = false

theorem Settled.append (ha : Settled L a) (hb : Settled L b) : Settled L (a ++ b) :=
  ⟨ha.1.append hb.1 (.inl ha.2), endsWord_append ha.2 hb.2⟩

theorem settled_lineAt (depth : Nat) (h : Calm L x) : Settled L (Code.lineAt depth x) := by
  have hindent : Settled L (String.ofList (List.replicate (4 * depth) ' ')) := by
    refine ⟨calm_of_not_mem (by simp), ?_⟩
    rw [endsWord, String.toList_ofList, List.getLast?_replicate]
    split <;> rfl
  exact ⟨(hindent.1.append h (.inl hindent.2)).tail (by decide),
    endsWord_close (by decide) (by decide)⟩

/-- **The text of code is calm** if the code is within the layout. -/
theorem Code.Within.settled {c : Code} (h : c.Within L) (depth : Nat) :
    Settled L (c.text depth) := by
  have hplain {x : String} (hx : isPlainText x = true) (depth : Nat) :
      Settled L (Code.lineAt depth x) := settled_lineAt depth (calm_of_isPlainText hx)
  have hopen {cond : Expr} (hcond : cond.Within L) (depth : Nat) :
      Settled L (Code.lineAt depth s!"if ({cond.text}) \x7b") :=
    settled_lineAt depth ((hcond.calm.lead (by decide)).tail (by decide))
  induction c generalizing depth with
  | done => exact ⟨calm_of_not_mem not_mem_nil, rfl⟩
  | line l rest ih => exact (settled_lineAt depth (Line.Within.calm h.1)).append (ih h.2 depth)
  | branch cond yes rest ihYes ihRest =>
    obtain ⟨hcond, hyes, hrest⟩ := h
    exact (((hopen hcond depth).append (ihYes hyes _)).append (hplain (by decide) depth)).append
      (ihRest hrest depth)
  | branchElse cond yes no rest ihYes ihNo ihRest =>
    obtain ⟨hcond, hyes, hno, hrest⟩ := h
    exact (((((hopen hcond depth).append (ihYes hyes _)).append (hplain (by decide) depth)).append
      (ihNo hno _)).append (hplain (by decide) depth)).append (ihRest hrest depth)
  | loop body rest ihBody ihRest =>
    obtain ⟨hbody, hrest⟩ := h
    exact (((hplain (by decide) depth).append (ihBody hbody _)).append
      (hplain (by decide) depth)).append (ihRest hrest depth)
  | countLoop header body rest ihBody ihRest =>
    obtain ⟨hheader, hbody, hrest⟩ := h
    exact (((settled_lineAt depth (hheader.calm.tail (by decide))).append (ihBody hbody _)).append
      (hplain (by decide) depth)).append (ihRest hrest depth)

end WgslKernel
