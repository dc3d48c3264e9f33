import WgslKernel.Proofs.Bindings.Declarations

/-!
# Tokens of a shader

What a device reads in a shader text are its tokens: words, and all other characters one by one.
The structures, the members taken from a name, the buffers and the names declared outside of code
are read off them.  Pieces that are kept apart can be read one by one (`tokens_append`).
-/

namespace WgslKernel

open List

/-! ## Reading tokens -/

/-- Characters that make up words. -/
def wordChar (c : Char) : Bool := c.isAlphanum || c == '_'

/-- A word as a token, if there is one. -/
def wordToken (word : List Char) : List String := if word = [] then [] else [String.ofList word]

/-- Any other character as a token.  Blanks and line ends only part tokens. -/
def markToken (c : Char) : List String := if c = ' ' ∨ c = '\n' then [] else [String.ofList [c]]

/-- The tokens of a text behind the beginning of a word. -/
def tokensFrom : List Char → List Char → List String
  | word, [] => wordToken word
  | word, c :: cs =>
    if wordChar c then tokensFrom (word ++ [c]) cs
    else wordToken word ++ (markToken c ++ tokensFrom [] cs)

/-- The tokens of a text. -/
def tokens (text : String) : List String := tokensFrom [] text.toList

example : tokens "let t0: f32 = stage_input.varying_3;" =
    ["let", "t0", ":", "f32", "=", "stage_input", ".", "varying_3", ";"] := by decide

/-- A text begins with a word. -/
def opensWord (text : String) : Bool := text.toList.head?.any wordChar

/-- A text ends with a word. -/
def endsWord (text : String) : Bool := text.toList.getLast?.any wordChar

/-- No word reaches from one text into the other. -/
def Apart (a b : String) : Prop := endsWord a = false ∨ opensWord b = false

theorem tokensFrom_append {b : List Char} (hb : b.head?.any wordChar = false)
    (word a : List Char) : tokensFrom word (a ++ b) = tokensFrom word a ++ tokensFrom [] b := by
  induction a generalizing word with
  | nil =>
    cases b with
    | nil => simp [tokensFrom, wordToken]
    | cons c cs =>
      have hc : wordChar c = false := by simpa using hb
      simp [tokensFrom, wordToken, hc]
  | cons c a ih =>
    rw [cons_append, tokensFrom, tokensFrom]
    split
    · exact ih _
    · rw [ih, List.append_assoc, List.append_assoc]

/-- **The tokens of two texts** that are apart. -/
theorem tokens_append {a b : String} (h : Apart a b) : tokens (a ++ b) = tokens a ++ tokens b := by
  rw [tokens, String.toList_append]
  rcases h with ha | hb
  · rcases eq_nil_or_concat a.toList with hnil | ⟨init, c, hc⟩
    · rw [tokens, hnil]
      rfl
    · rw [concat_eq_append] at hc
      have hmark : wordChar c = false := by simpa [endsWord, hc] using ha
      have hstep (rest : List Char) :
          tokensFrom [] (c :: rest) = markToken c ++ tokensFrom [] rest := by
        simp [tokensFrom, wordToken, hmark]
      rw [tokens, tokens, hc, List.append_assoc, singleton_append,
        tokensFrom_append (by simpa using hmark), tokensFrom_append (by simpa using hmark), hstep,
        hstep, List.append_assoc, List.append_assoc]
      rfl
  · exact tokensFrom_append hb [] a.toList

/-- The characters of a word are one token. -/
theorem tokensFrom_word {cs : List Char} (h : cs.all wordChar = true) (word : List Char) :
    tokensFrom word cs = wordToken (word ++ cs) := by
  induction cs generalizing word with
  | nil => simp [tokensFrom]
  | cons c cs ih =>
    rw [all_cons, Bool.and_eq_true] at h
    rw [tokensFrom, if_pos h.1, ih h.2, List.append_assoc, singleton_append]

/-- A word is one token. -/
theorem tokens_word {text : String} (h : isWord text = true) (hne : text ≠ "") :
    tokens text = [text] := by
  have hword : tokensFrom [] text.toList = wordToken ([] ++ text.toList) := tokensFrom_word h []
  rw [tokens, hword, nil_append, wordToken, if_neg (by simpa using hne), String.ofList_toList]

/-- Tokens have no characters but those of the text. -/
theorem mem_of_mem_tokensFrom {word cs : List Char} {t : String} (h : t ∈ tokensFrom word cs)
    {c : Char} (hc : c ∈ t.toList) : c ∈ word ∨ c ∈ cs := by
  have hword {w : List Char} (ht : t ∈ wordToken w) : c ∈ w := by
    unfold wordToken at ht
    split at ht
    · cases ht
    · rw [mem_singleton.1 ht, String.toList_ofList] at hc
      exact hc
  induction cs generalizing word with
  | nil => exact .inl (hword h)
  | cons d cs ih =>
    rw [tokensFrom] at h
    split at h
    · rcases ih h with hc | hc
      · rcases mem_append.1 hc with hc | hc
        · exact .inl hc
        · exact .inr (mem_cons.2 (.inl (mem_singleton.1 hc)))
      · exact .inr (mem_cons_of_mem _ hc)
    · rcases mem_append.1 h with h | h
      · exact .inl (hword h)
      rcases mem_append.1 h with h | h
      · unfold markToken at h
        split at h
        · cases h
        · rw [mem_singleton.1 h, String.toList_ofList] at hc
          exact .inr (mem_cons.2 (.inl (mem_singleton.1 hc)))
      · rcases ih h with hc | hc
        · cases hc
        · exact .inr (mem_cons_of_mem _ hc)

theorem not_mem_tokens {text t : String} {c : Char} (hc : c ∈ t.toList) (h : c ∉ text.toList) :
    t ∉ tokens text := fun ht =>
  (mem_of_mem_tokensFrom ht hc).elim (fun h => by cases h) h

theorem endsWord_append {a b : String} (ha : endsWord a = false) (hb : endsWord b = false) :
    endsWord (a ++ b) = false := by
  rw [endsWord, String.toList_append, List.getLast?_append]
  cases hlast : b.toList.getLast? with
  | none => simpa [endsWord] using ha
  | some c => simpa [endsWord, hlast] using hb

theorem endsWord_close {a b : String} (hne : b ≠ "") (hb : endsWord b = false) :
    endsWord (a ++ b) = false := by
  rw [endsWord, String.toList_append, List.getLast?_append_of_ne_nil _ (by simpa using hne)]
  exact hb

/-- Separators keep tokens apart. -/
theorem tokens_between {a s b : String} (hne : s ≠ "") (hopen : opensWord s = false)
    (hend : endsWord s = false) : tokens (a ++ s ++ b) = tokens a ++ tokens s ++ tokens b := by
  rw [tokens_append (.inl (endsWord_close hne hend)), tokens_append (.inr hopen)]

/-! ## What stands behind a point -/

/-- Wherever a point follows the word `base`, one of `names` follows the point. -/
def Heeds (base : String) (names : List String) : List String → Prop
  | [] => True
  | t :: ts =>
    (t = base → ∃ next rest, ts = next :: rest ∧
      (next = "." → ∃ x ∈ names, ∃ tail, rest = x :: tail)) ∧ Heeds base names ts

variable {base : String} {names ts us : List String}

theorem heeds_of_not_mem (h : base ∉ ts) : Heeds base names ts := by
  induction ts with
  | nil => trivial
  | cons t ts ih =>
    rw [mem_cons, not_or] at h
    exact ⟨fun heq => absurd heq.symm h.1, ih h.2⟩

/-- No point follows the word `base`. -/
def neverTaken (base : String) : List String → Bool
  | [] => true
  | t :: ts => (t != base || ts.head?.any (· != ".")) && neverTaken base ts

theorem heeds_of_neverTaken (h : neverTaken base ts = true) : Heeds base names ts := by
  induction ts with
  | nil => trivial
  | cons t ts ih =>
    rw [neverTaken, Bool.and_eq_true, Bool.or_eq_true, bne_iff_ne] at h
    refine ⟨fun heq => ?_, ih h.2⟩
    rcases h.1 with hne | hnext
    · exact absurd heq hne
    · cases ts with
      | nil => cases hnext
      | cons next rest =>
        refine ⟨next, rest, rfl, fun hpoint => ?_⟩
        simp [hpoint] at hnext

theorem Heeds.append (ht : Heeds base names ts) (hu : Heeds base names us) :
    Heeds base names (ts ++ us) := by
  induction ts with
  | nil => exact hu
  | cons t ts ih =>
    obtain ⟨hhead, htail⟩ := ht
    refine ⟨fun heq => ?_, ih htail⟩
    obtain ⟨next, rest, rfl, hnext⟩ := hhead heq
    refine ⟨next, rest ++ us, rfl, fun hpoint => ?_⟩
    obtain ⟨x, hx, tail, rfl⟩ := hnext hpoint
    exact ⟨x, hx, tail ++ us, rfl⟩

theorem heeds_member {name : String} (hname : name ∈ names) (hpoint : base ≠ ".")
    (hne : name ≠ base) : Heeds base names [base, ".", name] :=
  ⟨fun _ => ⟨".", [name], rfl, fun _ => ⟨name, hname, [], rfl⟩⟩, fun h => absurd h.symm hpoint,
    fun h => absurd h hne, trivial⟩

/-- **What is taken from `base` is one of `names`.** -/
theorem Heeds.mem {x : String} (h : Heeds base names ts) (hx : [base, ".", x] <:+: ts) :
    x ∈ names := by
  obtain ⟨before, after, rfl⟩ := hx
  induction before with
  | nil =>
    obtain ⟨next, rest, heq, hnext⟩ := h.1 rfl
    cases heq
    obtain ⟨y, hy, tail, heq⟩ := hnext rfl
    cases heq
    exact hy
  | cons t before ih => exact ih h.2

/-- The structures that are declared, each with the tokens between its braces. -/
def structs : List String → List (String × List String)
  | [] => []
  | t :: ts =>
    if t = "struct" then (ts.headD "", (ts.drop 2).takeWhile (· ≠ "\x7d")) :: structs ts
    else structs ts

example : structs (tokens "struct Pair \x7b\n    a: i32,\n    b: i32,\n\x7d\n") =
    [("Pair", ["a", ":", "i32", ",", "b", ":", "i32", ","])] := by decide

/-- Without the keyword there is no structure. -/
theorem structs_append_of_not_mem (h : "struct" ∉ ts) : structs (ts ++ us) = structs us := by
  induction ts with
  | nil => rfl
  | cons t ts ih =>
    rw [mem_cons, not_or] at h
    rw [cons_append, structs, if_neg (Ne.symm h.1), ih h.2]

/-- **What is read from the declaration of a structure.** -/
theorem structs_struct {name : String} {body : List String} (hname : name ≠ "struct")
    (hbody : "struct" ∉ body) (hclosed : "\x7d" ∉ body) :
    structs (["struct", name, "\x7b"] ++ body ++ ["\x7d"] ++ us) = (name, body) :: structs us := by
  have hopen : structs (([name, "\x7b"] ++ body ++ ["\x7d"]) ++ us) = structs us :=
    structs_append_of_not_mem (by simp [hname.symm, hbody])
  have hother : ∀ t ∈ body, decide (t ≠ "\x7d") = true := by
    intro t ht
    refine decide_eq_true ?_
    rintro rfl
    exact hclosed ht
  have hinside : (body ++ "\x7d" :: us).takeWhile (fun t => decide (t ≠ "\x7d")) = body := by
    rw [takeWhile_append_of_pos hother]
    simp
  simp only [cons_append, nil_append, List.append_assoc] at hopen ⊢
  rw [structs, if_pos rfl, hopen]
  exact congrArg (fun inside => (name, inside) :: structs us) hinside

/-! ## Buffers -/

/-- Whether words are atomic, how many there are, and whether they may be written, for a buffer. -/
def Declaration.buffer? : Declaration → Option (Bool × Option String × Bool)
  | .buffer atomic length writable => some (atomic, length.map toString, writable)
  | .handle _ => none

theorem isWord_wordsOf (r : Resource) : isWord (r.name ++ "_type") = true := by
  simp +decide [r.isWord_name]

namespace Declarations

/-- Reads the type of a word. -/
def readElement : List String → Option (Bool × List String)
  | "atomic" :: "<" :: "i32" :: ">" :: ts => some (true, ts)
  | "i32" :: ts => some (false, ts)
  | _ => none

/-- Reads the number of words, if there is one, and the bracket behind it. -/
def readLength : List String → Option (Option String × List String)
  | "," :: n :: ">" :: ts => some (some n, ts)
  | ">" :: ts => some (none, ts)
  | _ => none

/-- Reads an access mode. -/
def readAccess : List String → Option Bool
  | "read_write" :: ">" :: _ => some true
  | "read" :: ">" :: _ => some false
  | _ => none

/-- Reads the declaration of a buffer: a structure with an array, and a variable. -/
def readBuffer : List String → Option (Bool × Option String × Bool)
  | "struct" :: _ :: "\x7b" :: "member" :: ":" :: "array" :: "<" :: ts => do
    let (atomic, ts) ← readElement ts
    let (length, ts) ← readLength ts
    match ts with
    | "," :: "\x7d" :: "@" :: "group" :: "(" :: "0" :: ")" :: "@" :: "binding" :: "(" :: _ :: ")" ::
        "var" :: "<" :: "storage" :: "," :: ts => return (atomic, length, ← readAccess ts)
    | _ => none
  | _ => none

theorem tokens_arrayText (atomic : Bool) (length : Option Nat) :
    tokens (arrayText atomic length) = ["array", "<"] ++
      (if atomic then ["atomic", "<", "i32", ">"] else ["i32"]) ++
      (match length with | some n => [",", n.repr] | none => []) ++ [">"] := by
  have hrepr (n : Nat) : tokens n.repr = [n.repr] := tokens_word (isWord_repr n) (by simp)
  cases length with
  | none => cases atomic <;> decide
  | some n =>
    have htext : arrayText atomic (some n) =
        (if atomic then "array<atomic<i32>" else "array<i32") ++ ", " ++ n.repr ++ ">" := by
      cases atomic <;> rfl
    rw [htext, tokens_append (.inr (by decide)), tokens_between (by decide) (by decide) (by decide),
      hrepr]
    cases atomic <;> rfl

theorem tokens_wordsText (r : Resource) (array : String) :
    tokens (wordsText r.name array) = ["struct", r.name ++ "_type", "\x7b"] ++
      (["member", ":"] ++ tokens array ++ [","]) ++ ["\x7d"] := by
  have htext : wordsText r.name array =
      "struct " ++ (r.name ++ "_type") ++ " \x7b\n    member: " ++ array ++ ",\n\x7d\n" := by
    have hsplit : "_type \x7b\n    member: " = "_type" ++ " \x7b\n    member: " := by decide
    simp only [wordsText, toString, hsplit, String.append_assoc]
  rw [htext, tokens_append (.inr (by decide)), tokens_between (by decide) (by decide) (by decide),
    tokens_append (.inl (by decide)), tokens_word (isWord_wordsOf r) (by simp)]
  simp [show tokens "struct " = ["struct"] by decide,
    show tokens " \x7b\n    member: " = ["\x7b", "member", ":"] by decide,
    show tokens ",\n\x7d\n" = [",", "\x7d"] by decide]

/-- **A buffer is read as it is declared**; nothing is read from a texture or a sampler. -/
theorem readBuffer_global (g : Global) : readBuffer (tokens g.text) = g.declaration.buffer? := by
  obtain ⟨⟨r, slot⟩, declaration⟩ := g
  cases declaration with
  | handle type =>
    have htext : Global.text ⟨⟨r, slot⟩, .handle type⟩ = "@group(0) @binding(" ++
        (slot.repr ++ ") var " ++ r.name ++ ": " ++ type.name ++ ";\n\n") := by
      simp only [Global.text, toString, String.append_assoc]
    rw [htext, tokens_append (.inl (by decide))]
    rfl
  | buffer atomic length writable =>
    have hslot : tokens slot.repr = [slot.repr] := tokens_word (isWord_repr slot) (by simp)
    have hwords : endsWord (wordsText r.name (arrayText atomic length)) = false :=
      endsWord_close (by decide) (by decide)
    have haccess : tokens (if writable then "read_write" else "read") =
        [if writable then "read_write" else "read"] := by cases writable <;> decide
    rw [text_buffer, tokens_append (.inl hwords), tokens_wordsText, tokens_arrayText,
      String.append_assoc, String.append_assoc, String.append_assoc,
      tokens_between (by decide) (by decide) (by decide),
      tokens_between (by decide) (by decide) (by decide), tokens_append (.inl (by decide)), hslot,
      haccess]
    cases atomic <;> cases length <;> cases writable <;> rfl

end Declarations

/-! ## Declarations outside of code -/

/-- The tokens behind each keyword that declares a name, up to the next one. -/
def cutDecls (ts : List String) : List (List String) :=
  (ts.foldr (fun t (open_, cut) =>
    if t ∈ ["struct", "fn", "private"] then ([], open_ :: cut) else (t :: open_, cut)) ([], [])).2

/-- Declarations as read: each declares its first word, and uses the known names in the rest. -/
def readDecls (known : List String) : List (List String) → List (List String × List String)
  | [] => []
  | ts :: rest =>
    match ts.filter opensWord with
    | name :: words => (known.filter (· ∈ words), [name]) :: readDecls (known ++ [name]) rest
    | [] => readDecls known rest

/-- Lines are read one by one. -/
theorem tokens_lines (lines : List String) :
    tokens (String.join (lines.map (· ++ "\n"))) = lines.flatMap tokens := by
  induction lines with
  | nil => rfl
  | cons l lines ih =>
    have hend : tokens "\n" = [] := by decide
    rw [map_cons, String.join_cons, flatMap_cons,
      tokens_append (.inl (endsWord_close (by decide) (by decide))),
      tokens_append (.inr (by decide)), hend, List.append_nil, ih]

/-- **The helpers declare what `randomDecls` says**, and use each other as it says. -/
theorem readDecls_randomHelpers : readDecls [] (cutDecls (tokens randomHelpers)) =
    randomDecls.map fun d => (d.uses.map Name.text, d.declares.map Name.text) := by
  obtain ⟨lines, htext, hlines⟩ : ∃ lines : List String,
      randomHelpers = String.join (lines.map (· ++ "\n")) ∧
      readDecls [] (cutDecls (lines.flatMap tokens)) =
        randomDecls.map fun d => (d.uses.map Name.text, d.declares.map Name.text) :=
    ⟨_, rfl, by decide +kernel⟩
  rw [htext, tokens_lines, hlines]

end WgslKernel
