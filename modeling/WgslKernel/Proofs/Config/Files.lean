import WgslKernel.Proofs.Config.Lines
import WgslKernel.Proofs.Except

/-!
# Configuration files

What a file says is the list of its assignments, each with the section it stands in.  Reading it
leaves every setting at the last value it is given there, or as it was.
-/

namespace WgslKernel

open List

/-! ## Words -/

namespace Text

variable {n : Nat} {text : String}

/-- The text is a word in decimal: a plus sign or none, and digits. -/
def IsWord (text : String) (n : Nat) : Prop :=
  ∃ digits : List Char, digits ≠ [] ∧ (∀ d ∈ digits, d.isDigit = true) ∧
    (text.toList = digits ∨ text.toList = '+' :: digits) ∧
    Nat.ofDigitChars 10 digits 0 = n ∧ n < wordLimit

theorem digits?_eq {digits : List Char} (h : ∀ d ∈ digits, d.isDigit = true) (acc : Nat) :
    digits? acc digits = some (Nat.ofDigitChars 10 digits acc) := by
  induction digits generalizing acc with
  | nil => rfl
  | cons d digits ih =>
    obtain ⟨hd, hdigits⟩ := forall_mem_cons.1 h
    have hrange : '0' ≤ d ∧ d ≤ '9' := by simpa [Char.isDigit, Char.le_def] using hd
    rw [digits?, digit?, if_pos hrange, Nat.ofDigitChars_cons]
    exact ih hdigits _

theorem natural?_eq {digits : List Char} (hne : digits ≠ []) (h : ∀ d ∈ digits, d.isDigit = true) :
    natural? digits = some (Nat.ofDigitChars 10 digits 0) := by
  cases digits with
  | nil => exact absurd rfl hne
  | cons d digits => exact digits?_eq h 0

/-- A word is read as its number. -/
theorem IsWord.word?_eq (h : IsWord text n) : word? text.toList = some n := by
  obtain ⟨digits, hne, hdigits, htext, rfl, hn⟩ := h
  have hunsigned : unsigned? text.toList = some (Nat.ofDigitChars 10 digits 0) := by
    rcases htext with htext | htext
    · rw [htext, unsigned?]
      · exact natural?_eq hne hdigits
      · rintro ds rfl
        cases hdigits '+' mem_cons_self
    · rw [htext]
      exact natural?_eq hne hdigits
  simp [word?, hunsigned, fitWord, hn]

theorem lt_of_word? {cs : List Char} (h : word? cs = some n) : n < wordLimit := by
  obtain ⟨k, -, hk⟩ := Option.bind_eq_some_iff.1 h
  rw [fitWord] at hk
  split at hk
  · cases hk
    assumption
  · cases hk

end Text

/-! ## Assignments -/

/-- A value given to a key in a section. -/
structure Assignment where
  inSection : String
  key : String
  value : String
  deriving DecidableEq

/-- The assignments of some lines, each in the section of the last header above it. -/
def ConfigLine.assignments (inSection : String) : List ConfigLine → List Assignment
  | [] => []
  | .skip :: lines => assignments inSection lines
  | .header name :: lines => assignments name lines
  | .assign key value :: lines => ⟨inSection, key, value⟩ :: assignments inSection lines

namespace Setting

variable {s : Setting} {a b : Config}

/-- The values that a setting is given, in order. -/
def values (s : Setting) (assignments : List Assignment) : List String :=
  (assignments.filter fun a => a.inSection = s.sectionName ∧ a.key = s.key).map Assignment.value

theorem find?_eq_some {inSection key : String} :
    find? inSection key = some s ↔ inSection = s.sectionName ∧ key = s.key := by
  constructor
  · intro h
    have hs := List.find?_some h
    simp only [Bool.and_eq_true, beq_iff_eq] at hs
    exact ⟨hs.1.symm, hs.2.symm⟩
  · rintro ⟨rfl, rfl⟩
    cases s <;> decide

@[simp] theorem get_set (c : Config) (n : Nat) (s t : Setting) :
    s.get (t.set c n) = if s = t then n else s.get c := by
  cases s <;> cases t <;> rfl

theorem ext_get (h : ∀ s : Setting, s.get a = s.get b) : a = b := by
  cases a
  cases b
  simp only [Config.mk.injEq]
  exact ⟨h workgroupSize, h maxWorkgroups, h dynamicWorkgroups, h globalTmpsBytes, h randSeedOffset⟩

end Setting

namespace Config

open Text

variable {c : Config} {text : String}

/-- The settings after the assignments: each has the last value given, or the one before. -/
def Results (before : Config) (assignments : List Assignment) (after : Config) : Prop :=
  ∀ s : Setting, match (s.values assignments).getLast? with
    | some value => IsWord value (s.get after)
    | none => s.get after = s.get before

/-- Assignments leave one result. -/
theorem Results.unique {before after after' : Config} {assignments : List Assignment}
    (h : Results before assignments after) (h' : Results before assignments after') :
    after = after' := by
  refine Setting.ext_get fun s => ?_
  have hs := h s
  have hs' := h' s
  cases hlast : (s.values assignments).getLast? with
  | none =>
    rw [hlast] at hs hs'
    exact hs.trans hs'.symm
  | some value =>
    rw [hlast] at hs hs'
    exact Option.some.inj (hs.word?_eq.symm.trans hs'.word?_eq)

/-! ## Reading -/

/-- One assignment comes first and the others later. -/
theorem Results.cons {before middle after : Config} {a : Assignment} {rest : List Assignment}
    (h : Results before [a] middle) (h' : Results middle rest after) :
    Results before (a :: rest) after := by
  intro s
  have hvalues : s.values (a :: rest) = s.values [a] ++ s.values rest := by
    simp only [Setting.values, ← map_append, ← filter_append, singleton_append]
  have hs := h s
  have hs' := h' s
  rw [hvalues, List.getLast?_append]
  cases hlast : (s.values rest).getLast? with
  | some value =>
    rw [hlast] at hs'
    exact hs'
  | none =>
    rw [hlast] at hs'
    rw [Option.none_or]
    dsimp only at hs'
    rw [hs']
    exact hs

/-- A line with an assignment is read as it is meant. -/
theorem Reading.exists_step_assign (r : Reading) {key value : String}
    (h : ∀ s : Setting, ∀ v ∈ s.values [⟨r.inSection, key, value⟩], ∃ n, IsWord v n) :
    ∃ after, r.step (.assign key value) = .ok { r with config := after } ∧
      Results r.config [⟨r.inSection, key, value⟩] after := by
  cases hfind : Setting.find? r.inSection key with
  | none =>
    refine ⟨r.config, by rw [step, hfind], fun s => ?_⟩
    have hne : ¬(r.inSection = s.sectionName ∧ key = s.key) := fun hs => by
      rw [Setting.find?_eq_some.2 hs] at hfind
      cases hfind
    simp [Setting.values, hne]
  | some t =>
    have ht := Setting.find?_eq_some.1 hfind
    obtain ⟨n, hn⟩ := h t value (by simp [Setting.values, ht])
    refine ⟨t.set r.config n, by simp [step, hfind, hn.word?_eq], fun s => ?_⟩
    by_cases hst : s = t
    · subst hst
      simpa [Setting.values, ht] using hn
    · have hne : ¬(r.inSection = s.sectionName ∧ key = s.key) := fun hs => by
        rw [Setting.find?_eq_some.2 hs] at hfind
        exact hst (Option.some.inj hfind)
      simp [Setting.values, hne, hst]

/-- **The last value of a setting wins.** -/
theorem Reading.exists_foldlM (lines : List ConfigLine) (r : Reading)
    (h : ∀ s : Setting, ∀ v ∈ s.values (ConfigLine.assignments r.inSection lines),
      ∃ n, IsWord v n) :
    ∃ r', lines.foldlM Reading.step r = .ok r' ∧
      Results r.config (ConfigLine.assignments r.inSection lines) r'.config := by
  induction lines generalizing r with
  | nil => exact ⟨r, rfl, fun _ => rfl⟩
  | cons line lines ih =>
    cases line with
    | skip => exact ih r h
    | header name => exact ih { r with inSection := name } h
    | assign key value =>
      rw [ConfigLine.assignments] at h ⊢
      obtain ⟨after, hstep, hafter⟩ := r.exists_step_assign fun s v hv =>
        h s v (((singleton_sublist.2 mem_cons_self).filter _ |>.map _).mem hv)
      obtain ⟨r', hr', hresults⟩ := ih { r with config := after } fun s v hv =>
        h s v (((sublist_cons_self _ _).filter _ |>.map _).mem hv)
      refine ⟨r', ?_, hafter.cons hresults⟩
      rw [foldlM_cons, hstep]
      exact hr'

/-- Values stay words. -/
theorem Reading.lt_of_foldlM {lines : List ConfigLine} {r r' : Reading}
    (h : lines.foldlM Reading.step r = .ok r') (hr : ∀ s : Setting, s.get r.config < wordLimit) :
    ∀ s : Setting, s.get r'.config < wordLimit := by
  refine foldlM_keeps (P := fun r => ∀ s : Setting, s.get r.config < wordLimit) h ?_ hr
  intro line _ r₀ r₁ hstep hr s
  unfold step at hstep
  split at hstep
  · cases hstep
    exact hr s
  · cases hstep
    exact hr s
  · split at hstep
    · cases hstep
      exact hr s
    · split at hstep
      · rename_i t _ n hn
        cases hstep
        rw [Setting.get_set]
        split
        · exact lt_of_word? hn
        · exact hr s
      · cases hstep

/-! ## Checking -/

/-- Values that can be used together. -/
structure Usable (c : Config) : Prop where
  workgroupSize : 1 ≤ c.workgroupSize ∧ c.workgroupSize ≤ 256
  dynamicWorkgroups : 1 ≤ c.dynamicWorkgroups ∧ c.dynamicWorkgroups ≤ c.maxWorkgroups
  aligned : 4 ∣ c.globalTmpsBytes ∧ 4 ∣ c.randSeedOffset
  seed : c.randSeedOffset + 4 ≤ c.globalTmpsBytes

/-- The check accepts what is usable. -/
theorem check_eq_ok : c.check = .ok () ↔ c.Usable := by
  constructor
  · intro h
    unfold check at h
    split_ifs at h
    constructor <;> omega
  · intro h
    have hsize := h.workgroupSize
    have hdynamic := h.dynamicWorkgroups
    have haligned := h.aligned
    have hseed := h.seed
    unfold check
    rw [if_neg (by omega), if_neg (by omega), if_neg (by omega), if_neg (by omega),
      if_neg (by omega)]

/-- When a file gives a configuration. -/
theorem parse_eq_ok : parse text = .ok c ↔ (∃ inSection : String,
    ((lines text.toList).map ConfigLine.ofLine).foldlM Reading.step {} = .ok ⟨c, inSection⟩) ∧
      c.Usable := by
  rw [parse, bind_eq_ok, ← check_eq_ok]
  constructor
  · rintro ⟨⟨c', inSection⟩, hr, h⟩
    obtain ⟨⟨⟩, hcheck, h⟩ := bind_eq_ok.1 h
    cases h
    exact ⟨⟨inSection, hr⟩, hcheck⟩
  · rintro ⟨⟨inSection, hr⟩, hcheck⟩
    exact ⟨_, hr, bind_eq_ok.2 ⟨(), hcheck, rfl⟩⟩

/-- Workgroups can be counted, within their limits. -/
theorem Usable.workgroupsFor (h : c.Usable) (n : Nat) :
    ∃ g, c.workgroupsFor n = .ok g ∧ 1 ≤ g ∧ g ≤ c.maxWorkgroups := by
  have hsize := h.workgroupSize
  have hdynamic := h.dynamicWorkgroups
  refine ⟨min (max 1 (ceilDiv n c.workgroupSize)) c.maxWorkgroups, ?_, by omega, by omega⟩
  rw [Config.workgroupsFor, if_neg (by omega), if_neg (by omega)]

/-- The seed is inside of the temporaries. -/
theorem Usable.randSeedWord_lt (h : c.Usable) : c.randSeedWord < c.globalTmpsWords := by
  have haligned := h.aligned
  have hseed := h.seed
  unfold randSeedWord globalTmpsWords
  omega

/-! ## Files -/

/-- The lines that make up a text, each written in one of the ways there are. -/
def File (file : List ConfigLine) (text : String) : Prop :=
  ∃ lines : List (List Char), List.Forall₂ ConfigLine.Written file lines ∧
    (∀ line ∈ lines, '\n' ∉ line) ∧ text.toList = ['\n'].intercalate lines

theorem File.foldlM_eq {file : List ConfigLine} (h : File file text) (r : Reading) :
    ((lines text.toList).map ConfigLine.ofLine).foldlM Reading.step r =
      file.foldlM Reading.step r := by
  obtain ⟨ls, hwritten, hlines, htext⟩ := h
  rw [htext]
  cases hwritten with
  | nil => rfl
  | @cons line l file ls hl hls =>
    rw [lines_intercalate hlines]
    congr 1
    have hmap : List.Forall₂ Eq ((l :: ls).map ConfigLine.ofLine) (line :: file) := by
      rw [List.forall₂_map_left_iff]
      exact (List.Forall₂.cons hl hls).flip.imp fun _ _ hw => hw.ofLine_eq
    exact List.forall₂_eq_eq_eq ▸ hmap

/-- **Configuration files are read faithfully.**  A usable configuration is what is read from every
file whose values are words and that gives it, whatever else the file holds.  For any text at all,
headers are cut at good offsets, and a configuration that is returned is usable. -/
theorem parse_faithful (text : String) :
    (∀ file c, File file text → c.Usable →
      (∀ s : Setting, ∀ v ∈ s.values (ConfigLine.assignments "" file), ∃ n, IsWord v n) →
      Results {} (ConfigLine.assignments "" file) c → parse text = .ok c) ∧
    (∀ line ∈ (lines text.toList).map trim, line.head? = some '[' → line.getLast? = some ']' →
      ∃ part, IsSlice (String.ofList line) 1 ((String.ofList line).utf8ByteSize - 1) part ∧
        ConfigLine.ofTrimmed line = .header (String.ofList (trim part.toList))) ∧
    ∀ c, parse text = .ok c → c.Usable ∧ (∀ s : Setting, s.get c < wordLimit) ∧
      (∀ n, ∃ g, c.workgroupsFor n = .ok g ∧ 1 ≤ g ∧ g ≤ c.maxWorkgroups) ∧
      c.randSeedWord < c.globalTmpsWords := by
  refine ⟨fun file c hfile hc hwords hresults => ?_, fun _ _ => ConfigLine.exists_slice,
    fun c h => ?_⟩
  · obtain ⟨r, hr, hr'⟩ := Reading.exists_foldlM file {} hwords
    obtain rfl : r.config = c := Results.unique hr' hresults
    refine parse_eq_ok.2 ⟨⟨r.inSection, ?_⟩, hc⟩
    rw [hfile.foldlM_eq, hr]
  · obtain ⟨⟨inSection, hr⟩, hc⟩ := parse_eq_ok.1 h
    exact ⟨hc, Reading.lt_of_foldlM hr fun s => by cases s <;> decide, hc.workgroupsFor,
      hc.randSeedWord_lt⟩

/-- A file with a comment, a section, and a size that is given twice. -/
def sampleFile : List ConfigLine :=
  [.skip, .header "compute", .assign "workgroup_size" "32", .assign "workgroup_size" "+064"]

/-- Comments, odd spacing and a setting twice. -/
def sampleText : String := "# sizes\n\t[ compute ]\r\nworkgroup_size = 32\n workgroup_size\t=+064 "

/-- The last size counts, and everything else has its default. -/
theorem parse_faithful_sample : File sampleFile sampleText ∧
    parse sampleText = .ok { workgroupSize := 64 } ∧
    ∃ g, workgroupsFor { workgroupSize := 64 } 0xffffffff = .ok g ∧ 1 ≤ g ∧ g ≤ 65535 := by
  have hfile : File sampleFile sampleText := by
    refine ⟨_, .cons (@ConfigLine.Written.comment [] " sizes".toList ?_) <|
      .cons (@ConfigLine.Written.header ['\t'] [' '] "compute".toList [' '] ['\r']
        ?_ ?_ ?_ ?_ ?_) <|
      .cons (@ConfigLine.Written.assign [] "workgroup_size".toList [' '] [' '] "32".toList []
        ?_ ?_ ?_ ?_ ?_ ?_ ?_ ?_ ?_) <|
      .cons (@ConfigLine.Written.assign [' '] "workgroup_size".toList ['\t'] [] "+064".toList [' ']
        ?_ ?_ ?_ ?_ ?_ ?_ ?_ ?_ ?_) .nil, ?_, ?_⟩ <;> decide
  have hvalues (s : Setting) : s.values (ConfigLine.assignments "" sampleFile) =
      if s = .workgroupSize then ["32", "+064"] else [] := by
    cases s <;> decide
  have hfirst : IsWord "32" 32 :=
    ⟨['3', '2'], by decide, by simp, .inl (by decide), by decide, by decide⟩
  have hlast : IsWord "+064" 64 :=
    ⟨['0', '6', '4'], by decide, by simp, .inr (by decide), by decide, by decide⟩
  have hparse : parse sampleText = .ok { workgroupSize := 64 } := by
    refine (parse_faithful sampleText).1 sampleFile _ hfile ?_ (fun s v hv => ?_) fun s => ?_
    · constructor <;> decide
    · rw [hvalues] at hv
      split at hv
      · rcases mem_pair.1 hv with rfl | rfl
        · exact ⟨32, hfirst⟩
        · exact ⟨64, hlast⟩
      · cases hv
    · rw [hvalues]
      cases s with
      | workgroupSize => exact hlast
      | _ => rfl
  exact ⟨hfile, hparse, ((parse_faithful sampleText).2.2 _ hparse).2.2.1 _⟩

end Config

end WgslKernel
