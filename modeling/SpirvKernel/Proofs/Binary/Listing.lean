import SpirvKernel.Binary.Listing
import SpirvKernel.Proofs.Binary.Literal

/-!
# Listings line by line

The listing of any words has the lines of the header, if there is one, then one line for each
instruction, then one more if words are left over. No line breaks within, whatever text the words
hold, and each line shows every operand of its instruction once.
-/

namespace SpirvKernel.Listing

/-! ## Text on one line -/

/-- Line feed, vertical tab, form feed, carriage return, next line, line and paragraph separator. -/
def lineBreaks : List Char := ['\n', '\x0b', '\x0c', '\r', '\x85', '\u2028', '\u2029']

def Unbroken (cs : List Char) : Prop := ∀ c ∈ cs, c ∉ lineBreaks

instance (cs : List Char) : Decidable (Unbroken cs) := List.decidableBAll _ cs

@[simp] theorem unbroken_append {cs cs' : List Char} :
    Unbroken (cs ++ cs') ↔ Unbroken cs ∧ Unbroken cs' := by
  simp only [Unbroken, List.mem_append, or_imp, forall_and]

theorem unbroken_flatMap {α : Type} {f : α → List Char} {xs : List α}
    (h : ∀ x ∈ xs, Unbroken (f x)) : Unbroken (xs.flatMap f) := by
  intro c hc
  obtain ⟨x, hx, hc⟩ := List.mem_flatMap.mp hc
  exact h x hx c hc

theorem unbroken_digit : ∀ d < 16, Unbroken [d.digitChar] := by decide

theorem unbroken_toDigits {b n : Nat} (hb : 1 < b) (hb' : b ≤ 16) :
    Unbroken (Nat.toDigits b n) := by
  induction n using Nat.strongRecOn with
  | _ n ih =>
    rw [Nat.toDigits_eq_if hb]
    split
    next hlt => exact unbroken_digit n (by omega)
    next hle =>
      have hmod := Nat.mod_lt n (Nat.lt_of_succ_lt hb)
      rw [unbroken_append]
      exact ⟨ih (n / b) (Nat.div_lt_self (by omega) hb), unbroken_digit _ (by omega)⟩

theorem isHidden_of_mem_lineBreaks {c : Char} (h : c ∈ lineBreaks) :
    Text.Quoted.isHidden c = true := by
  have hall : lineBreaks.all Text.Quoted.isHidden = true := by decide +kernel
  exact List.all_eq_true.mp hall c h

theorem unbroken_byNumber (c : Char) : Unbroken (Text.Quoted.byNumber c) := by
  unfold Text.Quoted.byNumber
  rw [unbroken_append, unbroken_append]
  exact ⟨⟨by decide, unbroken_toDigits (by decide) (by decide)⟩, by decide⟩

theorem unbroken_escape (c : Char) : Unbroken (Text.Quoted.escape c) := by
  unfold Text.Quoted.escape
  iterate 6
    split
    · decide
  split
  · exact unbroken_byNumber c
  next hshown =>
    intro x hx hbreak
    rw [List.mem_singleton.mp hx] at hbreak
    exact hshown (isHidden_of_mem_lineBreaks hbreak)

def OnOneLine (s : String) : Prop := Unbroken s.toList

instance (s : String) : Decidable (OnOneLine s) := inferInstanceAs (Decidable (Unbroken _))

@[simp] theorem onOneLine_append {s t : String} :
    OnOneLine (s ++ t) ↔ OnOneLine s ∧ OnOneLine t := by
  rw [OnOneLine, String.toList_append, unbroken_append]
  rfl

theorem onOneLine_join {ss : List String} (h : ∀ s ∈ ss, OnOneLine s) :
    OnOneLine (String.join ss) := by
  rw [OnOneLine, String.toList_join]
  exact unbroken_flatMap h

@[simp] theorem onOneLine_repr (n : Nat) : OnOneLine n.repr := by
  rw [OnOneLine, Nat.toList_repr]
  exact unbroken_toDigits (by decide) (by decide)

theorem onOneLine_quoted (s : String) : OnOneLine (Text.Quoted.encode s) := by
  rw [OnOneLine, Text.Quoted.encode, String.toList_ofList, unbroken_append, unbroken_append]
  exact ⟨⟨by decide, unbroken_flatMap fun c _ => unbroken_escape c⟩, by decide⟩

theorem onOneLine_mnemonic (op : Opcode) : OnOneLine op.mnemonic := by
  cases op <;> decide +kernel

/-! ## One instruction -/

/-- Each operand is shown as a number, or those of the string together as one quoted text. -/
inductive Shows (op : Option Opcode) : List Word → List String → Prop
  | numbers {ws : List Word}
      (hnone : ∀ start, op.bind Opcode.textOperand? = some start →
        Literal.decode? (ws.drop start) = none) :
      Shows op ws (ws.map fun w => toString w.toNat)
  | text {before words after : List Word} {text : String}
      (hplace : op.bind Opcode.textOperand? = some before.length)
      (hread : Literal.decode? words = some (text, words.length)) :
      Shows op (before ++ words ++ after)
        ((before.map fun w => toString w.toNat) ++ [Text.Quoted.encode text] ++
          after.map fun w => toString w.toNat)

theorem shows_operands (op : Option Opcode) (ws : List Word) : Shows op ws (operands op ws) := by
  unfold operands
  split
  next hplace =>
    exact .numbers fun start hstart => by rw [hplace] at hstart; cases hstart
  next start hplace =>
    split
    next hread =>
      refine .numbers fun start' hstart => ?_
      rw [hplace, Option.some.injEq] at hstart
      rw [← hstart, hread]
    next text used hread =>
      obtain ⟨hpos, hle⟩ := Literal.decode?_le_length hread
      rw [List.length_drop] at hle
      have hsplit : ws.take start ++ (ws.drop start).take used ++ ws.drop (start + used) = ws := by
        rw [← List.drop_drop, List.append_assoc, List.take_append_drop, List.take_append_drop]
      have hshown : Shows op (ws.take start ++ (ws.drop start).take used ++ ws.drop (start + used))
          (numerals (ws.take start) ++ [Text.Quoted.encode text] ++
            numerals (ws.drop (start + used))) := by
        apply Shows.text
        · rw [hplace, List.length_take_of_le (by omega)]
        · rw [Literal.decode?_take hread, List.length_take_of_le (by rw [List.length_drop]; omega)]
      rwa [hsplit] at hshown

theorem Shows.onOneLine {op : Option Opcode} {ws : List Word} {tokens : List String}
    (h : Shows op ws tokens) : ∀ token ∈ tokens, OnOneLine token := by
  cases h with
  | numbers => simp
  | text => simp [or_imp, forall_and, onOneLine_quoted]

/-- The name of the opcode, or its number if it is not known, then each operand after a space. -/
def IsLineOf (i : Instruction) (line : String) : Prop :=
  ∃ name tokens, line = name ++ String.join (tokens.map (" " ++ ·)) ∧
    (∀ op, Opcode.ofCode? i.code = some op → name = op.mnemonic) ∧
    (Opcode.ofCode? i.code = none → name = "Op<" ++ toString i.code.toNat ++ ">") ∧
    Shows (Opcode.ofCode? i.code) i.operands tokens

theorem intercalate_cons_eq_join (name : String) (tokens : List String) :
    " ".intercalate (name :: tokens) = name ++ String.join (tokens.map (" " ++ ·)) := by
  induction tokens generalizing name with
  | nil => simp
  | cons token tokens ih =>
    rw [String.intercalate_cons_cons, ih, List.map_cons, String.join_cons]
    simp only [String.append_assoc]

theorem isLineOf_instruction (i : Instruction) : IsLineOf i (instruction i) := by
  refine ⟨mnemonic i.code, _, intercalate_cons_eq_join _ _, fun op hop => ?_, fun hnone => ?_,
    shows_operands _ _⟩
  · rw [mnemonic, hop]
  · rw [mnemonic, hnone]
    rfl

theorem IsLineOf.onOneLine {i : Instruction} {line : String} (h : IsLineOf i line) :
    OnOneLine line := by
  obtain ⟨name, tokens, rfl, hknown, hunknown, hshows⟩ := h
  rw [onOneLine_append]
  refine ⟨?_, onOneLine_join ?_⟩
  · cases hop : Opcode.ofCode? i.code with
    | some op => rw [hknown op hop]; exact onOneLine_mnemonic op
    | none =>
      rw [hunknown hop]
      simp only [onOneLine_append, Nat.toString_eq_repr, onOneLine_repr, and_true]
      decide
  · simp only [List.mem_map, forall_exists_index, and_imp, forall_apply_eq_imp_iff₂,
      onOneLine_append]
    exact fun token htoken => ⟨by decide, hshows.onOneLine token htoken⟩

/-! ## All lines -/

/-- The stream starts with a header. -/
def StartsWithHeader (ws : List Word) : Prop :=
  Layout.headerSize ≤ ws.length ∧ ws.head? = some Layout.magic

instance (ws : List Word) : Decidable (StartsWithHeader ws) := inferInstanceAs (Decidable (_ ∧ _))

theorem header_of_startsWithHeader {ws : List Word} (h : StartsWithHeader ws) :
    ∃ version generator bound schema : Word, header ws =
      (["; SPIR-V",
        s!"; Version: {version.toNat / 65536 % 256}.{version.toNat / 256 % 256}",
        s!"; Generator: {generator.toNat}",
        s!"; Bound: {bound.toNat}",
        s!"; Schema: {schema.toNat}"], ws.drop Layout.headerSize) := by
  obtain ⟨hlength, hmagic⟩ := h
  match ws with
  | magic :: version :: generator :: bound :: schema :: body =>
    rw [List.head?_cons, Option.some.injEq] at hmagic
    exact ⟨version, generator, bound, schema, if_pos hmagic⟩
  | [] | [_] | [_, _] | [_, _, _] | [_, _, _, _] =>
    exact absurd hlength (by simp [Layout.headerSize])

theorem header_of_not_startsWithHeader {ws : List Word} (h : ¬ StartsWithHeader ws) :
    header ws = ([], ws) := by
  unfold header
  split
  next magic version generator bound schema body =>
    refine if_neg fun hmagic => h ⟨?_, congrArg some hmagic⟩
    simp [Layout.headerSize]
  next => rfl

theorem onOneLine_header (ws : List Word) : ∀ line ∈ (header ws).1, OnOneLine line := by
  by_cases h : StartsWithHeader ws
  · obtain ⟨version, generator, bound, schema, heq⟩ := header_of_startsWithHeader h
    simp only [heq, List.mem_cons, List.not_mem_nil, or_false, forall_eq_or_imp, forall_eq,
      Nat.toString_eq_repr, onOneLine_append, onOneLine_repr, and_true]
    decide
  · rw [header_of_not_startsWithHeader h]
    simp

theorem length_header (ws : List Word) :
    (header ws).1.length = if StartsWithHeader ws then 5 else 0 := by
  by_cases h : StartsWithHeader ws
  · obtain ⟨version, generator, bound, schema, heq⟩ := header_of_startsWithHeader h
    rw [heq, if_pos h]
    rfl
  · rw [header_of_not_startsWithHeader h, if_neg h]
    rfl

theorem header_snd (ws : List Word) :
    (header ws).2 = if StartsWithHeader ws then ws.drop Layout.headerSize else ws := by
  by_cases h : StartsWithHeader ws
  · obtain ⟨version, generator, bound, schema, heq⟩ := header_of_startsWithHeader h
    rw [heq, if_pos h]
  · rw [header_of_not_startsWithHeader h, if_neg h]

theorem length_trailer (rest : List Word) :
    (trailer rest).length = if rest = [] then 0 else 1 := by
  unfold trailer
  cases rest <;> rfl

theorem onOneLine_trailer (rest : List Word) : ∀ line ∈ trailer rest, OnOneLine line := by
  unfold trailer
  split
  · simp
  · simp only [List.mem_singleton, forall_eq, Nat.toString_eq_repr, onOneLine_append,
      onOneLine_repr, and_true]
    decide

theorem lines_eq {ws rest : List Word} {is : List Instruction}
    (h : Instruction.decodeAll (header ws).2 = (is, rest)) :
    lines ws = (header ws).1 ++ is.map instruction ++ trailer rest := by
  unfold lines
  simp only [h]

theorem onOneLine_lines (ws : List Word) : ∀ line ∈ lines ws, OnOneLine line := by
  intro line hline
  rw [lines_eq rfl, List.mem_append, List.mem_append, List.mem_map] at hline
  rcases hline with (hline | ⟨i, -, rfl⟩) | hline
  · exact onOneLine_header ws line hline
  · exact (isLineOf_instruction i).onOneLine
  · exact onOneLine_trailer _ line hline

/-- A line for each instruction, and one for words that form none. -/
theorem render_line_by_line (ws : List Word) :
    let comments := if StartsWithHeader ws then 5 else 0
    let (is, rest) :=
      Instruction.decodeAll (if StartsWithHeader ws then ws.drop Layout.headerSize else ws)
    ∃ lines : List String, render ws = String.join (lines.map (· ++ "\n")) ∧
      (∀ line ∈ lines, OnOneLine line) ∧
      lines.length = comments + is.length + (if rest = [] then 0 else 1) ∧
      ∀ k i, is[k]? = some i → ∃ line, lines[comments + k]? = some line ∧ IsLineOf i line := by
  intro comments
  rw [← header_snd]
  split
  next is rest hcut =>
    refine ⟨lines ws, rfl, onOneLine_lines ws, ?_, fun k i hi => ⟨instruction i, ?_, ?_⟩⟩
    · rw [lines_eq hcut, List.length_append, List.length_append, List.length_map, length_header,
        length_trailer]
    · have hk := (List.getElem?_eq_some_iff.mp hi).1
      rw [lines_eq hcut, List.append_assoc,
        List.getElem?_append_right (by rw [length_header]; omega), length_header,
        Nat.add_sub_cancel_left, List.getElem?_append_left (by simpa using hk), List.getElem?_map,
        hi]
      rfl
    · exact isLineOf_instruction i

-- A name with a line feed in it, and a word too many.
example : lines [0x00030005, 1, 0x00620A61, 0] =
    ["OpName 1 \"a\\nb\"", "; 1 trailing words not decoded"] := by decide +kernel

end SpirvKernel.Listing
