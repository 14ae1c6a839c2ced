import Mathlib.Data.List.Chain
import SplitRadix.Proofs.Decoding

/-!
# Disassembling a text

A spelling is a byte string that is one instruction wherever it stands and whatever follows it. Code
that is put together from spellings is disassembled into exactly these, so the disassembly is never
out of step with how the code was put together.

* `Spelling`: the bytes of one instruction.
* `disassembleFrom_text`: the disassembly of spellings in a row.
* `lines_consecutive`, `bytes_lines`: the lines of a disassembly lie one after the other.
* `text_padding`: padding is made of instructions.
-/

namespace SplitRadix.Machine

/-- Bytes that are one instruction wherever they stand and whatever follows them. A branch depends on
where it stands. -/
structure Spelling where
  bytes : Bytes
  instruction : (ip : Nat) → Instruction
  length_le : bytes.length ≤ maxInstructionLength
  read : ∀ ip rest, readInstruction ip (bytes ++ rest) = some (instruction ip, rest)

namespace Spelling

/-- The spelling of an instruction. -/
def ofInstruction {ip : Nat} {i : Instruction} (h : i.Encodable ip) : Spelling where
  bytes := i.encode ip
  instruction := i.moved ip
  length_le := length_encode_le ip i
  read := readInstruction_encode h

theorem length_pos (s : Spelling) : 0 < s.bytes.length := by
  apply List.length_pos_of_ne_nil
  intro hnil
  have hread := s.read 0 []
  rw [hnil] at hread
  cases hread

theorem decode_append (s : Spelling) (ip : Nat) (rest : Bytes) :
    decode ip (s.bytes ++ rest) = some (s.instruction ip, s.bytes.length) := by
  have hwindow : (s.bytes ++ rest).take maxInstructionLength =
      s.bytes ++ rest.take (maxInstructionLength - s.bytes.length) := by
    rw [List.take_append, List.take_of_length_le s.length_le]
  simp [decode, hwindow, s.read]

/-- The line that a spelling at an offset becomes. -/
def line (s : Spelling) (ip offset : Nat) : Decoded :=
  ⟨offset, s.bytes, some (s.instruction (Word.ofInt (ip + offset)))⟩

/-- The bytes of spellings in a row. -/
def text (words : List Spelling) : Bytes := words.flatMap bytes

@[simp] theorem text_nil : text [] = [] := rfl

@[simp] theorem text_cons (s : Spelling) (words : List Spelling) :
    text (s :: words) = s.bytes ++ text words :=
  rfl

@[simp] theorem text_append (first second : List Spelling) :
    text (first ++ second) = text first ++ text second :=
  List.flatMap_append

theorem length_text_pos {words : List Spelling} (h : words ≠ []) : 0 < (text words).length := by
  cases words with
  | nil => exact absurd rfl h
  | cons s words =>
    have := s.length_pos
    rw [text_cons, List.length_append]
    omega

/-- Texts in a row are a text. -/
theorem text_flatMap {α : Type} {l : List α} {f : α → Bytes}
    (h : ∀ a ∈ l, ∃ words, f a = text words) : ∃ words, l.flatMap f = text words := by
  induction l with
  | nil => exact ⟨[], rfl⟩
  | cons a l ih =>
    obtain ⟨first, hfirst⟩ := h a List.mem_cons_self
    obtain ⟨rest, hrest⟩ := ih fun b hb => h b (List.mem_cons_of_mem a hb)
    exact ⟨first ++ rest, by rw [List.flatMap_cons, hfirst, hrest, text_append]⟩

/-- The lines of spellings in a row. -/
def lines (ip : Nat) : (offset : Nat) → List Spelling → List Decoded
  | _, [] => []
  | offset, s :: words => s.line ip offset :: lines ip (offset + s.bytes.length) words

theorem lines_append (ip offset : Nat) (first second : List Spelling) :
    lines ip offset (first ++ second) =
      lines ip offset first ++ lines ip (offset + (text first).length) second := by
  induction first generalizing offset with
  | nil => rfl
  | cons s first ih => simp [lines, ih, Nat.add_assoc]

theorem disassembleFrom_cons (s : Spelling) (ip offset : Nat) (rest : Bytes) :
    disassembleFrom ip offset (s.bytes ++ rest) =
      s.line ip offset :: disassembleFrom ip (offset + s.bytes.length) rest := by
  have hdecode := s.decode_append (Word.ofInt (ip + offset)) rest
  rcases hbytes : s.bytes with _ | ⟨b, tail⟩
  · exact absurd s.length_pos (by simp [hbytes])
  · rw [hbytes, List.cons_append, List.length_cons] at hdecode
    rw [List.cons_append, disassembleFrom, hdecode]
    simp [line, hbytes]

/-- Spellings in a row are disassembled into themselves. -/
theorem disassembleFrom_text (ip offset : Nat) (words : List Spelling) :
    disassembleFrom ip offset (text words) = lines ip offset words := by
  induction words generalizing offset with
  | nil => rw [text_nil, disassembleFrom]; rfl
  | cons s words ih => rw [text_cons, disassembleFrom_cons, ih]; rfl

/-! ## The lines of a disassembly -/

theorem bytes_lines (ip offset : Nat) (words : List Spelling) :
    (lines ip offset words).flatMap Decoded.bytes = text words := by
  induction words generalizing offset with
  | nil => rfl
  | cons s words ih =>
    rw [lines, List.flatMap_cons, ih]
    rfl

theorem instruction_lines {ip offset : Nat} {words : List Spelling} {d : Decoded}
    (h : d ∈ lines ip offset words) : d.instruction ≠ none := by
  induction words generalizing offset with
  | nil => cases h
  | cons s words ih =>
    rcases List.mem_cons.1 h with rfl | h
    · exact nofun
    · exact ih h

/-- The lines lie one after the other. -/
theorem lines_consecutive (ip offset : Nat) (words : List Spelling) :
    (lines ip offset words).IsChain fun a b => b.offset = a.offset + a.bytes.length := by
  induction words generalizing offset with
  | nil => exact .nil
  | cons s words ih =>
    have hrest := ih (offset + s.bytes.length)
    cases words with
    | nil => exact .singleton _
    | cons next words => exact .cons_cons rfl hrest

/-- A line lies inside its text. -/
theorem stop_le_of_mem_lines {ip offset : Nat} {words : List Spelling} {d : Decoded}
    (h : d ∈ lines ip offset words) :
    offset ≤ d.offset ∧ 0 < d.bytes.length ∧
      d.offset + d.bytes.length ≤ offset + (text words).length := by
  induction words generalizing offset with
  | nil => cases h
  | cons s words ih =>
    have := s.length_pos
    rw [text_cons, List.length_append]
    rcases List.mem_cons.1 h with rfl | h
    · simp only [line]
      omega
    · have := ih h
      omega

theorem range_of_mem_lines {ip offset : Nat} {words : List Spelling} {d : Decoded}
    (h : d ∈ lines ip offset words) :
    offset ≤ d.offset ∧ d.offset < offset + (text words).length := by
  have := stop_le_of_mem_lines h
  omega

theorem lines_ordered (ip offset : Nat) (words : List Spelling) :
    (lines ip offset words).Pairwise fun a b => a.offset < b.offset := by
  induction words generalizing offset with
  | nil => exact .nil
  | cons s words ih =>
    refine List.pairwise_cons.2 ⟨fun d hd => ?_, ih _⟩
    have := s.length_pos
    have := (range_of_mem_lines hd).1
    simp only [line]
    omega

/-- Where a part of a text starts, there is a line. -/
theorem exists_line {before own after : List Spelling} (h : own ≠ []) (ip : Nat) :
    ∃ d ∈ lines ip 0 (before ++ own ++ after), d.offset = (text before).length := by
  cases own with
  | nil => exact absurd rfl h
  | cons s own =>
    refine ⟨s.line ip (text before).length, ?_, rfl⟩
    simp [lines_append, lines]

/-! ## Padding -/

/-- Padding is made of instructions. -/
theorem text_padding (n : Nat) : ∃ words, padding n = text words := by
  fun_induction padding n with
  | case1 => exact ⟨[], rfl⟩
  | case2 n hpos hle =>
    have hn : n - 1 < 9 := by omega
    exact ⟨[@ofInstruction 0 (.pad ⟨n - 1, hn⟩) trivial], (List.append_nil _).symm⟩
  | case3 n hpos hgt ih =>
    obtain ⟨words, hwords⟩ := ih
    rw [hwords]
    exact ⟨@ofInstruction 0 (.pad 8) trivial :: words, rfl⟩

end Spelling

end SplitRadix.Machine
