import Mathlib.Data.List.Pairwise
import SplitRadix.Machine.Kernels
import SplitRadix.Proofs.Kernels
import SplitRadix.Proofs.Sweep

/-!
# Copies of kernels as instructions

A kernel is a list of lines, and each line of a copy is one instruction: a filled-in displacement
keeps the long form of its load, and a flipped opcode makes an addition a subtraction or the other
way round. So a copy is a text, whatever the direction and whatever values are in its fields.

* `Line.Sound`: lines that can be placed anywhere.
* `text_line`: what a line of a copy is.
* `text_of_specialised`: a copy is a text.
-/

namespace SplitRadix.Machine

open Kernel Spelling

/-! ## Lines -/

/-- Lines that make sense wherever they are placed: they hold no address, their fields have room, and
only additions and subtractions swap. -/
def Line.Sound : Line → Prop
  | plain i => i.isBranch = false ∧ i.Encodable 0
  | flipped op _ _ => op = .add ∨ op = .sub
  | patched .. | loopHead | loopBack => True

instance : (line : Line) → Decidable line.Sound
  | .plain _ => inferInstanceAs (Decidable (_ ∧ _))
  | .flipped _ _ _ => inferInstanceAs (Decidable (_ ∨ _))
  | .patched _ _ | .loopHead | .loopBack => inferInstanceAs (Decidable True)

variable {ip head : Nat} {lines : List Line} {p q : PlacedLine}

theorem line_mem_of_placeLines (h : p ∈ placeLines ip head lines) : p.line ∈ lines := by
  induction lines generalizing ip head with
  | nil => cases h
  | cons line rest ih =>
    rcases List.mem_cons.1 h with rfl | h
    · exact List.mem_cons_self
    · exact List.mem_cons_of_mem _ (ih h)

/-- A line is encoded for its place, in a loop that starts before it. -/
theorem bytes_of_placeLines (hhead : head ≤ ip) (h : p ∈ placeLines ip head lines) :
    ∃ head ≤ p.offset,
      p.bytes = ((p.line.instruction? p.offset head).map (Instruction.encode p.offset)).getD [] := by
  induction lines generalizing ip head with
  | nil => cases h
  | cons line rest ih =>
    rcases List.mem_cons.1 h with rfl | h
    · exact ⟨head, hhead, rfl⟩
    · refine ih ?_ h
      split <;> omega

theorem range_of_placeLines (h : p ∈ placeLines ip head lines) :
    ip ≤ p.offset ∧
      p.stop ≤ ip + ((placeLines ip head lines).flatMap PlacedLine.bytes).length := by
  induction lines generalizing ip head with
  | nil => cases h
  | cons line rest ih =>
    simp only [placeLines, List.flatMap_cons, List.length_append]
    rcases List.mem_cons.1 h with rfl | h
    · simp only [PlacedLine.stop]
      omega
    · have := ih h
      omega

/-- Lines lie one after the other. -/
theorem placeLines_ordered (ip head : Nat) (lines : List Line) :
    (placeLines ip head lines).Pairwise fun a b => a.stop ≤ b.offset := by
  induction lines generalizing ip head with
  | nil => exact .nil
  | cons line rest ih => exact List.pairwise_cons.2 ⟨fun q hq => (range_of_placeLines hq).1, ih _ _⟩

/-- Two lines with a byte in common are the same. -/
theorem eq_of_placeLines (hp : p ∈ placeLines ip head lines) (hq : q ∈ placeLines ip head lines)
    {i : Nat} (hpi : p.offset ≤ i ∧ i < p.stop) (hqi : q.offset ≤ i ∧ i < q.stop) : p = q := by
  by_contra hne
  have hapart : (placeLines ip head lines).Pairwise fun a b =>
      a.stop ≤ b.offset ∨ b.stop ≤ a.offset := (placeLines_ordered ip head lines).imp .inl
  have hsymm : Std.Symm fun a b : PlacedLine => a.stop ≤ b.offset ∨ b.stop ≤ a.offset :=
    ⟨fun _ _ h => h.symm⟩
  have := hapart.forall hp hq hne
  omega

/-- The code of the lines is put together from what stands at their places. -/
theorem flatMap_slice_placeLines (code : Bytes) (ip head : Nat) (lines : List Line) :
    (placeLines ip head lines).flatMap (fun p => Bytes.slice code p.offset p.bytes.length) =
      Bytes.slice code ip ((placeLines ip head lines).flatMap PlacedLine.bytes).length := by
  induction lines generalizing ip head with
  | nil => simp [placeLines, Bytes.slice]
  | cons line rest ih =>
    simp only [placeLines, List.flatMap_cons, List.length_append, Bytes.slice_add, ih]

/-- Each line stands at its place. -/
theorem slice_of_placeLines (before : Bytes) (hip : before.length = ip)
    (h : p ∈ placeLines ip head lines) :
    Bytes.slice (before ++ (placeLines ip head lines).flatMap PlacedLine.bytes) p.offset
      p.bytes.length = p.bytes := by
  induction lines generalizing ip head before with
  | nil => cases h
  | cons line rest ih =>
    rcases List.mem_cons.1 h with rfl | h
    · simp [placeLines, Bytes.slice, ← hip]
    · have := ih (before ++ ((line.instruction? ip head).map (Instruction.encode ip)).getD [])
        (by simp [hip]) h
      simpa [placeLines] using this

/-! ## Loads with a displacement to fill in -/

/-- A vector load up to its long displacement. -/
def loadHead (dst : Xmm) (base : Gpr) : Bytes :=
  Extension.bytes { reg := isHigh dst.code, base := isHigh base.code } ++
    (0x0F :: 0x28 :: basedBytes 2 dst.code.val base)

theorem encode_placeholder (dst : Xmm) (base : Gpr) (ip : Nat) :
    (Instruction.loadVector dst (.offset base placeholder)).encode ip =
      loadHead dst base ++ signedBytes 4 placeholder := by
  have hlong : displacement base placeholder = (2, signedBytes 4 placeholder) := by
    rw [displacement, if_neg fun h => absurd h.1 (by decide), if_neg (by decide)]
  have hbytes := bytes_based dst.code.val base placeholder
  rw [hlong] at hbytes
  simp [Instruction.encode, form, Address.offset, hbytes, loadHead, Operand.extension]

/-- A load keeps its long form whatever its displacement is. -/
def longLoad (dst : Xmm) (base : Gpr) {disp : Int} (h : fitsDword disp = true) : Spelling where
  bytes := loadHead dst base ++ signedBytes 4 disp
  instruction _ := .loadVector dst (.offset base disp)
  length_le := by
    have := length_extension_le { reg := isHigh dst.code, base := isHigh base.code }
    simp only [loadHead, basedBytes, List.length_append, List.length_cons, length_signedBytes,
      maxInstructionLength]
    split <;> simp <;> omega
  read ip rest := by
    have hread := @readOperand_based { reg := isHigh dst.code, base := isHigh base.code } dst.code
      base disp 2 (signedBytes 4 disp) rfl rfl rfl (displaces_long base h) rest
    simp only [loadHead, List.append_assoc, List.cons_append]
    rw [readInstruction_extended _ (by decide) rfl]
    simp [readFirst, readSecond, hread, Address.offset]

/-! ## Operations that swap -/

/-- A packed operation up to its opcode. -/
def packedHead (dst src : Xmm) : Bytes :=
  Extension.bytes { reg := isHigh dst.code, base := isHigh src.code } ++ [0x0F]

theorem encode_packed (op : Packed) (dst src : Xmm) (ip : Nat) :
    (Instruction.packed op dst src).encode ip =
      packedHead dst src ++ [op.opcode, operandByte 3 dst.code.val src.code.val] := by
  simp [Instruction.encode, form, packedHead, Operand.extension, Operand.bytes]

/-- Turning the opcode of an addition or subtraction makes it the other one. -/
theorem exists_turned {op : Packed} (h : op = .add ∨ op = .sub) (direction : Direction) :
    ∃ turned : Packed, turned.opcode = Template.turned flipMask direction op.opcode := by
  cases direction with
  | forward => exact ⟨op, rfl⟩
  | inverse => exact ⟨op.flip, Packed.opcode_flip h⟩

/-! ## Where lines are changed -/

theorem stop_of_flip (h : p ∈ placeLines ip head lines) (hhead : head ≤ ip) {i : Nat}
    (hflip : p.flip? = some i) : p.offset ≤ i ∧ i + 2 = p.stop := by
  obtain ⟨_, -, hbytes⟩ := bytes_of_placeLines hhead h
  unfold PlacedLine.flip? at hflip
  split at hflip
  · rename_i op dst src hline
    rw [hline] at hbytes
    have hlength : 2 ≤ p.bytes.length := by
      simp [hbytes, Line.instruction?, encode_packed]
    cases hflip
    unfold PlacedLine.stop
    omega
  · cases hflip

theorem stop_of_site (h : p ∈ placeLines ip head lines) (hhead : head ≤ ip) {site : PatchSite}
    (hsite : p.site? = some site) :
    p.offset ≤ site.offset ∧ site.offset + PatchSite.width = p.stop ∧
      site.kind = .displacement := by
  obtain ⟨_, -, hbytes⟩ := bytes_of_placeLines hhead h
  unfold PlacedLine.site? at hsite
  split at hsite
  · rename_i dst base hline
    rw [hline] at hbytes
    have hlength : 4 ≤ p.bytes.length := by
      simp [hbytes, Line.instruction?, encode_placeholder]
    cases hsite
    unfold PlacedLine.stop PatchSite.width
    refine ⟨?_, ?_, rfl⟩ <;> dsimp only <;> omega
  · cases hsite

/-! ## Copies -/

section Copies

variable {name : String} {direction : Direction} {values : List UInt32} {copy : Bytes}

/-- What stands in a line of a template. -/
theorem slice_template (name : String) (hp : p ∈ placeLines 0 0 lines) {first count : Nat}
    (h : first + count ≤ p.bytes.length) :
    Bytes.slice (template name lines).bytes (p.offset + first) count =
      Bytes.slice p.bytes first count := by
  have hline : Bytes.slice (template name lines).bytes p.offset p.bytes.length = p.bytes :=
    slice_of_placeLines [] rfl hp
  rw [← Bytes.slice_slice _ h, hline]

/-- A copy keeps what is neither flipped nor filled in. -/
theorem slice_copy (hcopy : (template name lines).Specialised direction values copy)
    (hp : p ∈ placeLines 0 0 lines) (first count : Nat) (h : first + count ≤ p.bytes.length)
    (hflip : ∀ i, p.flip? = some i → i < p.offset + first ∨ p.offset + first + count ≤ i)
    (hsite : ∀ site, p.site? = some site → p.offset + first + count ≤ site.offset) :
    Bytes.slice copy (p.offset + first) count = Bytes.slice p.bytes first count := by
  rw [← slice_template name hp h]
  refine Bytes.slice_congr fun i hlow hhigh => ?_
  have hinside : p.offset ≤ i ∧ i < p.stop := by
    unfold PlacedLine.stop
    omega
  -- only the line itself could mark one of its bytes
  refine hcopy.rest i (fun hmem => ?_) fun site hmem hcovers => ?_
  · obtain ⟨q, hq, hqi⟩ := List.mem_filterMap.1 hmem
    have hrange := stop_of_flip hq (Nat.le_refl 0) hqi
    cases eq_of_placeLines hp hq hinside (by omega)
    have := hflip i hqi
    omega
  · obtain ⟨q, hq, hqs⟩ := List.mem_filterMap.1 hmem
    have hrange := stop_of_site hq (Nat.le_refl 0) hqs
    unfold PatchSite.Covers at hcovers
    cases eq_of_placeLines hp hq hinside (by omega)
    have := hsite site hqs
    omega

/-- A line that is neither flipped nor filled in is copied as it is. -/
theorem slice_copy_line (hcopy : (template name lines).Specialised direction values copy)
    (hp : p ∈ placeLines 0 0 lines) (hflip : p.flip? = none) (hsite : p.site? = none) :
    Bytes.slice copy p.offset p.bytes.length = p.bytes := by
  have hline := slice_copy hcopy hp 0 p.bytes.length (by omega) (by simp [hflip]) (by simp [hsite])
  simpa [Bytes.slice] using hline

/-- A number that is not negative is stored as it is. -/
theorem signedBytes_natCast {value : Nat} (h : value < 2 ^ 32) :
    signedBytes 4 value = Bytes.littleEndian 4 value := by
  have hmod : (value : Int) % 2 ^ (8 * 4) = value := Int.emod_eq_of_lt (by omega) (by omega)
  rw [signedBytes, hmod, Int.toNat_natCast]

/-- A load with its displacement filled in. -/
theorem slice_patched (hcopy : (template name lines).Specialised direction values copy)
    (hp : p ∈ placeLines 0 0 lines) {dst : Xmm} {base : Gpr} (hline : p.line = .patched dst base)
    (hbytes : p.bytes = loadHead dst base ++ signedBytes 4 placeholder) :
    ∃ value : UInt32, value.toNat < 2 ^ 31 ∧
      Bytes.slice copy p.offset p.bytes.length = loadHead dst base ++ signedBytes 4 value.toNat := by
  have hlength : p.bytes.length = (loadHead dst base).length + 4 := by simp [hbytes]
  have hsite : p.site? = some ⟨p.stop - 4, .displacement⟩ := by simp [PlacedLine.site?, hline]
  have hstop : p.stop - 4 = p.offset + (loadHead dst base).length := by
    unfold PlacedLine.stop
    omega
  have hmem : ⟨p.stop - 4, .displacement⟩ ∈ (template name lines).sites :=
    List.mem_filterMap.2 ⟨p, hp, hsite⟩
  obtain ⟨hcount, haccepts⟩ := hcopy.accepts
  rw [← List.map_fst_zip (Nat.le_of_eq hcount.symm)] at hmem
  obtain ⟨⟨site, value⟩, hpair, rfl⟩ := List.mem_map.1 hmem
  have hvalue : value.toNat < 2 ^ 31 := of_decide_eq_true (haccepts _ hpair)
  have hfield := hcopy.field _ hpair
  have hfront := slice_copy hcopy hp 0 (loadHead dst base).length (by omega)
    (by simp [PlacedLine.flip?, hline]) (by simp [hsite]; omega)
  refine ⟨value, hvalue, ?_⟩
  rw [hlength, Bytes.slice_add, ← hstop, signedBytes_natCast (by omega)]
  congr 1
  simpa [Bytes.slice, hbytes] using hfront

/-- An operation that swaps. -/
theorem slice_flipped (hcopy : (template name lines).Specialised direction values copy)
    (hp : p ∈ placeLines 0 0 lines) {op : Packed} {dst src : Xmm}
    (hline : p.line = .flipped op dst src)
    (hbytes : p.bytes =
      packedHead dst src ++ [op.opcode, operandByte 3 dst.code.val src.code.val]) :
    Bytes.slice copy p.offset p.bytes.length =
      packedHead dst src ++ [Template.turned flipMask direction op.opcode,
        operandByte 3 dst.code.val src.code.val] := by
  have hlength : p.bytes.length = (packedHead dst src).length + (1 + 1) := by simp [hbytes]
  have hflip : p.flip? = some (p.stop - 2) := by simp [PlacedLine.flip?, hline]
  have hsite : p.site? = none := by simp [PlacedLine.site?, hline]
  have hstop : p.stop - 2 = p.offset + (packedHead dst src).length := by
    unfold PlacedLine.stop
    omega
  have hturned := hcopy.flip (p.stop - 2) (List.mem_filterMap.2 ⟨p, hp, hflip⟩)
  have hopcode := @slice_template _ _ name hp (packedHead dst src).length 1 (by omega)
  have hfront := slice_copy hcopy hp 0 (packedHead dst src).length (by omega)
    (by simp [hflip]; omega) (by simp [hsite])
  have hlast := slice_copy hcopy hp ((packedHead dst src).length + 1) 1 (by omega)
    (by simp [hflip]; omega) (by simp [hsite])
  replace hopcode : (template name lines).bytes[p.offset + (packedHead dst src).length]? =
      some op.opcode := by
    simpa [Bytes.slice_one, hbytes] using hopcode
  replace hfront : Bytes.slice copy p.offset (packedHead dst src).length = packedHead dst src := by
    simpa [Bytes.slice, hbytes] using hfront
  replace hlast : copy[p.offset + (packedHead dst src).length + 1]?.toList =
      [operandByte 3 dst.code.val src.code.val] := by
    simpa [Bytes.slice_one, hbytes, Nat.add_assoc] using hlast
  rw [hlength, Bytes.slice_add, Bytes.slice_add, Bytes.slice_one, Bytes.slice_one, hfront, hlast,
    ← hstop, hturned, hstop, hopcode]
  rfl

/-- A jump back within a kernel is never too far. -/
theorem encodable_jumpBack {ip head : Nat} (hhead : head ≤ ip) (hip : ip + 6 ≤ 2 ^ 31) :
    (jumpBack ip head).Encodable ip := by
  unfold jumpBack
  split
  · assumption
  · show fitsDword (distance ip 6 head) = true
    unfold distance fitsDword
    rw [toSigned_ofInt (by omega) (by omega)]
    simp only [Bool.and_eq_true, decide_eq_true_eq]
    omega

/-- A line of a copy is one instruction, or nothing. -/
theorem text_line (hcopy : (template name lines).Specialised direction values copy)
    (hlength : (template name lines).length + 6 ≤ 2 ^ 31) (hp : p ∈ placeLines 0 0 lines)
    (hsound : p.line.Sound) :
    ∃ words, Bytes.slice copy p.offset p.bytes.length = text words := by
  obtain ⟨head, hhead, hbytes⟩ := bytes_of_placeLines (Nat.le_refl 0) hp
  cases hline : p.line with
  | plain i =>
    rw [hline] at hbytes hsound
    have hencodable := hsound.2.elsewhere hsound.1 p.offset
    refine ⟨[ofInstruction hencodable], ?_⟩
    rw [slice_copy_line hcopy hp (by simp [PlacedLine.flip?, hline])
      (by simp [PlacedLine.site?, hline])]
    simpa [ofInstruction, Line.instruction?] using hbytes
  | patched dst base =>
    rw [hline] at hbytes
    replace hbytes : p.bytes = loadHead dst base ++ signedBytes 4 placeholder := by
      simpa [Line.instruction?, encode_placeholder] using hbytes
    obtain ⟨value, hvalue, hslice⟩ := slice_patched hcopy hp hline hbytes
    have hfits : fitsDword value.toNat = true := by
      simp only [fitsDword, Bool.and_eq_true, decide_eq_true_eq]
      omega
    exact ⟨[longLoad dst base hfits], by simp [hslice, longLoad]⟩
  | flipped op dst src =>
    rw [hline] at hbytes hsound
    replace hbytes : p.bytes =
        packedHead dst src ++ [op.opcode, operandByte 3 dst.code.val src.code.val] := by
      simpa [Line.instruction?, encode_packed] using hbytes
    obtain ⟨turned, hturned⟩ := exists_turned hsound direction
    refine ⟨[@ofInstruction 0 (.packed turned dst src) trivial], ?_⟩
    simp [slice_flipped hcopy hp hline hbytes, ofInstruction, encode_packed, hturned]
  | loopHead =>
    rw [hline] at hbytes
    exact ⟨[], by simp [hbytes, Line.instruction?, Bytes.slice]⟩
  | loopBack =>
    rw [hline] at hbytes
    have hstop := (range_of_placeLines hp).2
    have hencodable := encodable_jumpBack hhead (show p.offset + 6 ≤ 2 ^ 31 by
      unfold PlacedLine.stop at hstop
      unfold Template.length template at hlength
      dsimp only at hlength
      omega)
    refine ⟨[ofInstruction hencodable], ?_⟩
    rw [slice_copy_line hcopy hp (by simp [PlacedLine.flip?, hline])
      (by simp [PlacedLine.site?, hline])]
    simpa [ofInstruction, Line.instruction?] using hbytes

/-- A copy is a text. -/
theorem text_of_specialised (hsound : ∀ line ∈ lines, line.Sound)
    (hlength : (template name lines).length + 6 ≤ 2 ^ 31)
    (hcopy : (template name lines).Specialised direction values copy) :
    ∃ words, copy = text words := by
  have hwhole := flatMap_slice_placeLines copy 0 0 lines
  have hall : Bytes.slice copy 0 (template name lines).length = copy := by
    rw [← hcopy.length, Bytes.slice, List.drop_zero, List.take_length]
  rw [← hall]
  refine hwhole ▸ text_flatMap fun p hp => ?_
  exact text_line hcopy hlength hp (hsound _ (line_mem_of_placeLines hp))

end Copies

/-! ## The kernels -/

/-- The kernels as lists of lines. -/
def kernelLines : List (String × List Line) :=
  [("x4", baseCase4), ("x8", baseCase8), ("leaf_init", leafInit), ("bridge", bridge)] ++
    Leaf.Pass.all.map fun pass => (pass.fragmentName, leafPass pass)

theorem templates_eq : kernels.templates = kernelLines.map fun k => template k.1 k.2 := rfl

theorem kernelLines_sound : ∀ k ∈ kernelLines, (∀ line ∈ k.2, line.Sound) ∧
    0 < (template k.1 k.2).length ∧ (template k.1 k.2).length + 6 ≤ 2 ^ 31 := by
  decide +kernel

/-- A copy of a kernel is a text with something in it. -/
theorem text_of_kernel {t : Template} (ht : t ∈ kernels.templates) {direction : Direction}
    {values : List UInt32} {copy : Bytes} (hcopy : t.Specialised direction values copy) :
    ∃ words, words ≠ [] ∧ copy = text words := by
  rw [templates_eq] at ht
  obtain ⟨⟨name, lines⟩, hmem, rfl⟩ := List.mem_map.1 ht
  obtain ⟨hsound, hpos, hlength⟩ := kernelLines_sound _ hmem
  obtain ⟨words, hwords⟩ := text_of_specialised hsound hlength hcopy
  refine ⟨words, ?_, hwords⟩
  intro hnil
  have hlen := hcopy.length
  rw [hwords, hnil] at hlen
  exact absurd hpos (by rw [← hlen]; exact Nat.lt_irrefl 0)

end SplitRadix.Machine
