import SplitRadix.Word

/-!
# Byte strings

Machine code and object files are lists of bytes. Numbers are laid out in them with the lowest byte
first.
-/

namespace SplitRadix

abbrev Bytes := List UInt8

namespace Bytes

/-- The low `width` bytes of `n`, lowest first. -/
def littleEndian : (width : Nat) → (n : Nat) → Bytes
  | 0, _ => []
  | width + 1, n => UInt8.ofNat n :: littleEndian width (n / 256)

@[simp] theorem length_littleEndian (width n : Nat) : (littleEndian width n).length = width := by
  induction width generalizing n <;> simp [littleEndian, *]

/-- The number whose bytes are given lowest first. -/
def ofLittleEndian : Bytes → Nat
  | [] => 0
  | b :: rest => b.toNat + 256 * ofLittleEndian rest

/-- Reading back what was written gives the number without the bytes that had no room. -/
theorem ofLittleEndian_littleEndian (width n : Nat) :
    ofLittleEndian (littleEndian width n) = n % 256 ^ width := by
  induction width generalizing n with
  | zero => simp [littleEndian, ofLittleEndian, Nat.mod_one]
  | succ width ih =>
    simp only [littleEndian, ofLittleEndian, ih]
    rw [Nat.pow_succ, Nat.mul_comm _ 256, Nat.mod_mul]
    simp

/-- The bytes of `whole` with those from `start` on replaced by `piece`. -/
def overwrite (whole : Bytes) (start : Nat) (piece : Bytes) : Bytes :=
  whole.take start ++ piece ++ whole.drop (start + piece.length)

/-- The `length` bytes of `whole` from `start` on. -/
def slice (whole : Bytes) (start length : Nat) : Bytes := (whole.drop start).take length

theorem length_overwrite {whole piece : Bytes} {start : Nat}
    (h : start + piece.length ≤ whole.length) :
    (overwrite whole start piece).length = whole.length := by
  simp only [overwrite, List.length_append, List.length_take, List.length_drop]
  omega

/-- What was put there can be read there. -/
theorem slice_overwrite {whole piece : Bytes} {start : Nat} (h : start ≤ whole.length) :
    slice (overwrite whole start piece) start piece.length = piece := by
  simp [slice, overwrite, Nat.min_eq_left h]

/-- Outside the piece the bytes are what they were. -/
theorem getElem?_overwrite {whole piece : Bytes} {start i : Nat}
    (h : start + piece.length ≤ whole.length) (hi : i < start ∨ start + piece.length ≤ i) :
    (overwrite whole start piece)[i]? = whole[i]? := by
  simp only [overwrite, List.getElem?_append, List.getElem?_take, List.getElem?_drop,
    List.length_append, List.length_take]
  grind

theorem getElem?_slice (whole : Bytes) (start length i : Nat) :
    (slice whole start length)[i]? = if i < length then whole[start + i]? else none := by
  rw [slice, List.getElem?_take, List.getElem?_drop]

/-- A slice depends on the bytes inside it only. -/
theorem slice_congr {a b : Bytes} {start length : Nat}
    (h : ∀ i, start ≤ i → i < start + length → a[i]? = b[i]?) :
    slice a start length = slice b start length := by
  apply List.ext_getElem?
  intro i
  rw [getElem?_slice, getElem?_slice]
  split
  · exact h (start + i) (by omega) (by omega)
  · rfl

/-- A slice in two parts. -/
theorem slice_add (code : Bytes) (start first second : Nat) :
    slice code start (first + second) =
      slice code start first ++ slice code (start + first) second := by
  rw [slice, slice, slice, List.take_add, List.drop_drop]

theorem slice_slice (code : Bytes) {start length first count : Nat}
    (h : first + count ≤ length) :
    slice (slice code start length) first count = slice code (start + first) count := by
  rw [slice, slice, slice, List.drop_take, List.take_take, List.drop_drop]
  congr 1
  omega

/-- What comes after the slice makes no difference to it. -/
theorem slice_append_left {whole : Bytes} {start length : Nat} (h : start + length ≤ whole.length)
    (rest : Bytes) : slice (whole ++ rest) start length = slice whole start length := by
  apply slice_congr
  intro i _ hi
  rw [List.getElem?_append_left (by omega)]

theorem overwrite_append_left {whole piece : Bytes} {start : Nat}
    (h : start + piece.length ≤ whole.length) (rest : Bytes) :
    overwrite (whole ++ rest) start piece = overwrite whole start piece ++ rest := by
  rw [overwrite, overwrite, List.take_append_of_le_length (by omega),
    List.drop_append_of_le_length (by omega), List.append_assoc _ _ rest]

/-- Overwriting from the end of the first part on. -/
theorem overwrite_append_right (first rest piece : Bytes) :
    overwrite (first ++ rest) first.length piece = first ++ piece ++ rest.drop piece.length := by
  simp [overwrite]

theorem slice_one (code : Bytes) (i : Nat) : slice code i 1 = code[i]?.toList := by
  rw [slice, List.take_one, List.head?_drop]

end Bytes

end SplitRadix
