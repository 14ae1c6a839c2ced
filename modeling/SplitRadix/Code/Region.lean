import SplitRadix.Code.Bytes
import SplitRadix.Text.Hex
import SplitRadix.Word

/-!
# Code regions

A region is a stretch of memory that code is written into. A new region starts on a multiple of 64
and is filled with a one-byte breakpoint, so that running past the written code traps.
-/

namespace SplitRadix

/-- Memory for code: the address of its first byte, and its contents. Mirrors `CodeRegion`. -/
structure Region where
  base : Nat
  bytes : Bytes
  deriving DecidableEq, Repr

namespace Region

/-- The alignment of a new region. -/
def alignment : Nat := 64

/-- The byte a new region is filled with. -/
def filler : UInt8 := 0xCC

/-- A region of `length` fresh bytes at `base`. -/
def blank (base length : Nat) : Region := ⟨base, List.replicate length filler⟩

/-- A new region at `base`. Room for aligning it is reserved beside its own bytes, and no more than
2^63 - 1 bytes can be reserved. Mirrors `CodeRegion.new`. -/
def make (base length : Nat) : Except Fault Region := do
  let reserved ← Word.add length alignment
  if reserved < 2 ^ 63 then
    return blank base length
  else
    throw .capacityOverflow

def length (r : Region) : Nat := r.bytes.length

/-- The first `n` bytes, or all of them if there are fewer. -/
def code (r : Region) (n : Nat) : Bytes := r.bytes.take n

/-- Write one byte. -/
def write (r : Region) (index : Nat) (byte : UInt8) : Except Fault Region :=
  if index < r.length then .ok { r with bytes := r.bytes.set index byte }
  else .error (.indexOutOfBounds r.length index)

/-- Write bytes one after the other. -/
def writeAll (r : Region) (writes : List (Nat × UInt8)) : Except Fault Region :=
  writes.foldlM (fun r (index, byte) => r.write index byte) r

/-- The region's place and length, with the address written by `address`. -/
def describe (address : Nat → String) (r : Region) : String :=
  "CodeRegion \x7b address: " ++ address r.base ++ s!", len: {r.length} \x7d"

end Region

end SplitRadix
