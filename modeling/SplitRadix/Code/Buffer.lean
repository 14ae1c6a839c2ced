import SplitRadix.Code.Region

/-!
# Code buffers

A buffer writes to memory from its start on. It only ever appends, except that bytes already written
can be edited in place. What lies past the cursor keeps the contents it had.

* `append`, `alignTo`: write at the cursor, or report how much room was missing.
* `paddingFor`: the distance from the cursor to a boundary.
* `edit`: change a fragment that was written before.
* `overlay`: the region a buffer was opened on, with what was written.
-/

namespace SplitRadix.Code

inductive BufferError where
  | overflow (needed remaining : Nat)
  deriving DecidableEq, Repr

def BufferError.message : BufferError → String
  | overflow needed remaining =>
    s!"Code buffer overflow: {needed} bytes needed, {remaining} remaining"

/-- Memory for code and the bytes written to its start. Mirrors `CodeBuffer`. -/
structure Buffer where
  base : Nat            -- address of the first byte
  capacity : Nat
  reversed : Bytes      -- what was written, latest byte first
  position : Nat        -- offset of the cursor
  position_eq : position = reversed.length
  deriving DecidableEq, Repr

namespace Buffer

/-- A buffer that has written the given bytes. -/
def holding (base capacity : Nat) (written : Bytes) : Buffer where
  base
  capacity
  reversed := written.reverse
  position := written.length
  position_eq := by simp

/-- A buffer at the start of a region. Mirrors `CodeBuffer.new`. -/
def start (region : Region) : Buffer := holding region.base region.length []

/-- The bytes written so far. Mirrors `CodeBuffer.written`. -/
def written (b : Buffer) : Bytes := b.reversed.reverse

@[simp] theorem length_written (b : Buffer) : b.written.length = b.position := by
  simp [written, b.position_eq]

@[simp] theorem written_holding (base capacity : Nat) (bytes : Bytes) :
    (holding base capacity bytes).written = bytes := by
  simp [written, holding]

@[simp] theorem written_start (region : Region) : (start region).written = [] :=
  written_holding ..

def remaining (b : Buffer) : Nat := b.capacity - b.position

/-- The address of the cursor. Mirrors `CodeBuffer.address`. -/
def address (b : Buffer) : Nat := b.base + b.position

/-- The address of an offset. Mirrors `CodeBuffer.address_of`. -/
def addressOf (b : Buffer) (offset : Nat) : Except Fault Nat := Word.add b.base offset

/-- The region that the buffer was opened on, with what was written to it. -/
def overlay (b : Buffer) (region : Region) : Region :=
  { region with bytes := b.written ++ region.bytes.drop b.position }

/-- The buffer with `bytes` added. -/
def push (b : Buffer) (bytes : Bytes) : Buffer where
  base := b.base
  capacity := b.capacity
  reversed := bytes.reverseAux b.reversed
  position := b.position + bytes.length
  position_eq := by
    rw [List.reverseAux_eq, List.length_append, List.length_reverse, b.position_eq, Nat.add_comm]

@[simp] theorem written_push (b : Buffer) (bytes : Bytes) :
    (b.push bytes).written = b.written ++ bytes := by
  simp [written, push, List.reverseAux_eq]

@[simp] theorem base_push (b : Buffer) (bytes : Bytes) : (b.push bytes).base = b.base := rfl

@[simp] theorem position_push (b : Buffer) (bytes : Bytes) :
    (b.push bytes).position = b.position + bytes.length := rfl

theorem push_push (b : Buffer) (first second : Bytes) :
    (b.push first).push second = b.push (first ++ second) := by
  simp [push, List.reverseAux_eq, Nat.add_assoc]

/-- Write `bytes` at the cursor and tell where they start. Mirrors `CodeBuffer.append`. -/
def append (bytes : Bytes) : Action Buffer (Failure BufferError) Nat := fun b =>
  if bytes.length ≤ b.remaining then
    (.ok b.position, b.push bytes)
  else
    (.error (.error (.overflow bytes.length b.remaining)), b)

/-- How many bytes to write so that the address `bias` bytes past the cursor becomes a multiple of
`boundary`, which has to be a power of two. Mirrors `CodeBuffer.padding_for`. -/
def paddingFor (b : Buffer) (boundary bias : Nat) : Except Fault Nat := do
  if Word.isPowerOfTwo boundary then
    let place ← Word.add b.address bias
    return (boundary - place % boundary) % boundary
  else
    throw .boundaryNotPowerOfTwo

/-- Write `filler` until the address `bias` bytes past the cursor is a multiple of `boundary`, and
tell how many bytes that took. Mirrors `CodeBuffer.align_to`. -/
def alignTo (boundary bias : Nat) (filler : UInt8) : Action Buffer (Failure BufferError) Nat := do
  let padding ← (← get).paddingFor boundary bias
  let _ ← append (List.replicate padding filler)
  return padding

/-- Change the `length` bytes written from `start` on. A failing edit keeps what it changed. Mirrors
`CodeBuffer.fragment_mut`. -/
def edit {ε α : Type} (start length : Nat) (change : Action Bytes (Failure ε) α) :
    Action Buffer (Failure ε) α := do
  let stop ← Word.add start length
  fun b =>
    if stop ≤ b.position then
      let (result, fragment) := change (Bytes.slice b.written start length)
      (result, holding b.base b.capacity (Bytes.overwrite b.written start fragment))
    else
      (.error (.fault .fragmentNotWritten), b)

end Buffer

end SplitRadix.Code
