import SplitRadix.Word

/-!
# Scratch arenas

An arena hands out memory from chunks and gives it back all at once. When the newest chunk has no
room left, a new one is made, at first twice as large as the newest, then half of that and so on
while the system or the arena's limit refuses it. Resetting keeps only the newest chunk.
-/

namespace SplitRadix.Scratch

/-- A chunk of memory and how much of it is free. -/
structure Chunk where
  size : Nat
  free : Nat
  deriving DecidableEq, Repr

structure Arena where
  limit : Option Nat          -- how many bytes the chunks may hold together
  chunks : List Chunk := []   -- newest first
  deriving DecidableEq, Repr

namespace Arena

/-- The bytes held by all chunks. -/
def used (a : Arena) : Nat := (a.chunks.map Chunk.size).foldr (· + ·) 0

/-- The free bytes of the newest chunk. -/
def free (a : Arena) : Nat :=
  match a.chunks with
  | [] => 0
  | chunk :: _ => chunk.free

/-- The size of the newest chunk. -/
def newest (a : Arena) : Nat :=
  match a.chunks with
  | [] => 0
  | chunk :: _ => chunk.size

/-- A chunk is at least this large, unless the limit of the arena is smaller. -/
def minChunk : Nat := 448

/-- The bytes kept beside a chunk for the arena's own use. -/
def footer : Nat := 64

/-- Chunks from here on take whole pages. -/
def page : Nat := 4096

/-- The system never has a chunk of this many bytes. -/
def systemLimit : Nat := 2 ^ 48

/-- The least power of two that is not below `n`. -/
def nextPowerOfTwo (n : Nat) : Nat := if n ≤ 1 then 1 else 2 ^ ((n - 1).log2 + 1)

/-- The size of the chunk made for `n` bytes: with its footer it is a power of two below a page and
a number of whole pages above. -/
def chunkSize (n : Nat) : Nat :=
  if n < page then nextPowerOfTwo (n + footer) - footer
  else (n + footer + (page - 1)) / page * page - footer

/-- Whether a new chunk of `size` bytes can be had. -/
def admits (a : Arena) (size : Nat) : Bool :=
  size < systemLimit &&
  match a.limit with
  | none => true
  | some limit => size ≤ limit - a.used

/-- Whether a chunk for `base` bytes is worth asking for, to hold a request of `bytes`. An empty
arena with a small limit may make smaller chunks than usual. -/
def worthwhile (a : Arena) (bytes base : Nat) : Bool :=
  max bytes minChunk ≤ base ||
  match a.limit with
  | none => false
  | some limit => bytes < limit && bytes ≤ base && limit < minChunk && a.used == 0

/-- The first chunk that can be had, halving the size asked for. -/
def findChunk (a : Arena) (bytes base : Nat) : Option Nat :=
  if base = 0 then none
  else if a.worthwhile bytes base then
    let size := chunkSize (max base bytes)
    if a.admits size then some size else a.findChunk bytes (base / 2)
  else none
termination_by base
decreasing_by omega

/-- Take `bytes` bytes, from the newest chunk or a new one. -/
def allocate (a : Arena) (bytes : Nat) : Option Arena :=
  if bytes ≤ a.free then
    match a.chunks with
    | [] => some a
    | chunk :: rest => some { a with chunks := { chunk with free := chunk.free - bytes } :: rest }
  else
    match a.findChunk bytes (max (2 * a.newest) (max bytes minChunk)) with
    | none => none
    | some size => some { a with chunks := ⟨size, size - bytes⟩ :: a.chunks }

/-- Give all memory back but the newest chunk. -/
def reset (a : Arena) : Arena :=
  match a.chunks with
  | [] => a
  | chunk :: _ => { a with chunks := [⟨chunk.size, chunk.size⟩] }

end Arena

end SplitRadix.Scratch
