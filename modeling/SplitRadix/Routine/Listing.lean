import SplitRadix.Machine.Decoding
import SplitRadix.Machine.Text
import SplitRadix.Routine.Basic

/-!
# Listings

A routine as text: disassembled, with a label before every fragment, or as plain bytes.
-/

namespace SplitRadix.Routine

open Machine

/-- The text of decoded code. -/
def decodedText (d : Decoded) : String :=
  match d.instruction with
  | some i => i.text
  | none => "(bad)"

/-- One row: the address, the bytes and the instruction. -/
def row (ip : Nat) (d : Decoded) : Except Fault String := do
  let address ← Word.add ip d.offset
  return "  " ++ Text.padStart 8 '0' (Text.hexUpper address) ++ "  " ++
    Text.padEnd 24 (String.join (d.bytes.map Text.hexByteUpper)) ++ " " ++ decodedText d ++ "\n"

/-- The rows of a listing. The labels of all fragments that have started by then precede a row. -/
def rows (ip : Nat) : List Fragment → List Decoded → Except Fault (List String)
  | _, [] => .ok []
  | fragments, d :: rest => do
    let started := fragments.takeWhile fun f => f.offset ≤ d.offset
    let labels := started.map fun f => f.name ++ ":\n"
    let text ← row ip d
    return labels ++ text :: (← rows ip (fragments.drop started.length) rest)

/-- The listing of a routine in `region`, as if it stood at `ip`. Mirrors `listing`. -/
def listing (r : Routine) (region : Bytes) (ip : Nat) : Except Fault String := do
  let code ← r.code region
  return String.join (← rows ip r.fragments (disassemble ip code))

/-- The rows of a dump, sixteen bytes each. -/
def dumpRows (address : Nat) (code : Bytes) : Except Fault (List String) :=
  match code with
  | [] => .ok []
  | b :: rest => do
    let place ← Word.fit 64 .addOverflow address
    let bytes := (b :: rest.take 15).map fun byte => " " ++ Text.hexByteUpper byte
    let text := Text.padStart 8 '0' (Text.hexUpper place) ++ " " ++ String.join bytes ++ "\n"
    return text :: (← dumpRows (address + 16) (rest.drop 15))
termination_by code.length
decreasing_by simp only [List.length_drop, List.length_cons]; omega

/-- The bytes of a code that stands at `base`. Mirrors `hex_dump`. -/
def hexDump (code : Bytes) (base : Nat) : Except Fault String := do
  return String.join (← dumpRows base code)

end SplitRadix.Routine
