import SplitRadix.Machine.Encoding

/-!
# Placing a queue of instructions

Instructions are queued and then placed together at an address. A call whose target is out of reach
of a 32-bit distance goes through a slot that holds the target. The slots follow the instructions,
from the next multiple of eight on, one for each such call in order; the gap before them is filled
with breakpoints.

While they wait, all instructions stand at address zero. A call to address zero means the
instruction that stands there, if there is only one: the call itself.
-/

namespace SplitRadix.Machine

/-- Whether a call at `ip` reaches `target`. -/
def reaches (ip target : Nat) : Bool := fitsDword (distance ip 5 target)

/-- A queued instruction with its place settled. -/
inductive Placed where
  | direct (bytes : Bytes)
  | distant (ip target : Nat)    -- a call through a slot
  deriving DecidableEq, Repr

/-- Settle one instruction at `ip`. -/
def place (ip : Nat) : Instruction → Placed
  | .call target =>
    if reaches ip target then .direct ((Instruction.call target).encode ip) else .distant ip target
  | i => .direct (i.encode ip)

def Placed.length : Placed → Nat
  | direct bytes => bytes.length
  | distant _ _ => 6

/-- Settle a queue from `ip` on. -/
def placeAll (ip : Nat) : List Instruction → List Placed
  | [] => []
  | i :: rest =>
    let p := place ip i
    p :: placeAll (ip + p.length) rest

/-- The bytes of settled instructions whose slots start at `slot`. -/
def Placed.render (slot : Nat) : List Placed → Bytes
  | [] => []
  | direct bytes :: rest => bytes ++ render slot rest
  | distant ip _ :: rest => (Instruction.callThrough slot).encode ip ++ render (slot + 8) rest

/-- The targets that need a slot, in order. -/
def Placed.targets : List Placed → List Nat
  | [] => []
  | direct _ :: rest => targets rest
  | distant _ target :: rest => target :: targets rest

/-- The instruction that a lone queued instruction becomes at `ip`. -/
def resolveLone (ip : Nat) : List Instruction → List Instruction
  | [.call 0] => [.call ip]
  | queue => queue

/-- The bytes of a queue placed at `ip`. Mirrors `X64Encoder.finalize`. -/
def assemble (ip : Nat) (queue : List Instruction) : Bytes :=
  let placed := placeAll ip (resolveLone ip queue)
  let stop := ip + (placed.map Placed.length).foldr (· + ·) 0
  match Placed.targets placed with
  | [] => Placed.render stop placed
  | targets =>
    let slots := (stop + 7) / 8 * 8
    Placed.render slots placed ++ List.replicate (slots - stop) 0xCC ++
      targets.flatMap (Bytes.littleEndian 8)

end SplitRadix.Machine
