import SplitRadix.Target.Backend

/-!
# The recording target

A target that stands in for a real instruction set. It writes a short fixed pattern for each
primitive, keeps a log of the primitives it wrote, and can be told to refuse one of them. Its
kernels are shaped like real ones but do nothing useful.
-/

namespace SplitRadix.Target

open Kernel

/-- A primitive that was written, or an alignment with the padding it took. -/
inductive LogEntry where
  | wrote (primitive : Primitive)
  | aligned (bias padding : Nat)
  deriving DecidableEq, Repr

/-- The state of the recording target. -/
structure Recorder where
  requests : Nat := 0          -- primitives and alignments asked for so far
  log : Array LogEntry := #[]
  deriving DecidableEq, Repr

namespace Recorder

/-- The flip mask of the kernels: the difference between an addition and a subtraction. -/
def flipMask : UInt8 := 0x04

/-- A leaf pass: an index load, eight patched loads, an addition and the end of a loop. Mirrors
`synthetic_leaf`. -/
def leafKernel (pass : Leaf.Pass) : Template :=
  let loads : List Bytes := (List.range 8).map fun reg =>
    [0x43, 0x0F, 0x28, UInt8.ofNat (0x84 ||| (reg <<< 3)), 0x19, 0x00, 0x00, 0x00, 0x10]
  { name := pass.fragmentName
    bytes := [0x45, 0x8B, 0x1C, 0x02] ++ loads.flatten ++
      [0x0F, 0x58, 0xC1, 0x48, 0x83, 0xC0, 0x04, 0x48, 0x39, 0xC8, 0x72, 0xA8]
    sites := (List.range 8).map fun reg => ⟨9 + 9 * reg, .displacement⟩
    flips := [77]
    flipMask
    loopEntry := some 0 }

/-- The kernels of the recording target. Mirrors `synthetic_library`. -/
def kernels : Library where
  x4 := { name := "x4", bytes := [0x0F, 0x58, 0xC1, 0xC3], flips := [1], flipMask }
  x8 := { name := "x8", bytes := [0x0F, 0x58, 0xC1, 0x0F, 0x5C, 0xD3, 0xC3], flips := [1, 4],
          flipMask }
  leafInit := { name := "leaf_init", bytes := [0x31, 0xC0] }
  bridge := { name := "bridge", bytes := [0x48, 0x89, 0xDA] }
  leaf := leafKernel

/-- What can be chosen about a recording target. -/
structure Settings where
  fetchAlignment : Nat := 16
  maxPrimitive : Nat := 6
  prologue : Bytes := [0x53, 0x55, 0x41, 0x54]
  epilogue : Bytes := [0xC3]
  prologueLength : Option Nat := none    -- the length to report, if not the real one
  epilogueLength : Option Nat := none
  mask : UInt32 := 0x80000000
  refuse : Option Nat := none            -- the number of the request to refuse
  kernels : Library := kernels

/-- The byte that stands for a register. Mirrors `role_byte`. -/
def roleByte : Role → UInt8
  | .loopCounter | .size => 0xC1
  | .output => 0xC2
  | .lut => 0xC0

/-- The bytes of a primitive at `address`. -/
def encode (settings : Settings) (address : Nat) : Primitive → Bytes
  | .prologue => settings.prologue
  | .epilogue => settings.epilogue
  | .load role value => 0xB8 :: roleByte role :: Bytes.littleEndian 4 value.toNat
  | .add role delta =>
    0x81 :: roleByte role :: Bytes.littleEndian 4 (Word.low32OfInt delta).toNat
  | .shift role amount => [0xC1, roleByte role, UInt8.ofNat (amount % 256).toNat]
  | .call target =>
    0xE8 :: Bytes.littleEndian 4 (Word.low32OfInt (target - (address + 5))).toNat

/-- Count a request, and refuse it if it is the one to refuse. -/
def count (settings : Settings) : Emit Recorder Unit := fun e =>
  let refused := settings.refuse == some e.own.requests
  let e := { e with own := { e.own with requests := e.own.requests + 1 } }
  if refused then (.error (.error (.encoding .invalidRegister)), e) else (.ok (), e)

/-- Add to the log. -/
def record (entry : LogEntry) : Emit Recorder Unit := fun e =>
  (.ok (), { e with own := { e.own with log := e.own.log.push entry } })

/-- The recording target with the given settings. Mirrors `RecordingBackend`. -/
def backend (settings : Settings) : Backend Recorder where
  name := "recording"
  kernels := settings.kernels
  fetchAlignment := settings.fetchAlignment
  maxPrimitive := settings.maxPrimitive
  signMask direction := [0, settings.mask, if direction.isInverse then 1 else 0, settings.mask]
  prologueLength := settings.prologueLength.getD settings.prologue.length
  epilogueLength := settings.epilogueLength.getD settings.epilogue.length
  emit primitive := do
    count settings
    let _ ← Emit.append (encode settings (← Emit.address) primitive)
    record (.wrote primitive)
  align bias := do
    count settings
    let padding ← Emit.onBuffer .buffer (Code.Buffer.alignTo settings.fetchAlignment bias 0x90)
    record (.aligned bias padding)
    return padding

end Recorder

end SplitRadix.Target
