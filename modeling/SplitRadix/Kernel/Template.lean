import SplitRadix.Code.Bytes
import SplitRadix.Text.Hex
import SplitRadix.Transform.Direction
import SplitRadix.Word

/-!
# Kernel templates

A template is a ready-made piece of machine code with notes on how a copy of it is specialised: the
four-byte fields that take offsets, the bytes that differ between the two directions, and where its
loop starts.

* `validate`: the notes lie inside the code and do not overlap.
* `applyDirection`, `applyPatches`: specialise a copy.
-/

namespace SplitRadix.Kernel

inductive TemplateError where
  | patchCountMismatch (template : String) (expected actual : Nat)
  | siteOutOfBounds (template : String) (offset length : Nat)
  | overlappingSites (template : String) (first second : Nat)
  | patchOutOfRange (template : String) (offset : Nat) (value : UInt32)
  | malformed (template reason : String)
  deriving DecidableEq, Repr

def TemplateError.message : TemplateError → String
  | patchCountMismatch template expected actual =>
    s!"Template {template}: expected {expected} patch values, got {actual}"
  | siteOutOfBounds template offset length =>
    s!"Template {template}: site at {offset} exceeds length {length}"
  | overlappingSites template first second =>
    s!"Template {template}: sites at {first} and {second} overlap"
  | patchOutOfRange template offset value =>
    s!"Template {template}: value " ++ Text.hexMarked value.toNat ++
      s!" does not fit the displacement at {offset}"
  | malformed template reason => s!"Template {template}: {reason}"

/-- What a patched field is to the processor. -/
inductive PatchKind where
  | displacement    -- sign-extended when used
  | immediate
  deriving DecidableEq, Repr

/-- Whether a value keeps its meaning in a field of this kind. Mirrors `PatchKind.accepts`. -/
def PatchKind.accepts : PatchKind → UInt32 → Bool
  | displacement, value => value.toNat < 2 ^ 31
  | immediate, _ => true

/-- A four-byte field, lowest byte first. -/
structure PatchSite where
  offset : Nat
  kind : PatchKind
  deriving DecidableEq, Repr

/-- The width of a patched field in bytes. -/
def PatchSite.width : Nat := 4

/-- Mirrors `KernelTemplate`. -/
structure Template where
  name : String
  bytes : Bytes
  sites : List PatchSite := []
  flips : List Nat := []            -- bytes that differ in the inverse direction
  flipMask : UInt8 := 0             -- the bits in which they differ
  loopEntry : Option Nat := none    -- where the loop starts
  deriving DecidableEq, Repr

namespace Template

def length (t : Template) : Nat := t.bytes.length

def isEmpty (t : Template) : Bool := t.bytes.isEmpty

/-- Whether `fragment` can be a copy of the template. Mirrors `KernelTemplate.check_fragment`. -/
def checkFragment (t : Template) (fragment : Bytes) : Except (Failure TemplateError) Unit :=
  if fragment.length = t.length then .ok ()
  else .error (.error (.malformed t.name "fragment length differs from template"))

/-- Flip the bits of `mask` in each of the bytes at `sites`. -/
def flipBytes (mask : UInt8) : List Nat → Action Bytes (Failure TemplateError) Unit
  | [] => pure ()
  | site :: rest => do
    fun bytes =>
      if h : site < bytes.length then
        (.ok (), bytes.set site (bytes[site] ^^^ mask))
      else
        (.error (.fault (.indexOutOfBounds bytes.length site)), bytes)
    flipBytes mask rest

/-- Write each value into its site. -/
def writeSites : List (PatchSite × UInt32) → Action Bytes (Failure TemplateError) Unit
  | [] => pure ()
  | (site, value) :: rest => do
    let stop ← Word.add site.offset PatchSite.width
    fun bytes =>
      if bytes.length < site.offset then
        (.error (.fault (.rangeStart site.offset bytes.length)), bytes)
      else if bytes.length < stop then
        (.error (.fault (.rangeEnd stop bytes.length)), bytes)
      else
        (.ok (), Bytes.overwrite bytes site.offset
          (Bytes.littleEndian PatchSite.width value.toNat))
    writeSites rest

/-- Make a copy of the template fit for a direction: the marked bytes are flipped for the inverse
one. Mirrors `KernelTemplate.apply_direction`. -/
def applyDirection (t : Template) (direction : Direction) :
    Action Bytes (Failure TemplateError) Unit := do
  Action.ofExcept (t.checkFragment (← get))
  match direction with
  | .forward => pure ()
  | .inverse => flipBytes t.flipMask t.flips

/-- Write `values` into the sites of a copy of the template. All values are looked at before the
first one is written. Mirrors `KernelTemplate.apply_patches`. -/
def applyPatches (t : Template) (values : List UInt32) :
    Action Bytes (Failure TemplateError) Unit := do
  Action.ofExcept (t.checkFragment (← get))
  if values.length ≠ t.sites.length then
    throw (.error (.patchCountMismatch t.name t.sites.length values.length))
  match (t.sites.zip values).find? fun (site, value) => !site.kind.accepts value with
  | some (site, value) => throw (.error (.patchOutOfRange t.name site.offset value))
  | none => writeSites (t.sites.zip values)

/-- The byte ranges of the patch sites, which have to lie inside the template. -/
def siteRanges (t : Template) : List PatchSite → Except (Failure TemplateError) (List (Nat × Nat))
  | [] => .ok []
  | site :: rest => do
    let stop ← Word.add site.offset PatchSite.width
    if t.length < stop then
      throw (.error (.siteOutOfBounds t.name site.offset t.length))
    return (site.offset, stop) :: (← t.siteRanges rest)

/-- The byte ranges of the flipped bytes, which have to lie inside the template. -/
def flipRanges (t : Template) : List Nat → Except (Failure TemplateError) (List (Nat × Nat))
  | [] => .ok []
  | site :: rest => do
    if t.length ≤ site then
      throw (.error (.siteOutOfBounds t.name site t.length))
    return (site, site + 1) :: (← t.flipRanges rest)

/-- The order of byte ranges: by start, then by end. -/
def rangeBefore (a b : Nat × Nat) : Bool := a.1 < b.1 || (a.1 == b.1 && a.2 ≤ b.2)

/-- Put a range into its place in an ordered list. -/
def insertRange (r : Nat × Nat) : List (Nat × Nat) → List (Nat × Nat)
  | [] => [r]
  | first :: rest => if rangeBefore r first then r :: first :: rest else first :: insertRange r rest

/-- Put ranges in order. -/
def orderRanges : List (Nat × Nat) → List (Nat × Nat)
  | [] => []
  | r :: rest => insertRange r (orderRanges rest)

/-- The first two neighbours of an ordered list of ranges that share a byte. -/
def firstOverlap : List (Nat × Nat) → Option (Nat × Nat)
  | first :: second :: rest =>
    if second.1 < first.2 then some (first.1, second.1) else firstOverlap (second :: rest)
  | _ => none

/-- The template holds code, its sites and its loop entry lie inside the code, its flips change
something, and no two of its sites share a byte. Mirrors `KernelTemplate.validate`. -/
def validate (t : Template) : Except (Failure TemplateError) Unit := do
  if t.isEmpty then
    throw (.error (.malformed t.name "empty template"))
  if !t.flips.isEmpty && t.flipMask == 0 then
    throw (.error (.malformed t.name "sign flips with an empty mask"))
  let sites ← t.siteRanges t.sites
  let flips ← t.flipRanges t.flips
  match t.loopEntry with
  | some entry =>
    if t.length ≤ entry then
      throw (.error (.siteOutOfBounds t.name entry t.length))
  | none => pure ()
  match firstOverlap (orderRanges (sites ++ flips)) with
  | some (first, second) => throw (.error (.overlappingSites t.name first second))
  | none => pure ()

end Template

end SplitRadix.Kernel
