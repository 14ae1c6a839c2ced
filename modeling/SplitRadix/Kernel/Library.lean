import SplitRadix.Kernel.Template
import SplitRadix.Leaf.Pass

/-!
# Kernel libraries

A library holds every template a routine is made of: the two base cases that the calls go to, the
code that starts the leaf passes, the four leaf passes, and the bridge from them to the calls. A
valid library has eight patched fields in each leaf pass and none elsewhere.
-/

namespace SplitRadix.Kernel

/-- Mirrors `KernelLibrary`. -/
structure Library where
  x4 : Template          -- radix-4 step of the smallest nodes
  x8 : Template          -- looping radix-4 step of the larger nodes
  leafInit : Template    -- starts the leaf passes
  bridge : Template      -- leads from the leaf passes to the calls
  leaf : Leaf.Pass → Template

namespace Library

/-- The number of offsets written into a leaf pass. -/
def leafSites : Nat := 8

/-- The templates that take no offsets. -/
def fixed (lib : Library) : List Template := [lib.x4, lib.x8, lib.leafInit, lib.bridge]

def leaves (lib : Library) : List Template := Leaf.Pass.all.map lib.leaf

def templates (lib : Library) : List Template := lib.fixed ++ lib.leaves

/-- The length of the longest template. Mirrors `KernelLibrary.max_template_len`. -/
def maxLength (lib : Library) : Nat := (lib.templates.map Template.length).foldl max 0

/-- The template has exactly `expected` patch sites. -/
def checkSites (expected : Nat) (t : Template) : Except (Failure TemplateError) Unit :=
  if t.sites.length = expected then .ok ()
  else .error (.error (.patchCountMismatch t.name expected t.sites.length))

/-- Every template is valid, and every one has the number of sites its place asks for. Mirrors
`KernelLibrary.validate`. -/
def validate (lib : Library) : Except (Failure TemplateError) Unit := do
  lib.templates.forM Template.validate
  lib.leaves.forM (checkSites leafSites)
  lib.fixed.forM (checkSites 0)

end Library

end SplitRadix.Kernel
