import SplitRadix.ObjectFile.StringTable
import SplitRadix.Routine.Basic

/-!
# Object files

A routine as a relocatable ELF64 object for x86-64. Its code is one section; all calls in it are
relative and stay inside, so there are no relocations. Three functions are defined: the entry under
the chosen name, and the two base cases under that name with `_x4` and `_x8` appended.

The file holds, in this order: the header, the code, the symbols, their names, the section names and
the section headers.
-/

namespace SplitRadix.ObjectFile

inductive ExportError where
  | emptySymbol
  | codeTooShort (required available : Nat)
  deriving DecidableEq, Repr

def ExportError.message : ExportError → String
  | emptySymbol => "Symbol name must not be empty"
  | codeTooShort required available => s!"Code holds {available} bytes, routine needs {required}"

/-- A function in the code section. -/
structure Symbol where
  name : Bytes
  value : Nat    -- offset in the code
  size : Nat
  deriving DecidableEq, Repr

/-- A section of the file. -/
structure Section where
  name : Bytes
  type : Nat
  flags : Nat := 0
  offset : Nat := 0
  size : Nat := 0
  link : Nat := 0
  info : Nat := 0
  align : Nat := 0
  entrySize : Nat := 0
  deriving DecidableEq, Repr

def nameBytes (name : String) : Bytes := name.toUTF8.toList

/-- The least multiple of `n` not below `offset`. -/
def alignUp (offset n : Nat) : Nat := (offset + (n - 1)) / n * n

def u16 (n : Nat) : Bytes := Bytes.littleEndian 2 n
def u32 (n : Nat) : Bytes := Bytes.littleEndian 4 n
def u64 (n : Nat) : Bytes := Bytes.littleEndian 8 n

def headerSize : Nat := 64
def sectionHeaderSize : Nat := 64
def symbolSize : Nat := 24

/-- The alignment of the code. -/
def codeAlign : Nat := 64

/-- The file header, for five section headers at `sections` of which the last has the names. -/
def header (sections : Nat) : Bytes :=
  [0x7F, 0x45, 0x4C, 0x46,          -- magic
   2, 1, 1, 0,                      -- 64 bits, lowest byte first, version, no particular system
   0, 0, 0, 0, 0, 0, 0, 0] ++
  u16 1 ++ u16 62 ++ u32 1 ++       -- relocatable, x86-64, version
  u64 0 ++ u64 0 ++ u64 sections ++ -- no entry, no program headers
  u32 0 ++ u16 headerSize ++ u16 0 ++ u16 0 ++
  u16 sectionHeaderSize ++ u16 5 ++ u16 4

/-- A section header, given the table of section names. -/
def Section.header (names : StringTable) (s : Section) : Bytes :=
  u32 (names.place s.name) ++ u32 s.type ++ u64 s.flags ++ u64 0 ++ u64 s.offset ++ u64 s.size ++
  u32 s.link ++ u32 s.info ++ u64 s.align ++ u64 s.entrySize

/-- A symbol, given the table of names: a global function, hidden outside its component, in the first
section. -/
def Symbol.entry (names : StringTable) (s : Symbol) : Bytes :=
  u32 (names.place s.name) ++ [0x12, 2] ++ u16 1 ++ u64 s.value ++ u64 s.size

/-- The symbols of a routine called `name`. -/
def symbols (r : Routine) (name : String) : List Symbol :=
  let length (fragment : String) := ((r.fragment? fragment).map Fragment.length).getD 0
  [{ name := nameBytes name, value := r.entryOffset, size := r.length - r.entryOffset },
   { name := nameBytes (name ++ "_x4"), value := r.x4Offset, size := length "x4" },
   { name := nameBytes (name ++ "_x8"), value := r.x8Offset, size := length "x8" }]

/-- Zeros up to the next multiple of `n`. -/
def gap (offset n : Nat) : Bytes := List.replicate (alignUp offset n - offset) 0

/-- The file with the given code and symbols. -/
def layout (code : Bytes) (symbols : List Symbol) : Bytes :=
  let names := StringTable.ofNames (symbols.map Symbol.name)
  let text := nameBytes ".text"
  let symtab := nameBytes ".symtab"
  let strtab := nameBytes ".strtab"
  let shstrtab := nameBytes ".shstrtab"
  let sectionNames := StringTable.ofNames [text, symtab, strtab, shstrtab]
  let table := List.replicate symbolSize 0 ++ symbols.flatMap (Symbol.entry names)
  let textOffset := alignUp headerSize codeAlign
  let textEnd := textOffset + code.length
  let symtabOffset := alignUp textEnd 8
  let strtabOffset := symtabOffset + table.length
  let shstrtabOffset := strtabOffset + names.bytes.length
  let shstrtabEnd := shstrtabOffset + sectionNames.bytes.length
  let sections : List Section :=
    [{ name := text, type := 1, flags := 6, offset := textOffset, size := code.length,
       align := codeAlign },
     { name := symtab, type := 2, offset := symtabOffset, size := table.length, link := 3,
       info := 1, align := 8, entrySize := symbolSize },
     { name := strtab, type := 3, offset := strtabOffset, size := names.bytes.length, align := 1 },
     { name := shstrtab, type := 3, offset := shstrtabOffset, size := sectionNames.bytes.length,
       align := 1 }]
  header (alignUp shstrtabEnd 8) ++ gap headerSize codeAlign ++ code ++ gap textEnd 8 ++ table ++
    names.bytes ++ sectionNames.bytes ++ gap shstrtabEnd 8 ++
    List.replicate sectionHeaderSize 0 ++ sections.flatMap (Section.header sectionNames)

/-- The object file of a routine called `name`, given the region it was written to. Mirrors
`write_elf`. -/
def write (region : Bytes) (r : Routine) (name : String) : Except (Failure ExportError) Bytes := do
  if name.isEmpty then
    throw (.error .emptySymbol)
  if region.length < r.length then
    throw (.error (.codeTooShort r.length region.length))
  if (nameBytes name).contains 0 then
    throw (.fault .nulInName)
  return layout (region.take r.length) (symbols r name)

end SplitRadix.ObjectFile
