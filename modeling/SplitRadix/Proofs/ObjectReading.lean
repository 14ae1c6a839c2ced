import SplitRadix.ObjectFile.Elf

/-!
# Reading object files

An object file as its format defines it, read without regard to how it was written. The file header
says where the section headers are, each section header where its section is, and a symbol table has
its names in the string table that it is linked to. A name ends before the next zero byte.

* `Holds`: a file holds some bytes at an offset.
* `read`: the sections and symbols of a file.
* `StringTable.holds_place`: the names of a string table are where it says.
-/

namespace SplitRadix.ObjectFile

/-! ## Bytes at an offset -/

/-- The file holds the bytes at an offset. -/
structure Holds (file : Bytes) (offset : Nat) (bytes : Bytes) : Prop where
  inside : offset + bytes.length ≤ file.length
  slice : Bytes.slice file offset bytes.length = bytes

variable {file : Bytes} {offset : Nat}

theorem Holds.whole (file : Bytes) : Holds file 0 file :=
  ⟨Nat.le_of_eq (Nat.zero_add _), by rw [Bytes.slice, List.drop_zero, List.take_length]⟩

theorem holds_append {first second : Bytes} :
    Holds file offset (first ++ second) ↔
      Holds file offset first ∧ Holds file (offset + first.length) second := by
  constructor
  · intro h
    have hinside := h.inside
    have hslice := h.slice
    rw [List.length_append] at hinside hslice
    rw [Bytes.slice_add] at hslice
    have hlength : (Bytes.slice file offset first.length).length = first.length := by
      simp only [Bytes.slice, List.length_take, List.length_drop]
      omega
    obtain ⟨hfirst, hsecond⟩ := List.append_inj hslice hlength
    exact ⟨⟨by omega, hfirst⟩, ⟨by omega, hsecond⟩⟩
  · intro h
    obtain ⟨hfirst, hsecond⟩ := h
    refine ⟨?_, ?_⟩
    · have := hsecond.inside
      rw [List.length_append]
      omega
    · rw [List.length_append, Bytes.slice_add, hfirst.slice, hsecond.slice]

/-- The number in the `width` bytes at an offset. -/
def field (file : Bytes) (offset width : Nat) : Option Nat :=
  if offset + width ≤ file.length then
    some (Bytes.ofLittleEndian (Bytes.slice file offset width))
  else none

/-- What does not fit a field is cut off. -/
theorem Holds.field {width n : Nat} (h : Holds file offset (Bytes.littleEndian width n)) :
    field file offset width = some (n % 256 ^ width) := by
  have hinside := h.inside
  have hslice := h.slice
  rw [Bytes.length_littleEndian] at hinside hslice
  rw [ObjectFile.field, if_pos hinside, hslice, Bytes.ofLittleEndian_littleEndian]

/-- The numbers of the given widths, one after the other. -/
def numbers (file : Bytes) : (offset : Nat) → (widths : List Nat) → Option (List Nat)
  | _, [] => some []
  | offset, width :: widths => do
    let first ← field file offset width
    let rest ← numbers file (offset + width) widths
    return first :: rest

/-- The bytes of numbers with their widths. -/
def written (fields : List (Nat × Nat)) : Bytes :=
  fields.flatMap fun f => Bytes.littleEndian f.1 f.2

theorem numbers_of_written {fields : List (Nat × Nat)} (h : Holds file offset (written fields)) :
    numbers file offset (fields.map Prod.fst) = some (fields.map fun f => f.2 % 256 ^ f.1) := by
  induction fields generalizing offset with
  | nil => rfl
  | cons f fields ih =>
    rw [written, List.flatMap_cons, holds_append, Bytes.length_littleEndian] at h
    rw [List.map_cons, numbers, h.1.field, ih h.2]
    rfl

theorem numbers_of_holds {fields : List (Nat × Nat)} (hfit : ∀ f ∈ fields, f.2 < 256 ^ f.1)
    (h : Holds file offset (written fields)) :
    numbers file offset (fields.map Prod.fst) = some (fields.map Prod.snd) := by
  rw [numbers_of_written h, List.map_congr_left fun f hf => Nat.mod_eq_of_lt (hfit f hf)]

/-- Records of `width` bytes each, one after the other. -/
def records {α : Type} (read : Nat → Option α) (width : Nat) :
    (count offset : Nat) → Option (List α)
  | 0, _ => some []
  | count + 1, offset => do
    let first ← read offset
    let rest ← records read width count (offset + width)
    return first :: rest

/-- Records are read as each of them is, wherever it lies. -/
theorem records_of_holds {α : Type} {read : Nat → Option α} {width : Nat}
    {items : List (Bytes × Option α)} (hlength : ∀ item ∈ items, item.1.length = width)
    (hread : ∀ item ∈ items, ∀ offset, Holds file offset item.1 → read offset = item.2)
    (h : Holds file offset (items.flatMap Prod.fst)) :
    records read width items.length offset = items.mapM Prod.snd := by
  induction items generalizing offset with
  | nil => rfl
  | cons item items ih =>
    obtain ⟨hlength, hlengths⟩ := List.forall_mem_cons.1 hlength
    obtain ⟨hread, hreads⟩ := List.forall_mem_cons.1 hread
    rw [List.flatMap_cons, holds_append, hlength] at h
    obtain ⟨hfirst, hrest⟩ := h
    rw [List.length_cons, records, hread offset hfirst, ih hlengths hreads hrest, List.mapM_cons]

/-! ## Files -/

/-- A section header. -/
structure Heading where
  name : Nat          -- offset in the section names
  type : Nat
  flags : Nat
  address : Nat
  offset : Nat
  size : Nat
  link : Nat
  info : Nat
  align : Nat
  entrySize : Nat
  deriving DecidableEq, Repr

def readHeading (file : Bytes) (offset : Nat) : Option Heading :=
  match numbers file offset [4, 4, 8, 8, 8, 8, 4, 4, 8, 8] with
  | some [name, type, flags, address, offset, size, link, info, align, entrySize] =>
    some { name, type, flags, address, offset, size, link, info, align, entrySize }
  | _ => none

/-- The bytes of a section. Sections of types 0 and 8 take no room in the file. -/
def Heading.contents (file : Bytes) (h : Heading) : Option Bytes :=
  if h.type = 0 ∨ h.type = 8 then some []
  else if h.offset + h.size ≤ file.length then some (Bytes.slice file h.offset h.size)
  else none

/-- The name at an offset of a string table. -/
def nameAt (table : Bytes) (offset : Nat) : Option Bytes :=
  if 0 ∈ table.drop offset then some ((table.drop offset).takeWhile (· ≠ 0)) else none

/-- A section as it is read. -/
structure SectionView where
  name : Bytes
  heading : Heading
  contents : Bytes
  deriving DecidableEq, Repr

/-- A symbol as it is read. -/
structure SymbolView where
  name : Bytes
  info : Nat          -- binding and type
  other : Nat         -- visibility
  home : Nat          -- index of the section it lies in
  value : Nat
  size : Nat
  deriving DecidableEq, Repr

def readSection (file names : Bytes) (h : Heading) : Option SectionView := do
  return { name := ← nameAt names h.name, heading := h, contents := ← h.contents file }

def readSymbol (table names : Bytes) (offset : Nat) : Option SymbolView :=
  match numbers table offset [4, 1, 1, 2, 8, 8] with
  | some [place, info, other, home, value, size] =>
    (nameAt names place).map fun name => { name, info, other, home, value, size }
  | _ => none

/-- The symbols of a symbol table, whose names are in the section it is linked to. -/
def readSymbols (sections : List SectionView) (s : SectionView) : Option (List SymbolView) := do
  let names ← sections[s.heading.link]?
  if s.heading.entrySize = 24 then
    records (readSymbol s.contents names.contents) 24 (s.contents.length / 24) 0
  else none

/-- An object file: its sections in order, and the symbols of its symbol tables. -/
structure Object where
  sections : List SectionView
  symbols : List SymbolView
  deriving DecidableEq, Repr

/-- The object that a file holds. The file header is that of a relocatable object for x86-64, with 64
bits to a word and the lowest byte first. -/
def read (file : Bytes) : Option Object := do
  if Bytes.slice file 0 7 = [0x7F, 0x45, 0x4C, 0x46, 2, 1, 1] then
    match numbers file 16 [2, 2, 4, 8, 8, 8, 4, 2, 2, 2, 2, 2, 2] with
    | some [1, 62, 1, _, _, start, _, 64, _, _, 64, count, index] =>
      let headings ← records (readHeading file) 64 count start
      let names ← headings[index]?
      let names ← names.contents file
      let sections ← headings.mapM (readSection file names)
      let tables := sections.filter fun s => s.heading.type = 2
      let symbols ← tables.mapM (readSymbols sections)
      return ⟨sections, symbols.flatten⟩
    | _ => none
  else none

/-- The sections that hold relocations are those of types 4 and 9. -/
def Object.relocations (o : Object) : List SectionView :=
  o.sections.filter fun s => s.heading.type = 4 ∨ s.heading.type = 9

/-- The global functions: symbols of binding 1 and type 2. -/
def Object.functions (o : Object) : List SymbolView :=
  o.symbols.filter fun s => s.info / 16 = 1 ∧ s.info % 16 = 2

/-! ## String tables -/

theorem nameAt_of_drop {name rest : Bytes} (h : file.drop offset = name ++ 0 :: rest)
    (hname : 0 ∉ name) : nameAt file offset = some name := by
  have hwhile : (name ++ 0 :: rest).takeWhile (fun b => decide (b ≠ 0)) = name := by
    rw [List.takeWhile_append_of_pos]
    · simp
    · intro b hb
      have hne : b ≠ 0 := fun heq => hname (heq ▸ hb)
      simpa using hne
  rw [nameAt, h, if_pos (by simp), hwhile]

theorem nameAt_of_holds {name : Bytes} (h : Holds file offset (name ++ [0])) (hname : 0 ∉ name) :
    nameAt file offset = some name := by
  obtain ⟨rest, hrest⟩ : ∃ rest, file.drop offset = name ++ 0 :: rest := by
    have hslice := h.slice
    have hsplit := List.take_append_drop (name ++ [0]).length (file.drop offset)
    rw [Bytes.slice] at hslice
    rw [hslice, List.append_assoc] at hsplit
    exact ⟨_, hsplit.symm⟩
  exact nameAt_of_drop hrest hname

/-- The name of what has none. -/
theorem nameAt_zero (h : Holds file 0 [0]) : nameAt file 0 = some [] :=
  @nameAt_of_holds file 0 [] h List.not_mem_nil

theorem Holds.append {bytes : Bytes} (h : Holds file offset bytes) (more : Bytes) :
    Holds (file ++ more) offset bytes := by
  have hinside := h.inside
  refine ⟨?_, ?_⟩
  · rw [List.length_append]
    omega
  · refine Eq.trans (Bytes.slice_congr fun i _ hi => ?_) h.slice
    exact List.getElem?_append_left (by omega)

/-- Bytes at the end of a file. -/
theorem Holds.last (before bytes : Bytes) : Holds (before ++ bytes) before.length bytes :=
  ⟨by simp, by rw [Bytes.slice, List.drop_left, List.take_length]⟩

namespace StringTable

/-- The names of a table are where it says, each with the zero byte that ends it. The first byte is
zero, and the name written last is at the end. -/
structure Sound (t : StringTable) : Prop where
  first : Holds t.bytes 0 [0]
  places : ∀ entry ∈ t.places, Holds t.bytes entry.2 (entry.1 ++ [0])
  last : ∃ before, t.bytes = before ++ (t.last ++ [0])

theorem sound_empty : empty.Sound := ⟨.whole _, nofun, [], rfl⟩

theorem Sound.add {t : StringTable} (h : t.Sound) (name : Bytes) : (t.add name).Sound := by
  obtain ⟨before, hbefore⟩ := h.last
  unfold StringTable.add
  split
  · -- the name ends the one written last
    rename_i hsuffix
    obtain ⟨front, hfront⟩ := List.isSuffixOf_iff_suffix.1 hsuffix
    have hbytes : t.bytes = (before ++ front) ++ (name ++ [0]) := by
      rw [hbefore, ← hfront]
      simp
    have hplace : t.bytes.length - name.length - 1 = (before ++ front).length := by
      rw [hbytes]
      simp only [List.length_append, List.length_cons, List.length_nil]
      omega
    refine ⟨h.first, List.forall_mem_cons.2 ⟨?_, h.places⟩, h.last⟩
    dsimp only
    rw [hplace, hbytes]
    exact .last _ _
  · refine ⟨?_, List.forall_mem_cons.2 ⟨?_, fun entry hentry => ?_⟩, t.bytes, ?_⟩
    · dsimp only
      rw [List.append_assoc]
      exact h.first.append _
    · dsimp only
      rw [List.append_assoc]
      exact .last _ _
    · dsimp only
      rw [List.append_assoc]
      exact (h.places entry hentry).append _
    · exact List.append_assoc ..

theorem mem_places_add {t : StringTable} {name other : Bytes} :
    other ∈ (t.add name).places.map Prod.fst ↔ other = name ∨ other ∈ t.places.map Prod.fst := by
  unfold add
  split <;> simp

theorem sound_foldl (names : List Bytes) {t : StringTable} (h : t.Sound) :
    (names.foldl add t).Sound ∧
      ∀ name, name ∈ names ∨ name ∈ t.places.map Prod.fst →
        name ∈ (names.foldl add t).places.map Prod.fst := by
  induction names generalizing t with
  | nil => exact ⟨h, fun name hname => hname.resolve_left nofun⟩
  | cons first names ih =>
    obtain ⟨hsound, hmem⟩ := ih (h.add first)
    refine ⟨hsound, fun name hname => hmem name ?_⟩
    rw [mem_places_add]
    rw [List.mem_cons] at hname
    rcases hname with (hfirst | hrest) | hplaced
    · exact .inr (.inl hfirst)
    · exact .inl hrest
    · exact .inr (.inr hplaced)

theorem mem_insertName {name other : Bytes} {names : List Bytes} :
    other ∈ insertName name names ↔ other = name ∨ other ∈ names := by
  induction names with
  | nil => simp [insertName]
  | cons first names ih =>
    unfold insertName
    split
    · rename_i heq
      simp [heq]
    · split
      · simp
      · rw [List.mem_cons, List.mem_cons, ih, or_left_comm]

theorem mem_orderNames {name : Bytes} {names : List Bytes} (h : name ∈ names) :
    name ∈ orderNames names := by
  induction names with
  | nil => cases h
  | cons first names ih =>
    rw [orderNames, mem_insertName]
    exact (List.mem_cons.1 h).imp id ih

/-- Every name of a table is where the table says. -/
theorem holds_place {names : List Bytes} {name : Bytes} (h : name ∈ names) :
    Holds (ofNames names).bytes ((ofNames names).place name) (name ++ [0]) := by
  obtain ⟨hsound, hmem⟩ := sound_foldl (orderNames names) sound_empty
  have hplace := hmem name (.inl (mem_orderNames h))
  unfold place ofNames
  split
  · rename_i entry hentry
    have hname : entry.1 = name := by simpa using List.find?_some hentry
    have hholds := hsound.places entry (List.mem_of_find?_eq_some hentry)
    rwa [hname] at hholds
  · rename_i hnone
    obtain ⟨entry, hentry, rfl⟩ := List.mem_map.1 hplace
    exact absurd (List.find?_eq_none.1 hnone entry hentry) (by simp)

theorem holds_zero (names : List Bytes) : Holds (ofNames names).bytes 0 [0] :=
  (sound_foldl (orderNames names) sound_empty).1.first

/-- Names one after the other, each with its zero byte. -/
def listed (names : List Bytes) : Bytes := names.flatMap fun name => name ++ [0]

theorem length_listed_cons (name : Bytes) (names : List Bytes) :
    (listed (name :: names)).length = name.length + 1 + (listed names).length := by
  rw [listed, List.flatMap_cons, List.length_append, List.length_append, List.length_singleton]
  rfl

theorem length_foldl_add_le (names : List Bytes) (t : StringTable) :
    (names.foldl add t).bytes.length ≤ t.bytes.length + (listed names).length := by
  induction names generalizing t with
  | nil => exact Nat.le_refl _
  | cons name names ih =>
    have hadd : (t.add name).bytes.length ≤ t.bytes.length + (name.length + 1) := by
      unfold add
      split
      · exact Nat.le_add_right _ _
      · simp
    have := ih (t.add name)
    rw [List.foldl_cons, length_listed_cons]
    omega

theorem length_listed_insertName_le (name : Bytes) (names : List Bytes) :
    (listed (insertName name names)).length ≤ (listed (name :: names)).length := by
  induction names with
  | nil => exact Nat.le_refl _
  | cons first names ih =>
    simp only [length_listed_cons] at ih ⊢
    unfold insertName
    split
    · simp only [length_listed_cons]
      omega
    · split
      · simp only [length_listed_cons]
        omega
      · simp only [length_listed_cons]
        omega

theorem length_listed_orderNames_le (names : List Bytes) :
    (listed (orderNames names)).length ≤ (listed names).length := by
  induction names with
  | nil => exact Nat.le_refl _
  | cons name names ih =>
    have := length_listed_insertName_le name (orderNames names)
    rw [length_listed_cons] at this ⊢
    rw [orderNames]
    omega

/-- A table is no longer than its names one after the other. -/
theorem length_ofNames_le (names : List Bytes) :
    (ofNames names).bytes.length ≤ 1 + (listed names).length :=
  Nat.le_trans (length_foldl_add_le _ _)
    (Nat.add_le_add_left (length_listed_orderNames_le names) 1)

end StringTable

end SplitRadix.ObjectFile
