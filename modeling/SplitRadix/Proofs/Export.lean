import SplitRadix.Proofs.Assembly
import SplitRadix.Proofs.SymbolNames

/-!
# Exported routines

The object file of a routine is read back as what it was made of: the code of the routine as the
section `.text`, no relocations, and the three functions of the routine. This holds for every name
that an object file can have: names with a zero byte are refused, and each name has to start within
the reach of the format's 32-bit places.

* `read_layout`: what a file with given code and symbols is read as.
* `Exported`: what the object of a routine holds.
* `InReach`, `exported_iff_inReach`: it is read back exactly if its names are in reach.
* `export_round_trip`: the object file of a routine.
* `long_name_is_lost`: what becomes of a name that is out of reach.
-/

namespace SplitRadix.ObjectFile

/-! ## Records -/

/-- The numbers of a section header with their widths. -/
def Heading.fields (h : Heading) : List (Nat × Nat) :=
  [(4, h.name), (4, h.type), (8, h.flags), (8, h.address), (8, h.offset), (8, h.size), (4, h.link),
   (4, h.info), (8, h.align), (8, h.entrySize)]

variable {file : Bytes} {offset : Nat}

theorem readHeading_of_holds {h : Heading} (hfit : ∀ f ∈ h.fields, f.2 < 256 ^ f.1)
    (hholds : Holds file offset (written h.fields)) : readHeading file offset = some h := by
  have hnumbers := numbers_of_holds hfit hholds
  simp only [Heading.fields, List.map_cons, List.map_nil] at hnumbers
  rw [readHeading, hnumbers]

/-- A global function in the first section, as it is read. -/
def Symbol.view (s : Symbol) : SymbolView := ⟨s.name, 0x12, 2, 1, s.value, s.size⟩

/-- The same with the name at its place in the table, or at what 32 bits hold of that place. -/
def Symbol.viewIn (names : StringTable) (s : Symbol) : Option SymbolView :=
  (nameAt names.bytes (names.place s.name % 2 ^ 32)).map fun name => { s.view with name }

theorem readSymbol_of_holds {names : StringTable} {s : Symbol} (hvalue : s.value < 2 ^ 64)
    (hsize : s.size < 2 ^ 64) (hholds : Holds file offset (s.entry names)) :
    readSymbol file names.bytes offset = s.viewIn names := by
  let fields : List (Nat × Nat) :=
    [(4, names.place s.name), (1, 0x12), (1, 2), (2, 1), (8, s.value), (8, s.size)]
  have hentry : s.entry names = written fields := by
    simp [Symbol.entry, written, fields, u16, u32, u64, Bytes.littleEndian]
  rw [hentry] at hholds
  have hnumbers := numbers_of_written hholds
  simp only [fields, List.map_cons, List.map_nil] at hnumbers
  rw [show s.value % 256 ^ 8 = s.value from Nat.mod_eq_of_lt hvalue,
    show s.size % 256 ^ 8 = s.size from Nat.mod_eq_of_lt hsize] at hnumbers
  rw [readSymbol, hnumbers]
  rfl

/-- The first entry of a symbol table. -/
def noSymbol : SymbolView := ⟨[], 0, 0, 0, 0, 0⟩

theorem readSymbol_zeros {names : Bytes} (hnames : Holds names 0 [0])
    (hholds : Holds file offset (List.replicate symbolSize 0)) :
    readSymbol file names offset = some noSymbol := by
  let fields : List (Nat × Nat) := [(4, 0), (1, 0), (1, 0), (2, 0), (8, 0), (8, 0)]
  have hnumbers := @numbers_of_holds file offset fields (by decide) hholds
  simp only [fields, List.map_cons, List.map_nil] at hnumbers
  rw [readSymbol, hnumbers]
  simp only [nameAt_zero hnames, Option.map_some]
  rfl

/-! ## Where the parts of a file lie -/

theorem le_alignUp {n : Nat} (hn : 0 < n) (offset : Nat) : offset ≤ alignUp offset n := by
  have hdiv := Nat.div_add_mod (offset + (n - 1)) n
  have hmod := Nat.mod_lt (offset + (n - 1)) hn
  rw [alignUp, Nat.mul_comm]
  omega

theorem length_gap {n : Nat} (hn : 0 < n) (offset : Nat) :
    offset + (gap offset n).length = alignUp offset n := by
  have := le_alignUp hn offset
  rw [gap, List.length_replicate]
  omega

/-- The names of the sections, in the order of the sections. -/
def sectionNames : StringTable :=
  .ofNames [nameBytes ".text", nameBytes ".symtab", nameBytes ".strtab", nameBytes ".shstrtab"]

/-- The names of symbols. -/
def symbolNames (symbols : List Symbol) : StringTable := .ofNames (symbols.map Symbol.name)

/-- The section of the symbols. -/
def symbolTable (symbols : List Symbol) : Bytes :=
  List.replicate symbolSize 0 ++ symbols.flatMap (Symbol.entry (symbolNames symbols))

section Layout

variable (code : Bytes) (symbols : List Symbol)

def codeOffset : Nat := alignUp headerSize codeAlign
def symbolsOffset : Nat := alignUp (codeOffset + code.length) 8
def namesOffset : Nat := symbolsOffset code + (symbolTable symbols).length
def sectionNamesOffset : Nat := namesOffset code symbols + (symbolNames symbols).bytes.length
def namesEnd : Nat := sectionNamesOffset code symbols + sectionNames.bytes.length
def headingsOffset : Nat := alignUp (namesEnd code symbols) 8

/-- The header of the first section, which is none. -/
def noHeading : Heading := ⟨0, 0, 0, 0, 0, 0, 0, 0, 0, 0⟩

def textHeading : Heading :=
  ⟨sectionNames.place (nameBytes ".text"), 1, 6, 0, codeOffset, code.length, 0, 0, codeAlign, 0⟩

def symtabHeading : Heading :=
  ⟨sectionNames.place (nameBytes ".symtab"), 2, 0, 0, symbolsOffset code,
    (symbolTable symbols).length, 3, 1, 8, symbolSize⟩

def strtabHeading : Heading :=
  ⟨sectionNames.place (nameBytes ".strtab"), 3, 0, 0, namesOffset code symbols,
    (symbolNames symbols).bytes.length, 0, 0, 1, 0⟩

def shstrtabHeading : Heading :=
  ⟨sectionNames.place (nameBytes ".shstrtab"), 3, 0, 0, sectionNamesOffset code symbols,
    sectionNames.bytes.length, 0, 0, 1, 0⟩

def headings : List Heading :=
  [noHeading, textHeading code, symtabHeading code symbols, strtabHeading code symbols,
    shstrtabHeading code symbols]

theorem header_eq (sections : Nat) :
    header sections = [0x7F, 0x45, 0x4C, 0x46, 2, 1, 1] ++ List.replicate 9 0 ++
      written [(2, 1), (2, 62), (4, 1), (8, 0), (8, 0), (8, sections), (4, 0), (2, 64), (2, 0),
        (2, 0), (2, 64), (2, 5), (2, 4)] := by
  simp [header, written, u16, u32, u64, headerSize, sectionHeaderSize]

theorem layout_eq :
    layout code symbols =
      header (headingsOffset code symbols) ++ gap headerSize codeAlign ++ code ++
        gap (codeOffset + code.length) 8 ++ symbolTable symbols ++ (symbolNames symbols).bytes ++
        sectionNames.bytes ++ gap (namesEnd code symbols) 8 ++
        (headings code symbols).flatMap fun h => written h.fields := by
  have hsection : ∀ s : Section, s.header sectionNames = written (Heading.fields
      ⟨sectionNames.place s.name, s.type, s.flags, 0, s.offset, s.size, s.link, s.info, s.align,
        s.entrySize⟩) := by
    intro s
    simp [Section.header, written, Heading.fields, u32, u64]
  have hheadings : (headings code symbols).flatMap (fun h => written h.fields) =
      List.replicate sectionHeaderSize 0 ++ [textHeading code, symtabHeading code symbols,
        strtabHeading code symbols, shstrtabHeading code symbols].flatMap
          fun h => written h.fields := rfl
  rw [hheadings, ← List.append_assoc]
  unfold sectionNames at hsection
  simp only [List.flatMap_cons, List.flatMap_nil, layout, hsection, headingsOffset, namesEnd,
    sectionNamesOffset, namesOffset, symbolsOffset, codeOffset, symbolTable, symbolNames,
    sectionNames, textHeading, symtabHeading, strtabHeading, shstrtabHeading]

/-- The file holds the parts of a layout where they should be. -/
structure Placed (file : Bytes) : Prop where
  first : Holds file 0 (header (headingsOffset code symbols))
  text : Holds file codeOffset code
  symtab : Holds file (symbolsOffset code) (symbolTable symbols)
  strtab : Holds file (namesOffset code symbols) (symbolNames symbols).bytes
  shstrtab : Holds file (sectionNamesOffset code symbols) sectionNames.bytes
  last : Holds file (headingsOffset code symbols)
    ((headings code symbols).flatMap fun h => written h.fields)

theorem placed_layout : Placed code symbols (layout code symbols) := by
  have hwhole := Holds.whole (layout code symbols)
  generalize hfile : layout code symbols = file at hwhole ⊢
  have hheader : (header (headingsOffset code symbols)).length = headerSize := by
    rw [header_eq]
    simp [written, headerSize]
  have hcodeOffset : headerSize + (gap headerSize codeAlign).length = codeOffset := by
    rw [length_gap (by decide), codeOffset]
  have hsymbolsOffset : codeOffset + code.length + (gap (codeOffset + code.length) 8).length =
      symbolsOffset code := by
    rw [length_gap (by decide), symbolsOffset]
  have hheadingsOffset : namesEnd code symbols + (gap (namesEnd code symbols) 8).length =
      headingsOffset code symbols := by
    rw [length_gap (by decide), headingsOffset]
  have hparts : Holds file 0 (layout code symbols) := by
    rw [hfile]
    exact hwhole
  simp only [layout_eq, holds_append, List.length_append, hheader, Nat.zero_add, hcodeOffset,
    hsymbolsOffset] at hparts
  obtain ⟨⟨⟨⟨⟨⟨⟨⟨hfirst, -⟩, htext⟩, -⟩, hsymtab⟩, hstrtab⟩, hshstrtab⟩, -⟩, hlast⟩ := hparts
  refine ⟨hfirst, htext, hsymtab, hstrtab, hshstrtab, ?_⟩
  rw [← hheadingsOffset]
  exact hlast

end Layout

/-! ## What a file is read as -/

theorem contents_of_holds {h : Heading} {contents : Bytes}
    (htype : h.type = 1 ∨ h.type = 2 ∨ h.type = 3) (hsize : h.size = contents.length)
    (hholds : Holds file h.offset contents) : h.contents file = some contents := by
  rw [Heading.contents, if_neg (by omega), hsize, if_pos hholds.inside, hholds.slice]

theorem readSection_of_holds {names name : Bytes} {h : Heading} {contents : Bytes}
    (hname : nameAt names h.name = some name) (htype : h.type = 1 ∨ h.type = 2 ∨ h.type = 3)
    (hsize : h.size = contents.length) (hholds : Holds file h.offset contents) :
    readSection file names h = some ⟨name, h, contents⟩ := by
  rw [readSection, hname, contents_of_holds htype hsize hholds]
  rfl

theorem place_sectionNames :
    ∀ name ∈ [".text", ".symtab", ".strtab", ".shstrtab"],
      sectionNames.place (nameBytes name) < 2 ^ 32 ∧
      nameAt sectionNames.bytes (sectionNames.place (nameBytes name)) = some (nameBytes name) := by
  intro name hname
  have hzero : ∀ name ∈ [".text", ".symtab", ".strtab", ".shstrtab"], 0 ∉ nameBytes name := by
    decide +kernel
  have hlength : sectionNames.bytes.length < 2 ^ 32 := by decide +kernel
  have hplace : Holds sectionNames.bytes (sectionNames.place (nameBytes name))
      (nameBytes name ++ [0]) := StringTable.holds_place (List.mem_map_of_mem hname)
  refine ⟨?_, nameAt_of_holds hplace (hzero name hname)⟩
  have := hplace.inside
  omega

section Reading

variable {code : Bytes} {symbols : List Symbol}

theorem fits_headings (hfile : Placed code symbols file) (hsize : file.length < 2 ^ 64) :
    ∀ h ∈ headings code symbols, ∀ f ∈ h.fields, f.2 < 256 ^ f.1 := by
  have hplace := place_sectionNames
  have htext := hfile.text.inside
  have hsymtab := hfile.symtab.inside
  have hstrtab := hfile.strtab.inside
  have hshstrtab := hfile.shstrtab.inside
  simp only [List.forall_mem_cons] at hplace
  obtain ⟨⟨h1, -⟩, ⟨h2, -⟩, ⟨h3, -⟩, ⟨h4, -⟩, -⟩ := hplace
  simp only [headings, noHeading, textHeading, symtabHeading, strtabHeading, shstrtabHeading,
    Heading.fields, List.forall_mem_cons, List.not_mem_nil, false_implies, implies_true, and_true,
    codeAlign, symbolSize]
  and_intros <;> omega

theorem records_headings (hfile : Placed code symbols file) (hsize : file.length < 2 ^ 64) :
    records (readHeading file) 64 5 (headingsOffset code symbols) =
      some (headings code symbols) := by
  have hfits := fits_headings hfile hsize
  have hlast := hfile.last
  have hitems : ∀ h : Heading, (written h.fields).length = 64 := by
    intro h
    simp [written, Heading.fields]
  have hrecords := @records_of_holds file (headingsOffset code symbols) Heading (readHeading file) 64
    ((headings code symbols).map fun h => (written h.fields, some h))
  simp only [List.forall_mem_map, List.flatMap_map, List.length_map] at hrecords
  exact hrecords (fun h _ => hitems h)
    (fun h hmem offset hholds => readHeading_of_holds (hfits h hmem) hholds) hlast

/-- The sections of a layout as they are read. -/
def sectionViews (code : Bytes) (symbols : List Symbol) : List SectionView :=
  [⟨[], noHeading, []⟩,
   ⟨nameBytes ".text", textHeading code, code⟩,
   ⟨nameBytes ".symtab", symtabHeading code symbols, symbolTable symbols⟩,
   ⟨nameBytes ".strtab", strtabHeading code symbols, (symbolNames symbols).bytes⟩,
   ⟨nameBytes ".shstrtab", shstrtabHeading code symbols, sectionNames.bytes⟩]

theorem mapM_readSection (hfile : Placed code symbols file) :
    (headings code symbols).mapM (readSection file sectionNames.bytes) =
      some (sectionViews code symbols) := by
  have hplace := place_sectionNames
  simp only [List.forall_mem_cons] at hplace
  obtain ⟨⟨-, htext⟩, ⟨-, hsymtab⟩, ⟨-, hstrtab⟩, ⟨-, hshstrtab⟩, -⟩ := hplace
  have hnone : readSection file sectionNames.bytes noHeading = some ⟨[], noHeading, []⟩ := by
    have hname : nameAt sectionNames.bytes 0 = some [] := nameAt_zero (StringTable.holds_zero _)
    rw [readSection, noHeading, hname]
    rfl
  have htext : readSection file sectionNames.bytes (textHeading code) = some _ :=
    readSection_of_holds htext (.inl rfl) rfl hfile.text
  have hsymtab : readSection file sectionNames.bytes (symtabHeading code symbols) = some _ :=
    readSection_of_holds hsymtab (.inr (.inl rfl)) rfl hfile.symtab
  have hstrtab : readSection file sectionNames.bytes (strtabHeading code symbols) = some _ :=
    readSection_of_holds hstrtab (.inr (.inr rfl)) rfl hfile.strtab
  have hshstrtab : readSection file sectionNames.bytes (shstrtabHeading code symbols) = some _ :=
    readSection_of_holds hshstrtab (.inr (.inr rfl)) rfl hfile.shstrtab
  simp only [headings, List.mapM_cons, List.mapM_nil, hnone, htext, hsymtab, hstrtab, hshstrtab]
  rfl

/-- What a symbol needs to be read back. -/
structure Symbol.Sound (s : Symbol) : Prop where
  value : s.value < 2 ^ 64
  size : s.size < 2 ^ 64
  name : 0 ∉ s.name

theorem length_entry (names : StringTable) (s : Symbol) : (s.entry names).length = 24 := by
  simp [Symbol.entry, u16, u32, u64]

theorem length_symbolTable (symbols : List Symbol) :
    (symbolTable symbols).length = 24 * (symbols.length + 1) := by
  have hentries : (symbols.flatMap (Symbol.entry (symbolNames symbols))).length =
      symbols.length * 24 := by
    rw [List.length_flatMap, List.map_congr_left fun s _ => length_entry _ s, List.map_const',
      List.sum_replicate_nat]
  rw [symbolTable, List.length_append, List.length_replicate, hentries, symbolSize]
  omega

theorem readSymbols_views (hsymbols : ∀ s ∈ symbols, s.Sound) :
    readSymbols (sectionViews code symbols)
        ⟨nameBytes ".symtab", symtabHeading code symbols, symbolTable symbols⟩ =
      (symbols.mapM (Symbol.viewIn (symbolNames symbols))).map (noSymbol :: ·) := by
  have hcount : (symbolTable symbols).length / 24 = symbols.length + 1 := by
    rw [length_symbolTable]
    omega
  have hread : ∀ s ∈ symbols, ∀ offset,
      Holds (symbolTable symbols) offset (s.entry (symbolNames symbols)) →
      readSymbol (symbolTable symbols) (symbolNames symbols).bytes offset =
        s.viewIn (symbolNames symbols) := by
    intro s hs offset hholds
    exact readSymbol_of_holds (hsymbols s hs).value (hsymbols s hs).size hholds
  have hrecords := @records_of_holds (symbolTable symbols) 0 SymbolView
    (readSymbol (symbolTable symbols) (symbolNames symbols).bytes) 24
    ((List.replicate symbolSize 0, some noSymbol) ::
      symbols.map fun s => (s.entry (symbolNames symbols), s.viewIn (symbolNames symbols)))
  simp only [List.forall_mem_cons, List.forall_mem_map, List.flatMap_cons, List.flatMap_map,
    List.mapM_cons, List.mapM_map, List.length_cons, List.length_map,
    Function.comp_def] at hrecords
  show records (readSymbol (symbolTable symbols) (symbolNames symbols).bytes) 24
    ((symbolTable symbols).length / 24) 0 = _
  rw [hcount, hrecords ⟨rfl, fun s _ => length_entry _ s⟩
    ⟨fun offset => readSymbol_zeros (StringTable.holds_zero _), hread⟩ (.whole _)]
  cases symbols.mapM (Symbol.viewIn (symbolNames symbols)) <;> rfl

/-- A file is read as its code and its symbols, with the names that 32 bits lead to. -/
theorem read_layout (hsymbols : ∀ s ∈ symbols, s.Sound)
    (hsize : (layout code symbols).length < 2 ^ 64) :
    read (layout code symbols) = (symbols.mapM (Symbol.viewIn (symbolNames symbols))).map
      fun views => ⟨sectionViews code symbols, noSymbol :: views⟩ := by
  have hfile := placed_layout code symbols
  generalize layout code symbols = file at hfile hsize ⊢
  have hfirst := hfile.first
  rw [header_eq, holds_append, holds_append] at hfirst
  obtain ⟨⟨hmagic, -⟩, hnumbers⟩ := hfirst
  have hstart : headingsOffset code symbols < 2 ^ 64 := by
    have := hfile.last.inside
    omega
  have hhead := numbers_of_holds (by
    simp only [List.forall_mem_cons, List.not_mem_nil, false_implies, implies_true, and_true]
    and_intros <;> omega) hnumbers
  simp only [List.map_cons, List.map_nil, List.length_append, List.length_cons, List.length_nil,
    List.length_replicate, Nat.reduceAdd] at hhead
  have hnamesTable : (shstrtabHeading code symbols).contents file = some sectionNames.bytes :=
    contents_of_holds (.inr (.inr rfl)) rfl hfile.shstrtab
  have htables : (sectionViews code symbols).filter (fun s => s.heading.type = 2) =
      [⟨nameBytes ".symtab", symtabHeading code symbols, symbolTable symbols⟩] := rfl
  have hsymtab : [SectionView.mk (nameBytes ".symtab") (symtabHeading code symbols)
      (symbolTable symbols)].mapM (readSymbols (sectionViews code symbols)) =
      (symbols.mapM (Symbol.viewIn (symbolNames symbols))).map fun views =>
        [noSymbol :: views] := by
    rw [List.mapM_cons, readSymbols_views hsymbols]
    cases symbols.mapM (Symbol.viewIn (symbolNames symbols)) <;> rfl
  have hmagic : Bytes.slice file 0 7 = [0x7F, 0x45, 0x4C, 0x46, 2, 1, 1] := hmagic.slice
  have hindex : (headings code symbols)[4]? = some (shstrtabHeading code symbols) := rfl
  rw [read, if_pos hmagic, hhead]
  simp only [records_headings hfile hsize, hindex, hnamesTable, mapM_readSection hfile, htables,
    hsymtab, Option.bind_eq_bind, Option.bind_some]
  cases symbols.mapM (Symbol.viewIn (symbolNames symbols)) with
  | none => rfl
  | some views => simp

end Reading

/-! ## The file of a routine -/

theorem toList_loop (bytes : ByteArray) (i : Nat) (front : List UInt8) :
    ByteArray.toList.loop bytes i front = front.reverse ++ bytes.data.toList.drop i := by
  fun_induction ByteArray.toList.loop bytes i front with
  | case1 i front hlt ih =>
    have hi : i < bytes.data.toList.length := by simpa using hlt
    have hget : bytes.get! i = bytes.data.toList[i] := by
      simp only [ByteArray.get!, Array.getElem_toList]
      exact getElem!_pos bytes.data i (by simpa using hlt)
    rw [ih, List.drop_eq_getElem_cons hi, hget, List.reverse_cons, List.append_assoc]
    rfl
  | case2 i front hge =>
    have hi : bytes.data.toList.length ≤ i := by simpa using hge
    rw [List.drop_eq_nil_of_le hi, List.append_nil]

theorem nameBytes_eq (name : String) : nameBytes name = name.toByteArray.data.toList := by
  rw [nameBytes, ByteArray.toList, toList_loop]
  simp

theorem nameBytes_append (a b : String) : nameBytes (a ++ b) = nameBytes a ++ nameBytes b := by
  simp [nameBytes_eq]

theorem nameBytes_empty : nameBytes "" = [] := by decide +kernel

theorem nameBytes_ne_nil {name : String} (h : name ≠ "") : nameBytes name ≠ [] := by
  intro hnil
  rw [nameBytes_eq] at hnil
  refine h (String.utf8ByteSize_eq_zero_iff.1 ?_)
  rw [← String.size_toByteArray, ByteArray.size, ← Array.length_toList, hnil]
  rfl

theorem nameBytes_replicate (n : Nat) :
    nameBytes (String.ofList (List.replicate n 'a')) = List.replicate n 0x61 := by
  have hfirst : nameBytes (String.singleton 'a') = [0x61] := by decide +kernel
  induction n with
  | zero => exact nameBytes_empty
  | succ n ih =>
    rw [List.replicate_succ, String.ofList_cons, nameBytes_append, hfirst, ih]
    rfl

/-- The checks of an export in order. -/
theorem write_eq (region : Bytes) (r : Routine) (name : String) :
    write region r name =
      if name = "" then .error (.error .emptySymbol)
      else if region.length < r.length then
        .error (.error (.codeTooShort r.length region.length))
      else if 0 ∈ nameBytes name then .error (.fault .nulInName)
      else .ok (layout (region.take r.length) (symbols r name)) := by
  simp only [write, String.isEmpty_iff, List.contains_iff_mem]
  by_cases hempty : name = ""
  · simp only [if_pos hempty]
    rfl
  · simp only [if_neg hempty]
    by_cases hshort : region.length < r.length
    · simp only [if_pos hshort]
      rfl
    · simp only [if_neg hshort]
      by_cases hzero : 0 ∈ nameBytes name
      · simp only [if_pos hzero]
        rfl
      · simp only [if_neg hzero]
        rfl

/-- What a routine is exported as depends on its code. -/
theorem write_of_code {region code : Bytes} {r : Routine} (h : r.code region = .ok code)
    (name : String) :
    write region r name =
      if name = "" then .error (.error .emptySymbol)
      else if 0 ∈ nameBytes name then .error (.fault .nulInName)
      else .ok (layout code (symbols r name)) := by
  unfold Routine.code at h
  split at h
  · rename_i hlong
    cases h
    rw [write_eq, if_neg (Nat.not_lt.2 hlong)]
  · cases h

theorem alignUp_le (offset n : Nat) : alignUp offset n ≤ offset + (n - 1) :=
  Nat.div_mul_le_self _ _

/-- A file is little longer than what it is made of. -/
theorem length_layout_le (code : Bytes) (symbols : List Symbol) :
    (layout code symbols).length ≤ code.length + 24 * symbols.length +
      (symbolNames symbols).bytes.length + 1024 := by
  have hheader : (header (headingsOffset code symbols)).length = 64 := by
    rw [header_eq]
    simp [written]
  have hheadings : ((headings code symbols).flatMap fun h => written h.fields).length = 320 := by
    simp [headings, written, Heading.fields]
  have hsectionNames : sectionNames.bytes.length ≤ 100 := by decide +kernel
  have hcode := length_gap (n := 64) (by decide) 64
  have hsymbols := length_gap (n := 8) (by decide) (codeOffset + code.length)
  have hnames := length_gap (n := 8) (by decide) (namesEnd code symbols)
  have := alignUp_le 64 64
  have := alignUp_le (codeOffset + code.length) 8
  have := alignUp_le (namesEnd code symbols) 8
  rw [layout_eq]
  simp only [List.length_append, hheader, hheadings, length_symbolTable, headerSize, codeAlign]
  omega

/-- What the object of a routine called `name` holds: the code of the routine as its first section and
the only one called `.text`, no relocations, and three global functions, which lie in the code one
apart from the other. -/
structure Exported (r : Routine) (code : Bytes) (name : String) (o : Object) : Prop where
  text : ∃ text, o.sections[1]? = some text ∧ text.contents = code ∧
    o.sections.filter (fun s => s.name = nameBytes ".text") = [text]
  relocations : o.relocations = []
  functions : o.functions =
    [⟨nameBytes name, 0x12, 2, 1, r.entryOffset, r.length - r.entryOffset⟩,
     ⟨nameBytes (name ++ "_x4"), 0x12, 2, 1, r.x4Offset, Machine.kernels.x4.length⟩,
     ⟨nameBytes (name ++ "_x8"), 0x12, 2, 1, r.x8Offset, Machine.kernels.x8.length⟩]
  apart : o.functions.Pairwise fun a b => a.value + a.size ≤ b.value ∨ b.value + b.size ≤ a.value
  inside : ∀ f ∈ o.functions, f.value + f.size ≤ code.length

/-- Symbols are global functions, and the first entry of a table is not. -/
theorem filter_views {views : List SymbolView} (h : ∀ view ∈ views, view.info = 0x12) :
    (noSymbol :: views).filter (fun s => s.info / 16 = 1 ∧ s.info % 16 = 2) = views := by
  rw [List.filter_cons_of_neg (by decide), List.filter_eq_self]
  intro view hview
  simp [h view hview]

/-! ## The reach of a symbol -/

/-- The places of all names fit the 32 bits that a symbol has for them. -/
def InReach (symbols : List Symbol) : Prop :=
  ∀ s ∈ symbols, (symbolNames symbols).place s.name < 2 ^ 32

theorem mapM_eq_some_map {α β : Type} {f : α → Option β} {g : α → β} {l : List α} :
    l.mapM f = some (l.map g) ↔ ∀ a ∈ l, f a = some (g a) := by
  induction l with
  | nil => simp
  | cons a l ih =>
    rw [List.forall_mem_cons, ← ih, List.mapM_cons]
    cases f a with
    | none => simp
    | some b => cases l.mapM f <;> simp

theorem exists_of_mem_mapM {α β : Type} {f : α → Option β} {l : List α} {bs : List β}
    (h : l.mapM f = some bs) {b : β} (hb : b ∈ bs) : ∃ a ∈ l, f a = some b := by
  induction l generalizing bs with
  | nil =>
    cases h
    cases hb
  | cons a l ih =>
    simp only [List.mapM_cons, Option.bind_eq_bind, Option.bind_eq_some_iff, Option.pure_def,
      Option.some.injEq] at h
    obtain ⟨first, hfirst, rest, hrest, rfl⟩ := h
    rcases List.mem_cons.1 hb with rfl | hb
    · exact ⟨a, List.mem_cons_self, hfirst⟩
    · obtain ⟨other, hother, hf⟩ := ih hrest hb
      exact ⟨other, List.mem_cons_of_mem _ hother, hf⟩

theorem viewIn_eq_some {names : StringTable} {s : Symbol} {view : SymbolView} :
    s.viewIn names = some view ↔
      nameAt names.bytes (names.place s.name % 2 ^ 32) = some view.name ∧
        view = { s.view with name := view.name } := by
  rw [Symbol.viewIn, Option.map_eq_some_iff]
  constructor
  · rintro ⟨name, hname, rfl⟩
    exact ⟨hname, rfl⟩
  · rintro ⟨hname, hview⟩
    exact ⟨view.name, hname, hview.symm⟩

theorem mapM_viewIn {symbols : List Symbol} (hsymbols : ∀ s ∈ symbols, s.Sound)
    (h : InReach symbols) :
    symbols.mapM (Symbol.viewIn (symbolNames symbols)) = some (symbols.map Symbol.view) := by
  refine mapM_eq_some_map.2 fun s hs => viewIn_eq_some.2 ⟨?_, rfl⟩
  rw [Nat.mod_eq_of_lt (h s hs)]
  exact nameAt_of_holds (StringTable.holds_place (List.mem_map_of_mem hs)) (hsymbols s hs).name

/-- The names of a routine's symbols. -/
theorem map_name_symbols (r : Routine) (name : String) :
    (symbols r name).map Symbol.name =
      [nameBytes name, StringTable.x4Name (nameBytes name),
        StringTable.x8Name (nameBytes name)] := by
  have hx4 : nameBytes "_x4" = [0x5F, 0x78, 0x34] := by decide +kernel
  have hx8 : nameBytes "_x8" = [0x5F, 0x78, 0x38] := by decide +kernel
  simp only [symbols, List.map_cons, List.map_nil, nameBytes_append, hx4, hx8]
  rfl

/-- A symbol of a routine that is read under its own name is in reach. -/
theorem inReach_of_nameAt {r : Routine} {name : String} (hname : nameBytes name ≠ [])
    (hzero : 0 ∉ nameBytes name)
    (h : ∀ s ∈ symbols r name, nameAt (symbolNames (symbols r name)).bytes
      ((symbolNames (symbols r name)).place s.name % 2 ^ 32) = some s.name) :
    InReach (symbols r name) := by
  intro s hs
  have hmem : s.name ∈ (symbols r name).map Symbol.name := List.mem_map_of_mem hs
  have hread := h s hs
  unfold symbolNames at hread ⊢
  rw [map_name_symbols] at hmem hread ⊢
  have hsame := StringTable.place_unique hname hzero hmem hread
  omega

end SplitRadix.ObjectFile

namespace SplitRadix.Generator

open Routine Machine ObjectFile

/-- Where the base cases and the entry of a routine lie. -/
structure Entries (r : Routine) : Prop where
  x4 : (r.fragment? "x4").map Fragment.length = some Machine.kernels.x4.length
  x8 : (r.fragment? "x8").map Fragment.length = some Machine.kernels.x8.length
  first : r.x4Offset + Machine.kernels.x4.length ≤ r.x8Offset
  second : r.x8Offset + Machine.kernels.x8.length ≤ r.entryOffset
  inside : r.entryOffset ≤ r.length

variable {g u : Generation Unit} {request : Request} {r : Routine}

theorem entries_of_generate (hbackend : g.generator.backend = Machine.backend)
    (h : (generate request).result g = (.ok r, u)) : Entries r := by
  obtain @⟨nodes, _, schedule, chain, start, stop, hp, hschedule, hbuffer, -, hwritten, hplan⟩ :=
    completed_of_machine hbackend h
  rw [hbackend] at hwritten
  obtain ⟨-, hlies, hordered, -⟩ := hwritten.laid keepsLengths
  obtain @⟨x4, x8, prologue, rest, targets, entryAddress, chain, based, exit, stop, hbased, hx4, hx8,
    hchain, hbody, hexit, hentry⟩ := hwritten
  obtain ⟨hx4, hlies⟩ := List.forall₂_cons.1 hlies
  obtain ⟨hx8, hlies⟩ := List.forall₂_cons.1 hlies
  obtain ⟨hprologue, -⟩ := List.forall₂_cons.1 hlies
  obtain ⟨hafterX4, hordered⟩ := List.pairwise_cons.1 hordered
  obtain ⟨hafterX8, -⟩ := List.pairwise_cons.1 hordered
  have hlength4 : x4.length = Machine.kernels.x4.length := (hx4.kernel _ _ rfl).1
  have hlength8 : x8.length = Machine.kernels.x8.length := (hx8.kernel _ _ rfl).1
  have hname4 : x4.name = "x4" := hx4.name
  have hname8 : x8.name = "x8" := hx8.name
  refine ⟨?_, ?_, ?_, ?_, ?_⟩
  · simp [fragment?, hname4, hlength4]
  · simp [fragment?, hname4, hname8, hlength8]
  · rw [← hlength4]
    exact hafterX4 x8 (by simp)
  · rw [← hlength8]
    exact hafterX8 prologue (by simp)
  · have hinside := hprologue.inside
    rw [Code.Buffer.length_written] at hinside
    dsimp only
    omega

theorem map_view_symbols (h : Entries r) {name : String} :
    (symbols r name).map Symbol.view =
      [⟨nameBytes name, 0x12, 2, 1, r.entryOffset, r.length - r.entryOffset⟩,
       ⟨nameBytes (name ++ "_x4"), 0x12, 2, 1, r.x4Offset, Machine.kernels.x4.length⟩,
       ⟨nameBytes (name ++ "_x8"), 0x12, 2, 1, r.x8Offset, Machine.kernels.x8.length⟩] := by
  simp only [symbols, h.x4, h.x8, Option.getD_some, List.map_cons, List.map_nil, Symbol.view]

/-- The functions of a routine lie in its code one apart from the other. -/
theorem exported_of_entries (h : Entries r) {code : Bytes} (hcode : code.length = r.length)
    {name : String} :
    Exported r code name
      ⟨sectionViews code (symbols r name), noSymbol :: (symbols r name).map Symbol.view⟩ := by
  have hfunctions : Object.functions
      ⟨sectionViews code (symbols r name), noSymbol :: (symbols r name).map Symbol.view⟩ =
      [⟨nameBytes name, 0x12, 2, 1, r.entryOffset, r.length - r.entryOffset⟩,
       ⟨nameBytes (name ++ "_x4"), 0x12, 2, 1, r.x4Offset, Machine.kernels.x4.length⟩,
       ⟨nameBytes (name ++ "_x8"), 0x12, 2, 1, r.x8Offset, Machine.kernels.x8.length⟩] := by
    rw [Object.functions, filter_views (List.forall_mem_map.2 fun _ _ => rfl), map_view_symbols h]
  have hfirst := h.first
  have hsecond := h.second
  have hinside := h.inside
  have hnames : nameBytes ".text" ≠ [] ∧ nameBytes ".symtab" ≠ nameBytes ".text" ∧
      nameBytes ".strtab" ≠ nameBytes ".text" ∧ nameBytes ".shstrtab" ≠ nameBytes ".text" := by
    decide +kernel
  refine ⟨⟨_, rfl, rfl, ?_⟩, rfl, hfunctions, ?_, ?_⟩
  · simp [sectionViews, hnames, hnames.1.symm]
  · rw [hfunctions]
    simp
    omega
  · rw [hfunctions]
    simp
    omega

theorem length_symbolNames_le (r : Routine) (name : String) :
    (symbolNames (symbols r name)).bytes.length ≤ 3 * (nameBytes name).length + 10 := by
  have hle := StringTable.length_ofNames_le ((symbols r name).map Symbol.name)
  have hx4 : (nameBytes "_x4").length = 3 := by decide +kernel
  have hx8 : (nameBytes "_x8").length = 3 := by decide +kernel
  have hnil : (StringTable.listed []).length = 0 := rfl
  simp only [symbols, List.map_cons, List.map_nil, StringTable.length_listed_cons, hnil,
    nameBytes_append, List.length_append, hx4, hx8] at hle
  simp only [symbolNames, symbols, List.map_cons, List.map_nil, nameBytes_append]
  omega

theorem sound_symbols (h : Entries r) (hlength : r.length < 2 ^ 64) {name : String}
    (hname : 0 ∉ nameBytes name) : ∀ s ∈ symbols r name, s.Sound := by
  have hx4 : 0 ∉ nameBytes (name ++ "_x4") := by
    rw [nameBytes_append, List.mem_append, not_or]
    exact ⟨hname, by decide +kernel⟩
  have hx8 : 0 ∉ nameBytes (name ++ "_x8") := by
    rw [nameBytes_append, List.mem_append, not_or]
    exact ⟨hname, by decide +kernel⟩
  have hfirst := h.first
  have hsecond := h.second
  have hinside := h.inside
  simp only [symbols, h.x4, h.x8, Option.getD_some, List.forall_mem_cons]
  refine ⟨⟨?_, ?_, hname⟩, ⟨?_, ?_, hx4⟩, ⟨?_, ?_, hx8⟩, nofun⟩ <;> dsimp only <;> omega

/-- A file of a routine is read back exactly if the names of its symbols are in reach. -/
theorem exported_iff_inReach (h : Entries r) {code : Bytes} (hcode : code.length = r.length)
    {name : String} (hname : nameBytes name ≠ []) (hzero : 0 ∉ nameBytes name)
    (hsize : (layout code (symbols r name)).length < 2 ^ 64) :
    (∃ o, read (layout code (symbols r name)) = some o ∧ Exported r code name o) ↔
      InReach (symbols r name) := by
  have hlength : r.length < 2 ^ 64 := by
    have := (placed_layout code (symbols r name)).text.inside
    omega
  have hsound := sound_symbols h hlength hzero
  rw [read_layout hsound hsize]
  constructor
  · rintro ⟨o, ho, hexported⟩
    obtain ⟨views, hviews, rfl⟩ := Option.map_eq_some_iff.1 ho
    have hinfo : ∀ view ∈ views, view.info = 0x12 := by
      intro view hview
      obtain ⟨s, -, hs⟩ := exists_of_mem_mapM hviews hview
      rw [(viewIn_eq_some.1 hs).2]
      rfl
    have hsame : views = (symbols r name).map Symbol.view := by
      have hfunctions := hexported.functions
      rwa [Object.functions, filter_views hinfo, ← map_view_symbols h] at hfunctions
    rw [hsame, mapM_eq_some_map] at hviews
    exact inReach_of_nameAt hname hzero fun s hs => (viewIn_eq_some.1 (hviews s hs)).1
  · intro hreach
    exact ⟨_, by rw [mapM_viewIn hsound hreach]; rfl, exported_of_entries h hcode⟩

/-- Names of less than half the reach are in reach, and so is the file. -/
theorem inReach_of_length {code : Bytes} {name : String} (hcode : code.length < 2 ^ 32)
    (h : 2 * (nameBytes name).length + 9 < 2 ^ 32) :
    (layout code (symbols r name)).length < 2 ^ 64 ∧ InReach (symbols r name) := by
  have hnames := length_symbolNames_le r name
  have hsize := length_layout_le code (symbols r name)
  have hcount : (symbols r name).length = 3 := rfl
  refine ⟨by omega, fun s hs => ?_⟩
  have hmem : s.name ∈ (symbols r name).map Symbol.name := List.mem_map_of_mem hs
  have hinside := (StringTable.holds_place hmem).inside
  have hlong : (nameBytes name).length ≤ s.name.length := by
    rw [map_name_symbols] at hmem
    revert hmem
    simp only [List.mem_cons, List.not_mem_nil, or_false]
    rintro (heq | heq | heq) <;> rw [heq] <;> simp [StringTable.x4Name, StringTable.x8Name]
  rw [List.length_append, List.length_singleton] at hinside
  unfold symbolNames at hnames ⊢
  omega

/-- From about half the reach on, a name that comes first in the table is out of reach. -/
theorem not_inReach_of_length {name : String} (hname : nameBytes name ≠ [])
    (hzero : 0 ∉ nameBytes name) (hbefore : nameBefore (nameBytes name)
      (StringTable.x8Name (nameBytes name)) = true)
    (h : 2 ^ 32 ≤ 2 * (nameBytes name).length + 6) : ¬ InReach (symbols r name) := by
  intro hreach
  have hplace : (symbolNames (symbols r name)).place (StringTable.x4Name (nameBytes name)) =
      2 * (nameBytes name).length + 6 := by
    rw [symbolNames, map_name_symbols]
    exact StringTable.place_x4Name hname hzero hbefore
  have hx4 : StringTable.x4Name (nameBytes name) ∈ (symbols r name).map Symbol.name := by
    rw [map_name_symbols]
    simp
  obtain ⟨s, hs, hsame⟩ := List.mem_map.1 hx4
  have hfits := hreach s hs
  rw [hsame, hplace] at hfits
  omega

/-- The object file of a routine. With a name, and with all of the code at hand, there is one, unless
the name has a zero byte. It is read back as the object of the routine exactly if the places of its
names fit the 32 bits that the format has for them, as they do for names of half that length. -/
theorem export_round_trip (hbackend : g.generator.backend = Machine.backend)
    (h : (generate request).result g = (.ok r, u)) (slice : Bytes) (name : String) :
    (name = "" → write slice r name = .error (.error .emptySymbol)) ∧
    (name ≠ "" → slice.length < r.length →
      write slice r name = .error (.error (.codeTooShort r.length slice.length))) ∧
    (name ≠ "" → r.length ≤ slice.length → 0 ∉ nameBytes name →
      ∃ file, write slice r name = .ok file ∧
        (2 * (nameBytes name).length + 9 < 2 ^ 32 →
          file.length < 2 ^ 64 ∧ InReach (symbols r name)) ∧
        (file.length < 2 ^ 64 →
          ((∃ o, read file = some o ∧ Exported r (slice.take r.length) name o) ↔
            InReach (symbols r name)))) := by
  have hentries := entries_of_generate hbackend h
  have hreach := length_lt_of_generate hbackend h
  refine ⟨fun hempty => ?_, fun hempty hshort => ?_, fun hempty hlong hzero => ?_⟩
  · rw [write_eq, if_pos hempty]
  · rw [write_eq, if_neg hempty, if_pos hshort]
  · have hcode : (slice.take r.length).length = r.length := by
      rw [List.length_take, Nat.min_eq_left hlong]
    refine ⟨layout (slice.take r.length) (symbols r name), ?_, inReach_of_length (by omega),
      exported_iff_inReach hentries hcode (nameBytes_ne_nil hempty) hzero⟩
    rw [write_eq, if_neg hempty, if_neg (Nat.not_lt.2 hlong), if_neg hzero]

/-- The routine of a transform of 32 elements with leaves of 4, under a name that ends one of the names
made from it: the three names share the room of two. -/
theorem export_round_trip_of_suffix :
    let g : Generation Unit :=
      { generator := { backend := Machine.backend, own := (), session := .start none }
        plan := { parameters := ⟨32, 4, .ofLeaves 8, Transform.referenceTable 4 3⟩
                  region := .blank 4099 2048 } }
    ∃ r u file o, (generate ⟨32, 4, .forward⟩).result g = (.ok r, u) ∧
      write (u.plan.region.bytes ++ [0]) r "_x4" = .ok file ∧ read file = some o ∧
      Exported r ((u.plan.region.bytes ++ [0]).take r.length) "_x4" o ∧
      write [] r "" = .error (.error .emptySymbol) ∧
      write [] r "_x4" = .error (.error (.codeTooShort r.length 0)) := by
  intro g
  have hrun : let run := (generate ⟨32, 4, .forward⟩).result g
      run.1.toOption.any (fun r => 0 < r.length ∧ r.length ≤ run.2.plan.region.bytes.length) =
        true := by
    decide +kernel
  rcases hr : (generate ⟨32, 4, .forward⟩).result g with ⟨_ | r, u⟩
  · rw [hr] at hrun
    cases hrun
  · rw [hr] at hrun
    obtain ⟨hpos, hlength⟩ : 0 < r.length ∧ r.length ≤ u.plan.region.bytes.length :=
      of_decide_eq_true hrun
    have hlong : r.length ≤ (u.plan.region.bytes ++ [0]).length := by
      rw [List.length_append]
      omega
    obtain ⟨-, -, hwrite⟩ := export_round_trip rfl hr (u.plan.region.bytes ++ [0]) "_x4"
    obtain ⟨file, hfile, hshort, hread⟩ := hwrite (by decide) hlong (by decide +kernel)
    obtain ⟨hsize, hreach⟩ := hshort (by decide +kernel)
    obtain ⟨o, ho, hexported⟩ := (hread hsize).2 hreach
    have hempty := (export_round_trip rfl hr [] "").1 rfl
    have hshort := (export_round_trip rfl hr [] "_x4").2.1 (by decide) hpos
    exact ⟨r, u, file, o, rfl, hfile, ho, hexported, hempty, hshort⟩

/-- The same routine under a name of 2^31 - 3 letters. The name with `_x4` comes last in the table, at
2^32, and is lost: 32 bits of its place lead to the start of the table. -/
theorem long_name_is_lost :
    let g : Generation Unit :=
      { generator := { backend := Machine.backend, own := (), session := .start none }
        plan := { parameters := ⟨32, 4, .ofLeaves 8, Transform.referenceTable 4 3⟩
                  region := .blank 4099 2048 } }
    let name := String.ofList (List.replicate (2 ^ 31 - 3) 'a')
    ∃ r u file, (generate ⟨32, 4, .forward⟩).result g = (.ok r, u) ∧ name ≠ "" ∧
      0 ∉ nameBytes name ∧ r.length ≤ u.plan.region.bytes.length ∧
      write u.plan.region.bytes r name = .ok file ∧
      ¬ ∃ o, read file = some o ∧ Exported r (u.plan.region.bytes.take r.length) name o := by
  intro g name
  have hrun : let run := (generate ⟨32, 4, .forward⟩).result g
      run.1.toOption.any (fun r => r.length ≤ run.2.plan.region.bytes.length) = true := by
    decide +kernel
  have hbytes : nameBytes name = List.replicate (2 ^ 31 - 3) 0x61 := nameBytes_replicate _
  have hzero : 0 ∉ nameBytes name := by
    rw [hbytes, List.mem_replicate]
    exact fun h => absurd h.2 (by decide)
  have hlength : (nameBytes name).length = 2 ^ 31 - 3 := by rw [hbytes, List.length_replicate]
  have hne : nameBytes name ≠ [] := List.ne_nil_of_length_pos (by omega)
  have hempty : name ≠ "" := fun h => hne (h ▸ nameBytes_empty)
  have hbefore : nameBefore (nameBytes name)
      (StringTable.x8Name (nameBytes name)) = true := by
    rw [hbytes, show 2 ^ 31 - 3 = 2 ^ 31 - 4 + 1 by rfl, List.replicate_succ',
      StringTable.x8Name_eq_concat, StringTable.nameBefore_concat]
    rfl
  rcases hr : (generate ⟨32, 4, .forward⟩).result g with ⟨_ | r, u⟩
  · rw [hr] at hrun
    cases hrun
  · rw [hr] at hrun
    have hlong : r.length ≤ u.plan.region.bytes.length := of_decide_eq_true hrun
    have hentries := entries_of_generate rfl hr
    have hshort := length_lt_of_generate rfl hr
    have hcode : (u.plan.region.bytes.take r.length).length = r.length := by
      rw [List.length_take, Nat.min_eq_left hlong]
    have hsize := length_layout_le (u.plan.region.bytes.take r.length) (symbols r name)
    have hnames := length_symbolNames_le r name
    have hcount : (symbols r name).length = 3 := rfl
    refine ⟨r, u, layout (u.plan.region.bytes.take r.length) (symbols r name), rfl, hempty, hzero,
      hlong, ?_, ?_⟩
    · rw [write_eq, if_neg hempty, if_neg (Nat.not_lt.2 hlong), if_neg hzero]
    · rw [exported_iff_inReach hentries hcode hne hzero (by omega)]
      exact not_inReach_of_length hne hzero hbefore (by omega)

end SplitRadix.Generator
