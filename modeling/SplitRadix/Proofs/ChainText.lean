import SplitRadix.Proofs.Assembly

/-!
# Reading a call chain back

The instructions of a call chain say what was asked for: the same operation on the register of the
same role, with the same number, and calls to the same address. A chain as a whole is read back as
the list of its requests, from the end of the bridge to the start of the epilogue.

One call is not what was asked for. A call to address zero, assembled alone, becomes a call to
itself. No base case lies at address zero, so no chain has such a call.

* `Means`: what an instruction does for a call chain.
* `emit_answers`: what a primitive writes answers it.
* `Assembled.chain`: what lies between bridge and epilogue.
* `chain_reads_back`: primitives and chains are read back.
* `call_zero_lands_on_itself`: the call that is not.
-/

namespace SplitRadix.Machine

open Target Spelling

/-! ## What instructions mean -/

/-- The register that plays a role, and how much of it additions work on. -/
inductive Plays : Role → Width → Gpr → Prop where
  | loopCounter : Plays .loopCounter .dword .rcx
  | size : Plays .size .dword .rcx
  | output : Plays .output .qword .rdx
  | lut : Plays .lut .qword .r8

/-- The instruction does what the primitive asks for. -/
inductive Means : Instruction → Primitive → Prop where
  | load {role : Role} {width : Width} {reg : Gpr} (h : Plays role width reg) (value : UInt32) :
    Means (.loadImmediate reg value) (.load role value)
  | add {role : Role} {width : Width} {reg : Gpr} (h : Plays role width reg) (delta : Int) :
    Means (.addImmediate width reg delta) (.add role delta)
  | shiftLeft {role : Role} {width : Width} {reg : Gpr} (h : Plays role width reg) (count : Nat) :
    Means (.shiftLeft reg count) (.shift role count)
  | shiftRight {role : Role} {width : Width} {reg : Gpr} (h : Plays role width reg) (count : Nat) :
    Means (.shiftRight reg count) (.shift role (-count))
  | call (target : Nat) : Means (.call target) (.call target)

theorem plays_role (role : Role) : Plays role (roleWidth role) (roleRegister role) := by
  cases role <;> constructor

variable {ip : Nat} {p : Primitive} {i : Instruction}

theorem means_of_glueInstruction (h : glueInstruction p = some i) : Means i p := by
  cases p with
  | prologue => cases h
  | epilogue => cases h
  | load role value =>
    cases h
    exact .load (plays_role role) value
  | add role delta =>
    cases h
    exact .add (plays_role role) delta
  | shift role amount =>
    simp only [glueInstruction, shiftInstruction] at h
    split at h
    · cases h
    · split at h
      · cases h
        have hmeans := Means.shiftLeft (plays_role role) amount.natAbs
        rwa [Int.natAbs_of_nonneg (by omega)] at hmeans
      · cases h
        have hmeans := Means.shiftRight (plays_role role) amount.natAbs
        rwa [Int.ofNat_natAbs_of_nonpos (by omega), Int.neg_neg] at hmeans
  | call target =>
    cases h
    exact .call target

/-- A branch read where it was placed goes where it should, also where the addresses have come round
to zero. -/
theorem moved_glue (hp : Expressible ip p) (hi : glueInstruction p = some i) {ip' : Nat}
    (hip : ip' = ip ∨ ip' = Word.ofInt ip) : i.moved ip ip' = i := by
  cases means_of_glueInstruction hi with
  | load _ _ => rfl
  | add _ _ => rfl
  | shiftLeft _ _ => rfl
  | shiftRight _ _ => rfl
  | call target =>
    have htarget : Word.ofInt target = target := by
      have := hp.1
      unfold Word.ofInt
      omega
    simp only [Instruction.moved, branchTarget_distance hip, htarget]

theorem length_glue_le (hi : glueInstruction p = some i) (ip : Nat) :
    ((settled ip i).encode ip).length ≤ 7 := by
  have hshift : ∀ (field : Fin 16) (reg : Gpr) (count : Nat),
      (shiftBytes field reg count).length ≤ 7 := by
    intro field reg count
    unfold shiftBytes
    split
    · exact Nat.le_trans (length_form_register ..) (by simp)
    · exact Nat.le_trans (length_form_register ..) (by simp)
  cases means_of_glueInstruction hi with
  | load _ _ => exact Nat.le_trans (length_shortForm_le ..) (by simp)
  | @add _ width _ _ _ =>
    simp only [settled, Instruction.encode]
    split
    · have := length_extension_le { wide := width == .qword }
      simp
      omega
    · split
      · exact Nat.le_trans (length_form_register ..) (by simp)
      · exact Nat.le_trans (length_form_register ..) (by simp)
  | shiftLeft _ count => exact hshift 4 _ count
  | shiftRight _ count => exact hshift 7 _ count
  | call target =>
    unfold settled
    split <;> simp [Instruction.encode]

/-- An expressible primitive is written wherever there are seven bytes of room. -/
theorem emit_of_room {e : Emission Unit} (hp : Expressible e.buffer.address p)
    (hroom : 7 ≤ e.buffer.remaining) : ∃ t, (emitPrimitive p).result e = (.ok (), t) := by
  obtain ⟨i, hi, hsettled⟩ := hp.instruction
  have hlength := length_glue_le hi e.buffer.address
  rw [← assemble_settled hsettled] at hlength
  have hmax : maxInstructionLength = 15 := rfl
  rw [result_glue hi]
  rcases h : (emitInstruction i).result e with ⟨f | _, t⟩
  · rcases (emitInstruction_ensures i).of_error h with ⟨-, hlong⟩ | ⟨-, -, hfull⟩
    · omega
    · omega
  · exact ⟨t, rfl⟩

/-- The instruction at `ip` is what becomes of the primitive there: it does what the primitive asks
for, save that a call to address zero is a call to itself. -/
def Answers (ip : Nat) (p : Primitive) (i : Instruction) : Prop :=
  if p = .call 0 then i = .call (Word.ofInt ip) else Means i p

/-- What an expressible primitive writes is one instruction that answers it. -/
theorem emit_answers {e t : Emission Unit} (hp : Expressible e.buffer.address p)
    (h : (emitPrimitive p).result e = (.ok (), t)) {ip : Nat}
    (hip : ip = e.buffer.address ∨ ip = Word.ofInt e.buffer.address) :
    ∃ s : Spelling, t.buffer = e.buffer.push s.bytes ∧ s.bytes.length ≤ 7 ∧
      Answers e.buffer.address p (s.instruction ip) := by
  obtain ⟨i, hi, hsettled, ht⟩ := spelling_of_glue hp h
  have hmeans := means_of_glueInstruction hi
  refine ⟨ofInstruction hsettled, ht, length_glue_le hi _, ?_⟩
  show Answers _ p ((settled _ i).moved _ ip)
  unfold Answers
  by_cases hzero : p = .call 0
  · subst hzero
    cases hi
    rw [if_pos rfl]
    simp only [settled, Instruction.moved, branchTarget_distance hip]
  · have hne : i ≠ .call 0 := by
      intro heq
      subst heq
      cases hmeans
      exact hzero rfl
    rw [if_neg hzero, settled_of_ne hne, moved_glue hp hi hip]
    exact hmeans

end SplitRadix.Machine

namespace SplitRadix.Routine

open Target Leaf Machine Spelling

/-! ## Chains -/

variable {direction : Direction} {e u : Emission Unit}

/-- A run over two lists of pieces is two runs. -/
theorem Writing.split {first second : List Piece} {fragments : List Fragment}
    (h : Writing Machine.backend direction (first ++ second) e fragments u) :
    ∃ fs gs t, fragments = fs ++ gs ∧ Writing Machine.backend direction first e fs t ∧
      Writing Machine.backend direction second t gs u := by
  induction first generalizing e fragments with
  | nil => exact ⟨[], fragments, e, rfl, .done (.refl e), h⟩
  | cons piece first ih =>
    cases h with
    | glue hbefore hglue h =>
      obtain ⟨fs, gs, t, rfl, hfirst, hsecond⟩ := ih h
      exact ⟨fs, gs, t, rfl, .glue hbefore hglue hfirst, hsecond⟩
    | part haligned hfilled h =>
      obtain ⟨fs, gs, t, rfl, hfirst, hsecond⟩ := ih h
      exact ⟨_ :: fs, gs, t, rfl, .part haligned hfilled hfirst, hsecond⟩

/-- The fragment of a part that goes on no boundary is all that its run writes. -/
theorem Writing.single {part : Part} {fragments : List Fragment} (hfree : part.boundary = none)
    (h : Writing Machine.backend direction [.part part] e fragments u) :
    fragments = [⟨part.name, e.buffer.position, u.buffer.position - e.buffer.position⟩] ∧
      e.buffer.position ≤ u.buffer.position := by
  refine ⟨?_, h.position_le keepsLengths⟩
  cases h with
  | part haligned _ hrest =>
    rw [hfree] at haligned
    cases haligned with
    | free haligned =>
      cases hrest with
      | done hrest => rw [hrest.buffer, haligned.buffer]

/-- A line of a disassembly from `ip` on answers a primitive. -/
def ReadAs (ip : Nat) (d : Decoded) (p : Primitive) : Prop :=
  ∃ i, d.instruction = some i ∧ Answers (ip + d.offset) p i

/-- The text of a chain has one line for each request. -/
theorem Writing.chain {requests : List Primitive} {fragments : List Fragment} {base bound : Nat}
    (h : Writing Machine.backend direction (requests.map .glue) e fragments u)
    (hrequests : ∀ p ∈ requests, ∀ ip, base ≤ ip → ip ≤ base + bound → Expressible ip p)
    (hbase : e.buffer.base = base) (hbound : u.buffer.position ≤ bound) (ip offset : Nat)
    (hip : ip + offset = e.buffer.address) :
    fragments = [] ∧ ∃ words, u.buffer = e.buffer.push (Spelling.text words) ∧
      List.Forall₂ (ReadAs ip) (lines ip offset words) requests := by
  induction requests generalizing e offset with
  | nil =>
    cases h with
    | done h => exact ⟨rfl, [], h.buffer, .nil⟩
  | cons p requests ih =>
    cases h with
    | @glue _ _ _ _ before t _ hbefore hglue hrest =>
      have hle := (Writing.glue hbefore hglue hrest).position_le keepsLengths
      have haddress : before.buffer.address = ip + offset := by rw [hbefore.buffer, hip]
      have hplace : before.buffer.address = base + e.buffer.position := by
        rw [Code.Buffer.address, hbefore.buffer, hbase]
      have hexpressible : Expressible before.buffer.address p :=
        hrequests p List.mem_cons_self _ (by omega) (by omega)
      have hat : Word.ofInt (ip + offset) = Word.ofInt before.buffer.address := by
        rw [haddress]
        rfl
      obtain ⟨s, hs, -, hanswers⟩ := emit_answers hexpressible hglue (.inr hat)
      rw [hbefore.buffer] at hs
      have hnext : ip + (offset + s.bytes.length) = t.buffer.address := by
        rw [hs, Code.Buffer.address, Code.Buffer.base_push, Code.Buffer.position_push,
          ← Nat.add_assoc, hip, Code.Buffer.address, Nat.add_assoc]
      obtain ⟨rfl, words, hwords, hlines⟩ := @ih t hrest
        (fun q hq => hrequests q (List.mem_cons_of_mem p hq)) (by rw [hs]; exact hbase) _ hnext
      rw [haddress] at hanswers
      refine ⟨rfl, s :: words, ?_, .cons ⟨_, rfl, hanswers⟩ hlines⟩
      rw [hwords, hs, Code.Buffer.push_push]
      rfl

/-- The address that a line calls. -/
def called? (d : Decoded) : Option Nat :=
  match d.instruction with
  | some (.call target) => some target
  | _ => none

/-- Where no call goes to address zero, the lines call what was asked for. -/
theorem ReadAs.called {ip : Nat} {d : Decoded} {p : Primitive} (h : ReadAs ip d p)
    (hp : p ≠ .call 0) : called? d = CallChain.callTarget? p := by
  obtain ⟨i, hi, hanswers⟩ := h
  rw [Answers, if_neg hp] at hanswers
  unfold called?
  rw [hi]
  cases hanswers <;> rfl

theorem filterMap_called {ip : Nat} {lines : List Decoded} {requests : List Primitive}
    (h : List.Forall₂ (ReadAs ip) lines requests) (hzero : Primitive.call 0 ∉ requests) :
    lines.filterMap called? = requests.filterMap CallChain.callTarget? := by
  induction h with
  | nil => rfl
  | cons hline _ ih =>
    rw [List.mem_cons, not_or] at hzero
    obtain ⟨hfirst, hrest⟩ := hzero
    rw [List.filterMap_cons, List.filterMap_cons, hline.called (Ne.symm hfirst), ih hrest]

/-- All of a routine that comes before its bridge. -/
def front (lib : Kernel.Library) (size : Nat) (schedule : Schedule) : List Piece :=
  baseCases lib ++ [.part .prologue, .loadBound schedule.initial,
    .part (.fixed lib.leafInit none)] ++ schedule.steps.flatMap (passPieces lib size)

theorem pieces_eq (lib : Kernel.Library) (size : Nat) (schedule : Schedule)
    (requests : List Primitive) :
    baseCases lib ++ body lib size schedule requests ++ [.part .epilogue] =
      front lib size schedule ++ ([.part (.fixed lib.bridge none)] ++
        (requests.map .glue ++ [.part .epilogue])) := by
  simp [front, body]

theorem name_front {size : Nat} {schedule : Schedule} {part : Part}
    (h : part ∈ (front Machine.kernels size schedule).filterMap Piece.part?) :
    part.name ≠ "bridge" ∧ part.name ≠ "epilogue" := by
  simp only [front, baseCases, List.filterMap_append, filterMap_part_passPieces, List.mem_append,
    List.mem_map] at h
  rcases h with (h | h) | ⟨step, -, rfl⟩
  · simp only [Piece.part?, List.filterMap_cons, List.filterMap_nil, List.mem_cons,
      List.not_mem_nil, or_false] at h
    rcases h with rfl | rfl <;> decide
  · simp only [Piece.part?, Piece.loadBound, List.filterMap_cons, List.filterMap_nil,
      List.mem_cons, List.not_mem_nil, or_false] at h
    rcases h with rfl | rfl <;> decide
  · show (Machine.kernels.leaf step.pass).name ≠ _ ∧ (Machine.kernels.leaf step.pass).name ≠ _
    cases step.pass <;> decide

/-- Bridge and epilogue are not among the fragments before the bridge. -/
theorem find?_front {size : Nat} {schedule : Schedule} {fragments : List Fragment}
    (h : Writing Machine.backend direction (front Machine.kernels size schedule) e fragments u) :
    fragments.find? (fun f => f.name == "bridge") = none ∧
      fragments.find? (fun f => f.name == "epilogue") = none := by
  have hnames : ∀ f ∈ fragments, f.name ≠ "bridge" ∧ f.name ≠ "epilogue" := by
    intro f hf
    have hname := List.mem_map_of_mem (f := Fragment.name) hf
    rw [h.names] at hname
    obtain ⟨part, hpart, heq⟩ := List.mem_map.1 hname
    rw [← heq]
    exact name_front hpart
  constructor
  · simpa using fun f hf => (hnames f hf).1
  · simpa using fun f hf => (hnames f hf).2

end SplitRadix.Routine

namespace SplitRadix.Generator

open Target Routine Leaf Machine CallChain

variable {g u : Generation Unit} {request : Request} {r : Routine}

/-- The requests of a routine are calls to the base cases of its nodes, in their order, and changes
of registers. -/
theorem Assembled.requests (h : Assembled g request r u) :
    (∀ p ∈ chainRequests g request r, IsRequest (callTargets r g.plan.region.base) p) ∧
      (chainRequests g request r).filterMap callTarget? =
        (Decomposition.postOrder request.leaf request.size 0).map
          (baseCase g.plan.parameters.leaf (callTargets r g.plan.region.base)) := by
  obtain ⟨hchain, -, -, -, -, -⟩ := h
  have hrequests := script_requests hchain
  rw [beforeSentinel_postOrder] at hrequests
  exact hrequests

/-- Between bridge and epilogue, a routine is the text of its chain. -/
theorem Assembled.chain (h : Assembled g request r u) :
    ∃ bridge epilogue words, r.fragment? "bridge" = some bridge ∧
      r.fragment? "epilogue" = some epilogue ∧
      Bytes.slice u.plan.region.bytes (bridge.offset + bridge.length)
        (epilogue.offset - (bridge.offset + bridge.length)) = Spelling.text words ∧
      List.Forall₂ (ReadAs (g.plan.region.base + (bridge.offset + bridge.length)))
        (Spelling.lines (g.plan.region.base + (bridge.offset + bridge.length)) 0 words)
        (chainRequests g request r) := by
  obtain @⟨schedule, chain, start, stop, hchain, hglue, hstart, hwriting, hlength, hplan⟩ := h
  -- the run up to the bridge, the bridge, the chain and the epilogue
  rw [pieces_eq] at hwriting
  obtain ⟨before, others, atBridge, hfragments, hfront, hwriting⟩ := hwriting.split
  obtain ⟨_, others, past, rfl, hbridge, hwriting⟩ := hwriting.split
  obtain ⟨_, _, exit, rfl, hrequests, hexit⟩ := hwriting.split
  obtain ⟨first, hfirst⟩ := ((hfront.append hbridge).laid keepsLengths).1
  obtain ⟨last, hlast⟩ := (hexit.laid keepsLengths).1
  obtain ⟨rfl, hle⟩ := hbridge.single rfl
  obtain ⟨rfl, -⟩ := hexit.single rfl
  have hbase : past.buffer.base = g.plan.region.base := by
    rw [hfirst, hstart]
    rfl
  have hbound : exit.buffer.position ≤ r.length := by
    rw [hlength]
    exact hexit.position_le keepsLengths
  obtain ⟨rfl, words, hwords, hlines⟩ := hrequests.chain hglue hbase hbound
    (g.plan.region.base + past.buffer.position) 0 (by rw [Code.Buffer.address, hbase]; rfl)
  obtain ⟨hnoBridge, hnoEpilogue⟩ := find?_front hfront
  have hspan : exit.buffer.position - past.buffer.position = (Spelling.text words).length := by
    rw [hwords, Code.Buffer.position_push, Nat.add_sub_cancel_left]
  have hregion : u.plan.region.bytes = past.buffer.written ++
      (Spelling.text words ++ (last ++ g.plan.region.bytes.drop stop.buffer.position)) := by
    rw [hplan]
    simp [Code.Buffer.overlay, hlast, hwords]
  refine ⟨⟨"bridge", atBridge.buffer.position, past.buffer.position - atBridge.buffer.position⟩,
    ⟨"epilogue", exit.buffer.position, stop.buffer.position - exit.buffer.position⟩, words,
    ?_, ?_, ?_, ?_⟩
  · rw [fragment?, hfragments, List.find?_append, hnoBridge]
    rfl
  · rw [fragment?, hfragments, List.find?_append, hnoEpilogue]
    rfl
  · dsimp only
    rw [Nat.add_sub_cancel' hle, hspan, hregion, Bytes.slice, ← Code.Buffer.length_written,
      List.drop_left, List.take_left]
  · dsimp only
    rw [Nat.add_sub_cancel' hle]
    exact hlines

/-- Every primitive that can be encoded is written as one instruction of at most seven bytes that
answers it, and the chain of a routine is read back as the list of its requests. No memory lies at
address zero, and then the chain has one call for each node, to the base case that serves it. -/
theorem chain_reads_back (e : Emission Unit) (p : Primitive) (g u : Generation Unit)
    (request : Request) (r : Routine) :
    (Expressible e.buffer.address p → 7 ≤ e.buffer.remaining →
      ∃ t bytes i, (Machine.backend.emit p).result e = (.ok (), t) ∧
        t.buffer = e.buffer.push bytes ∧ bytes.length ≤ 7 ∧
        (∀ rest, decode e.buffer.address (bytes ++ rest) = some (i, bytes.length)) ∧
        Answers e.buffer.address p i) ∧
    (g.generator.backend = Machine.backend → (generate request).result g = (.ok r, u) →
      ∃ bridge epilogue, r.fragment? "bridge" = some bridge ∧
        r.fragment? "epilogue" = some epilogue ∧
        let start := bridge.offset + bridge.length
        let lines := disassemble (g.plan.region.base + start)
          (Bytes.slice u.plan.region.bytes start (epilogue.offset - start))
        let nodes := Decomposition.postOrder request.leaf request.size 0
        let targets := callTargets r g.plan.region.base
        List.Forall₂ (ReadAs (g.plan.region.base + start)) lines (chainRequests g request r) ∧
        (0 < g.plan.region.base →
          Primitive.call 0 ∉ chainRequests g request r ∧
          lines.filterMap called? = nodes.map (baseCase g.plan.parameters.leaf targets) ∧
          (lines.filterMap called?).length = Decomposition.count request.size request.leaf)) := by
  constructor
  · intro hp hroom
    obtain ⟨t, ht⟩ := emit_of_room hp hroom
    obtain ⟨s, hs, hlength, hanswers⟩ := emit_answers hp ht (.inl rfl)
    exact ⟨t, s.bytes, s.instruction e.buffer.address, ht, hs, hlength, s.decode_append _, hanswers⟩
  · intro hbackend h
    have hassembled := assembled_of_generate hbackend h
    obtain ⟨bridge, epilogue, words, hbridge, hepilogue, hslice, hlines⟩ := hassembled.chain
    refine ⟨bridge, epilogue, hbridge, hepilogue, ?_⟩
    dsimp only
    rw [hslice, disassemble, Spelling.disassembleFrom_text]
    refine ⟨hlines, fun hbase => ?_⟩
    obtain ⟨hkind, hcalls⟩ := hassembled.requests
    have hzero : Primitive.call 0 ∉ chainRequests g request r := by
      intro hmem
      cases hkind _ hmem with
      | call h =>
        simp only [callTargets] at h
        omega
    rw [filterMap_called hlines hzero, hcalls]
    exact ⟨hzero, rfl, by rw [List.length_map, Decomposition.length_postOrder]⟩

/-- The largest step back in the table of twiddles, and the four calls of a transform of 32 elements
with leaves of 4. -/
theorem chain_reads_back_of_32 :
    let e : Emission Unit := { buffer := .holding 4096 64 [], own := () }
    let g : Generation Unit :=
      { generator := { backend := Machine.backend, own := (), session := .start none }
        plan := { parameters := ⟨32, 4, .ofLeaves 8, Transform.referenceTable 4 3⟩
                  region := .blank 4099 2048 } }
    Expressible e.buffer.address (.add .lut (-2147483648)) ∧ 7 ≤ e.buffer.remaining ∧
    (∃ t bytes i, (Machine.backend.emit (.add .lut (-2147483648))).result e = (.ok (), t) ∧
      t.buffer = e.buffer.push bytes ∧ bytes.length ≤ 7 ∧
      (∀ rest, decode e.buffer.address (bytes ++ rest) = some (i, bytes.length)) ∧
      Answers e.buffer.address (.add .lut (-2147483648)) i) ∧
    ∃ r u bridge epilogue, (generate ⟨32, 4, .inverse⟩).result g = (.ok r, u) ∧
      r.fragment? "bridge" = some bridge ∧ r.fragment? "epilogue" = some epilogue ∧
      let start := bridge.offset + bridge.length
      let lines := disassemble (4099 + start)
        (Bytes.slice u.plan.region.bytes start (epilogue.offset - start))
      List.Forall₂ (ReadAs (4099 + start)) lines (chainRequests g ⟨32, 4, .inverse⟩ r) ∧
      (lines.filterMap called?).length = 4 := by
  intro e g
  have hp : Expressible e.buffer.address (.add .lut (-2147483648)) := ⟨by decide, by decide⟩
  have hroom : 7 ≤ e.buffer.remaining := by decide
  have hok : ((generate ⟨32, 4, .inverse⟩).result g).1.isOk = true := by decide +kernel
  rcases hr : (generate ⟨32, 4, .inverse⟩).result g with ⟨_ | r, u⟩
  · rw [hr] at hok
    cases hok
  · obtain ⟨hemit, hchain⟩ :=
      chain_reads_back e (.add .lut (-2147483648)) g u ⟨32, 4, .inverse⟩ r
    obtain ⟨bridge, epilogue, hbridge, hepilogue, hlines, hcalls⟩ := hchain rfl hr
    have hcount : Decomposition.count 32 4 = 4 := by decide +kernel
    obtain ⟨-, -, hlength⟩ := hcalls (by decide)
    exact ⟨hp, hroom, hemit hp hroom, r, u, bridge, epilogue, rfl, hbridge, hepilogue, hlines,
      hlength.trans hcount⟩

/-- At address 4096 a call to address zero is in reach, and what is written calls 4096. -/
theorem call_zero_lands_on_itself :
    let e : Emission Unit := { buffer := .holding 4096 64 [], own := () }
    let t := ((Machine.backend.emit (.call 0)).result e).2
    Expressible e.buffer.address (.call 0) ∧
    (Machine.backend.emit (.call 0)).result e = (.ok (), t) ∧
    t.buffer.written = [0xe8, 0xfb, 0xff, 0xff, 0xff] ∧
    decode 4096 t.buffer.written = some (.call 4096, 5) ∧ ¬ Means (.call 4096) (.call 0) := by
  refine ⟨⟨by decide, by decide⟩, ?_, by decide +kernel, by decide +kernel, nofun⟩
  exact Prod.ext (by decide +kernel) rfl

end SplitRadix.Generator
