import Mathlib.Data.List.Forall2
import SplitRadix.Proofs.CallChain
import SplitRadix.Proofs.Filling
import SplitRadix.Proofs.Tracing
import SplitRadix.Target.Recorder

/-!
# The registers at the calls of a chain

A base case finds its size, its output position and its twiddle position in registers. A chain never
sets the last two; it adds to them what changed since the call before. Running the primitives of a
chain on registers of 64 bits shows what a base case really finds there.

* `Bank.exec`, `run`: what primitives do to the registers, and the calls they make.
* `Tracks`: the registers hold what the chain takes them to hold.
* `Tracks.changes`: the changes of a node bring them to what its call needs.
* `calls_of_script`: the calls of a chain are the calls its nodes need.
-/

namespace SplitRadix.CallChain

open Target
open Transform (Parameters)

/-! ## Running primitives -/

/-- The contents of the registers. -/
abbrev Bank := Role → BitVec 64

namespace Bank

def set (b : Bank) (role : Role) (w : BitVec 64) : Bank := fun r => if r = role then w else b r

/-- The low half of a word, shifted to the left or, by a negative amount, arithmetically to the
right. The high half becomes zero. -/
def shifted (amount : Int) (w : BitVec 64) : BitVec 64 :=
  if 0 ≤ amount then (w.setWidth 32 <<< amount.toNat).setWidth 64
  else ((w.setWidth 32).sshiftRight (-amount).toNat).setWidth 64

/-- What a primitive does to the registers. A call gives them back as it found them. -/
def exec (b : Bank) : Primitive → Bank
  | .load role value => b.set role (value.toBitVec.setWidth 64)
  | .add role delta => b.set role (b role + BitVec.ofInt 64 delta)
  | .shift role amount => b.set role (shifted amount (b role))
  | .prologue | .epilogue | .call _ => b

theorem set_same (b : Bank) (role : Role) (w : BitVec 64) : b.set role w role = w := if_pos rfl

theorem set_other (b : Bank) {role r : Role} (w : BitVec 64) (h : r ≠ role) :
    b.set role w r = b r := if_neg h

end Bank

/-- A call, with the registers as the callee finds them. -/
structure Call where
  target : Nat
  bank : Bank

/-- The registers and the calls so far. -/
structure Run where
  bank : Bank
  calls : List Call := []

def Run.step (r : Run) (p : Primitive) : Run :=
  { bank := r.bank.exec p
    calls := match p with
      | .call target => r.calls ++ [⟨target, r.bank⟩]
      | _ => r.calls }

/-- Run primitives one after the other. -/
def run (r : Run) (l : List Primitive) : Run := l.foldl Run.step r

theorem run_append (r : Run) (l m : List Primitive) : run r (l ++ m) = run (run r l) m :=
  List.foldl_append ..

/-- Make a change, or leave the registers alone. -/
def Bank.change (b : Bank) : Option Primitive → Bank
  | none => b
  | some p => b.exec p

/-- Changes make no calls. -/
theorem run_changes {l : List (Option Primitive)} (h : ∀ target, some (.call target) ∉ l) (r : Run) :
    run r (l.filterMap id) = { r with bank := l.foldl Bank.change r.bank } := by
  induction l generalizing r with
  | nil => rfl
  | cons c l ih =>
    have hl : ∀ target, some (.call target) ∉ l := fun t ht => h t (List.mem_cons_of_mem _ ht)
    cases c with
    | none => exact ih hl r
    | some p =>
      have hp : ∀ target, p ≠ .call target := fun t ht => h t (ht ▸ List.mem_cons_self)
      have hstep : r.step p = { r with bank := r.bank.exec p } := by
        cases p with
        | call target => exact absurd rfl (hp target)
        | _ => rfl
      show run (r.step p) (l.filterMap id) = _
      rw [ih hl, hstep]
      rfl

theorem call_not_mem_changes (leaf : Nat) (before : Registers) (node : Node) (lut target : Nat) :
    some (.call target) ∉ changes leaf before node lut := by
  unfold changes addition resizing
  intro h
  simp only [List.mem_append, List.mem_singleton] at h
  rcases h with h | h
  · split at h
    · simp at h
    · simp only [List.mem_cons, List.not_mem_nil, or_false] at h
      rcases h with h | h <;> split at h <;> cases h
  · split at h <;> cases h

/-! ## Words -/

theorem ofInt_toSigned (n : Nat) : BitVec.ofInt 64 (Word.toSigned n) = BitVec.ofNat 64 n := by
  unfold Word.toSigned
  split
  · exact BitVec.ofInt_natCast 64 n
  · apply BitVec.eq_of_toNat_eq
    rw [BitVec.toNat_ofInt, BitVec.toNat_ofNat]
    omega

/-- Adding the difference of two positions takes a register from the one to the other, scaled. -/
theorem ofNat_add_ofInt (scale m n : Nat) :
    BitVec.ofNat 64 (scale * m) +
        BitVec.ofInt 64 (scale * (Word.toSigned n - Word.toSigned m)) =
      BitVec.ofNat 64 (scale * n) := by
  have scaled : ∀ k : Nat, BitVec.ofNat 64 (scale * k) = BitVec.ofInt 64 (scale * Word.toSigned k) :=
    fun k => by
      rw [BitVec.ofNat_mul, BitVec.ofInt_mul, ofInt_toSigned, BitVec.ofInt_natCast]
  rw [scaled, scaled, ← BitVec.ofInt_add, Int.mul_sub]
  congr 1
  omega

theorem toNat_ofNat_two_pow {w k : Nat} (h : k < w) : (BitVec.ofNat w (2 ^ k)).toNat = 2 ^ k := by
  rw [BitVec.toNat_ofNat, Nat.mod_eq_of_lt (Nat.pow_lt_pow_right (by decide) h)]

/-- A shift takes a register from one power of two to another, as long as both are positive as
signed 32-bit numbers. -/
theorem shifted_two_pow {j k : Nat} (hj : j < 31) (hk : k < 31) :
    Bank.shifted ((k : Int) - (j : Int)) (BitVec.ofNat 64 (2 ^ j)) = BitVec.ofNat 64 (2 ^ k) := by
  have hlow : (BitVec.ofNat 64 (2 ^ j)).setWidth 32 = BitVec.ofNat 32 (2 ^ j) := by
    apply BitVec.eq_of_toNat_eq
    rw [BitVec.toNat_setWidth, toNat_ofNat_two_pow (by omega), BitVec.toNat_ofNat]
  have hk32 : 2 ^ k < 2 ^ 32 := Nat.pow_lt_pow_right (by decide) (by omega)
  apply BitVec.eq_of_toNat_eq
  unfold Bank.shifted
  rw [hlow, toNat_ofNat_two_pow (show k < 64 by omega)]
  by_cases h : j ≤ k
  · have hamount : ((k : Int) - (j : Int)).toNat = k - j := by omega
    rw [if_pos (by omega), hamount, BitVec.toNat_setWidth_of_le (by decide), BitVec.toNat_shiftLeft,
      toNat_ofNat_two_pow (by omega), Nat.shiftLeft_eq, ← Nat.pow_add, Nat.add_sub_cancel' h,
      Nat.mod_eq_of_lt hk32]
  · have hamount : (-((k : Int) - (j : Int))).toNat = j - k := by omega
    have hmsb : (BitVec.ofNat 32 (2 ^ j)).msb = false := by
      rw [BitVec.msb_eq_decide, toNat_ofNat_two_pow (by omega), decide_eq_false_iff_not, Nat.not_le]
      exact Nat.pow_lt_pow_right (by decide) hj
    rw [if_neg (by omega), hamount, BitVec.toNat_setWidth_of_le (by decide),
      BitVec.sshiftRight_eq_of_msb_false hmsb, BitVec.toNat_ushiftRight,
      toNat_ofNat_two_pow (by omega), Nat.shiftRight_eq_div_pow, Nat.pow_div (by omega) (by decide)]
    congr 1
    omega

theorem loaded_two_pow {k : Nat} (hk : k < 31) :
    (Word.low32OfInt (Word.toSigned (2 ^ k))).toBitVec.setWidth 64 = BitVec.ofNat 64 (2 ^ k) := by
  have hk32 : 2 ^ k < 2 ^ 32 := Nat.pow_lt_pow_right (by decide) (by omega)
  rw [Word.low32OfInt_toSigned (by omega)]
  apply BitVec.eq_of_toNat_eq
  rw [BitVec.toNat_setWidth_of_le (by decide), toNat_ofNat_two_pow (by omega)]
  exact Nat.mod_eq_of_lt hk32

/-! ## The changes of one node -/

/-- The registers hold what the chain takes them to hold. Before the first call the size is not
known. -/
structure Tracks (r : Registers) (b : Bank) : Prop where
  output : b .output = BitVec.ofNat 64 (8 * r.offset)
  lut : b .lut = BitVec.ofNat 64 r.lut
  size : r.size ≠ 0 → b .size = BitVec.ofNat 64 r.size
  size_eq : r.size ≠ 0 → ∃ k, k < 31 ∧ r.size = 2 ^ k

theorem change_addition (b : Bank) (role : Role) (delta : Int) :
    b.change (addition role delta) = b.set role (b role + BitVec.ofInt 64 delta) := by
  unfold addition
  split
  · rename_i h
    funext r
    rw [h, show BitVec.ofInt 64 0 = 0#64 from rfl, BitVec.add_zero]
    by_cases hr : r = role
    · rw [hr, Bank.set_same]; rfl
    · rw [Bank.set_other _ _ hr]; rfl
  · rfl

theorem change_resizing {leaf : Nat} {r : Registers} {b : Bank} {node : Node} {j k : Nat}
    (hj : j < 31) (hk : k < 31) (hr : r.size = 2 ^ j) (hb : b .size = BitVec.ofNat 64 (2 ^ j))
    (hn : node.size = 2 ^ k) (hleaf : leaf < node.size) :
    b.change (resizing leaf r node) = b.set .size (BitVec.ofNat 64 (2 ^ k)) := by
  unfold resizing
  split
  · have hdelta : sizeDelta r node = (k : Int) - (j : Int) := by
      rw [sizeDelta, hn, hr, Word.trailingZeros_two_pow, Word.trailingZeros_two_pow]
    show b.set .size (Bank.shifted (sizeDelta r node) (b .size)) = _
    rw [hdelta, hb, shifted_two_pow hj hk]
  · -- the size did not change
    rename_i h
    have heq : node.size = r.size := by
      by_cases heq : node.size = r.size
      · exact heq
      · exact absurd ⟨hleaf, heq⟩ h
    funext role
    by_cases hrole : role = .size
    · rw [hrole, Bank.set_same, ← hn, heq, hr, ← hb]; rfl
    · rw [Bank.set_other _ _ hrole]; rfl

/-- The changes of a node bring the registers to what its call needs. The first node has to start
where the output register points. -/
theorem Tracks.changes {leaf lut k : Nat} {before : Registers} {b : Bank} {node : Node}
    (h : Tracks before b) (hfirst : before.size = 0 → node.offset = before.offset)
    (hk : k < 31) (hn : node.size = 2 ^ k) (hleaf : leaf < node.size) :
    Tracks (before.atCall leaf node lut) ((changes leaf before node lut).foldl Bank.change b) := by
  have hlut : b .lut + BitVec.ofInt 64 (lutDelta before lut) = BitVec.ofNat 64 lut := by
    have := ofNat_add_ofInt 1 before.lut lut
    simpa [h.lut, lutDelta] using this
  -- it is enough to know the bank before the last change, which is to the twiddle register
  have finish : ∀ b' : Bank, b' .output = BitVec.ofNat 64 (8 * node.offset) → b' .lut = b .lut →
      b' .size = BitVec.ofNat 64 node.size →
      Tracks (before.atCall leaf node lut) (b'.change (addition .lut (lutDelta before lut))) := by
    intro b' houtput hl hsize
    have hatCall : (before.atCall leaf node lut).size = node.size := if_pos hleaf
    rw [change_addition]
    refine ⟨houtput, ?_, fun _ => hatCall ▸ hsize, fun _ => ⟨k, hk, hatCall ▸ hn⟩⟩
    rw [Bank.set_same, hl, hlut]
    rfl
  unfold CallChain.changes
  split
  · rename_i h0
    refine finish _ ?_ rfl ?_
    · show b .output = _
      rw [h.output, hfirst h0]
    · show (Word.low32OfInt (Word.toSigned node.size)).toBitVec.setWidth 64 = _
      rw [hn, loaded_two_pow hk]
  · rename_i h0
    obtain ⟨j, hj, hr⟩ := h.size_eq h0
    have hb : b .size = BitVec.ofNat 64 (2 ^ j) := by rw [h.size h0, hr]
    have houtput : b .output + BitVec.ofInt 64 (outputDelta before node) =
        BitVec.ofNat 64 (8 * node.offset) := by
      rw [h.output]
      exact ofNat_add_ofInt 8 before.offset node.offset
    simp only [List.foldl_append, List.foldl_cons, List.foldl_nil]
    have hb' : (b.set .output (BitVec.ofNat 64 (8 * node.offset))) .size = BitVec.ofNat 64 (2 ^ j) :=
      hb
    rw [change_addition b .output, houtput, change_resizing hj hk hr hb' hn hleaf]
    refine finish _ ?_ rfl ?_
    · rfl
    · rw [Bank.set_same, hn]

/-! ## The calls of a whole chain -/

/-- A list of nodes as a decomposition gives it: up to the sentinel the sizes are powers of two
above the leaf size, and the first node starts at the beginning. -/
structure IsRegular (leaf : Nat) (nodes : List Node) : Prop where
  size_eq : ∀ node ∈ beforeSentinel nodes, ∃ k, k ≤ 26 ∧ node.size = 2 ^ k
  leaf_lt : ∀ node ∈ beforeSentinel nodes, leaf < node.size
  head_offset : ∀ node, (beforeSentinel nodes).head? = some node → node.offset = 0

/-- A call finds what a node needs: its size, its place in the output in bytes and the place of its
twiddles, in the base case that computes nodes of its size. -/
structure Serves (params : Parameters) (targets : Targets) (node : Node) (call : Call) : Prop where
  size : (call.bank .size).toNat = node.size
  output : call.bank .output = BitVec.ofNat 64 (8 * node.offset)
  lut : params.displacement node.size = .ok (some (call.bank .lut).toNat)
  target : call.target = if node.size = 2 * params.leaf then targets.x4 else targets.x8

/-- A displacement is a 64-bit word. -/
theorem displacement_lt {params : Parameters} {n lut : Nat}
    (h : params.displacement n = .ok (some lut)) : lut < 2 ^ 64 := by
  unfold Parameters.displacement at h
  obtain ⟨level, -, h⟩ := exceptBind_eq_ok.1 h
  split at h
  · cases h
  · split at h
    · cases h
    · obtain ⟨value, hv, h⟩ := exceptBind_eq_ok.1 h
      obtain ⟨rfl, hlt⟩ := Word.mul_eq_ok.1 hv
      cases h
      exact hlt

theorem Tracks.serves {params : Parameters} {targets : Targets} {node : Node} {r : Registers}
    {b : Bank} {lut : Nat} (h : Tracks (r.atCall params.leaf node lut) b)
    (hleaf : params.leaf < node.size) (hlut : params.displacement node.size = .ok (some lut)) :
    Serves params targets node ⟨baseCase params.leaf targets node, b⟩ := by
  have hatCall : (r.atCall params.leaf node lut).size = node.size := if_pos hleaf
  have hne : (r.atCall params.leaf node lut).size ≠ 0 := by omega
  obtain ⟨k, hk, hpow⟩ := h.size_eq hne
  have hlt : 2 ^ k < 2 ^ 64 := Nat.pow_lt_pow_right (by decide) (by omega)
  refine ⟨?_, h.output, ?_, rfl⟩
  · show (b .size).toNat = _
    rw [h.size hne, hpow, BitVec.toNat_ofNat, Nat.mod_eq_of_lt hlt, ← hpow, hatCall]
  · show _ = Except.ok (some (b .lut).toNat)
    rw [h.lut, BitVec.toNat_ofNat, hlut]
    exact congrArg (fun n => Except.ok (some n)) (Nat.mod_eq_of_lt (displacement_lt hlut)).symm

/-- The calls made so far serve the nodes visited so far, and the registers hold what the chain takes
them to hold. -/
structure Progress (params : Parameters) (targets : Targets) (start : Bank) (visited : List Node)
    (d : Draft) : Prop where
  calls : List.Forall₂ (Serves params targets) visited (run ⟨start, []⟩ d.requests).calls
  tracks : Tracks d.registers (run ⟨start, []⟩ d.requests).bank
  first : d.registers.size = 0 → visited = [] ∧ d.registers.offset = 0

/-- One visit adds one call, and that call serves the node. -/
theorem Progress.visit {params : Parameters} {targets : Targets} {start : Bank} {node : Node}
    {visited : List Node} {d t : Draft} {k : Nat} (h : Progress params targets start visited d)
    (hfirst : visited = [] → node.offset = 0) (hk : k ≤ 26) (hn : node.size = 2 ^ k)
    (hleaf : params.leaf < node.size) (hv : Visited params targets node d t) :
    Progress params targets start (visited ++ [node]) t := by
  obtain ⟨lut, hlut, -, rfl⟩ := hv
  have hmoved : Tracks (d.registers.atCall params.leaf node lut)
      ((changes params.leaf d.registers node lut).foldl Bank.change
        (run ⟨start, []⟩ d.requests).bank) :=
    h.tracks.changes (fun h0 => by rw [(h.first h0).2, hfirst (h.first h0).1])
      (Nat.lt_of_le_of_lt hk (by decide)) hn hleaf
  have hregisters : (((changes params.leaf d.registers node lut).foldl Draft.change d).call
      params.leaf targets node lut).registers = d.registers.atCall params.leaf node lut := by
    show Registers.atCall _ params.leaf node lut = _
    rw [Draft.registers_foldl_change]
  refine ⟨?_, ?_, ?_⟩
  · rw [Draft.requests_call, Draft.requests_foldl_change, run_append, run_append,
      run_changes (call_not_mem_changes params.leaf d.registers node lut)]
    exact List.rel_append h.calls (.cons (hmoved.serves hleaf hlut) .nil)
  · rw [Draft.requests_call, Draft.requests_foldl_change, run_append, run_append,
      run_changes (call_not_mem_changes params.leaf d.registers node lut), hregisters]
    exact hmoved
  · intro h0
    rw [hregisters] at h0
    have hzero : node.size = 0 := (if_pos hleaf).symm.trans h0
    omega

/-- The calls of a completed chain serve its nodes, one each and in order. -/
theorem calls_of_script {params : Parameters} {targets : Targets} {nodes : List Node} {start : Bank}
    (hnodes : IsRegular params.leaf nodes) (houtput : start .output = 0) (hlut : start .lut = 0)
    {summary : Summary} (h : (script params targets nodes).1 = .ok summary) :
    List.Forall₂ (Serves params targets) (beforeSentinel nodes)
      (run ⟨start, []⟩ (requests (script params targets nodes).2.toList)).calls := by
  have hstart : Progress params targets start [] {} :=
    ⟨.nil, ⟨houtput, hlut, fun h => absurd rfl h, fun h => absurd rfl h⟩, fun _ => ⟨rfl, rfl⟩⟩
  have hvisit : ∀ visited node d t, visited ++ [node] <+: beforeSentinel nodes →
      Progress params targets start visited d → Visited params targets node d t →
      Progress params targets start (visited ++ [node]) t := by
    intro visited node d t hfront hd ht
    have hmem : node ∈ beforeSentinel nodes := hfront.mem (by simp)
    obtain ⟨k, hk, hn⟩ := hnodes.size_eq node hmem
    refine hd.visit ?_ hk hn (hnodes.leaf_lt node hmem) ht
    rintro rfl
    obtain ⟨rest, hrest⟩ := hfront
    exact hnodes.head_offset node (by rw [← hrest]; rfl)
  obtain ⟨d, hprogress, -, hasked⟩ := script_induction hstart hvisit h
  rw [hasked]
  exact hprogress.calls

/-! ## What is asked of a target -/

/-- A recording target has the primitives of the items in its record. -/
theorem perform_traced {σ : Type} (backend : Backend σ) (items : List Item)
    (e : Emission (Traced σ)) :
    (items.forM (perform backend.traced)).Ensures e
      (fun _ t => t.own.commands = e.own.commands ++ (requests items).map .primitive)
      fun _ _ => True := by
  let inv (l : List Item) (t : Emission (Traced σ)) : Prop :=
    t.own.commands ++ (requests l).map .primitive =
      e.own.commands ++ (requests items).map .primitive
  refine (Action.ensures_forM inv ?_ items e rfl).mono ?_ fun _ _ h => h
  · intro item l t ht
    cases item with
    | note event => exact ht
    | request p =>
      refine (Emit.record_ensures (.primitive p) (backend.emit p) t).mono ?_ fun _ _ _ => trivial
      intro _ t' hcommands
      show t'.own.commands ++ _ = _
      rw [hcommands, ← ht]
      simp [requests]
  · intro _ t ht
    exact (List.append_nil _).symm.trans ht

/-- A completed chain has asked a recording target for the primitives of its script. -/
theorem emit_traced {σ : Type} (backend : Backend σ) (params : Parameters) (targets : Targets)
    (nodes : List Node) (e : Emission (Traced σ)) :
    (emit backend.traced params targets nodes).Ensures e
      (fun summary t => (script params targets nodes).1 = .ok summary ∧
        t.own.commands = e.own.commands ++
          (requests (script params targets nodes).2.toList).map .primitive)
      fun _ _ => True := by
  refine Action.ensures_bind.2 ((perform_traced backend _ e).mono ?_ fun _ _ h => h)
  intro _ t ht
  exact Action.ensures_ofExcept.2 ⟨fun _ hsummary => ⟨hsummary, ht⟩, fun _ _ => trivial⟩

/-- A chain that a target writes has a script, and a recording target in its place has the primitives
of the script in its record. -/
theorem script_of_emit {σ : Type} {backend : Backend σ} {params : Parameters} {targets : Targets}
    {nodes : List Node} {e t : Emission σ} {summary : Summary}
    (h : (emit backend params targets nodes).result e = (.ok summary, t)) :
    (script params targets nodes).1 = .ok summary ∧
      (emit backend.traced params targets nodes).result (e.traced []) = (.ok summary,
        t.traced ((requests (script params targets nodes).2.toList).map .primitive)) := by
  have hfollows := emit_follows backend params targets nodes (e.traced [])
  rw [show (e.traced []).untraced = e from rfl, h] at hfollows
  rcases hr : (emit backend.traced params targets nodes).result (e.traced []) with ⟨result, t'⟩
  rw [hr] at hfollows
  cases hfollows
  obtain ⟨hscript, hcommands⟩ := (emit_traced backend params targets nodes (e.traced [])).of_ok hr
  replace hcommands : t'.own.commands =
    (requests (script params targets nodes).2.toList).map .primitive := hcommands
  rw [← hcommands]
  exact ⟨hscript, rfl⟩

/-- A decomposition of a supported transform is regular. -/
theorem isRegular_decompose {size leaf : Nat} (h : Transform.isSupported size leaf = .ok true)
    (s : Scratch.Session) :
    (Scratch.Session.decompose size leaf).Ensures s (fun slots _ => IsRegular leaf slots.toList)
      fun _ _ => True := by
  obtain ⟨a, b, rfl, rfl, hb, hba, ha⟩ := Transform.isSupported_iff.1 h
  have hsize : 2 ^ a ≤ 2 ^ 26 := Nat.pow_le_pow_right (by decide) ha
  refine (Scratch.Session.decompose_ensures (2 ^ b) (by omega) s).mono ?_ fun _ _ _ => trivial
  rintro slots _ ⟨hslots, -⟩
  have hvisited : beforeSentinel slots.toList = Decomposition.postOrder (2 ^ b) (2 ^ a) 0 := by
    rw [hslots, beforeSentinel_postOrder]
  constructor
  · intro node hnode
    rw [hvisited] at hnode
    obtain ⟨k, hk, hn⟩ := Decomposition.size_eq_two_pow (.inl rfl) hnode
    exact ⟨k, by omega, hn⟩
  · intro node hnode
    rw [hvisited] at hnode
    exact (Decomposition.mem_postOrder hnode).1
  · intro node hnode
    rw [hvisited] at hnode
    exact Decomposition.head_postOrder hnode

/-- What a completed chain has asked of a recording target makes the calls that its nodes need. -/
theorem emit_traced_ensures {σ : Type} (backend : Backend σ) {params : Parameters}
    (targets : Targets) {nodes : List Node} {start : Bank} (hnodes : IsRegular params.leaf nodes)
    (houtput : start .output = 0) (hlut : start .lut = 0) (e : Emission (Traced σ)) :
    (emit backend.traced params targets nodes).Ensures e
      (fun _ t => ∃ asked : List Primitive,
        t.own.commands = e.own.commands ++ asked.map .primitive ∧
        List.Forall₂ (Serves params targets) (beforeSentinel nodes) (run ⟨start, []⟩ asked).calls)
      fun _ _ => True := by
  refine (emit_traced backend params targets nodes e).mono ?_ fun _ _ h => h
  rintro summary t ⟨hscript, hcommands⟩
  exact ⟨_, hcommands, calls_of_script hnodes houtput hlut hscript⟩

/-- A chain that a target writes makes one call for each node, in the order of the list and with the
size, the output position and the twiddle position of the node in the registers. The lists that
decompositions give are such lists. -/
theorem chain_calls_serve_nodes {σ : Type} (backend : Backend σ) (params : Parameters)
    (targets : Targets) (hsupported : Transform.isSupported params.size params.leaf = .ok true) :
    (∀ (nodes : List Node) (start : Bank) (e t : Emission σ) (summary : Summary),
      IsRegular params.leaf nodes → start .output = 0 → start .lut = 0 →
      (emit backend params targets nodes).result e = (.ok summary, t) →
        ∃ asked : List Primitive,
          (emit backend.traced params targets nodes).result (e.traced []) =
            (.ok summary, t.traced (asked.map .primitive)) ∧
          List.Forall₂ (Serves params targets) (beforeSentinel nodes)
            (run ⟨start, []⟩ asked).calls) ∧
    ∀ (s t : Scratch.Session) (slots : Array Node),
      (Scratch.Session.decompose params.size params.leaf).result s = (.ok slots, t) →
        IsRegular params.leaf slots.toList := by
  refine ⟨?_, fun s t slots h => (isRegular_decompose hsupported s).of_ok h⟩
  intro nodes start e t summary hnodes houtput hlut h
  have hfollows := emit_follows backend params targets nodes (e.traced [])
  rw [show (e.traced []).untraced = e from rfl, h] at hfollows
  rcases hr : (emit backend.traced params targets nodes).result (e.traced []) with ⟨result, t'⟩
  rw [hr] at hfollows
  cases hfollows
  obtain ⟨asked, hasked, hcalls⟩ :=
    (emit_traced_ensures backend targets hnodes houtput hlut (e.traced [])).of_ok hr
  refine ⟨asked, ?_, hcalls⟩
  have hcommands : asked.map .primitive = t'.own.commands := hasked.symm
  rw [hcommands]
  rfl

/-- The chain of a transform of 64 elements with leaves of 8, written by the recording target. -/
theorem chain_calls_serve_nodes_of_64 :
    let params : Parameters := ⟨64, 8, .ofLeaves 8, Transform.referenceTable 8 3⟩
    let targets : Targets := ⟨4096, 4112⟩
    let nodes : List Node := [⟨16, 0⟩, ⟨16, 32⟩, ⟨16, 48⟩, ⟨64, 0⟩, .sentinel]
    let e : Emission Recorder := { buffer := .holding 4096 256 [], own := {} }
    let t := ((emit (Recorder.backend {}) params targets nodes).result e).2
    Transform.isSupported params.size params.leaf = .ok true ∧ IsRegular params.leaf nodes ∧
    (emit (Recorder.backend {}) params targets nodes).result e = (.ok ⟨4, 6, 5⟩, t) ∧
    ∃ asked : List Primitive,
      (emit (Recorder.backend {}).traced params targets nodes).result (e.traced []) =
        (.ok ⟨4, 6, 5⟩, t.traced (asked.map .primitive)) ∧
      List.Forall₂ (Serves params targets) (beforeSentinel nodes)
        (run ⟨fun _ => 0, []⟩ asked).calls := by
  intro params targets nodes e t
  have hsupported : Transform.isSupported params.size params.leaf = .ok true := by decide +kernel
  have hregular : IsRegular params.leaf nodes := by
    refine ⟨by decide +kernel, by decide +kernel, ?_⟩
    rintro node ⟨⟩
    rfl
  have hresult : (emit (Recorder.backend {}) params targets nodes).result e = (.ok ⟨4, 6, 5⟩, t) :=
    Prod.ext (by decide +kernel) rfl
  exact ⟨hsupported, hregular, hresult,
    (chain_calls_serve_nodes (Recorder.backend {}) params targets hsupported).1 nodes (fun _ => 0) e t
      ⟨4, 6, 5⟩ hregular rfl rfl hresult⟩

end SplitRadix.CallChain
