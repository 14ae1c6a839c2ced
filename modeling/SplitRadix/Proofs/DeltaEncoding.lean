import SplitRadix.Proofs.CallRegisters
import SplitRadix.Proofs.Requests

/-!
# Chains change only what differs

Between the calls for two nodes a chain moves the output position, shifts the size and moves the
twiddle position, in this order and each of them exactly if it is not what it was. Only the first
node has its size loaded. The summary of a chain counts the changes it asked for and those it could
leave out, three a node but for the output position of the first.

* `Update`, `Between`: what stands between two calls.
* `Encodes`: the primitives of a chain.
* `Draft.Encoded.visit`: one visit adds what its node needs.
* `chain_updates_minimal`: a completed chain.
-/

namespace SplitRadix

namespace Target.Primitive

/-- The primitives that set or change a register. -/
def isUpdate : Primitive → Bool
  | .load .. | .add .. | .shift .. => true
  | .prologue | .epilogue | .call _ => false

def isLoad : Primitive → Bool
  | .load .. => true
  | _ => false

end Target.Primitive

/-- A chain can call a base case for the node: its size is a power of two above the leaf size, and its
offset is a word. -/
structure Node.IsCallable (leaf : Nat) (node : Node) : Prop where
  size_eq : ∃ k ≤ 26, node.size = 2 ^ k
  leaf_lt : leaf < node.size
  offset_lt : node.offset < 2 ^ 64

namespace CallChain

open Target
open Transform (Parameters)

variable {params : Parameters} {targets : Targets}

/-! ## What a chain should ask for -/

/-- One primitive, with a number other than zero, where two values differ, and none where they are
equal. -/
inductive Update (primitive : Int → Primitive) (old new : Nat) : List Primitive → Prop where
  | kept (h : old = new) : Update primitive old new []
  | changed {amount : Int} (h : old ≠ new) (hne : amount ≠ 0) :
    Update primitive old new [primitive amount]

/-- The primitives between the calls for `a` and for `b`. -/
inductive Between (params : Parameters) (a b : Node) : List Primitive → Prop where
  | intro {old new : Nat} {output size lut : List Primitive}
    (hold : params.displacement a.size = .ok (some old))
    (hnew : params.displacement b.size = .ok (some new))
    (houtput : Update (.add .output) a.offset b.offset output)
    (hsize : Update (.shift .size) a.size b.size size)
    (hlut : Update (.add .lut) old new lut) :
    Between params a b (output ++ size ++ lut)

/-- The primitives of a chain for a list of nodes. The twiddle position starts at zero. -/
inductive Encodes (params : Parameters) (targets : Targets) :
    List Node → List Primitive → Prop where
  | nil : Encodes params targets [] []
  | first {node : Node} {start : Nat} {lut : List Primitive}
    (hstart : params.displacement node.size = .ok (some start))
    (hlut : Update (.add .lut) 0 start lut) :
    Encodes params targets [node] ([.load .size (UInt32.ofNat node.size)] ++ lut ++
      [.call (baseCase params.leaf targets node)])
  | next {earlier : List Node} {before node : Node} {asked between : List Primitive}
    (h : Encodes params targets (earlier ++ [before]) asked)
    (hbetween : Between params before node between) :
    Encodes params targets (earlier ++ [before] ++ [node])
      (asked ++ between ++ [.call (baseCase params.leaf targets node)])

/-- An addition or a shift that makes a difference. -/
inductive IsEffective : Primitive → Prop where
  | add (role : Role) {delta : Int} (h : delta ≠ 0) : IsEffective (.add role delta)
  | shift (role : Role) {amount : Int} (h : amount ≠ 0) : IsEffective (.shift role amount)

theorem IsEffective.ne_zero {p : Primitive} {role : Role} {amount : Int} (h : IsEffective p)
    (hkind : p = .add role amount ∨ p = .shift role amount) : amount ≠ 0 := by
  rcases hkind with rfl | rfl <;> cases h <;> assumption

theorem Update.effective {primitive : Int → Primitive} {old new : Nat} {l : List Primitive}
    (h : Update primitive old new l) (hne : ∀ amount, amount ≠ 0 → IsEffective (primitive amount)) :
    ∀ p ∈ l, IsEffective p := by
  cases h with
  | kept _ => exact nofun
  | changed _ hamount =>
    intro p hp
    cases List.mem_singleton.1 hp
    exact hne _ hamount

theorem Between.effective {a b : Node} {l : List Primitive} (h : Between params a b l) :
    ∀ p ∈ l, IsEffective p := by
  cases h with
  | intro _ _ houtput hsize hlut =>
    intro p hp
    simp only [List.mem_append] at hp
    rcases hp with (hp | hp) | hp
    · exact houtput.effective (fun _ => .add _) p hp
    · exact hsize.effective (fun _ => .shift _) p hp
    · exact hlut.effective (fun _ => .add _) p hp

/-- Effective primitives are updates, and neither loads nor calls. -/
theorem filter_effective {l : List Primitive} (h : ∀ p ∈ l, IsEffective p) :
    l.filter Primitive.isLoad = [] ∧ l.filterMap callTarget? = [] ∧
      l.filter Primitive.isUpdate = l := by
  refine ⟨List.filter_eq_nil_iff.2 fun p hp => ?_, List.filterMap_eq_nil_iff.2 fun p hp => ?_,
    List.filter_eq_self.2 fun p hp => ?_⟩
  · cases h p hp <;> exact Bool.false_ne_true
  · cases h p hp <;> rfl
  · cases h p hp <;> rfl

namespace Encodes

variable {visited : List Node} {asked : List Primitive}

theorem eq_nil (h : Encodes params targets visited asked) (hnone : visited = []) : asked = [] := by
  cases h with
  | nil => rfl
  | first _ _ => cases hnone
  | next _ _ => simp at hnone

/-- The size of the first node is loaded, and nothing else. -/
theorem loads (h : Encodes params targets visited asked) : asked.filter Primitive.isLoad =
    (visited.head?.map fun node => .load .size (UInt32.ofNat node.size)).toList := by
  induction h with
  | nil => rfl
  | first _ hlut =>
    have hquiet := (filter_effective (hlut.effective fun _ => .add _)).1
    rw [List.filter_append, List.filter_append, hquiet]
    rfl
  | next _ hbetween ih =>
    have hquiet := (filter_effective hbetween.effective).1
    rw [List.filter_append, List.filter_append, hquiet, ih]
    simp [Primitive.isLoad]

/-- There is one call for each node, in the order of the nodes. -/
theorem calls (h : Encodes params targets visited asked) :
    asked.filterMap callTarget? = visited.map (baseCase params.leaf targets) := by
  induction h with
  | nil => rfl
  | first _ hlut =>
    have hquiet := (filter_effective (hlut.effective fun _ => .add _)).2.1
    rw [List.filterMap_append, List.filterMap_append, hquiet]
    rfl
  | next _ hbetween ih =>
    have hquiet := (filter_effective hbetween.effective).2.1
    rw [List.filterMap_append, List.filterMap_append, hquiet, ih, List.append_nil]
    simp [callTarget?]

/-- All primitives but the calls are updates. -/
theorem length_updates (h : Encodes params targets visited asked) :
    (asked.filter Primitive.isUpdate).length + visited.length = asked.length := by
  have hload : ∀ value, [Primitive.load .size value].filter Primitive.isUpdate =
      [.load .size value] := fun _ => rfl
  have hcall : ∀ target, [Primitive.call target].filter Primitive.isUpdate = [] := fun _ => rfl
  induction h with
  | nil => rfl
  | first _ hlut =>
    have hall := (filter_effective (hlut.effective fun _ => .add _)).2.2
    simp only [List.filter_append, List.length_append, hall, hload, hcall, List.length_singleton,
      List.length_nil]
  | next _ hbetween ih =>
    have hall := (filter_effective hbetween.effective).2.2
    simp only [List.filter_append, List.length_append, hall, hcall, List.length_singleton,
      List.length_nil] at ih ⊢
    omega

/-- No addition and no shift is by zero. -/
theorem ne_zero (h : Encodes params targets visited asked) {p : Primitive} (hp : p ∈ asked)
    {role : Role} {amount : Int} (hkind : p = .add role amount ∨ p = .shift role amount) :
    amount ≠ 0 := by
  induction h with
  | nil => cases hp
  | first _ hlut =>
    simp only [List.mem_append, List.mem_singleton] at hp
    rcases hp with (rfl | hp) | rfl
    · rcases hkind with hkind | hkind <;> cases hkind
    · exact (hlut.effective (fun _ => .add _) p hp).ne_zero hkind
    · rcases hkind with hkind | hkind <;> cases hkind
  | next _ hbetween ih =>
    simp only [List.mem_append, List.mem_singleton] at hp
    rcases hp with (hp | hp) | rfl
    · exact ih hp
    · exact (hbetween.effective p hp).ne_zero hkind
    · rcases hkind with hkind | hkind <;> cases hkind

end Encodes

/-! ## One visit -/

theorem outputDelta_eq_zero {r : Registers} {node : Node} (hr : r.offset < 2 ^ 64)
    (hnode : node.offset < 2 ^ 64) : outputDelta r node = 0 ↔ r.offset = node.offset := by
  have hsame := Word.toSigned_inj hr hnode
  unfold outputDelta
  omega

theorem lutDelta_eq_zero {r : Registers} {lut : Nat} (hr : r.lut < 2 ^ 64) (hlut : lut < 2 ^ 64) :
    lutDelta r lut = 0 ↔ r.lut = lut := by
  have hsame := Word.toSigned_inj hr hlut
  unfold lutDelta
  omega

theorem update_addition {role : Role} {delta : Int} {old new : Nat} (h : delta = 0 ↔ old = new) :
    Update (.add role) old new (addition role delta).toList := by
  unfold addition
  split
  · rename_i h0
    exact .kept (h.1 h0)
  · rename_i hne
    exact .changed (fun heq => hne (h.2 heq)) hne

/-- Two powers of two differ by a shift other than zero, or not at all. -/
theorem update_resizing {leaf j k : Nat} {r : Registers} {node : Node} (hr : r.size = 2 ^ j)
    (hn : node.size = 2 ^ k) (hleaf : leaf < node.size) :
    Update (.shift .size) r.size node.size (resizing leaf r node).toList := by
  unfold resizing
  split
  · rename_i hne
    refine .changed (Ne.symm hne.2) fun hzero => hne.2 ?_
    rw [sizeDelta, hn, hr, Word.trailingZeros_two_pow, Word.trailingZeros_two_pow] at hzero
    rw [hn, hr, show k = j by omega]
  · rename_i hsame
    refine .kept (Decidable.byContradiction fun hne => hsame ⟨hleaf, Ne.symm hne⟩)

/-- The first node has its size loaded. -/
theorem filterMap_changes_first (leaf : Nat) (node : Node) (lut : Nat) :
    (changes leaf {} node lut).filterMap id =
      [.load .size (Word.low32OfInt (Word.toSigned node.size))] ++
        (addition .lut (lutDelta {} lut)).toList := by
  unfold changes
  rw [if_pos rfl]
  cases addition .lut (lutDelta {} lut) <;> rfl

theorem filterMap_changes_next {r : Registers} (h : r.size ≠ 0) (leaf : Nat) (node : Node)
    (lut : Nat) :
    (changes leaf r node lut).filterMap id =
      (addition .output (outputDelta r node)).toList ++ (resizing leaf r node).toList ++
        (addition .lut (lutDelta r lut)).toList := by
  unfold changes
  rw [if_neg h]
  cases addition .output (outputDelta r node) <;> cases resizing leaf r node <;>
    cases addition .lut (lutDelta r lut) <;> rfl

/-- The registers are those at the call for the last node, or those of the start. -/
def Registers.AtLast (params : Parameters) (r : Registers) (visited : List Node) : Prop :=
  match visited.getLast? with
  | none => r = {}
  | some node => r.offset = node.offset ∧ r.size = node.size ∧
    params.displacement node.size = .ok (some r.lut)

/-- A draft asks for what the visited nodes need, and its summary says how much that is. -/
structure Draft.Encoded (params : Parameters) (targets : Targets) (visited : List Node)
    (d : Draft) : Prop where
  encodes : Encodes params targets visited d.requests
  registers : d.registers.AtLast params visited
  counts : d.Counts visited.length
  tally : d.requests.length = d.summary.updates + d.summary.callSites

theorem Draft.tally_foldl_change (l : List (Option Primitive)) {d : Draft}
    (h : d.requests.length = d.summary.updates + d.summary.callSites) :
    (l.foldl change d).requests.length =
      (l.foldl change d).summary.updates + (l.foldl change d).summary.callSites := by
  induction l generalizing d with
  | nil => exact h
  | cons c l ih =>
    refine ih ?_
    rw [requests_change, List.length_append, h]
    cases c with
    | none => rfl
    | some p =>
      show _ + 1 = d.summary.updates + 1 + d.summary.callSites
      omega

/-- One visit adds what stands between the last node and the next one, and the call. -/
theorem Draft.Encoded.visit {visited : List Node} {node : Node} {d t : Draft}
    (h : d.Encoded params targets visited)
    (hcallable : ∀ m ∈ visited ++ [node], m.IsCallable params.leaf)
    (ht : Visited params targets node d t) : t.Encoded params targets (visited ++ [node]) := by
  have hnode := hcallable node (by simp)
  obtain ⟨k, hk, hsize⟩ := hnode.size_eq
  have hsmall : node.size < 2 ^ 63 := by
    rw [hsize]
    exact Nat.pow_lt_pow_right (by decide) (by omega)
  have hcounts := h.counts.visit hnode.leaf_lt ht
  obtain ⟨lut, hlut, -, rfl⟩ := ht
  have hregisters := Draft.registers_foldl_change (changes params.leaf d.registers node lut) d
  refine ⟨?_, ?_, by rwa [List.length_append], ?_⟩
  · rw [requests_call, requests_foldl_change]
    have hlast := h.registers
    rcases List.eq_nil_or_concat' visited with rfl | ⟨earlier, before, rfl⟩
    · replace hlast : d.registers = {} := hlast
      rw [h.encodes.eq_nil rfl, hlast, filterMap_changes_first, Word.low32OfInt_toSigned hsmall,
        List.nil_append]
      exact .first hlut (update_addition (lutDelta_eq_zero (by decide) (displacement_lt hlut)))
    · rw [Registers.AtLast, List.getLast?_concat] at hlast
      obtain ⟨hoffset, hbefore, hold⟩ := hlast
      have hcalled := hcallable before (by simp)
      obtain ⟨j, -, hpow⟩ := hcalled.size_eq
      have hloaded : d.registers.size ≠ 0 := by
        have := hcalled.leaf_lt
        omega
      have hplace : d.registers.offset < 2 ^ 64 := hoffset ▸ hcalled.offset_lt
      have houtput := outputDelta_eq_zero hplace hnode.offset_lt
      have htwiddles := lutDelta_eq_zero (displacement_lt hold) (displacement_lt hlut)
      have hshift := update_resizing (hbefore.trans hpow) hsize hnode.leaf_lt
      rw [hoffset] at houtput
      rw [hbefore] at hshift
      rw [filterMap_changes_next hloaded]
      exact .next h.encodes
        (.intro hold hlut (update_addition houtput) hshift (update_addition htwiddles))
  · show (Registers.atCall _ params.leaf node lut).AtLast params _
    rw [hregisters, Registers.AtLast, List.getLast?_concat]
    exact ⟨rfl, if_pos hnode.leaf_lt, hlut⟩
  · have htally := tally_foldl_change (changes params.leaf d.registers node lut) h.tally
    rw [requests_call, List.length_append, htally]
    rfl

/-! ## The whole chain -/

/-- A chain that a target writes asks for one load, of the size of the first node, and for one call for
each node. Between two calls it moves the output position, shifts the size and moves the twiddle
position, in this order and each exactly if it differs. No addition and no shift is by zero. The
summary counts the calls, the loads, additions and shifts, and what was left out of three changes a
node. -/
theorem chain_updates_minimal {σ : Type} (backend : Backend σ) (params : Parameters)
    (targets : Targets) (nodes : List Node) (e t : Emission σ) (summary : Summary)
    (hnodes : ∀ node ∈ beforeSentinel nodes, node.IsCallable params.leaf)
    (h : (emit backend params targets nodes).result e = (.ok summary, t)) :
    let visited := beforeSentinel nodes
    ∃ asked : List Primitive,
      (emit backend.traced params targets nodes).result (e.traced []) =
        (.ok summary, t.traced (asked.map .primitive)) ∧
      Encodes params targets visited asked ∧
      asked.filter Primitive.isLoad =
        (visited.head?.map fun node => .load .size (UInt32.ofNat node.size)).toList ∧
      asked.filterMap callTarget? = visited.map (baseCase params.leaf targets) ∧
      (∀ role amount, .add role amount ∈ asked ∨ .shift role amount ∈ asked → amount ≠ 0) ∧
      summary.callSites = visited.length ∧
      summary.updates = (asked.filter Primitive.isUpdate).length ∧
      summary.updates + summary.elided =
        if visited.length = 0 then 0 else 3 * visited.length - 1 := by
  intro visited
  obtain ⟨hscript, htraced⟩ := script_of_emit h
  have hstart : Draft.Encoded params targets [] {} := ⟨.nil, rfl, ⟨rfl, rfl, by simp⟩, rfl⟩
  have hvisit : ∀ earlier node d t, earlier ++ [node] <+: beforeSentinel nodes →
      d.Encoded params targets earlier → Visited params targets node d t →
      t.Encoded params targets (earlier ++ [node]) := by
    intro earlier node d t hfront hd ht
    exact hd.visit (fun m hm => hnodes m (hfront.mem hm)) ht
  obtain ⟨d, hencoded, rfl, hasked⟩ := script_induction hstart hvisit hscript
  rw [hasked] at htraced
  have hcalls := hencoded.counts.callSites
  have hchanges := hencoded.counts.changes
  have htally := hencoded.tally
  have hupdates := hencoded.encodes.length_updates
  refine ⟨d.requests, htraced, hencoded.encodes, hencoded.encodes.loads, hencoded.encodes.calls,
    ?_, hcalls, ?_, ?_⟩
  · rintro role amount (hmem | hmem)
    · exact hencoded.encodes.ne_zero hmem (.inl rfl)
    · exact hencoded.encodes.ne_zero hmem (.inr rfl)
  · omega
  · show _ = if (beforeSentinel nodes).length = 0 then 0 else 3 * (beforeSentinel nodes).length - 1
    split <;> omega

/-- A chain in which every kind of update is made and left out, with more after its sentinel. -/
theorem chain_updates_minimal_of_four :
    let params : Parameters := ⟨64, 8, .ofLeaves 8, Transform.referenceTable 8 3⟩
    let targets : Targets := ⟨4096, 4112⟩
    let nodes : List Node := [⟨16, 5⟩, ⟨16, 5⟩, ⟨32, 5⟩, ⟨16, 2 ^ 20⟩, .sentinel, ⟨7, 0⟩]
    let e : Emission Recorder := { buffer := .holding 4096 256 [], own := {} }
    let t := ((emit (Recorder.backend {}) params targets nodes).result e).2
    (∀ node ∈ beforeSentinel nodes, node.IsCallable params.leaf) ∧
    (emit (Recorder.backend {}) params targets nodes).result e = (.ok ⟨4, 6, 5⟩, t) ∧
    ∃ asked : List Primitive,
      (emit (Recorder.backend {}).traced params targets nodes).result (e.traced []) =
        (.ok ⟨4, 6, 5⟩, t.traced (asked.map .primitive)) ∧
      Encodes params targets [⟨16, 5⟩, ⟨16, 5⟩, ⟨32, 5⟩, ⟨16, 2 ^ 20⟩] asked ∧
      asked.filter Primitive.isLoad = [.load .size 16] ∧
      asked.filterMap callTarget? = [4096, 4096, 4112, 4096] ∧
      (asked.filter Primitive.isUpdate).length = 6 := by
  intro params targets nodes e t
  have hnodes : ∀ node ∈ beforeSentinel nodes, node.IsCallable params.leaf := by
    intro node hnode
    have hsmall : (∃ k ≤ 26, node.size = 2 ^ k) ∧ 8 < node.size ∧ node.offset < 2 ^ 64 := by
      revert node
      decide +kernel
    exact ⟨hsmall.1, hsmall.2.1, hsmall.2.2⟩
  have hresult : (emit (Recorder.backend {}) params targets nodes).result e = (.ok ⟨4, 6, 5⟩, t) :=
    Prod.ext (by decide +kernel) rfl
  obtain ⟨asked, htraced, hencodes, hloads, hcalls, -, -, hupdates, -⟩ :=
    chain_updates_minimal (Recorder.backend {}) params targets nodes e t ⟨4, 6, 5⟩ hnodes hresult
  exact ⟨hnodes, hresult, asked, htraced, hencodes, hloads, hcalls, hupdates.symm⟩

end CallChain

end SplitRadix
