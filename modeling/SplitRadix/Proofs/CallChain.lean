import SplitRadix.Proofs.Decomposition
import SplitRadix.Proofs.Ensures
import SplitRadix.Proofs.Transform
import SplitRadix.Routine.CallChain

/-!
# What a chain asks for

For every node a chain changes the registers it has to, one primitive for each, and then calls. The
list of changes of a node, with `none` for a register that is left alone, says all that one visit
does, also when it cannot be completed.

* `changes`: the changes for one node.
* `visit_ensures`: a visit makes the changes of its node and calls, or stops after some of them
  for one of three reasons.
* `visits_ensures`: what holds of every visit, along a whole chain.
* `script_induction`: what holds at the end of a completed chain.
* `script_counts`: how many calls and changes a completed chain has.
-/

namespace SplitRadix.CallChain

open Target
open Transform (Parameters)

/-- The numbers that fit a signed 32-bit field. -/
def IsImmediate (value : Int) : Prop := -(2 ^ 31) ≤ value ∧ value < 2 ^ 31

instance (value : Int) : Decidable (IsImmediate value) :=
  inferInstanceAs (Decidable (_ ∧ _))

/-- How far the output register moves, in bytes. -/
def outputDelta (before : Registers) (node : Node) : Int :=
  8 * (Word.toSigned node.offset - Word.toSigned before.offset)

/-- How far the twiddle register moves, in bytes. -/
def lutDelta (before : Registers) (lut : Nat) : Int :=
  Word.toSigned lut - Word.toSigned before.lut

/-- How far the size register is shifted to the left. -/
def sizeDelta (before : Registers) (node : Node) : Int :=
  (Word.trailingZeros node.size : Int) - (Word.trailingZeros before.size : Int)

def addition (role : Role) (delta : Int) : Option Primitive :=
  if delta = 0 then none else some (.add role delta)

def resizing (leaf : Nat) (before : Registers) (node : Node) : Option Primitive :=
  if leaf < node.size ∧ node.size ≠ before.size then some (.shift .size (sizeDelta before node))
  else none

/-- The changes that bring the registers from `before` to what a call for `node` needs. The first
node of a chain has its size loaded, and its output position is taken to be the right one. -/
def changes (leaf : Nat) (before : Registers) (node : Node) (lut : Nat) : List (Option Primitive) :=
  (if before.size = 0 then [some (.load .size (Word.low32OfInt (Word.toSigned node.size)))]
   else [addition .output (outputDelta before node), resizing leaf before node]) ++
  [addition .lut (lutDelta before lut)]

/-- Whether the numbers of all changes fit their fields. -/
def Fits (before : Registers) (node : Node) (lut : Nat) : Prop :=
  (if before.size = 0 then IsImmediate (Word.toSigned node.size)
   else IsImmediate (outputDelta before node)) ∧
  IsImmediate (lutDelta before lut)

/-- The base case that computes a node. -/
def baseCase (leaf : Nat) (targets : Targets) (node : Node) : Nat :=
  if node.size = 2 * leaf then targets.x4 else targets.x8

/-- The registers at the call for a node. -/
def Registers.atCall (before : Registers) (leaf : Nat) (node : Node) (lut : Nat) : Registers :=
  { offset := node.offset
    size := if leaf < node.size then node.size else before.size
    lut }

namespace Draft

/-- Make one change, or count it as left out. -/
def change (d : Draft) : Option Primitive → Draft
  | none => { d with summary := { d.summary with elided := d.summary.elided + 1 } }
  | some primitive => { d with
    items := d.items.push (.request primitive)
    summary := { d.summary with updates := d.summary.updates + 1 } }

/-- Call the base case of a node. -/
def call (d : Draft) (leaf : Nat) (targets : Targets) (node : Node) (lut : Nat) : Draft :=
  { items := (d.items.push (.note (.callSite d.summary.callSites node lut
      (baseCase leaf targets node)))).push (.request (.call (baseCase leaf targets node)))
    summary := { d.summary with callSites := d.summary.callSites + 1 }
    registers := d.registers.atCall leaf node lut }

@[simp] theorem change_registers (d : Draft) (c : Option Primitive) :
    (d.change c).registers = d.registers := by
  cases c <;> rfl

end Draft

/-! ## One visit -/

/-- All changes of the node fit and were made, and its base case is called. -/
def Visited (params : Parameters) (targets : Targets) (node : Node) (d t : Draft) : Prop :=
  ∃ lut, params.displacement node.size = .ok (some lut) ∧ Fits d.registers node lut ∧
    t = ((changes params.leaf d.registers node lut).foldl Draft.change d).call params.leaf
      targets node lut

/-- Why the visit of a node stops, and what was done by then. -/
inductive Interrupted (params : Parameters) (node : Node) (d : Draft) :
    Failure GenerateError → Draft → Prop where
  | outOfWord {x : Fault} (h : params.displacement node.size = .error x) :
    Interrupted params node d (.fault x) d
  | noEntry (h : params.displacement node.size = .ok none) :
    Interrupted params node d (.error (.planMismatch (.noTableEntry node.size))) d
  | unfit {lut : Nat} {f : Failure GenerateError} {made : List (Option Primitive)}
    (h : params.displacement node.size = .ok (some lut)) (hfit : ¬ Fits d.registers node lut)
    (hf : (∃ x, f = .fault x) ∨ ∃ cause, f = .error (.encoding cause))
    (hmade : made <+: changes params.leaf d.registers node lut) :
    Interrupted params node d f (made.foldl Draft.change d)

theorem immediate_eq_ok {operation : String} {value v : Int}
    (h : immediate operation value = .ok v) : v = value ∧ IsImmediate value := by
  unfold immediate at h
  split at h
  · rename_i hv
    cases h
    exact ⟨rfl, hv⟩
  · cases h

theorem immediate_eq_error {operation : String} {value : Int} {f : Failure GenerateError}
    (h : immediate operation value = .error f) :
    ¬ IsImmediate value ∧ ∃ cause, f = .error (.encoding cause) := by
  unfold immediate at h
  split at h
  · cases h
  · rename_i hv
    cases h
    exact ⟨hv, _, rfl⟩

theorem adjust_ensures (role : Role) (delta : Int) (d : Draft) :
    (adjust role delta).Ensures d
      (fun _ t => t = d.change (addition role delta) ∧ IsImmediate delta)
      fun f t => t = d ∧ ¬ IsImmediate delta ∧ ∃ cause, f = .error (.encoding cause) := by
  unfold adjust addition
  split
  · rename_i h0
    exact ⟨rfl, by unfold IsImmediate; omega⟩
  · rw [Action.ensures_bind, Action.ensures_ofExcept]
    refine ⟨fun v hv => ?_, fun f hf => ⟨rfl, immediate_eq_error hf⟩⟩
    obtain ⟨rfl, hi⟩ := immediate_eq_ok hv
    exact ⟨rfl, hi⟩

theorem resize_ensures (leaf : Nat) (before : Registers) (node : Node) (d : Draft)
    {fail : Failure GenerateError → Draft → Prop} :
    (resize leaf before.size node).Ensures d
      (fun _ t => t = d.change (resizing leaf before node)) fail := by
  unfold resize resizing
  split <;> exact rfl

theorem loadSize_ensures (node : Node) (d : Draft) :
    (loadSize node).Ensures d
      (fun _ t => t = d.change (some (.load .size (Word.low32OfInt (Word.toSigned node.size)))) ∧
        IsImmediate (Word.toSigned node.size))
      fun f t => t = d ∧ ¬ IsImmediate (Word.toSigned node.size) ∧
        ∃ cause, f = .error (.encoding cause) := by
  unfold loadSize
  rw [Action.ensures_bind, Action.ensures_ofExcept]
  refine ⟨fun v hv => ?_, fun f hf => ⟨rfl, immediate_eq_error hf⟩⟩
  obtain ⟨rfl, hi⟩ := immediate_eq_ok hv
  exact ⟨rfl, hi⟩

theorem eq_of_fitSigned {x : Fault} {n m : Int} (h : Word.fitSigned x n = .ok m) : m = n := by
  unfold Word.fitSigned at h
  split at h <;> cases h
  rfl

/-- A number that leaves its word does not fit a field either. -/
theorem not_isImmediate_of_fitSigned {x y : Fault} {n : Int}
    (h : Word.fitSigned x n = .error y) : ¬ IsImmediate n := by
  unfold Word.fitSigned at h
  unfold IsImmediate
  split at h
  · cases h
  · omega

section Visit

variable {params : Parameters} {targets : Targets} {node : Node} {d : Draft}

/-- The end of a visit, after the changes to the size and the output register. -/
theorem moveLut_ensures {lut : Nat} {made : List (Option Primitive)}
    (hd : params.displacement node.size = .ok (some lut))
    (hmade : changes params.leaf d.registers node lut =
      made ++ [addition .lut (lutDelta d.registers lut)])
    (hfirst : if d.registers.size = 0 then IsImmediate (Word.toSigned node.size)
      else IsImmediate (outputDelta d.registers node)) :
    Action.Ensures (do
        let delta ← liftM (Word.subSigned (Word.toSigned lut) (Word.toSigned d.registers.lut))
        adjust .lut delta
        callNode params.leaf targets node lut : Script Unit)
      (made.foldl Draft.change d) (fun _ => Visited params targets node d)
      (Interrupted params node d) := by
  have hprefix : made <+: changes params.leaf d.registers node lut := ⟨_, hmade.symm⟩
  simp only [Action.ensures_bind, Action.ensures_lift]
  refine ⟨fun delta hdelta => ?_, fun x hx => ?_⟩
  · cases eq_of_fitSigned hdelta
    refine (adjust_ensures _ _ _).mono ?_ ?_
    · rintro _ t ⟨rfl, hi⟩
      refine ⟨lut, hd, ⟨hfirst, hi⟩, ?_⟩
      rw [hmade, List.foldl_append]
      rfl
    · rintro f t ⟨rfl, hi, hf⟩
      exact .unfit hd (fun h => hi h.2) (.inr hf) hprefix
  · exact .unfit hd (fun h => not_isImmediate_of_fitSigned hx h.2) (.inl ⟨x, rfl⟩) hprefix

theorem visit_ensures :
    (visit params targets node).Ensures d (fun _ => Visited params targets node d)
      (Interrupted params node d) := by
  unfold visit
  simp only [Action.ensures_bind, Action.ensures_lift]
  refine ⟨fun found hd => ?_, fun x hx => .outOfWord hx⟩
  cases found with
  | none => exact .noEntry hd
  | some lut =>
    simp only [Action.ensures_bind, Action.ensures_get]
    split
    · rename_i h0
      rw [Action.ensures_bind]
      refine (loadSize_ensures node d).mono ?_ ?_
      · rintro _ t ⟨rfl, hi⟩
        exact @moveLut_ensures params targets node d lut [some _] hd (by rw [changes, if_pos h0])
          (by rw [if_pos h0]; exact hi)
      · rintro f t ⟨rfl, hi, hf⟩
        refine .unfit hd (fun h => hi ?_) (.inr hf) List.nil_prefix
        simpa [h0] using h.1
    · rename_i h0
      have unfit : ¬ IsImmediate (outputDelta d.registers node) →
          ¬ Fits d.registers node lut := fun hi h => hi (by simpa [h0] using h.1)
      simp only [Action.ensures_bind, Action.ensures_lift]
      refine ⟨fun distance hdist => ⟨fun delta hdelta => ?_, fun x hx => ?_⟩, fun x hx => ?_⟩
      · cases eq_of_fitSigned hdist
        cases eq_of_fitSigned hdelta
        refine (adjust_ensures _ _ _).mono ?_ ?_
        · rintro _ t ⟨rfl, hi⟩
          refine (resize_ensures params.leaf d.registers node _).mono ?_ fun _ _ h => h
          rintro _ t rfl
          have tail := @moveLut_ensures params targets node d lut [_, _] hd
            (by rw [changes, if_neg h0]) (by rw [if_neg h0]; exact hi)
          simp only [Action.ensures_bind, Action.ensures_lift] at tail
          exact tail
        · rintro f t ⟨rfl, hi, hf⟩
          exact .unfit hd (unfit hi) (.inr hf) List.nil_prefix
      · cases eq_of_fitSigned hdist
        exact .unfit hd (unfit (not_isImmediate_of_fitSigned hx)) (.inl ⟨x, rfl⟩) List.nil_prefix
      · have hi : ¬ IsImmediate (outputDelta d.registers node) := by
          have hi := not_isImmediate_of_fitSigned hx
          unfold IsImmediate outputDelta at *
          omega
        exact .unfit hd (unfit hi) (.inl ⟨x, rfl⟩) List.nil_prefix

end Visit

/-! ## The whole chain -/

/-- The primitives among the items of a chain. -/
def requests (items : List Item) : List Primitive :=
  items.filterMap fun
    | .request primitive => some primitive
    | .note _ => none

namespace Draft

def requests (d : Draft) : List Primitive := CallChain.requests d.items.toList

@[simp] theorem requests_change (d : Draft) (c : Option Primitive) :
    (d.change c).requests = d.requests ++ c.toList := by
  cases c <;> simp [change, requests, CallChain.requests]

@[simp] theorem requests_call (d : Draft) (leaf : Nat) (targets : Targets) (node : Node)
    (lut : Nat) :
    (d.call leaf targets node lut).requests =
      d.requests ++ [.call (baseCase leaf targets node)] := by
  simp [call, requests, CallChain.requests]

theorem requests_foldl_change (l : List (Option Primitive)) (d : Draft) :
    (l.foldl change d).requests = d.requests ++ l.filterMap id := by
  induction l generalizing d with
  | nil => simp
  | cons c l ih => cases c <;> simp [ih]

theorem registers_foldl_change (l : List (Option Primitive)) (d : Draft) :
    (l.foldl change d).registers = d.registers := by
  induction l generalizing d with
  | nil => rfl
  | cons c l ih => simp [ih]

/-- Every change is counted, made or left out. -/
theorem summary_foldl_change (l : List (Option Primitive)) (d : Draft) :
    (l.foldl change d).summary.callSites = d.summary.callSites ∧
      (l.foldl change d).summary.updates + (l.foldl change d).summary.elided =
        d.summary.updates + d.summary.elided + l.length := by
  induction l generalizing d with
  | nil => exact ⟨rfl, rfl⟩
  | cons c l ih =>
    obtain ⟨hcalls, hchanges⟩ := ih (d.change c)
    rw [List.foldl_cons, hcalls, hchanges, List.length_cons]
    cases c with
    | none =>
      refine ⟨rfl, ?_⟩
      show d.summary.updates + (d.summary.elided + 1) + l.length = _
      omega
    | some p =>
      refine ⟨rfl, ?_⟩
      show d.summary.updates + 1 + d.summary.elided + l.length = _
      omega

end Draft

/-- The first node has two changes, every other one three. -/
theorem length_changes (leaf : Nat) (before : Registers) (node : Node) (lut : Nat) :
    (changes leaf before node lut).length = if before.size = 0 then 2 else 3 := by
  unfold changes
  split <;> simp

theorem length_changes_le (leaf : Nat) (before : Registers) (node : Node) (lut : Nat) :
    (changes leaf before node lut).length ≤ 3 := by
  rw [length_changes]
  split <;> omega

/-- A draft that asks for at most `n` primitives, all of a given kind. -/
def Draft.Asks (kind : Primitive → Prop) (n : Nat) (d : Draft) : Prop :=
  (∀ p ∈ d.requests, kind p) ∧ d.requests.length ≤ n

theorem Draft.Asks.changes {kind : Primitive → Prop} {n : Nat} {d : Draft} (h : d.Asks kind n)
    {l : List (Option Primitive)} (hlen : l.length ≤ 3) (hl : ∀ p, some p ∈ l → kind p) :
    (l.foldl Draft.change d).Asks kind (n + 3) := by
  unfold Asks
  rw [requests_foldl_change]
  refine ⟨fun p hp => ?_, ?_⟩
  · rcases List.mem_append.1 hp with hp | hp
    · exact h.1 p hp
    · exact hl p (by simpa using hp)
  · have := List.length_filterMap_le id l
    have := h.2
    rw [List.length_append]
    omega

theorem Draft.Asks.call {kind : Primitive → Prop} {n : Nat} {d : Draft} (h : d.Asks kind n)
    {leaf : Nat} {targets : Targets} {node : Node} (lut : Nat)
    (hcall : kind (.call (baseCase leaf targets node))) :
    (d.call leaf targets node lut).Asks kind (n + 1) := by
  unfold Asks
  rw [requests_call]
  refine ⟨fun p hp => ?_, by simpa using h.2⟩
  rcases List.mem_append.1 hp with hp | hp
  · exact h.1 p hp
  · exact List.mem_singleton.1 hp ▸ hcall

/-- Along a chain: let `good` say what holds of the registers when a list of nodes is still to come.
If every visit keeps it and makes changes of a given kind, then the chain asks for nothing else, four
primitives a node at most, and it ends early only where a visit is interrupted. -/
theorem visits_ensures {params : Parameters} {targets : Targets} {nodes : List Node}
    {good : List Node → Registers → Prop} {kind : Primitive → Prop} (hstart : good nodes {})
    (hvisit : ∀ node ∈ nodes, ∀ l before, good (node :: l) before →
      ∀ lut, params.displacement node.size = .ok (some lut) →
        (Fits before node lut → good l (before.atCall params.leaf node lut)) ∧
          ∀ p, some p ∈ changes params.leaf before node lut → kind p)
    (hcall : ∀ node, kind (.call (baseCase params.leaf targets node))) :
    (nodes.forM (visit params targets)).Ensures {}
      (fun _ d => d.Asks kind (4 * nodes.length) ∧ good [] d.registers)
      fun f d => d.Asks kind (4 * nodes.length) ∧
        ∃ node ∈ nodes, ∃ l d t, good (node :: l) d.registers ∧ Interrupted params node d f t := by
  let inv (l : List Node) (d : Draft) : Prop :=
    good l d.registers ∧ (∀ node ∈ l, node ∈ nodes) ∧
      ∃ n, n + 4 * l.length ≤ 4 * nodes.length ∧ d.Asks kind n
  refine (Action.ensures_forM inv ?_ nodes {} ?_).mono ?_ fun _ _ h => h
  · rintro node l d ⟨hgood, hsub, n, hn, hasks⟩
    rw [List.length_cons] at hn
    have hmem := hsub node List.mem_cons_self
    refine visit_ensures.mono ?_ ?_
    · rintro _ t ⟨lut, hd, hfits, rfl⟩
      obtain ⟨hgood', hkind⟩ := hvisit node hmem l _ hgood lut hd
      refine ⟨?_, fun m hm => hsub m (List.mem_cons_of_mem _ hm), n + 4, by omega, ?_⟩
      · show good l (Registers.atCall _ params.leaf node lut)
        rw [Draft.registers_foldl_change]
        exact hgood' hfits
      · exact (hasks.changes (length_changes_le ..) hkind).call lut (hcall node)
    · intro f t hf
      refine ⟨?_, node, hmem, l, d, t, hgood, hf⟩
      have weaken : ∀ {t : Draft} {m : Nat}, t.Asks kind m → m ≤ n + 4 →
          t.Asks kind (4 * nodes.length) := fun h hm => ⟨h.1, by have := h.2; omega⟩
      cases hf with
      | outOfWord h => exact weaken hasks (by omega)
      | noEntry h => exact weaken hasks (by omega)
      | @unfit lut f made h _ _ hmade =>
        have hlen := Nat.le_trans hmade.length_le (length_changes_le ..)
        have hkind := (hvisit node hmem l _ hgood lut h).2
        exact weaken (hasks.changes hlen fun p hp => hkind p (hmade.mem hp)) (by omega)
  · exact ⟨hstart, fun _ h => h, 0, by omega, by simp [Draft.Asks, Draft.requests, requests]⟩
  · rintro _ d ⟨hgood, -, n, hn, hasks⟩
    exact ⟨⟨hasks.1, by have := hasks.2; simp at hn; omega⟩, hgood⟩

/-- The nodes that a chain visits. -/
def beforeSentinel (nodes : List Node) : List Node := nodes.takeWhile fun node => !node.isSentinel

/-- A chain visits all nodes of a decomposition. -/
theorem beforeSentinel_postOrder (leaf n offset : Nat) :
    beforeSentinel (Decomposition.postOrder leaf n offset ++ [Node.sentinel]) =
      Decomposition.postOrder leaf n offset := by
  unfold beforeSentinel
  rw [List.takeWhile_append_of_pos]
  · exact List.append_nil _
  · intro node hnode
    have hsize := (Decomposition.mem_postOrder hnode).1
    have hne : node.size ≠ 0 := by omega
    simp [Node.isSentinel, hne]

/-- A chain has the items of its draft, and its summary if no visit was interrupted. -/
theorem script_cases {params : Parameters} {targets : Targets} {nodes : List Node}
    {ok : Draft → Prop} {fail : Failure GenerateError → Draft → Prop}
    (h : ((beforeSentinel nodes).forM (visit params targets)).Ensures {} (fun _ => ok) fail) :
    ∃ d, ok d ∧ script params targets nodes = (.ok d.summary, d.items) ∨
      ∃ f, fail f d ∧ script params targets nodes = (.error f, d.items) := by
  have hscript : script params targets nodes =
      ((((beforeSentinel nodes).forM (visit params targets)).result {}).1.map fun _ =>
          (((beforeSentinel nodes).forM (visit params targets)).result {}).2.summary,
        (((beforeSentinel nodes).forM (visit params targets)).result {}).2.items) := rfl
  rcases hr : ((beforeSentinel nodes).forM (visit params targets)).result {} with ⟨f | _, d⟩
  · exact ⟨d, .inr ⟨f, h.of_error hr, by rw [hscript, hr]; rfl⟩⟩
  · exact ⟨d, .inl ⟨h.of_ok hr, by rw [hscript, hr]; rfl⟩⟩

/-- Along a completed chain: what holds before the first visit and is kept by every visit holds at the
end. It may speak of the nodes visited so far. -/
theorem script_induction {params : Parameters} {targets : Targets} {nodes : List Node}
    {P : List Node → Draft → Prop} (hstart : P [] {})
    (hvisit : ∀ visited node d t, visited ++ [node] <+: beforeSentinel nodes → P visited d →
      Visited params targets node d t → P (visited ++ [node]) t)
    {summary : Summary} (h : (script params targets nodes).1 = .ok summary) :
    ∃ d : Draft, P (beforeSentinel nodes) d ∧ d.summary = summary ∧
      requests (script params targets nodes).2.toList = d.requests := by
  -- a part of the nodes is visited, the rest is still to come
  let inv (l : List Node) (d : Draft) : Prop :=
    ∃ visited, visited ++ l = beforeSentinel nodes ∧ P visited d
  have hstep : ∀ node l d, inv (node :: l) d → (visit params targets node).Ensures d
      (fun _ t => inv l t) fun _ _ => True := by
    intro node l d hinv
    obtain ⟨visited, hsplit, hd⟩ := hinv
    have hnext : visited ++ [node] ++ l = beforeSentinel nodes := by simpa using hsplit
    refine visit_ensures.mono (fun _ t ht => ?_) fun _ _ _ => trivial
    exact ⟨visited ++ [node], hnext, hvisit visited node d t ⟨l, hnext⟩ hd ht⟩
  have hrun := Action.ensures_forM inv hstep (beforeSentinel nodes) {} ⟨[], rfl, hstart⟩
  obtain ⟨d, ⟨hd, hscript⟩ | ⟨f, -, hscript⟩⟩ := script_cases hrun
  · obtain ⟨visited, hsplit, hP⟩ := hd
    rw [List.append_nil] at hsplit
    rw [hscript] at h ⊢
    cases h
    exact ⟨d, hsplit ▸ hP, rfl, rfl⟩
  · rw [hscript] at h
    cases h

/-- A chain without a summary was interrupted at one of its nodes. -/
theorem script_failure {params : Parameters} {targets : Targets} {nodes : List Node}
    {f : Failure GenerateError} (h : (script params targets nodes).1 = .error f) :
    ∃ node ∈ beforeSentinel nodes, ∃ d t, Interrupted params node d f t := by
  have hvisits := @visits_ensures params targets (beforeSentinel nodes) (fun _ _ => True)
    (fun _ => True) trivial
    (fun _ _ _ _ _ _ _ => ⟨fun _ => trivial, fun _ _ => trivial⟩) fun _ => trivial
  obtain ⟨d, ⟨-, hscript⟩ | ⟨f', ⟨-, node, hnode, _, d', t, -, hi⟩, hscript⟩⟩ :=
    script_cases hvisits
  · rw [hscript] at h
    cases h
  · rw [hscript] at h
    cases h
    exact ⟨node, hnode, d', t, hi⟩

/-- A draft that has called for `n` nodes, each with its changes. -/
structure Draft.Counts (n : Nat) (d : Draft) : Prop where
  callSites : d.summary.callSites = n
  changes : d.summary.updates + d.summary.elided = 3 * n - 1
  loaded : d.registers.size = 0 ↔ n = 0

theorem Draft.Counts.visit {params : Parameters} {targets : Targets} {node : Node} {d t : Draft}
    {n : Nat} (h : d.Counts n) (hnode : params.leaf < node.size)
    (ht : Visited params targets node d t) : t.Counts (n + 1) := by
  obtain ⟨lut, -, -, rfl⟩ := ht
  obtain ⟨hcalls, hchanges⟩ :=
    Draft.summary_foldl_change (CallChain.changes params.leaf d.registers node lut) d
  rw [length_changes, h.changes] at hchanges
  refine ⟨?_, ?_, ?_⟩
  · show _ + 1 = _
    rw [hcalls, h.callSites]
  · refine hchanges.trans ?_
    by_cases h0 : n = 0
    · rw [if_pos (h.loaded.2 h0)]
      omega
    · rw [if_neg fun hsize => h0 (h.loaded.1 hsize)]
      omega
  · show (if params.leaf < node.size then node.size else _) = 0 ↔ _
    rw [if_pos hnode]
    omega

/-- A completed chain has one call for each node. A node has three changes, made or left out, and the
first one has no change of the output position. -/
theorem script_counts {params : Parameters} {targets : Targets} {nodes : List Node}
    {summary : Summary} (hnodes : ∀ node ∈ beforeSentinel nodes, params.leaf < node.size)
    (h : (script params targets nodes).1 = .ok summary) :
    summary.callSites = (beforeSentinel nodes).length ∧
      summary.updates + summary.elided = 3 * (beforeSentinel nodes).length - 1 := by
  have hvisit : ∀ visited node d t, visited ++ [node] <+: beforeSentinel nodes →
      d.Counts visited.length → Visited params targets node d t →
      t.Counts (visited ++ [node]).length := by
    intro visited node d t hfront hcounts ht
    rw [List.length_append]
    exact hcounts.visit (hnodes node (hfront.mem (by simp))) ht
  obtain ⟨d, hcounts, rfl, -⟩ := script_induction (P := fun visited d => d.Counts visited.length)
    ⟨rfl, rfl, by simp⟩ hvisit h
  exact ⟨hcounts.callSites, hcounts.changes⟩

/-- The primitives that stand between kernels, as opposed to the ends of a routine. -/
def IsGlue (p : Primitive) : Prop := p ≠ .prologue ∧ p ≠ .epilogue

theorem isGlue_of_mem_changes {leaf lut : Nat} {before : Registers} {node : Node} {p : Primitive}
    (h : some p ∈ changes leaf before node lut) : IsGlue p := by
  unfold changes addition resizing at h
  simp only [List.mem_append, List.mem_singleton] at h
  rcases h with h | h
  · split at h
    · simp only [List.mem_singleton, Option.some.injEq] at h
      exact h ▸ ⟨nofun, nofun⟩
    · simp only [List.mem_cons, List.not_mem_nil, or_false] at h
      rcases h with h | h <;> split at h <;> cases h <;> exact ⟨nofun, nofun⟩
  · split at h <;> cases h
    exact ⟨nofun, nofun⟩

/-- A chain asks for glue only, and for four primitives a node at most. -/
theorem script_glue (params : Parameters) (targets : Targets) (nodes : List Node) :
    (∀ p ∈ requests (script params targets nodes).2.toList, IsGlue p) ∧
      (requests (script params targets nodes).2.toList).length ≤
        4 * (beforeSentinel nodes).length := by
  have hvisits := @visits_ensures params targets (beforeSentinel nodes) (fun _ _ => True) IsGlue
    trivial (fun _ _ _ _ _ _ _ => ⟨fun _ => trivial, fun _ hp => isGlue_of_mem_changes hp⟩)
    fun _ => ⟨nofun, nofun⟩
  obtain ⟨d, ⟨⟨h, -⟩, hscript⟩ | ⟨f, ⟨h, -⟩, hscript⟩⟩ := script_cases hvisits
  · rw [hscript]
    exact h
  · rw [hscript]
    exact h

end SplitRadix.CallChain
