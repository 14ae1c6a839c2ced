import SplitRadix.Proofs.CallChain

/-!
# The primitives of a completed chain

A chain that is completed loads or shifts the size, adds numbers that fit their fields to the two
positions, and calls one base case for each node, in the order of the nodes. It asks for nothing
else.

* `IsRequest`: what a chain can ask for.
* `script_requests`: what a completed chain asks for.
-/

namespace SplitRadix.CallChain

open Target
open Transform (Parameters)

/-- What a chain asks for. -/
inductive IsRequest (targets : Targets) : Primitive → Prop where
  | load (value : UInt32) : IsRequest targets (.load .size value)
  | shift (amount : Int) : IsRequest targets (.shift .size amount)
  | output {delta : Int} (h : IsImmediate delta) : IsRequest targets (.add .output delta)
  | lut {delta : Int} (h : IsImmediate delta) : IsRequest targets (.add .lut delta)
  | call {target : Nat} (h : target = targets.x4 ∨ target = targets.x8) :
    IsRequest targets (.call target)

/-- The address that a primitive calls. -/
def callTarget? : Primitive → Option Nat
  | .call target => some target
  | _ => none

variable {params : Parameters} {targets : Targets} {node : Node} {d t : Draft}

/-- The changes of a node that fit are requests, and none of them is a call. -/
theorem isRequest_of_mem_changes {leaf lut : Nat} {before : Registers} {p : Primitive}
    (hfits : Fits before node lut) (h : some p ∈ changes leaf before node lut) :
    IsRequest targets p ∧ callTarget? p = none := by
  have hfirst := hfits.1
  unfold changes at h
  rcases List.mem_append.1 h with h | h
  · split at h
    · cases List.mem_singleton.1 h
      exact ⟨.load _, rfl⟩
    · rename_i h0
      rw [if_neg h0] at hfirst
      rcases List.mem_cons.1 h with h | h
      · unfold addition at h
        split at h <;> cases h
        exact ⟨.output hfirst, rfl⟩
      · replace h := List.mem_singleton.1 h
        unfold resizing at h
        split at h <;> cases h
        exact ⟨.shift _, rfl⟩
  · replace h := List.mem_singleton.1 h
    unfold addition at h
    split at h <;> cases h
    exact ⟨.lut hfits.2, rfl⟩

/-- The draft has asked for what the visited nodes need. -/
structure Draft.Requested (params : Parameters) (targets : Targets) (visited : List Node)
    (d : Draft) : Prop where
  kind : ∀ p ∈ d.requests, IsRequest targets p
  calls : d.requests.filterMap callTarget? = visited.map (baseCase params.leaf targets)

theorem Draft.Requested.visit {visited : List Node} (h : d.Requested params targets visited)
    (ht : Visited params targets node d t) : t.Requested params targets (visited ++ [node]) := by
  obtain ⟨lut, -, hfits, rfl⟩ := ht
  have hrequests := Draft.requests_foldl_change (changes params.leaf d.registers node lut) d
  have hchange : ∀ p ∈ (changes params.leaf d.registers node lut).filterMap id,
      IsRequest targets p ∧ callTarget? p = none := by
    intro p hp
    obtain ⟨_, hmem, rfl⟩ := List.mem_filterMap.1 hp
    exact isRequest_of_mem_changes hfits hmem
  have hquiet : ((changes params.leaf d.registers node lut).filterMap id).filterMap callTarget? =
      [] := List.filterMap_eq_nil_iff.2 fun p hp => (hchange p hp).2
  constructor
  · intro p hp
    rw [Draft.requests_call, hrequests] at hp
    simp only [List.mem_append, List.mem_singleton] at hp
    rcases hp with (hp | hp) | rfl
    · exact h.kind p hp
    · exact (hchange p hp).1
    · refine .call ?_
      unfold baseCase
      split
      · exact .inl rfl
      · exact .inr rfl
  · rw [Draft.requests_call, hrequests, List.filterMap_append, List.filterMap_append, h.calls,
      hquiet, List.map_append, List.append_nil]
    rfl

/-- A completed chain asks for calls to the base cases of its nodes, in their order, and otherwise
for changes of the size and the two positions. -/
theorem script_requests {nodes : List Node} {summary : Summary}
    (h : (script params targets nodes).1 = .ok summary) :
    (∀ p ∈ requests (script params targets nodes).2.toList, IsRequest targets p) ∧
      (requests (script params targets nodes).2.toList).filterMap callTarget? =
        (beforeSentinel nodes).map (baseCase params.leaf targets) := by
  obtain ⟨d, hrequested, -, hasked⟩ := script_induction (P := Draft.Requested params targets)
    ⟨nofun, rfl⟩ (fun _ _ _ _ _ hd ht => hd.visit ht) h
  rw [hasked]
  exact ⟨hrequested.kind, hrequested.calls⟩

end SplitRadix.CallChain
