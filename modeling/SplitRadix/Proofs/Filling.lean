import SplitRadix.Proofs.Decomposition
import SplitRadix.Proofs.Ensures
import SplitRadix.Scratch.Session

/-!
# Filling a table with a decomposition

The walk over the tree of parts stores the post-order list in a table. A table with enough slots holds
the list afterwards, and the slots around it are what they were; a table that is too short holds as
much of the list as it has slots for. A session that grants the memory holds exactly the list, closed
by the sentinel.

* `walk_eq_forM_store`: the walk over the tree stores the post-order list.
* `Stored`, `fill_ensures`: what is stored in a table, also in one that is too short.
* `decompose_ensures`: what a session gives for a decomposition.
* `fill_agrees_with_count`: tables, counts and sessions agree.
-/

namespace SplitRadix.Decomposition

/-- The list of a node is the lists of its parts in their order, and the node itself. -/
theorem postOrder_eq_parts {leaf n : Nat} (h : leaf < n) (offset : Nat) :
    postOrder leaf n offset =
      (Node.mk n offset).parts.flatMap (fun part => postOrder leaf part.size part.offset) ++
        [⟨n, offset⟩] := by
  rw [postOrder, if_neg (by omega)]
  simp [Node.parts]

/-- The walk over the tree of parts stores the nodes of the post-order list one after the other. -/
theorem walk_eq_forM_store {leaf n offset : Nat} (h3 : 3 * n < 2 ^ 64)
    (ho : offset + n < 2 ^ 64) :
    walk leaf n offset = (postOrder leaf n offset).forM store := by
  fun_induction postOrder leaf n offset with
  | case1 n offset hn => rw [walk, if_pos hn]; rfl
  | case2 n offset hn first second third fourth fifth =>
    have append : ∀ l m : List Node, (l ++ m).forM store = l.forM store >>= fun _ => m.forM store :=
      fun l m => List.forM_append
    have single : [Node.mk n offset].forM store = store ⟨n, offset⟩ :=
      bind_pure_unit (x := store ⟨n, offset⟩)
    rw [walk, if_neg hn, @partOffsets_eq_ok ⟨n, offset⟩ h3 ho]
    simp only [append, single, bind_assoc]
    rw [← first (by omega) (by omega), ← second (by omega) (by omega),
      ← third (by omega) (by omega), ← fourth (by omega) (by omega), ← fifth (by omega) (by omega)]
    rfl

/-- `t` is what `f` becomes when `nodes` are stored: they stand in the slots from the cursor on, the
cursor stands behind them, and every other slot is what it was. -/
structure Filling.Stored (f : Filling) (nodes : List Node) (t : Filling) : Prop where
  size : t.slots.size = f.slots.size
  cursor : t.cursor = f.cursor + nodes.length
  node : ∀ i < nodes.length, t.slots[f.cursor + i]? = nodes[i]?
  rest : ∀ i, i < f.cursor ∨ f.cursor + nodes.length ≤ i → t.slots[i]? = f.slots[i]?

namespace Filling.Stored

variable {f t : Filling} {nodes : List Node}

theorem nil (f : Filling) : f.Stored [] f :=
  ⟨rfl, rfl, nofun, fun _ _ => rfl⟩

/-- Storing one node and then others. -/
theorem cons {node : Node} (hlt : f.cursor < f.slots.size)
    (h : Stored ⟨f.slots.set f.cursor node hlt, f.cursor + 1⟩ nodes t) :
    f.Stored (node :: nodes) t := by
  obtain ⟨hsize, hcursor, hnode, hrest⟩ := h
  dsimp only at hsize hcursor hnode hrest
  refine ⟨by rw [hsize, Array.size_set], ?_, fun i hi => ?_, fun i hi => ?_⟩
  · rw [hcursor, List.length_cons]
    omega
  · cases i with
    | zero =>
      rw [Nat.add_zero, hrest _ (.inl (Nat.lt_succ_self f.cursor)), Array.getElem?_set_self hlt]
      rfl
    | succ i =>
      rw [List.getElem?_cons_succ, ← hnode i (by simpa using hi), Nat.add_right_comm]
      rfl
  · rw [List.length_cons] at hi
    rw [hrest i (by omega), Array.getElem?_set_ne hlt (by omega)]

theorem toList (h : f.Stored nodes t) (hroom : f.cursor + nodes.length ≤ f.slots.size) :
    t.slots.toList = f.slots.toList.take f.cursor ++ nodes ++
      f.slots.toList.drop (f.cursor + nodes.length) := by
  apply List.ext_getElem?
  intro i
  have hbefore : (f.slots.toList.take f.cursor).length = f.cursor := by simp; omega
  rw [List.append_assoc, Array.getElem?_toList, List.getElem?_append, hbefore]
  split
  · rename_i hi
    rw [h.rest i (.inl hi), List.getElem?_take_of_lt hi, Array.getElem?_toList]
  · rw [List.getElem?_append]
    split
    · rename_i hi
      rw [← h.node _ hi]
      congr 1
      omega
    · rw [h.rest i (by omega), List.getElem?_drop, Array.getElem?_toList]
      congr 1
      omega

end Filling.Stored

/-- As many nodes are stored as there are slots left. If that is not all of them, the first one
without a slot stops the walk. -/
theorem forM_store_ensures (nodes : List Node) (f : Filling) :
    (nodes.forM store).Ensures f
      (fun _ t => (nodes = [] ∨ f.cursor + nodes.length ≤ f.slots.size) ∧ f.Stored nodes t)
      fun x t => f.slots.size < f.cursor + nodes.length ∧
        x = .indexOutOfBounds f.slots.size t.cursor ∧
        f.Stored (nodes.take (f.slots.size - f.cursor)) t := by
  induction nodes generalizing f with
  | nil => exact ⟨.inl rfl, .nil f⟩
  | cons node nodes ih =>
    show (store node >>= fun _ => nodes.forM store).Ensures f _ _
    rw [Action.ensures_bind, List.length_cons]
    by_cases hlt : f.cursor < f.slots.size
    · refine .of_result_ok (dif_pos hlt) ((ih _).mono ?_ ?_)
      · intro _ t h
        obtain ⟨hroom, hstored⟩ := h
        simp only [Array.size_set] at hroom
        refine ⟨.inr ?_, hstored.cons hlt⟩
        rcases hroom with rfl | hroom
        · exact hlt
        · omega
      · intro x t h
        obtain ⟨hfull, hx, hstored⟩ := h
        simp only [Array.size_set] at hfull hx hstored
        refine ⟨by omega, hx, ?_⟩
        rw [show f.slots.size - f.cursor = f.slots.size - (f.cursor + 1) + 1 by omega,
          List.take_succ_cons]
        exact hstored.cons hlt
    · have hstop : (store node).result f =
          (.error (.indexOutOfBounds f.slots.size f.cursor), f) := dif_neg hlt
      unfold Action.Ensures
      rw [hstop]
      refine ⟨by omega, rfl, ?_⟩
      rw [show f.slots.size - f.cursor = 0 by omega, List.take_zero]
      exact .nil f

/-- Filling stores the post-order list, as far as there are slots, and tells its length. -/
theorem fill_ensures {leaf n offset : Nat} (h3 : 3 * n < 2 ^ 64) (ho : offset + n < 2 ^ 64)
    (f : Filling) :
    (fill leaf n offset).Ensures f
      (fun written t => written = count n leaf ∧
        (count n leaf = 0 ∨ f.cursor + count n leaf ≤ f.slots.size) ∧
        f.Stored (postOrder leaf n offset) t)
      fun x t => f.slots.size < f.cursor + count n leaf ∧
        x = .indexOutOfBounds f.slots.size t.cursor ∧
        f.Stored ((postOrder leaf n offset).take (f.slots.size - f.cursor)) t := by
  unfold fill
  rw [walk_eq_forM_store h3 ho]
  simp only [Action.ensures_bind, Action.ensures_view, Action.ensures_pure]
  refine (forM_store_ensures (postOrder leaf n offset) f).mono ?_ ?_
  · intro _ t h
    obtain ⟨hroom, hstored⟩ := h
    rw [← List.length_eq_zero_iff, length_postOrder] at hroom
    refine ⟨?_, hroom, hstored⟩
    rw [hstored.cursor, length_postOrder, Nat.add_sub_cancel_left]
  · intro x t h
    rw [length_postOrder] at h
    exact h

/-- A table with room for the list is filled with it and keeps its other slots. -/
theorem fill_result {leaf n offset : Nat} (h3 : 3 * n < 2 ^ 64) (ho : offset + n < 2 ^ 64)
    {f : Filling} (hroom : f.cursor + count n leaf ≤ f.slots.size) :
    ∃ t, (fill leaf n offset).result f = (.ok (count n leaf), t) ∧
      f.Stored (postOrder leaf n offset) t := by
  have hfill := @fill_ensures leaf n offset h3 ho f
  rcases hr : (fill leaf n offset).result f with ⟨x | written, t⟩
  · have := (hfill.of_error hr).1
    omega
  · obtain ⟨rfl, -, hstored⟩ := hfill.of_ok hr
    exact ⟨t, rfl, hstored⟩

/-- A blank table with `more` slots than the list needs holds the list, and is blank behind it. -/
theorem fill_blank {leaf n : Nat} (h3 : 3 * n < 2 ^ 64) (more : Nat) :
    ∃ filled : Filling,
      (fill leaf n 0).result ⟨Array.replicate (count n leaf + more) Node.sentinel, 0⟩ =
        (.ok (count n leaf), filled) ∧
      filled.slots.toList = postOrder leaf n 0 ++ List.replicate more Node.sentinel := by
  have hroom : 0 + count n leaf ≤
      (Array.replicate (count n leaf + more) Node.sentinel).size := by
    rw [Array.size_replicate]
    omega
  obtain ⟨t, hr, hstored⟩ := @fill_result leaf n 0 h3 (by omega)
    ⟨Array.replicate (count n leaf + more) Node.sentinel, 0⟩ hroom
  refine ⟨t, hr, ?_⟩
  rw [hstored.toList (by simp)]
  simp

theorem elaborate_of_lt {n : Nat} (leaf : Nat) (h3 : 3 * n < 2 ^ 64) :
    elaborate n leaf = .ok (postOrder leaf n 0) := by
  obtain ⟨filled, hr, hs⟩ := @fill_blank leaf n h3 0
  rw [Nat.add_zero] at hr
  unfold elaborate
  rw [countWord_of_lt leaf h3]
  refine exceptBind_eq_ok.2 ⟨_, rfl, ?_⟩
  rw [hr]
  refine exceptBind_eq_ok.2 ⟨_, rfl, ?_⟩
  rw [hs, List.replicate_zero, List.append_nil]
  rfl

end SplitRadix.Decomposition

namespace SplitRadix.Scratch.Session

open Decomposition

/-- Taking room changes the arena only. -/
theorem reserve_ensures (n : Nat) (s : Session) :
    (reserve n).Ensures s (fun _ t => t.statistics = s.statistics)
      fun f t => t.statistics = s.statistics ∧ ∃ bytes, f = .error (.allocationFailed n bytes) := by
  unfold reserve Action.Ensures Action.result ExceptT.run
  dsimp only
  split
  · rename_i hr
    split at hr
    · cases hr
    · split at hr <;> cases hr
      rfl
  · rename_i hr
    split at hr
    · cases hr
      exact ⟨rfl, _, rfl⟩
    · split at hr <;> cases hr
      exact ⟨rfl, _, rfl⟩

/-- The list of a session is the post-order list followed by the sentinel. -/
theorem decompose_ensures {n : Nat} (leaf : Nat) (h3 : 3 * n < 2 ^ 64) (s : Session) :
    (decompose n leaf).Ensures s
      (fun slots t => slots.toList = postOrder leaf n 0 ++ [Node.sentinel] ∧
        t.statistics = s.statistics)
      fun _ t => t.statistics = s.statistics := by
  unfold decompose allocate
  rw [countWord_of_lt leaf h3]
  rw [Action.ensures_bind, Action.ensures_lift_ok, Action.ensures_bind, Action.ensures_lift]
  refine ⟨?_, fun _ _ => rfl⟩
  intro total ht
  obtain ⟨rfl, -⟩ := Word.add_eq_ok.1 ht
  rw [Action.ensures_bind, Action.ensures_bind]
  refine (reserve_ensures _ s).mono ?_ fun _ _ h => h.1
  intro _ t hstat
  obtain ⟨filled, hr, hs⟩ := @fill_blank leaf n h3 1
  rw [Action.ensures_pure, hr]
  exact ⟨hs, hstat⟩

/-- Where memory for the table is granted, the decomposition is stored. -/
theorem decompose_of_allocate {n leaf : Nat} (h3 : 3 * n < 2 ^ 64) {s t : Session}
    {blank : Array Node} (h : (allocate (count n leaf + 1)).result s = (.ok blank, t)) :
    ∃ slots, (decompose n leaf).result s = (.ok slots, t) ∧
      slots.toList = postOrder leaf n 0 ++ [Node.sentinel] := by
  obtain ⟨filled, hr, hs⟩ := @fill_blank leaf n h3 1
  have hcount : count n leaf + 1 < 2 ^ 64 := by
    rcases Nat.eq_zero_or_pos n with rfl | hpos
    · rw [count_of_le (Nat.zero_le leaf)]
      decide
    · have := count_le leaf hpos
      omega
  have hblank : blank = Array.replicate (count n leaf + 1) Node.sentinel := by
    obtain ⟨_, _, -, hpure⟩ := Action.result_bind_eq_ok.1 h
    cases hpure
    rfl
  refine ⟨filled.slots, ?_, hs⟩
  unfold decompose
  rw [countWord_of_lt leaf h3]
  refine Action.result_bind_eq_ok.2 ⟨_, s, rfl, ?_⟩
  rw [Word.add_of_lt hcount]
  refine Action.result_bind_eq_ok.2 ⟨_, s, rfl, Action.result_bind_eq_ok.2 ⟨_, t, h, ?_⟩⟩
  rw [hblank, hr]
  rfl

end SplitRadix.Scratch.Session

namespace SplitRadix.Decomposition

open Scratch

/-- Filling a table agrees with counting beforehand. The list of a node is that of its parts in their
order and the node itself, and its length is the count. If the table has that many slots from the
cursor on, they take the list, and no other slot changes; if it has fewer, they take as much of the
list as they can, and the next node is out of bounds. So a session that grants one slot more than the
count holds what `elaborate` gives, and the sentinel is in the last slot only. -/
theorem fill_agrees_with_count {n offset : Nat} (leaf : Nat) (h3 : 3 * n < 2 ^ 64)
    (ho : offset + n < 2 ^ 64) (f : Filling) :
    let nodes := postOrder leaf n offset
    (n ≤ leaf → nodes = []) ∧
    (leaf < n → ∃ parts, (Node.mk n offset).split = .ok parts ∧
      nodes = parts.flatMap (fun part => postOrder leaf part.size part.offset) ++ [⟨n, offset⟩]) ∧
    countWord n leaf = .ok nodes.length ∧
    (f.cursor + count n leaf ≤ f.slots.size →
      ∃ t, (fill leaf n offset).result f = (.ok (count n leaf), t) ∧ f.Stored nodes t) ∧
    (f.slots.size < f.cursor + count n leaf → 0 < count n leaf →
      ∃ t, (fill leaf n offset).result f =
          (.error (.indexOutOfBounds f.slots.size t.cursor), t) ∧
        f.Stored (nodes.take (f.slots.size - f.cursor)) t) ∧
    ∀ s t blank, (Session.allocate (count n leaf + 1)).result s = (.ok blank, t) →
      ∃ slots listed, (Session.decompose n leaf).result s = (.ok slots, t) ∧
        elaborate n leaf = .ok listed ∧ slots.toList = listed ++ [Node.sentinel] ∧
        ∀ node ∈ listed, node.isSentinel = false := by
  intro nodes
  refine ⟨fun hle => ?_, fun hlt => ?_, ?_, fill_result h3 ho, fun hshort hpos => ?_,
    fun s t blank hgranted => ?_⟩
  · exact List.eq_nil_of_length_eq_zero ((length_postOrder ..).trans (count_of_le hle))
  · exact ⟨_, split_eq_ok h3 ho, postOrder_eq_parts hlt offset⟩
  · rw [length_postOrder]
    exact countWord_of_lt leaf h3
  · have hfill := @fill_ensures leaf n offset h3 ho f
    rcases hr : (fill leaf n offset).result f with ⟨x | written, t⟩
    · obtain ⟨-, rfl, hstored⟩ := hfill.of_error hr
      exact ⟨t, rfl, hstored⟩
    · have := (hfill.of_ok hr).2.1
      omega
  · obtain ⟨slots, hslots, hlist⟩ := Session.decompose_of_allocate h3 hgranted
    refine ⟨slots, _, hslots, elaborate_of_lt leaf h3, hlist, fun node hnode => ?_⟩
    have := (mem_postOrder hnode).1
    exact beq_false_of_ne (by omega)

/-- The four nodes of 64 elements with leaves of 8, at offset 100: in a table that has room for them
between other nodes, in one that lacks the last slot, and in a session with little memory. -/
theorem fill_agrees_with_count_of_64 :
    let f (slots : Nat) : Filling := ⟨Array.replicate slots ⟨9, 9⟩, 2⟩
    3 * 64 < 2 ^ 64 ∧ 100 + 64 < 2 ^ 64 ∧
    (∃ t, (fill 8 64 100).result (f 7) = (.ok 4, t) ∧
      (f 7).Stored [⟨16, 100⟩, ⟨16, 132⟩, ⟨16, 148⟩, ⟨64, 100⟩] t) ∧
    (∃ t, (fill 8 64 100).result (f 5) = (.error (.indexOutOfBounds 5 t.cursor), t) ∧
      (f 5).Stored [⟨16, 100⟩, ⟨16, 132⟩, ⟨16, 148⟩] t) ∧
    ∃ slots listed t, (Session.decompose 64 8).result (.start (some 512)) = (.ok slots, t) ∧
      elaborate 64 8 = .ok listed ∧ slots.toList = listed ++ [Node.sentinel] := by
  intro f
  have hcount : count 64 8 = 4 := by decide +kernel
  have hlist : postOrder 8 64 100 = [⟨16, 100⟩, ⟨16, 132⟩, ⟨16, 148⟩, ⟨64, 100⟩] := by
    decide +kernel
  have hsize : ∀ slots, (f slots).slots.size = slots := fun slots => Array.size_replicate
  have filled slots := fill_agrees_with_count 8 (show 3 * 64 < 2 ^ 64 by decide)
    (show 100 + 64 < 2 ^ 64 by decide) (f slots)
  simp only [hcount, hlist, hsize] at filled
  refine ⟨by decide, by decide, (filled 7).2.2.2.1 (by decide), ?_, ?_⟩
  · exact (filled 5).2.2.2.2.1 (by decide) (by decide)
  · have hgranted : ((Session.allocate 5).result (.start (some 512))).1.isOk = true := by
      decide +kernel
    obtain ⟨blank, t, hr⟩ := Action.exists_of_isOk hgranted
    obtain ⟨slots, listed, hslots, hlisted, hsplit, -⟩ := (filled 0).2.2.2.2.2 _ _ _ hr
    exact ⟨slots, listed, t, hslots, hlisted, hsplit⟩

end SplitRadix.Decomposition
