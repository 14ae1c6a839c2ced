import SplitRadix.Proofs.Emission

/-!
# Runs of a code buffer

A buffer is asked to append, to align and to have bytes edited that it wrote before, in any order and
with any arguments. An operation is carried out whole or changes nothing, and none reaches past the
cursor: what lies there in the region is what lay there at the start.

* `Operation`, `run`: what a buffer can be asked for, and a run with the outcome of every step.
* `Performed`: every way an operation ends.
* `Edit.apply_append`: an edit of written bytes does not see what is appended later.
* `written_run`: what was written is everything that was appended, with the edits applied to it.
* `Performed.overlay`: on the region itself an operation replaces one interval of bytes.
* `buffer_keeps_region`: what holds after every run.
-/

namespace SplitRadix

namespace Code.Buffer

/-! ## Operations -/

/-- A change of bytes in their place. It can do anything to them but change their number. -/
structure Edit where
  start : Nat
  length : Nat
  change : Bytes → Bytes
  length_change : ∀ bytes, (change bytes).length = bytes.length

/-- `bytes` with the edit made in them. -/
def Edit.apply (e : Edit) (bytes : Bytes) : Bytes :=
  Bytes.overwrite bytes e.start (e.change (Bytes.slice bytes e.start e.length))

/-- What a buffer can be asked for. -/
inductive Operation where
  | append (bytes : Bytes)
  | align (boundary bias : Nat) (filler : UInt8)
  | edit (e : Edit)

namespace Operation

/-- Carry out an operation. The number is the offset of what was appended, the padding that was
written, or the length of what was edited. -/
def perform : Operation → Action Buffer (Failure BufferError) Nat
  | append bytes => Buffer.append bytes
  | align boundary bias filler => Buffer.alignTo boundary bias filler
  | edit e => do
    Buffer.edit e.start e.length (modify e.change)
    return e.length

/-- How many bytes the operation asks to have written at the cursor. -/
def needs (b : Buffer) : Operation → Option Nat
  | append bytes => some bytes.length
  | align boundary bias _ => (b.paddingFor boundary bias).toOption
  | edit _ => none

/-- When the operation is carried out, and with which answer: an edit only if all its bytes are
written. -/
def Answers (b : Buffer) (n : Nat) : Operation → Prop
  | append bytes => bytes.length ≤ b.remaining ∧ n = b.position
  | align boundary bias _ => b.paddingFor boundary bias = .ok n ∧ n ≤ b.remaining
  | edit e => e.start + e.length ≤ b.position ∧ e.start + e.length < 2 ^ 64 ∧ n = e.length

/-- The operation on the bytes of the region, with the cursor at `cursor` and `n` as its answer. -/
def inPlace (cursor n : Nat) (memory : Bytes) : Operation → Bytes
  | append bytes => Bytes.overwrite memory cursor bytes
  | align _ _ filler => Bytes.overwrite memory cursor (List.replicate n filler)
  | edit e => e.apply memory

end Operation

/-- An operation that was asked for, and what came of it. -/
structure Step where
  operation : Operation
  outcome : Except (Failure BufferError) Nat

namespace Step

/-- The bytes that a step added. -/
def piece : Step → Bytes
  | ⟨.append bytes, .ok _⟩ => bytes
  | ⟨.align _ _ filler, .ok padding⟩ => List.replicate padding filler
  | _ => []

/-- `bytes` with the edit of a step made in them, if it made one. -/
def revise (bytes : Bytes) : Step → Bytes
  | ⟨.edit e, .ok _⟩ => e.apply bytes
  | _ => bytes

end Step

/-- Carry out operations one after the other, whatever comes of each. -/
def run (b : Buffer) : List Operation → List Step × Buffer
  | [] => ([], b)
  | op :: rest =>
    let step := op.perform.result b
    let later := run step.2 rest
    (⟨op, step.1⟩ :: later.1, later.2)

/-- Everything that was appended and padded, in order. -/
def appended (steps : List Step) : Bytes := steps.flatMap Step.piece

/-- `bytes` with the edits of a run made in them, in order. -/
def revised (steps : List Step) (bytes : Bytes) : Bytes := steps.foldl Step.revise bytes

/-! ## Edits -/

namespace Edit

variable {e : Edit} {bytes : Bytes}

theorem length_piece (h : e.start + e.length ≤ bytes.length) :
    (e.change (Bytes.slice bytes e.start e.length)).length = e.length := by
  rw [e.length_change, Bytes.slice, List.length_take, List.length_drop]
  omega

theorem length_apply (h : e.start + e.length ≤ bytes.length) :
    (e.apply bytes).length = bytes.length := by
  apply Bytes.length_overwrite
  rw [length_piece h]
  exact h

/-- An edit inside the bytes written so far does not see what is written after them. -/
theorem apply_append (h : e.start + e.length ≤ bytes.length) (rest : Bytes) :
    e.apply (bytes ++ rest) = e.apply bytes ++ rest := by
  rw [apply, apply, Bytes.slice_append_left h, Bytes.overwrite_append_left]
  rw [length_piece h]
  exact h

end Edit

/-! ## One step -/

/-- How an operation ends. Only in three ways is there another buffer than before. -/
inductive Performed (b : Buffer) :
    Operation → Except (Failure BufferError) Nat → Buffer → Prop where
  | appended {bytes : Bytes} (h : bytes.length ≤ b.remaining) :
    Performed b (.append bytes) (.ok b.position) (b.push bytes)
  | noRoom {bytes : Bytes} (h : b.remaining < bytes.length) :
    Performed b (.append bytes) (.error (.error (.overflow bytes.length b.remaining))) b
  | aligned {boundary bias padding : Nat} {filler : UInt8}
    (hpadding : b.paddingFor boundary bias = .ok padding) (h : padding ≤ b.remaining) :
    Performed b (.align boundary bias filler) (.ok padding)
      (b.push (List.replicate padding filler))
  | noPadding {boundary bias padding : Nat} {filler : UInt8}
    (hpadding : b.paddingFor boundary bias = .ok padding) (h : b.remaining < padding) :
    Performed b (.align boundary bias filler)
      (.error (.error (.overflow padding b.remaining))) b
  | noBoundary {boundary bias : Nat} {filler : UInt8} {x : Fault}
    (hpadding : b.paddingFor boundary bias = .error x) :
    Performed b (.align boundary bias filler) (.error (.fault x)) b
  | edited {e : Edit} (h : e.start + e.length ≤ b.position) (hword : e.start + e.length < 2 ^ 64) :
    Performed b (.edit e) (.ok e.length) (holding b.base b.capacity (e.apply b.written))
  | notEdited {e : Edit} {x : Fault}
    (h : e.start + e.length ≤ b.position → 2 ^ 64 ≤ e.start + e.length) :
    Performed b (.edit e) (.error (.fault x)) b

theorem perform_ensures (op : Operation) (b : Buffer) :
    op.perform.Ensures b (fun n c => Performed b op (.ok n) c)
      fun f c => Performed b op (.error f) c := by
  cases op with
  | append bytes => exact ensures_append.2 ⟨fun h => .appended h, fun h => .noRoom h⟩
  | align boundary bias filler =>
    refine (alignTo_ensures boundary bias filler b).mono ?_ ?_
    · rintro n _ ⟨hn, hroom, rfl⟩
      exact .aligned hn hroom
    · rintro f _ ⟨rfl, ⟨x, rfl, hx⟩ | ⟨n, rfl, hn, hroom⟩⟩
      · exact .noBoundary hx
      · exact .noPadding hn hroom
  | edit e =>
    simp only [Operation.perform, edit, Action.ensures_bind, Action.ensures_lift]
    refine ⟨fun stop hstop => ?_, fun x hx => .notEdited fun _ => Word.le_of_add_eq_error hx⟩
    obtain ⟨rfl, hword⟩ := Word.add_eq_ok.1 hstop
    by_cases h : e.start + e.length ≤ b.position
    · refine .of_result_ok (if_pos h) ?_
      exact .edited h hword
    · exact .of_result_error (if_neg h) (.notEdited fun hle => absurd hle h)

theorem performed (op : Operation) (b : Buffer) :
    Performed b op (op.perform.result b).1 (op.perform.result b).2 := by
  rcases (perform_ensures op b).ended with ⟨n, c, hresult, h⟩ | ⟨f, c, hresult, h⟩
  · rw [hresult]
    exact h
  · rw [hresult]
    exact h

/-- An edit leaves the cursor where it is. -/
theorem position_edited {b : Buffer} {e : Edit} (h : e.start + e.length ≤ b.position) :
    (holding b.base b.capacity (e.apply b.written)).position = b.position := by
  rw [← length_written] at h
  rw [← length_written, written_holding, Edit.length_apply h, length_written]

theorem length_overlay (b : Buffer) {region : Region} (h : b.position ≤ region.length) :
    (b.overlay region).length = region.length := by
  unfold Region.length at h
  simp [overlay, Region.length]
  omega

/-- Past the cursor the region is as it was. -/
theorem getElem?_overlay (b : Buffer) (region : Region) {i : Nat} (h : b.position ≤ i) :
    (b.overlay region).bytes[i]? = region.bytes[i]? := by
  rw [← length_written] at h
  rw [overlay, List.getElem?_append_right h, List.getElem?_drop, length_written]
  rw [length_written] at h
  rw [Nat.add_sub_cancel' h]

/-- Appending overwrites the bytes of the region from the cursor on. -/
theorem overlay_push (b : Buffer) (bytes : Bytes) (region : Region) :
    ((b.push bytes).overlay region).bytes =
      Bytes.overwrite (b.overlay region).bytes b.position bytes := by
  unfold overlay
  rw [written_push, position_push, ← length_written, Bytes.overwrite_append_right, List.drop_drop]

namespace Performed

variable {b c : Buffer} {op : Operation} {outcome : Except (Failure BufferError) Nat}

/-- A failed operation changes nothing. -/
theorem eq_of_error {f : Failure BufferError} (h : Performed b op (.error f) c) : c = b := by
  cases h <;> rfl

theorem capacity (h : Performed b op outcome c) : c.capacity = b.capacity := by
  cases h <;> rfl

/-- The cursor moves forward, and not past the end. -/
theorem position (h : Performed b op outcome c) (hb : b.position ≤ b.capacity) :
    b.position ≤ c.position ∧ c.position ≤ c.capacity := by
  rw [h.capacity]
  have hremaining : b.remaining = b.capacity - b.position := rfl
  cases h with
  | appended hroom =>
    rw [position_push]
    omega
  | aligned _ hroom =>
    rw [position_push, List.length_replicate]
    omega
  | edited h _ =>
    rw [position_edited h]
    exact ⟨Nat.le_refl _, hb⟩
  | _ => exact ⟨Nat.le_refl _, hb⟩

/-- There is an overflow exactly where more is asked for than is left. -/
theorem overflow_iff (h : Performed b op outcome c) (needed left : Nat) :
    outcome = .error (.error (.overflow needed left)) ↔
      op.needs b = some needed ∧ left = b.remaining ∧ b.remaining < needed := by
  cases h with
  | appended hroom => simp [Operation.needs]; omega
  | noRoom hroom => simp [Operation.needs]; omega
  | aligned hpadding hroom => simp [Operation.needs, hpadding, Except.toOption]; omega
  | noPadding hpadding hroom => simp [Operation.needs, hpadding, Except.toOption]; omega
  | noBoundary hpadding => simp [Operation.needs, hpadding, Except.toOption]
  | edited _ _ => simp [Operation.needs]
  | notEdited _ => simp [Operation.needs]

theorem ok_iff (h : Performed b op outcome c) (n : Nat) : outcome = .ok n ↔ op.Answers b n := by
  cases h with
  | appended hroom => simp [Operation.Answers, hroom, eq_comm]
  | noRoom hroom => simp [Operation.Answers]; omega
  | aligned hpadding hroom => simp [Operation.Answers, hpadding]; omega
  | noPadding hpadding hroom => simp [Operation.Answers, hpadding]; omega
  | noBoundary hpadding => simp [Operation.Answers, hpadding]
  | edited h hword => simp only [Operation.Answers, h, hword, true_and, Except.ok.injEq, eq_comm]
  | notEdited h => simp [Operation.Answers]; omega

/-- What a step adds comes after what was written, and what it edits lies inside that. -/
theorem written (h : Performed b op outcome c) (rest : Bytes) :
    Step.revise (b.written ++ Step.piece ⟨op, outcome⟩ ++ rest) ⟨op, outcome⟩ = c.written ++ rest := by
  cases h with
  | appended _ => rw [written_push]; rfl
  | aligned _ _ => rw [written_push]; rfl
  | edited h _ =>
    rw [← length_written] at h
    show Edit.apply _ (b.written ++ [] ++ rest) = _
    rw [List.append_nil, Edit.apply_append h, written_holding]
  | _ => simp [Step.piece, Step.revise]

/-- On the bytes of the region, an operation that is carried out replaces one interval. -/
theorem overlay {n : Nat} (h : Performed b op (.ok n) c) (region : Region) :
    (c.overlay region).bytes = op.inPlace b.position n (b.overlay region).bytes := by
  cases h with
  | appended _ => exact overlay_push ..
  | aligned _ _ => exact overlay_push ..
  | edited h _ =>
    have hposition := position_edited h
    rw [← length_written] at h
    unfold Buffer.overlay
    rw [hposition, written_holding]
    exact (Edit.apply_append h _).symm

end Performed

/-! ## Runs -/

/-- What every operation keeps holds after every run. -/
theorem run_induction {motive : Buffer → Prop}
    (step : ∀ {b c op outcome}, Performed b op outcome c → motive b → motive c)
    (history : List Operation) {b : Buffer} (h : motive b) : motive (run b history).2 := by
  induction history generalizing b with
  | nil => exact h
  | cons op rest ih => exact ih (step (performed op b) h)

/-- After a run there is written what was there before and what was appended, with the edits made. -/
theorem written_run (history : List Operation) (b : Buffer) :
    (run b history).2.written =
      revised (run b history).1 (b.written ++ appended (run b history).1) := by
  induction history generalizing b with
  | nil => simp [run, revised, appended]
  | cons op rest ih =>
    rw [run, ih, revised, revised, appended, appended, List.foldl_cons, List.flatMap_cons,
      ← List.append_assoc, (performed op b).written]

/-- The buffer has the room of the region and has not gone past its end. -/
structure Opened (region : Region) (b : Buffer) : Prop where
  capacity : b.capacity = region.length
  position : b.position ≤ b.capacity

theorem opened_run (region : Region) (history : List Operation) :
    (run (start region) history).2.Opened region := by
  apply run_induction
  · intro b c op outcome h hb
    exact ⟨h.capacity.trans hb.capacity, (h.position hb.position).2⟩
  · exact ⟨rfl, Nat.zero_le _⟩

/-- After every run on a region the cursor is inside it, and past the cursor the region is as it was.
What was written is everything appended and padded, in order, with the edits made in it. Whatever is
asked next moves the cursor forward only. If it fails, nothing changes, and it overflows exactly if
more was asked for than is left. If it is carried out, its answer is the right one (for an append
where it starts), and the region is changed in place. -/
theorem buffer_keeps_region (region : Region) (history : List Operation) (op : Operation) :
    let steps := (run (start region) history).1
    let b := (run (start region) history).2
    let outcome := (op.perform.result b).1
    let c := (op.perform.result b).2
    b.position ≤ b.capacity ∧ b.capacity = region.length ∧ (b.overlay region).length = region.length ∧
    (∀ i, b.position ≤ i → (b.overlay region).bytes[i]? = region.bytes[i]?) ∧
    b.written = revised steps (appended steps) ∧
    b.position ≤ c.position ∧
    (∀ f, outcome = .error f → c = b) ∧
    (∀ needed left, outcome = .error (.error (.overflow needed left)) ↔
      op.needs b = some needed ∧ left = b.remaining ∧ b.remaining < needed) ∧
    (∀ n, outcome = .ok n ↔ op.Answers b n) ∧
    ∀ n, outcome = .ok n →
      (c.overlay region).bytes = op.inPlace b.position n (b.overlay region).bytes := by
  intro steps b outcome c
  have hopened : b.Opened region := opened_run region history
  have hperformed : Performed b op outcome c := performed op b
  have hwritten : b.written = revised steps (appended steps) := by
    have h := written_run history (start region)
    rw [written_start, List.nil_append] at h
    exact h
  have hinside : b.position ≤ region.length := hopened.capacity ▸ hopened.position
  refine ⟨hopened.position, hopened.capacity, b.length_overlay hinside,
    fun i hi => b.getElem?_overlay region hi, hwritten, (hperformed.position hopened.position).1,
    fun f hf => ?_, hperformed.overflow_iff, hperformed.ok_iff, fun n hn => ?_⟩
  · rw [hf] at hperformed
    exact hperformed.eq_of_error
  · rw [hn] at hperformed
    exact hperformed.overlay region

end Code.Buffer

end SplitRadix
