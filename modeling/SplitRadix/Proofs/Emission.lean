import SplitRadix.Proofs.Ensures
import SplitRadix.Proofs.Word
import SplitRadix.Target.Backend

/-!
# Writing to a buffer

What the operations on a buffer do, within an emission or alone.

* `ensures_append`: a write that fits is added at the cursor, and one that does not is reported.
* `paddingFor_eq_ok`: which padding there is, and when; `alignTo_ensures`: how it is written.
* `edit_push_ensures`: editing the bytes written last is the same as having written others.
-/

namespace SplitRadix

namespace Code.Buffer

theorem ensures_append {bytes : Bytes} {b : Buffer} {ok : Nat → Buffer → Prop}
    {fail : Failure BufferError → Buffer → Prop} :
    (append bytes).Ensures b ok fail ↔
      (bytes.length ≤ b.remaining → ok b.position (b.push bytes)) ∧
      (b.remaining < bytes.length → fail (.error (.overflow bytes.length b.remaining)) b) := by
  have hresult : (append bytes).result b =
      if bytes.length ≤ b.remaining then (.ok b.position, b.push bytes)
      else (.error (.error (.overflow bytes.length b.remaining)), b) := rfl
  unfold Action.Ensures
  rw [hresult]
  by_cases h : bytes.length ≤ b.remaining
  · rw [if_pos h]
    exact ⟨fun hok => ⟨fun _ => hok, fun hlt => absurd h (Nat.not_le.2 hlt)⟩, fun hb => hb.1 h⟩
  · rw [if_neg h]
    exact ⟨fun hf => ⟨fun hle => absurd hle h, fun _ => hf⟩, fun hb => hb.2 (Nat.not_le.1 h)⟩

/-! ## Padding -/

/-- There is a padding to every power of two, wherever the place to be aligned has an address. -/
theorem paddingFor_eq_ok {b : Buffer} {boundary bias n : Nat} :
    b.paddingFor boundary bias = .ok n ↔ (∃ k, boundary = 2 ^ k) ∧ b.address + bias < 2 ^ 64 ∧
      n = (boundary - (b.address + bias) % boundary) % boundary := by
  unfold paddingFor
  rw [← Word.isPowerOfTwo_iff]
  by_cases hpow : Word.isPowerOfTwo boundary = true
  · rw [if_pos hpow, exceptBind_eq_ok]
    constructor
    · rintro ⟨place, hplace, h⟩
      obtain ⟨rfl, hword⟩ := Word.add_eq_ok.1 hplace
      cases h
      exact ⟨hpow, hword, rfl⟩
    · rintro ⟨-, hword, rfl⟩
      exact ⟨_, Word.add_of_lt hword, rfl⟩
  · rw [if_neg hpow]
    constructor
    · intro h
      cases h
    · intro h
      exact absurd h.1 hpow

/-- The padding to a boundary is shorter than the boundary. -/
theorem paddingFor_lt {b : Buffer} {boundary bias n : Nat}
    (h : b.paddingFor boundary bias = .ok n) : n < boundary := by
  obtain ⟨⟨k, rfl⟩, -, rfl⟩ := paddingFor_eq_ok.1 h
  exact Nat.mod_lt _ (Nat.two_pow_pos k)

@[simp] theorem address_push (b : Buffer) (bytes : Bytes) :
    (b.push bytes).address = b.address + bytes.length := by
  rw [address, address, base_push, position_push, Nat.add_assoc]

/-- The padding leads to a boundary. -/
theorem dvd_of_paddingFor {b : Buffer} {boundary bias n : Nat}
    (h : b.paddingFor boundary bias = .ok n) : boundary ∣ b.address + bias + n := by
  obtain ⟨⟨k, rfl⟩, -, rfl⟩ := paddingFor_eq_ok.1 h
  have hpos := Nat.two_pow_pos k
  generalize 2 ^ k = grid at *
  generalize b.address + bias = place at *
  have hsum : place + (grid - place % grid) = grid * (place / grid + 1) := by
    have := Nat.mod_lt place hpos
    have := Nat.div_add_mod place grid
    rw [Nat.mul_succ]
    omega
  refine Nat.dvd_of_mod_eq_zero ?_
  rw [Nat.add_mod_mod, hsum, Nat.mul_mod_right]

theorem alignTo_ensures (boundary bias : Nat) (filler : UInt8) (b : Buffer) :
    (alignTo boundary bias filler).Ensures b
      (fun n c => b.paddingFor boundary bias = .ok n ∧ n ≤ b.remaining ∧
        c = b.push (List.replicate n filler))
      fun f c => c = b ∧
        ((∃ x, f = .fault x ∧ b.paddingFor boundary bias = .error x) ∨
          ∃ n, f = .error (.overflow n b.remaining) ∧ b.paddingFor boundary bias = .ok n ∧
            b.remaining < n) := by
  unfold alignTo
  simp only [Action.ensures_bind, Action.ensures_get, Action.ensures_lift, ensures_append,
    List.length_replicate, Action.ensures_pure]
  refine ⟨fun n hn => ⟨fun hroom => ⟨hn, hroom, trivial⟩, fun hroom => ⟨trivial, .inr ?_⟩⟩, ?_⟩
  · exact ⟨n, rfl, hn, hroom⟩
  · exact fun x hx => ⟨trivial, .inl ⟨x, rfl, hx⟩⟩

/-! ## Edits -/

/-- Replacing the bytes written last is the same as having written others. -/
theorem holding_overwrite_push (b : Buffer) {bytes piece : Bytes}
    (h : piece.length = bytes.length) :
    holding b.base b.capacity (Bytes.overwrite (b.push bytes).written b.position piece) =
      b.push piece := by
  have hwritten : Bytes.overwrite (b.push bytes).written b.position piece = b.written ++ piece := by
    rw [written_push, ← length_written, Bytes.overwrite, List.take_left,
      List.drop_of_length_le (by rw [List.length_append]; omega), List.append_nil]
  have hreversed : (b.written ++ piece).reverse = piece.reverseAux b.reversed := by
    rw [List.reverseAux_eq, List.reverse_append, written, List.reverse_reverse]
  have hposition : (b.written ++ piece).length = b.position + piece.length := by
    rw [List.length_append, length_written]
  rw [hwritten]
  unfold holding push
  simp only [hreversed, hposition]

theorem edit_push_result {ε α : Type} (change : Action Bytes (Failure ε) α) {bytes : Bytes}
    (b : Buffer) (h : b.position + bytes.length < 2 ^ 64) :
    (edit b.position bytes.length change).result (b.push bytes) =
      ((change.result bytes).1, holding b.base b.capacity
        (Bytes.overwrite (b.push bytes).written b.position (change.result bytes).2)) := by
  have hslice : Bytes.slice (b.push bytes).written b.position bytes.length = bytes := by
    rw [written_push, ← length_written, Bytes.slice, List.drop_left, List.take_length]
  unfold edit
  rw [Word.add_of_lt h]
  show (if b.position + bytes.length ≤ b.position + bytes.length then
      let edited := change.result (Bytes.slice (b.push bytes).written b.position bytes.length)
      (edited.1,
        holding b.base b.capacity (Bytes.overwrite (b.push bytes).written b.position edited.2))
    else _) = _
  rw [if_pos (Nat.le_refl _), hslice]

/-- An edit of the bytes written last, by a change that keeps their number. -/
theorem edit_push_ensures {ε α : Type} {change : Action Bytes (Failure ε) α} {bytes : Bytes}
    {ok : Bytes → Prop} {fail : Failure ε → Bytes → Prop} (b : Buffer)
    (h : change.Ensures bytes (fun _ u => ok u) fail) (hlen : ∀ u, ok u → u.length = bytes.length) :
    (edit b.position bytes.length change).Ensures (b.push bytes)
      (fun _ t => ∃ u : Bytes, ok u ∧ t = b.push u)
      fun f _ => (∃ x, f = .fault x ∧ 2 ^ 64 ≤ b.position + bytes.length) ∨ ∃ u, fail f u := by
  by_cases hlt : b.position + bytes.length < 2 ^ 64
  · unfold Action.Ensures
    rw [edit_push_result change b hlt]
    rcases hr : change.result bytes with ⟨f | a, u⟩
    · exact .inr ⟨u, h.of_error hr⟩
    · have hu : ok u := h.of_ok hr
      exact ⟨u, hu, holding_overwrite_push b (hlen u hu)⟩
  · have hover : Word.add b.position bytes.length = .error .addOverflow := if_neg hlt
    unfold edit
    rw [Action.ensures_bind, hover, Action.ensures_lift_error]
    exact .inl ⟨_, rfl, by omega⟩

end Code.Buffer

namespace Target.Emit

variable {σ α : Type} {e : Emission σ}

theorem ensures_onBuffer {ε : Type} {kind : ε → GenerateError}
    {act : Action Code.Buffer (Failure ε) α} {ok : α → Emission σ → Prop}
    {fail : Failure GenerateError → Emission σ → Prop} :
    (onBuffer kind act).Ensures e ok fail ↔
      act.Ensures e.buffer (fun a b => ok a { e with buffer := b })
        fun f b => fail (f.map kind) { e with buffer := b } := by
  have hresult : (onBuffer kind act : Emit σ α).result e =
      ((act.result e.buffer).1.mapError (Failure.map kind),
        { e with buffer := (act.result e.buffer).2 }) := rfl
  unfold Action.Ensures
  rw [hresult]
  rcases act.result e.buffer with ⟨_ | _, _⟩ <;> rfl

end Target.Emit

end SplitRadix
