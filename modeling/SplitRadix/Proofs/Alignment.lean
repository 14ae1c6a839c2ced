import SplitRadix.Proofs.Lengths

/-!
# Alignment

The padding to a boundary is the least there is. There are two ways to write it: filling with one
byte, and the x86-64 target's instructions without effect, the longest first. They take the same
number of bytes, fail alike, and leave the cursor at the same place, also at the very end of the
memory.

* `padding_le`, `padding_masked`: the padding is least, and can be found with masks.
* `dvd_of_alignTo`: an alignment leads to its boundary.
* `exists_sequences`: what the x86-64 target pads with.
* `alignCursor_agrees`: the two ways to pad.
* `alignments_agree`: all of that together.
-/

namespace SplitRadix

namespace Code.Buffer

variable {b c : Buffer} {boundary bias n : Nat}

/-- No shorter padding leads to a boundary. -/
theorem padding_le (h : b.paddingFor boundary bias = .ok n) {other : Nat}
    (hother : boundary ∣ b.address + bias + other) : n ≤ other := by
  have hlt := paddingFor_lt h
  have hdvd := dvd_of_paddingFor h
  refine Nat.le_of_not_lt fun hshort => ?_
  -- two boundaries less than one boundary apart are the same
  have hgap : boundary ∣ n - other := by
    have hsub := Nat.dvd_sub hdvd hother
    rwa [Nat.add_sub_add_left] at hsub
  have := Nat.le_of_dvd (by omega) hgap
  omega

/-- To a power of two the residues can be taken with masks. -/
theorem padding_masked {k : Nat} (h : b.paddingFor (2 ^ k) bias = .ok n) :
    n = (2 ^ k - ((b.address + bias) &&& (2 ^ k - 1))) &&& (2 ^ k - 1) := by
  obtain ⟨-, -, rfl⟩ := paddingFor_eq_ok.1 h
  rw [Nat.and_two_pow_sub_one_eq_mod, Nat.and_two_pow_sub_one_eq_mod]

theorem dvd_of_alignTo {filler : UInt8} (h : (alignTo boundary bias filler).result b = (.ok n, c)) :
    boundary ∣ c.address + bias := by
  obtain ⟨hn, -, rfl⟩ := (alignTo_ensures boundary bias filler b).of_ok h
  rw [address_push, List.length_replicate, Nat.add_right_comm]
  exact dvd_of_paddingFor hn

/-- How writing a padding ends. Only the place of the cursor and the room after it matter. -/
inductive Padded (b : Buffer) (boundary bias : Nat) : Except (Failure BufferError) Nat → Prop where
  | written {n : Nat} (hn : b.paddingFor boundary bias = .ok n) (hroom : n ≤ b.remaining) :
    Padded b boundary bias (.ok n)
  | short {n : Nat} (hn : b.paddingFor boundary bias = .ok n) (hroom : b.remaining < n) :
    Padded b boundary bias (.error (.error (.overflow n b.remaining)))
  | fault {x : Fault} (hx : b.paddingFor boundary bias = .error x) :
    Padded b boundary bias (.error (.fault x))

theorem Padded.unique {r s : Except (Failure BufferError) Nat} (h : Padded b boundary bias r)
    (h' : Padded b boundary bias s) : r = s := by
  cases h <;> cases h' <;> grind

theorem padded_alignTo (b : Buffer) (boundary bias : Nat) (filler : UInt8) :
    Padded b boundary bias ((alignTo boundary bias filler).result b).1 := by
  rcases (alignTo_ensures boundary bias filler b).ended with
    ⟨n, c, hc, hn, hroom, -⟩ | ⟨f, c, hc, -, ⟨x, rfl, hx⟩ | ⟨n, rfl, hn, hroom⟩⟩
  · rw [hc]
    exact .written hn hroom
  · rw [hc]
    exact .fault hx
  · rw [hc]
    exact .short hn hroom

end Code.Buffer

namespace Machine

open Target

theorem mem_padSequences {i : Nat} (h : i < 9) : padSequences[i]?.getD [] ∈ padSequences := by
  have hlt : i < padSequences.length := h
  rw [List.getElem?_eq_getElem hlt]
  exact List.getElem_mem hlt

/-- Padding is made of the recommended sequences. -/
theorem exists_sequences (n : Nat) :
    ∃ sequences : List Bytes, (∀ s ∈ sequences, s ∈ padSequences) ∧
      padding n = sequences.flatten := by
  fun_induction padding n with
  | case1 => exact ⟨[], by simp, rfl⟩
  | case2 n hpos hle =>
    have hmem := mem_padSequences (show n - 1 < 9 by omega)
    exact ⟨[padSequences[n - 1]?.getD []], by simp [hmem], by simp⟩
  | case3 n hpos hgt ih =>
    obtain ⟨sequences, hmem, hpadding⟩ := ih
    have hlongest := mem_padSequences (show 8 < 9 by decide)
    refine ⟨padSequences[8]?.getD [] :: sequences, List.forall_mem_cons.2 ⟨hlongest, hmem⟩, ?_⟩
    rw [hpadding, List.flatten_cons]

/-- Padding with instructions ends as padding with any one byte does, and at the same place. -/
theorem alignCursor_agrees (e : Emission Unit) (bias : Nat) (filler : UInt8) :
    let filled := (Code.Buffer.alignTo fetchAlignment bias filler).result e.buffer
    let aligned := (alignCursor bias).result e
    aligned.1 = filled.1.mapError (Failure.map .buffer) ∧
    aligned.2.buffer.position = filled.2.position ∧
    ∃ sequences : List Bytes, (∀ s ∈ sequences, s ∈ padSequences) ∧
      aligned.2.buffer = e.buffer.push sequences.flatten := by
  intro filled aligned
  have hfilled : e.buffer.Padded fetchAlignment bias filled.1 :=
    Code.Buffer.padded_alignTo e.buffer fetchAlignment bias filler
  have hensures := Code.Buffer.alignTo_ensures fetchAlignment bias filler e.buffer
  rcases (alignCursor_ensures (e := e) bias).ended with
    ⟨n, t, ht, hn, hroom, hbuffer⟩ | ⟨f, t, ht, rfl, hf⟩
  · have haligned : aligned = (.ok n, t) := ht
    have hsame : filled = (.ok n, filled.2) := Prod.ext (hfilled.unique (.written hn hroom)) rfl
    obtain ⟨-, -, hlast⟩ := hensures.of_ok hsame
    obtain ⟨sequences, hmem, hsequences⟩ := exists_sequences n
    rw [haligned, hsame, hlast, hbuffer]
    exact ⟨rfl, by simp, sequences, hmem, by rw [hsequences]⟩
  · have haligned : aligned = (.error f, t) := ht
    obtain ⟨g, rfl, hg⟩ : ∃ g : Failure Code.BufferError,
        f = g.map .buffer ∧ t.buffer.Padded fetchAlignment bias (.error g) := by
      rcases hf with ⟨x, rfl, hx⟩ | ⟨n, rfl, hn, hroom⟩
      · exact ⟨.fault x, rfl, .fault hx⟩
      · exact ⟨.error (.overflow n t.buffer.remaining), rfl, .short hn hroom⟩
    have hsame : filled = (.error g, filled.2) := Prod.ext (hfilled.unique hg) rfl
    obtain ⟨hlast, -⟩ := hensures.of_error hsame
    rw [haligned, hsame, hlast]
    exact ⟨rfl, rfl, [], by simp, rfl⟩

/-- Padding is least and leads to its boundary, and both ways to pad agree, whatever is written and
however it ends. -/
theorem alignments_agree :
    (∀ (b : Code.Buffer) (k bias : Nat), b.address + bias < 2 ^ 64 →
      ∃ p, b.paddingFor (2 ^ k) bias = .ok p ∧ p < 2 ^ k ∧ 2 ^ k ∣ b.address + bias + p ∧
        (∀ q, 2 ^ k ∣ b.address + bias + q → p ≤ q) ∧
        p = (2 ^ k - ((b.address + bias) &&& (2 ^ k - 1))) &&& (2 ^ k - 1)) ∧
    (∀ (b c : Code.Buffer) (boundary bias : Nat) (filler : UInt8) (n : Nat),
      (Code.Buffer.alignTo boundary bias filler).result b = (.ok n, c) →
        boundary ∣ c.address + bias) ∧
    (∀ (e : Emission Unit) (bias : Nat) (filler : UInt8),
      let filled := (Code.Buffer.alignTo fetchAlignment bias filler).result e.buffer
      let aligned := (alignCursor bias).result e
      aligned.1 = filled.1.mapError (Failure.map .buffer) ∧
      aligned.2.buffer.position = filled.2.position ∧
      ∃ sequences : List Bytes, (∀ s ∈ sequences, s ∈ padSequences) ∧
        aligned.2.buffer = e.buffer.push sequences.flatten) ∧
    ∀ n, (padding n).length = n ∧
      ∃ sequences : List Bytes, (∀ s ∈ sequences, s ∈ padSequences) ∧
        padding n = sequences.flatten := by
  refine ⟨?least, ?boundary, alignCursor_agrees, fun n => ⟨length_padding n, exists_sequences n⟩⟩
  case least =>
    intro b k bias hfits
    obtain ⟨p, hp⟩ : ∃ p, b.paddingFor (2 ^ k) bias = .ok p :=
      ⟨_, Code.Buffer.paddingFor_eq_ok.2 ⟨⟨k, rfl⟩, hfits, rfl⟩⟩
    exact ⟨p, hp, Code.Buffer.paddingFor_lt hp, Code.Buffer.dvd_of_paddingFor hp,
      fun _ => Code.Buffer.padding_le hp, Code.Buffer.padding_masked hp⟩
  case boundary =>
    intro b c boundary bias filler n h
    exact Code.Buffer.dvd_of_alignTo h

/-- Twelve bytes to a boundary of 16, where they fit and where the memory ends before. -/
theorem alignments_agree_of_twelve :
    let long := Code.Buffer.holding 4096 13 [0xC3]
    let short := Code.Buffer.holding 4096 12 [0xC3]
    long.address + 3 < 2 ^ 64 ∧
    (∃ p, long.paddingFor (2 ^ 4) 3 = .ok p ∧ ∀ q, 2 ^ 4 ∣ long.address + 3 + q → p ≤ q) ∧
    16 ∣ ((Code.Buffer.alignTo 16 3 0xCC).result long).2.address + 3 ∧
    ((alignCursor 3).result ⟨long, (), #[]⟩).1 = .ok 12 ∧
    ((alignCursor 3).result ⟨short, (), #[]⟩).1 = .error (.error (.buffer (.overflow 12 11))) := by
  obtain ⟨hleast, hboundary, hagree, -⟩ := alignments_agree
  have hfits : (Code.Buffer.holding 4096 13 [0xC3]).address + 3 < 2 ^ 64 := by decide
  obtain ⟨p, hp, -, -, hmin, -⟩ := hleast _ 4 3 hfits
  have hfilled : ((Code.Buffer.alignTo 16 3 0xCC).result (.holding 4096 13 [0xC3])).1 = .ok 12 :=
    rfl
  exact ⟨hfits, ⟨p, hp, hmin⟩, hboundary _ _ 16 3 0xCC 12 (Prod.ext hfilled rfl),
    (hagree ⟨.holding 4096 13 [0xC3], (), #[]⟩ 3 0xCC).1,
    (hagree ⟨.holding 4096 12 [0xC3], (), #[]⟩ 3 0xCC).1⟩

end Machine

end SplitRadix
