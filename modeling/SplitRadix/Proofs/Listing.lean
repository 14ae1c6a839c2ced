import SplitRadix.Proofs.Assembly
import SplitRadix.Routine.Listing

/-!
# Listings of routines

The disassembly of a routine never loses step: it is put together from whole instructions, whatever
values are in the fields of its kernels, however long its paddings are, and in both directions. So
every fragment starts with a line of its own, and a listing prints the label of the fragment right
before that line.

* `InStep`: a disassembly that matches a code and its fragments.
* `rows_labelled`: the rows of a listing.
* `disassembly_in_step`: disassembly and listing of a routine.
-/

namespace SplitRadix.Routine

open Machine

/-! ## Rows with labels -/

/-- The fragment that starts with a line. -/
def startsAt (fragments : List Fragment) (d : Decoded) : Option Fragment :=
  fragments.find? fun f => f.offset == d.offset

/-- The label before a line. -/
def labels (fragments : List Fragment) (d : Decoded) : List String :=
  (startsAt fragments d).toList.map fun f => f.name ++ ":\n"

variable {fragments : List Fragment} {lines rest : List Decoded} {d : Decoded}

theorem startsAt_eq_none (h : ∀ f ∈ fragments, f.offset ≠ d.offset) :
    startsAt fragments d = none := by
  simpa [startsAt] using h

/-- Fragments in order, each of which starts with one of the lines. -/
structure Labels (fragments : List Fragment) (lines : List Decoded) : Prop where
  ordered : fragments.Pairwise fun a b => a.offset < b.offset
  starts : ∀ f ∈ fragments, ∃ d ∈ lines, d.offset = f.offset

/-- At the first line, either the first fragment starts or none does, and the others start later. -/
theorem Labels.cons (h : Labels fragments (d :: rest)) (hlines : ∀ l ∈ rest, d.offset < l.offset) :
    ∃ others, fragments = (startsAt fragments d).toList ++ others ∧
      (fragments.takeWhile fun f => f.offset ≤ d.offset) = (startsAt fragments d).toList ∧
      Labels others rest ∧ ∀ l ∈ rest, startsAt fragments l = startsAt others l := by
  -- a fragment that starts later starts with one of the other lines
  have hlater : ∀ f ∈ fragments, d.offset < f.offset ∨ f.offset = d.offset := by
    intro f hf
    obtain ⟨l, hl, hoffset⟩ := h.starts f hf
    rcases List.mem_cons.1 hl with rfl | hl
    · exact .inr hoffset.symm
    · exact .inl (hoffset ▸ hlines l hl)
  have hrest : ∀ others : List Fragment, (∀ f ∈ others, f ∈ fragments ∧ d.offset < f.offset) →
      ∀ f ∈ others, ∃ l ∈ rest, l.offset = f.offset := by
    intro others hothers f hf
    obtain ⟨hmem, hlt⟩ := hothers f hf
    obtain ⟨l, hl, hoffset⟩ := h.starts f hmem
    rcases List.mem_cons.1 hl with rfl | hl
    · omega
    · exact ⟨l, hl, hoffset⟩
  cases fragments with
  | nil => exact ⟨[], rfl, rfl, ⟨.nil, nofun⟩, fun _ _ => rfl⟩
  | cons f others =>
    obtain ⟨hfirst, hordered⟩ := List.pairwise_cons.1 h.ordered
    rcases hlater f List.mem_cons_self with hlt | heq
    · -- no fragment starts here
      have hafter : ∀ g ∈ f :: others, d.offset < g.offset := by
        intro g hg
        rcases List.mem_cons.1 hg with rfl | hg
        · exact hlt
        · exact Nat.lt_trans hlt (hfirst g hg)
      have hnone : startsAt (f :: others) d = none :=
        startsAt_eq_none fun g hg => Nat.ne_of_gt (hafter g hg)
      refine ⟨f :: others, ?_, ?_, ⟨h.ordered, ?_⟩, fun _ _ => rfl⟩
      · rw [hnone]
        rfl
      · rw [hnone, List.takeWhile_cons, if_neg (by simpa using hlt)]
        rfl
      · exact hrest _ fun g hg => ⟨hg, hafter g hg⟩
    · have hsome : startsAt (f :: others) d = some f := by simp [startsAt, heq]
      have hafter : ∀ g ∈ others, d.offset < g.offset := fun g hg => heq ▸ hfirst g hg
      refine ⟨others, ?_, ?_, ⟨hordered, ?_⟩, fun l hl => ?_⟩
      · rw [hsome]
        rfl
      · have hstop : (others.takeWhile fun g => g.offset ≤ d.offset) = [] := by
          cases others with
          | nil => rfl
          | cons g others =>
            rw [List.takeWhile_cons, if_neg (by simpa using hafter g List.mem_cons_self)]
        rw [hsome, List.takeWhile_cons, if_pos (by simp [heq]), hstop]
        rfl
      · exact hrest _ fun g hg => ⟨List.mem_cons_of_mem _ hg, hafter g hg⟩
      · have := hlines l hl
        rw [startsAt, startsAt, List.find?_cons_of_neg]
        simp only [beq_iff_eq]
        omega

/-- Every label is printed once, right before the line that its fragment starts with. -/
theorem rows_labelled {ip : Nat} {text : Decoded → String} (h : Labels fragments lines)
    (hlines : lines.Pairwise fun a b => a.offset < b.offset)
    (htext : ∀ d ∈ lines, row ip d = .ok (text d)) :
    rows ip fragments lines =
        .ok (lines.flatMap fun d => labels fragments d ++ [text d]) ∧
      lines.filterMap (startsAt fragments) = fragments := by
  induction lines generalizing fragments with
  | nil =>
    have hnil : fragments = [] := by
      cases fragments with
      | nil => rfl
      | cons f others =>
        obtain ⟨_, hmem, -⟩ := h.starts f List.mem_cons_self
        cases hmem
    rw [hnil]
    exact ⟨rfl, rfl⟩
  | cons d rest ih =>
    obtain ⟨hfirst, hordered⟩ := List.pairwise_cons.1 hlines
    obtain ⟨others, hsplit, hstarted, hlabels, hsame⟩ := h.cons hfirst
    obtain ⟨hrows, hall⟩ := ih hlabels hordered fun l hl => htext l (List.mem_cons_of_mem d hl)
    have hdrop : fragments.drop (startsAt fragments d).toList.length = others :=
      (congrArg (List.drop _) hsplit).trans List.drop_left
    have hothers : (rest.flatMap fun l => labels others l ++ [text l]) =
        rest.flatMap fun l => labels fragments l ++ [text l] :=
      List.flatMap_congr fun l hl => by rw [labels, labels, hsame l hl]
    constructor
    · simp only [rows, htext d List.mem_cons_self, hstarted, hdrop, hrows, hothers,
        List.flatMap_cons, List.append_assoc]
      rfl
    · have hlater : rest.filterMap (startsAt fragments) = others := by
        rw [List.filterMap_congr hsame, hall]
      rw [List.filterMap_cons, hlater]
      conv => rhs; rw [hsplit]
      cases startsAt fragments d <;> rfl

theorem row_of_lt {ip : Nat} (h : ip + d.offset < 2 ^ 64) : ∃ text, row ip d = .ok text :=
  exceptBind_total (Word.add_of_lt h) ⟨_, rfl⟩

/-! ## Disassemblies in step -/

/-- The lines of a disassembly lie one after the other from the start of the code to its end, all of
them are instructions, and every fragment starts with one. -/
structure InStep (code : Bytes) (fragments : List Fragment) (lines : List Decoded) : Prop where
  first : lines.head?.map Decoded.offset = some 0
  consecutive : lines.IsChain fun a b => b.offset = a.offset + a.bytes.length
  complete : lines.flatMap Decoded.bytes = code
  valid : ∀ d ∈ lines, d.instruction ≠ none
  fragments : ∀ f ∈ fragments, ∃ d ∈ lines, d.offset = f.offset

end SplitRadix.Routine

namespace SplitRadix.Generator

open Routine Machine

/-- A text and its parts are in step. -/
theorem inStep_of_text {words : List Spelling} {fragments : List Fragment} (hne : words ≠ [])
    (h : ∀ f ∈ fragments, f.PartOf words 0) (ip : Nat) :
    InStep (Spelling.text words) fragments (disassemble ip (Spelling.text words)) := by
  rw [disassemble, Spelling.disassembleFrom_text]
  refine ⟨?_, Spelling.lines_consecutive ip 0 words, Spelling.bytes_lines ip 0 words,
    fun d hd => Spelling.instruction_lines hd, fun f hf => ?_⟩
  · cases words with
    | nil => exact absurd rfl hne
    | cons s words => rfl
  · obtain ⟨before, own, after, rfl, hown, hoffset, -⟩ := h f hf
    rw [hoffset, Nat.zero_add]
    exact Spelling.exists_line hown ip

/-- A routine of the x86-64 target is disassembled in step with its layout, and its listing prints
the label of each fragment once, in order, right before the line at the offset of the fragment. -/
theorem disassembly_in_step {g u : Generation Unit} {request : Request} {r : Routine}
    (hbackend : g.generator.backend = Machine.backend)
    (h : (generate request).result g = (.ok r, u)) {ip : Nat} (hip : ip + r.length < 2 ^ 64) :
    ∃ code, r.code u.plan.region.bytes = .ok code ∧
      InStep code r.fragments (disassemble ip code) ∧
      (disassemble ip code).filterMap (startsAt r.fragments) = r.fragments ∧
      ∃ text : Decoded → String, (∀ d ∈ disassemble ip code, row ip d = .ok (text d)) ∧
        r.listing u.plan.region.bytes ip = .ok (String.join
          ((disassemble ip code).flatMap fun d => labels r.fragments d ++ [text d])) := by
  obtain ⟨words, hcode, hlength, hne, hordered, hfragments⟩ :=
    (assembled_of_generate hbackend h).text
  have hlines : disassemble ip (Spelling.text words) = Spelling.lines ip 0 words :=
    Spelling.disassembleFrom_text ip 0 words
  have hinStep := inStep_of_text hne hfragments ip
  have hlabels : Labels r.fragments (disassemble ip (Spelling.text words)) := by
    refine ⟨hordered.imp_of_mem fun ha _ hab => ?_, hinStep.fragments⟩
    obtain ⟨_, own, _, -, hown, -, hlen⟩ := hfragments _ ha
    have := Spelling.length_text_pos hown
    omega
  let text (d : Decoded) : String := (row ip d).toOption.getD ""
  have htext : ∀ d ∈ disassemble ip (Spelling.text words), row ip d = .ok (text d) := by
    intro d hd
    rw [hlines] at hd
    have hinside := (Spelling.range_of_mem_lines hd).2
    obtain ⟨row, hrow⟩ := @row_of_lt d ip (by omega)
    simp [text, hrow, Except.toOption]
  have hapart : (disassemble ip (Spelling.text words)).Pairwise fun a b => a.offset < b.offset := by
    rw [hlines]
    exact Spelling.lines_ordered ip 0 words
  obtain ⟨hrows, hall⟩ := rows_labelled hlabels hapart htext
  refine ⟨_, hcode, hinStep, hall, text, htext, ?_⟩
  rw [listing, hcode]
  show (rows ip r.fragments (disassemble ip (Spelling.text words)) >>= fun rows =>
    pure (String.join rows)) = _
  rw [hrows]
  rfl

/-- The routine of a transform of 32 elements with leaves of 4, in a region that starts off every
boundary, so that its first fragment comes after a padding. -/
theorem disassembly_in_step_of_32 :
    let g : Generation Unit :=
      { generator := { backend := Machine.backend, own := (), session := .start none }
        plan := { parameters := ⟨32, 4, .ofLeaves 8, Transform.referenceTable 4 3⟩
                  region := .blank 4099 2048 } }
    ∃ r u code, (generate ⟨32, 4, .inverse⟩).result g = (.ok r, u) ∧ r.x4Offset = 13 ∧
      4096 + r.length < 2 ^ 64 ∧ r.code u.plan.region.bytes = .ok code ∧
      InStep code r.fragments (disassemble 4096 code) ∧
      (disassemble 4096 code).filterMap (startsAt r.fragments) = r.fragments := by
  intro g
  have hrun : ((generate ⟨32, 4, .inverse⟩).result g).1.toOption.any
      (fun r => r.x4Offset = 13 ∧ r.length < 2048) = true := by decide +kernel
  rcases hr : (generate ⟨32, 4, .inverse⟩).result g with ⟨_ | r, u⟩
  · rw [hr] at hrun
    cases hrun
  · rw [hr] at hrun
    obtain ⟨hoffset, hlength⟩ : r.x4Offset = 13 ∧ r.length < 2048 := of_decide_eq_true hrun
    have hip : 4096 + r.length < 2 ^ 64 := by omega
    obtain ⟨code, hcode, hstep, hlabels, -⟩ := disassembly_in_step rfl hr hip
    exact ⟨r, u, code, rfl, hoffset, hip, hcode, hstep, hlabels⟩

end SplitRadix.Generator
