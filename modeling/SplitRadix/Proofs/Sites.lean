import SplitRadix.Kernel.Template
import SplitRadix.Proofs.Word

/-!
# Where the notes of a template lie

The notes of a template are its fields and its flipped bytes. Validation puts the byte ranges of all
notes in order and looks at neighbours only. That is enough: in an ordered list whose neighbours do
not overlap, no two ranges do, and neighbours that overlap are two notes.

* `pairwise_of_firstOverlap`: from neighbours to all pairs.
* `apart_of_firstOverlap`: the same for the ranges in any order.
* `exists_of_firstOverlap`: the two ranges of an overlap.
* `Verdict`, `verdict_validate`: every way a validation ends.
* `WellFormed`, `wellFormed_of_validate`: what validation says about a template.
-/

namespace SplitRadix.Kernel

/-- The byte range of a field. -/
def PatchSite.range (site : PatchSite) : Nat × Nat := (site.offset, site.offset + width)

/-- Whether a byte belongs to a field. -/
def PatchSite.Covers (site : PatchSite) (i : Nat) : Prop :=
  site.offset ≤ i ∧ i < site.offset + width

/-- A note on some bytes of a template: a field, or a byte that is flipped. -/
inductive Note where
  | field (site : PatchSite)
  | flip (place : Nat)
  deriving DecidableEq, Repr

namespace Note

def start : Note → Nat
  | field site => site.offset
  | flip place => place

/-- The number of bytes of a note. -/
def width : Note → Nat
  | field _ => PatchSite.width
  | flip _ => 1

def range (note : Note) : Nat × Nat := (note.start, note.start + note.width)

/-- Whether a byte belongs to a note. -/
def Covers (note : Note) (i : Nat) : Prop := note.start ≤ i ∧ i < note.start + note.width

theorem width_pos (note : Note) : 0 < note.width := by
  cases note <;> exact Nat.succ_pos _

end Note

namespace Template

/-- The notes of a template, each as often as it is made. -/
def notes (t : Template) : List Note := t.sites.map .field ++ t.flips.map .flip

/-- Two byte ranges with no byte in common. -/
def Apart (a b : Nat × Nat) : Prop := a.2 ≤ b.1 ∨ b.2 ≤ a.1

/-! ## Ordered ranges -/

theorem perm_insertRange (r : Nat × Nat) (l : List (Nat × Nat)) :
    (insertRange r l).Perm (r :: l) := by
  induction l with
  | nil => exact .refl _
  | cons first rest ih =>
    simp only [insertRange]
    split
    · exact .refl _
    · exact (ih.cons first).trans (.swap r first rest)

theorem perm_orderRanges (l : List (Nat × Nat)) : (orderRanges l).Perm l := by
  induction l with
  | nil => exact .refl _
  | cons r rest ih => exact (perm_insertRange r _).trans (ih.cons r)

theorem start_le_of_rangeBefore {a b : Nat × Nat} (h : rangeBefore a b = true) : a.1 ≤ b.1 := by
  simp [rangeBefore] at h
  omega

theorem start_le_of_not_rangeBefore {a b : Nat × Nat} (h : ¬ rangeBefore a b = true) :
    b.1 ≤ a.1 := by
  simp [rangeBefore] at h
  omega

theorem pairwise_insertRange (r : Nat × Nat) {l : List (Nat × Nat)}
    (h : l.Pairwise fun a b => a.1 ≤ b.1) :
    (insertRange r l).Pairwise fun a b => a.1 ≤ b.1 := by
  induction l with
  | nil => simp [insertRange]
  | cons first rest ih =>
    obtain ⟨hfirst, hrest⟩ := List.pairwise_cons.1 h
    simp only [insertRange]
    split
    · rename_i hbefore
      have hr := start_le_of_rangeBefore hbefore
      refine List.pairwise_cons.2 ⟨fun b hb => ?_, h⟩
      rcases List.mem_cons.1 hb with rfl | hb
      · exact hr
      · exact Nat.le_trans hr (hfirst b hb)
    · rename_i hafter
      refine List.pairwise_cons.2 ⟨fun b hb => ?_, ih hrest⟩
      rcases List.mem_cons.1 ((perm_insertRange r rest).mem_iff.1 hb) with rfl | hb
      · exact start_le_of_not_rangeBefore hafter
      · exact hfirst b hb

theorem pairwise_orderRanges (l : List (Nat × Nat)) :
    (orderRanges l).Pairwise fun a b => a.1 ≤ b.1 := by
  induction l with
  | nil => exact .nil
  | cons r rest ih => exact pairwise_insertRange r ih

/-- In an ordered list, ranges whose neighbours do not overlap lie one after the other. -/
theorem pairwise_of_firstOverlap {l : List (Nat × Nat)} (hordered : l.Pairwise fun a b => a.1 ≤ b.1)
    (h : firstOverlap l = none) : l.Pairwise fun a b => a.2 ≤ b.1 := by
  induction l with
  | nil => exact .nil
  | cons first rest ih =>
    obtain ⟨-, hrest⟩ := List.pairwise_cons.1 hordered
    cases rest with
    | nil => exact List.pairwise_singleton _ _
    | cons second rest =>
      obtain ⟨hsecond, -⟩ := List.pairwise_cons.1 hrest
      rw [firstOverlap] at h
      split at h
      · cases h
      · refine List.pairwise_cons.2 ⟨fun b hb => ?_, ih hrest h⟩
        rcases List.mem_cons.1 hb with rfl | hb
        · omega
        · have := hsecond b hb
          omega

theorem apart_of_firstOverlap {l : List (Nat × Nat)} (h : firstOverlap (orderRanges l) = none) :
    l.Pairwise Apart := by
  have hordered := pairwise_of_firstOverlap (pairwise_orderRanges l) h
  have hsymm : ∀ {a b : Nat × Nat}, Apart a b → Apart b a := fun hab => hab.symm
  exact ((perm_orderRanges l).pairwise_iff hsymm).1 (hordered.imp fun hab => .inl hab)

/-- An overlap is between neighbours. -/
theorem firstOverlap_eq_some {l : List (Nat × Nat)} {first second : Nat}
    (h : firstOverlap l = some (first, second)) :
    ∃ before a b after, l = before ++ a :: b :: after ∧ a.1 = first ∧ b.1 = second ∧
      b.1 < a.2 := by
  induction l with
  | nil => cases h
  | cons a rest ih =>
    cases rest with
    | nil => cases h
    | cons b rest =>
      rw [firstOverlap] at h
      split at h
      · rename_i hlt
        cases h
        exact ⟨[], a, b, rest, rfl, rfl, rfl, hlt⟩
      · obtain ⟨before, c, d, after, hl, hrest⟩ := ih h
        exact ⟨a :: before, c, d, after, by rw [hl, List.cons_append], hrest⟩

/-- Two elements of a list in another order stand at two places of the list. -/
theorem exists_places_of_perm {α : Type} {a b : α} {l rest : List α} (h : l.Perm (a :: b :: rest)) :
    ∃ i j : Nat, i ≠ j ∧ l[i]? = some a ∧ l[j]? = some b := by
  obtain ⟨before, after, rfl⟩ := List.append_of_mem (h.mem_iff.2 List.mem_cons_self)
  have hrest : (before ++ after).Perm (b :: rest) :=
    (List.perm_middle.symm.trans h).cons_inv
  have hb : b ∈ before ++ after := hrest.mem_iff.2 List.mem_cons_self
  have ha : (before ++ a :: after)[before.length]? = some a := by simp
  rcases List.mem_append.1 hb with hb | hb
  · obtain ⟨j, hj, hjb⟩ := List.getElem_of_mem hb
    refine ⟨before.length, j, by omega, ha, ?_⟩
    rw [List.getElem?_append_left hj, List.getElem?_eq_getElem hj, hjb]
  · obtain ⟨j, hj, hjb⟩ := List.getElem_of_mem hb
    refine ⟨before.length, before.length + (j + 1), by omega, ha, ?_⟩
    rw [List.getElem?_append_right (by omega), Nat.add_sub_cancel_left, List.getElem?_cons_succ,
      List.getElem?_eq_getElem hj, hjb]

/-- The two ranges of an overlap, in whatever order the ranges were given. -/
theorem exists_of_firstOverlap {l : List (Nat × Nat)} {first second : Nat}
    (h : firstOverlap (orderRanges l) = some (first, second)) :
    ∃ (i j : Nat) (a b : Nat × Nat), i ≠ j ∧ l[i]? = some a ∧ l[j]? = some b ∧ a.1 = first ∧
      b.1 = second ∧ a.1 ≤ b.1 ∧ b.1 < a.2 := by
  obtain ⟨before, a, b, after, hl, ha, hb, hlt⟩ := firstOverlap_eq_some h
  have hordered := pairwise_orderRanges l
  rw [hl] at hordered
  obtain ⟨-, hpair, -⟩ := List.pairwise_append.1 hordered
  have hle : a.1 ≤ b.1 := (List.pairwise_cons.1 hpair).1 b List.mem_cons_self
  have hperm : l.Perm (a :: b :: (before ++ after)) := by
    refine (perm_orderRanges l).symm.trans ?_
    rw [hl]
    exact List.perm_middle.trans (List.perm_middle.cons a)
  obtain ⟨i, j, hne, hi, hj⟩ := exists_places_of_perm hperm
  exact ⟨i, j, a, b, hne, hi, hj, ha, hb, hle, hlt⟩

/-! ## The ends of a validation -/

/-- The ranges of the fields are found, or the first field outside the code is reported. -/
theorem siteRanges_cases (t : Template) (sites : List PatchSite) :
    (t.siteRanges sites = .ok (sites.map PatchSite.range) ∧
      ∀ site ∈ sites, site.offset + PatchSite.width ≤ t.length ∧
        site.offset + PatchSite.width < 2 ^ 64) ∨
    (∃ site ∈ sites, 2 ^ 64 ≤ site.offset + PatchSite.width ∧
      t.siteRanges sites = .error (.fault .addOverflow)) ∨
    ∃ site ∈ sites, t.length < site.offset + PatchSite.width ∧
      t.siteRanges sites = .error (.error (.siteOutOfBounds t.name site.offset t.length)) := by
  induction sites with
  | nil => exact .inl ⟨rfl, List.forall_mem_nil _⟩
  | cons site rest ih =>
    unfold siteRanges
    by_cases hword : site.offset + PatchSite.width < 2 ^ 64
    · rw [Word.add_of_lt hword]
      by_cases hout : t.length < site.offset + PatchSite.width
      · exact .inr (.inr ⟨site, List.mem_cons_self, hout, if_pos hout⟩)
      · rcases ih with ⟨hrest, hinside⟩ | ⟨s, hs, hs', hrest⟩ | ⟨s, hs, hs', hrest⟩
        · refine .inl ⟨?_, List.forall_mem_cons.2 ⟨⟨Nat.not_lt.1 hout, hword⟩, hinside⟩⟩
          rw [hrest]
          exact if_neg hout
        · refine .inr (.inl ⟨s, List.mem_cons_of_mem _ hs, hs', ?_⟩)
          rw [hrest]
          exact if_neg hout
        · refine .inr (.inr ⟨s, List.mem_cons_of_mem _ hs, hs', ?_⟩)
          rw [hrest]
          exact if_neg hout
    · have hover : Word.add site.offset PatchSite.width = .error .addOverflow := if_neg hword
      rw [hover]
      exact .inr (.inl ⟨site, List.mem_cons_self, Nat.not_lt.1 hword, rfl⟩)

theorem flipRanges_cases (t : Template) (flips : List Nat) :
    (t.flipRanges flips = .ok (flips.map fun i => (i, i + 1)) ∧ ∀ i ∈ flips, i < t.length) ∨
    ∃ i ∈ flips, t.length ≤ i ∧
      t.flipRanges flips = .error (.error (.siteOutOfBounds t.name i t.length)) := by
  induction flips with
  | nil => exact .inl ⟨rfl, List.forall_mem_nil _⟩
  | cons i rest ih =>
    unfold flipRanges
    by_cases hout : t.length ≤ i
    · exact .inr ⟨i, List.mem_cons_self, hout, if_pos hout⟩
    · rcases ih with ⟨hrest, hinside⟩ | ⟨j, hj, hj', hrest⟩
      · refine .inl ⟨?_, List.forall_mem_cons.2 ⟨Nat.not_le.1 hout, hinside⟩⟩
        rw [hrest]
        exact if_neg hout
      · refine .inr ⟨j, List.mem_cons_of_mem _ hj, hj', ?_⟩
        rw [hrest]
        exact if_neg hout

/-- How a validation ends: with the first check that fails, or with all of them passed. -/
inductive Verdict (t : Template) : Except (Failure TemplateError) Unit → Prop where
  | empty (h : t.bytes = []) :
    Verdict t (.error (.error (.malformed t.name "empty template")))
  | idle (h : t.flips ≠ []) (hmask : t.flipMask = 0) :
    Verdict t (.error (.error (.malformed t.name "sign flips with an empty mask")))
  | outOfWord {note : Note} (h : note ∈ t.notes) (hstop : 2 ^ 64 ≤ note.start + note.width) :
    Verdict t (.error (.fault .addOverflow))
  | outside {note : Note} (h : note ∈ t.notes) (hstop : t.length < note.start + note.width) :
    Verdict t (.error (.error (.siteOutOfBounds t.name note.start t.length)))
  | entryOutside {entry : Nat} (h : t.loopEntry = some entry) (hentry : t.length ≤ entry) :
    Verdict t (.error (.error (.siteOutOfBounds t.name entry t.length)))
  | overlap {first second : Nat}
    (h : firstOverlap (orderRanges (t.notes.map Note.range)) = some (first, second)) :
    Verdict t (.error (.error (.overlappingSites t.name first second)))
  | passed (hcode : t.bytes ≠ []) (hmask : t.flips ≠ [] → t.flipMask ≠ 0)
    (hsites : ∀ site ∈ t.sites, site.offset + PatchSite.width ≤ t.length ∧
      site.offset + PatchSite.width < 2 ^ 64)
    (hflips : ∀ i ∈ t.flips, i < t.length)
    (hentry : ∀ entry, t.loopEntry = some entry → entry < t.length)
    (hapart : firstOverlap (orderRanges (t.notes.map Note.range)) = none) :
    Verdict t (.ok ())

theorem map_range_notes (t : Template) : t.notes.map Note.range =
    t.sites.map PatchSite.range ++ t.flips.map fun i => (i, i + 1) := by
  rw [notes, List.map_append, List.map_map, List.map_map]
  rfl

theorem verdict_validate (t : Template) : Verdict t t.validate := by
  unfold validate
  dsimp only
  by_cases hempty : t.isEmpty = true
  · rw [if_pos hempty]
    exact .empty (List.isEmpty_iff.1 hempty)
  rw [if_neg hempty]
  have hcode : t.bytes ≠ [] := fun h => hempty (List.isEmpty_iff.2 h)
  by_cases hidle : (!t.flips.isEmpty && t.flipMask == 0) = true
  · rw [if_pos hidle]
    have hidle : t.flips ≠ [] ∧ t.flipMask = 0 := by simpa using hidle
    exact .idle hidle.1 hidle.2
  rw [if_neg hidle]
  have hmask : t.flips ≠ [] → t.flipMask ≠ 0 := by simpa using hidle
  rcases t.siteRanges_cases t.sites with ⟨hsites, hfields⟩ | ⟨s, hs, hs', hsites⟩ |
    ⟨s, hs, hs', hsites⟩
  · rcases t.flipRanges_cases t.flips with ⟨hflips, hflipped⟩ | ⟨i, hi, hi', hflips⟩
    · rw [hsites, hflips]
      have hpassed := Verdict.passed hcode hmask hfields hflipped
      have hoverlap := @Verdict.overlap t
      rw [map_range_notes] at hpassed hoverlap
      cases hloop : t.loopEntry with
      | none =>
        rw [hloop] at hpassed
        dsimp only [bind, Except.bind]
        split
        · exact hoverlap ‹_›
        · exact hpassed (fun _ h => by cases h) ‹_›
      | some entry =>
        rw [hloop] at hpassed
        dsimp only [bind, Except.bind]
        by_cases hout : t.length ≤ entry
        · rw [if_pos hout]
          exact .entryOutside hloop hout
        · rw [if_neg hout]
          split
          · exact hoverlap ‹_›
          · exact hpassed (fun _ h => by cases h; omega) ‹_›
    · rw [hsites, hflips]
      exact .outside (List.mem_append_right _ (List.mem_map_of_mem hi)) (Nat.lt_succ_of_le hi')
  · rw [hsites]
    exact .outOfWord (List.mem_append_left _ (List.mem_map_of_mem hs)) hs'
  · rw [hsites]
    exact .outside (List.mem_append_left _ (List.mem_map_of_mem hs)) hs'

/-! ## Valid templates -/

/-- The fields, the flipped bytes and the loop entry lie inside the code, no two fields or flipped
bytes share a byte, and a flip changes something. -/
structure WellFormed (t : Template) : Prop where
  sites_le : ∀ site ∈ t.sites, site.offset + PatchSite.width ≤ t.length ∧
    site.offset + PatchSite.width < 2 ^ 64
  flips_lt : ∀ site ∈ t.flips, site < t.length
  loopEntry_lt : ∀ entry, t.loopEntry = some entry → entry < t.length
  sites_apart : t.sites.Pairwise fun a b => Apart a.range b.range
  flips_nodup : t.flips.Nodup
  flips_apart : ∀ site ∈ t.sites, ∀ i ∈ t.flips, ¬ site.Covers i
  flipMask_ne : ∀ i ∈ t.flips, t.flipMask ≠ 0

/-- A valid template holds code. -/
theorem length_pos_of_validate {t : Template} (h : t.validate = .ok ()) : 0 < t.length := by
  have hverdict := t.verdict_validate
  rw [h] at hverdict
  cases hverdict with
  | passed hcode => exact List.length_pos_iff.2 hcode

theorem wellFormed_of_validate {t : Template} (h : t.validate = .ok ()) : t.WellFormed := by
  have hverdict := t.verdict_validate
  rw [h] at hverdict
  cases hverdict with
  | passed _ hmask hsites hflips hentry hoverlap =>
    have hapart := apart_of_firstOverlap hoverlap
    rw [map_range_notes] at hapart
    obtain ⟨hsites_apart, hflips_apart, hacross⟩ := List.pairwise_append.1 hapart
    refine ⟨hsites, hflips, hentry, List.pairwise_map.1 hsites_apart, ?_, ?_, ?_⟩
    · refine (List.pairwise_map.1 hflips_apart).imp fun hab heq => ?_
      simp only [Apart] at hab
      omega
    · intro site hsite i hi hcovers
      have hapart := hacross _ (List.mem_map_of_mem hsite) _ (List.mem_map_of_mem hi)
      simp only [Apart, PatchSite.range] at hapart
      simp only [PatchSite.Covers] at hcovers
      omega
    · exact fun i hi => hmask (List.ne_nil_of_mem hi)

end Template

end SplitRadix.Kernel
