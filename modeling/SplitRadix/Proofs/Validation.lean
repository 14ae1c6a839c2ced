import SplitRadix.Proofs.Sites

/-!
# What validation accepts

A template is sound if its notes lie inside its code, no two of them share a byte, and its flips
change something. Validation accepts exactly the sound templates, although it never compares two
notes that are not neighbours once they are in order.

* `Note.Meets`: two notes that share a byte.
* `Template.Sound`: what a template has to be, said of its notes.
* `exists_meeting`: a reported overlap is one of two notes of the template.
* `validates_exactly_sound`: what validation accepts, and what it means by an overlap.
-/

namespace SplitRadix.Kernel

/-- Whether two notes share a byte. -/
def Note.Meets (a b : Note) : Prop := ∃ i, a.Covers i ∧ b.Covers i

theorem Note.apart_iff {a b : Note} : Template.Apart a.range b.range ↔ ¬ a.Meets b := by
  have ha := a.width_pos
  have hb := b.width_pos
  simp only [Template.Apart, range, Meets, Covers, not_exists]
  constructor
  · intro hapart i hi
    omega
  · intro hmeet
    -- the later of the two starts is the first byte they can share
    have hlast := hmeet (max a.start b.start)
    omega

namespace Template

variable {t : Template}

/-- There is code, the flips change it, the notes and the loop entry lie inside it, and no two notes
share a byte. A note that is made twice meets itself. -/
structure Sound (t : Template) : Prop where
  code : t.bytes ≠ []
  change : t.flipMask ≠ 0 ∨ t.flips = []
  inside : ∀ note ∈ t.notes, ∀ i, note.Covers i → i < t.length
  entry : ∀ entry, t.loopEntry = some entry → entry < t.length
  apart : t.notes.Pairwise fun a b => ¬ a.Meets b

/-- A note lies inside the code if its last byte does. -/
theorem Sound.stop_le (h : t.Sound) {note : Note} (hnote : note ∈ t.notes) :
    note.start + note.width ≤ t.length := by
  have hpos := note.width_pos
  have hlast := h.inside note hnote (note.start + note.width - 1) ⟨by omega, by omega⟩
  omega

/-- An overlap is between two notes of the template. -/
theorem exists_meeting {first second : Nat}
    (h : firstOverlap (orderRanges (t.notes.map Note.range)) = some (first, second)) :
    ∃ (i j : Nat) (a b : Note), i ≠ j ∧ t.notes[i]? = some a ∧ t.notes[j]? = some b ∧
      a.start = first ∧ b.start = second ∧ a.Meets b := by
  obtain ⟨i, j, r, s, hne, hi, hj, hfirst, hsecond, hle, hlt⟩ := exists_of_firstOverlap h
  rw [List.getElem?_map] at hi hj
  obtain ⟨a, ha, rfl⟩ := Option.map_eq_some_iff.1 hi
  obtain ⟨b, hb, rfl⟩ := Option.map_eq_some_iff.1 hj
  refine ⟨i, j, a, b, hne, ha, hb, hfirst, hsecond, b.start, ⟨hle, hlt⟩, Nat.le_refl _, ?_⟩
  exact Nat.lt_add_of_pos_right b.width_pos

/-- Notes that do not meet have no overlap. -/
theorem Sound.firstOverlap_eq_none (h : t.Sound) :
    firstOverlap (orderRanges (t.notes.map Note.range)) = none := by
  rw [Option.eq_none_iff_forall_ne_some]
  rintro ⟨first, second⟩ hoverlap
  obtain ⟨i, j, a, b, hne, hi, hj, -, -, k, hak, hbk⟩ := exists_meeting hoverlap
  obtain ⟨hilt, rfl⟩ := List.getElem?_eq_some_iff.1 hi
  obtain ⟨hjlt, rfl⟩ := List.getElem?_eq_some_iff.1 hj
  have hapart := List.pairwise_iff_getElem.1 h.apart
  rcases Nat.lt_or_gt_of_ne hne with hlt | hlt
  · exact hapart i j hilt hjlt hlt ⟨k, hak, hbk⟩
  · exact hapart j i hjlt hilt hlt ⟨k, hbk, hak⟩

theorem Verdict.sound (h : Verdict t (.ok ())) : t.Sound := by
  cases h with
  | passed hcode hmask hsites hflips hentry hoverlap =>
    refine ⟨hcode, ?_, ?_, hentry, ?_⟩
    · by_cases hnil : t.flips = []
      · exact .inr hnil
      · exact .inl (hmask hnil)
    · intro note hnote i hi
      rcases List.mem_append.1 hnote with hnote | hnote
      · obtain ⟨site, hsite, rfl⟩ := List.mem_map.1 hnote
        exact Nat.lt_of_lt_of_le hi.2 (hsites site hsite).1
      · obtain ⟨place, hplace, rfl⟩ := List.mem_map.1 hnote
        exact Nat.lt_of_lt_of_le hi.2 (hflips place hplace)
    · have hapart := List.pairwise_map.1 (apart_of_firstOverlap hoverlap)
      exact hapart.imp Note.apart_iff.1

/-- No check of a sound template fails. The length of its code is a word, so the end of a note inside
it is one too. -/
theorem Verdict.ok_of_sound {outcome : Except (Failure TemplateError) Unit}
    (h : Verdict t outcome) (hsound : t.Sound) (hlength : t.length < 2 ^ 64) :
    outcome = .ok () := by
  cases h with
  | empty hcode => exact absurd hcode hsound.code
  | idle hflips hmask =>
    rcases hsound.change with hchange | hnil
    · exact absurd hmask hchange
    · exact absurd hnil hflips
  | outOfWord hnote hstop =>
    have := hsound.stop_le hnote
    omega
  | outside hnote hstop =>
    have := hsound.stop_le hnote
    omega
  | entryOutside hentry hout =>
    have := hsound.entry _ hentry
    omega
  | overlap hoverlap =>
    rw [hsound.firstOverlap_eq_none] at hoverlap
    cases hoverlap
  | passed => rfl

/-- Validation accepts exactly the sound templates. When it reports an overlap, the template has two
notes, at two places of its list, that start where the report says and share a byte. -/
theorem validates_exactly_sound (t : Template) (hlength : t.length < 2 ^ 64) :
    (t.validate = .ok () ↔ t.Sound) ∧
    ∀ name first second,
      t.validate = .error (.error (.overlappingSites name first second)) →
        name = t.name ∧
        ∃ (i j : Nat) (a b : Note), i ≠ j ∧ t.notes[i]? = some a ∧ t.notes[j]? = some b ∧
          a.start = first ∧ b.start = second ∧ a.Meets b := by
  have hverdict := t.verdict_validate
  refine ⟨⟨?_, fun hsound => hverdict.ok_of_sound hsound hlength⟩, ?_⟩
  · intro hok
    rw [hok] at hverdict
    exact hverdict.sound
  · intro name first second herror
    rw [herror] at hverdict
    cases hverdict with
    | overlap h => exact ⟨rfl, exists_meeting h⟩

/-- Beside fields at 10 and 4 a flip at 8 is accepted. One at 6 is reported, against a field that
stands two places before it. -/
theorem validates_exactly_sound_of_flip :
    let t (flip : Nat) : Template :=
      { name := "pass", bytes := List.replicate 16 0, sites := [⟨10, .immediate⟩, ⟨4, .displacement⟩],
        flips := [1, flip], flipMask := 4, loopEntry := some 0 }
    (t 8).length < 2 ^ 64 ∧ (t 6).length < 2 ^ 64 ∧ (t 8).Sound ∧ ¬ (t 6).Sound ∧
    (t 6).validate = .error (.error (.overlappingSites "pass" 4 6)) ∧
    ∃ (i j : Nat) (a b : Note), i ≠ j ∧ (t 6).notes[i]? = some a ∧ (t 6).notes[j]? = some b ∧
      a.start = 4 ∧ b.start = 6 ∧ a.Meets b := by
  intro t
  have hword : ∀ flip, (t flip).length < 2 ^ 64 := fun flip => by
    show (List.replicate 16 (0 : UInt8)).length < 2 ^ 64
    decide
  have hvalid : (t 8).validate = .ok () := rfl
  have hoverlap : (t 6).validate = .error (.error (.overlappingSites "pass" 4 6)) := rfl
  obtain ⟨hiff, hmeeting⟩ := validates_exactly_sound (t 6) (hword 6)
  refine ⟨hword 8, hword 6, (validates_exactly_sound (t 8) (hword 8)).1.1 hvalid, ?_, hoverlap,
    (hmeeting _ _ _ hoverlap).2⟩
  rw [← hiff, hoverlap]
  intro h
  cases h

end Template

end SplitRadix.Kernel
