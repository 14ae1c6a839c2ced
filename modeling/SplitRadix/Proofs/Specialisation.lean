import SplitRadix.Proofs.Kernels

/-!
# Specialising any fragment

The two steps that specialise a copy work on any fragment of the template's length. Each of them
either does what it is for or reports an error and leaves the fragment alone. Since the notes of a
valid template share no byte, what one step writes the other does not touch.

* `not_accepts_iff`: the values that are refused.
* `ChangesUnless`: an operation that is carried out whole or not at all.
* `Turned.twice`: the inverse direction is its own opposite.
* `Turned.patched_comm`: the two steps in either order.
* `specialisation_is_exact`: both steps on every fragment.
-/

namespace SplitRadix.Kernel.Template

variable {t : Template} {direction : Direction} {values : List UInt32}

/-- Values are refused for their number, or for one that would be a negative displacement. -/
theorem not_accepts_iff : ¬ t.Accepts values ↔ values.length ≠ t.sites.length ∨
    ∃ p ∈ t.sites.zip values, p.1.kind = .displacement ∧ 2 ^ 31 - 1 < p.2.toNat := by
  have hkind : ∀ p : PatchSite × UInt32,
      ¬ p.1.kind.accepts p.2 = true ↔ p.1.kind = .displacement ∧ 2 ^ 31 - 1 < p.2.toNat := by
    rintro ⟨⟨offset, kind⟩, value⟩
    cases kind with
    | displacement =>
      simp only [PatchKind.accepts, decide_eq_true_eq, true_and]
      omega
    | immediate => simp [PatchKind.accepts]
  simp only [Accepts, Classical.not_and_iff_not_or_not, Classical.not_forall, hkind, exists_prop]

/-! ## Carried out or refused -/

/-- The operation reports an error and keeps the fragment if `refused` holds, and otherwise succeeds
and leaves a fragment as `changed` says. -/
def ChangesUnless (act : Action Bytes (Failure TemplateError) Unit) (fragment : Bytes)
    (refused : Prop) (changed : Bytes → Prop) : Prop :=
  (refused → ∃ cause, act.result fragment = (.error (.error cause), fragment)) ∧
  (¬ refused → ∃ u, act.result fragment = (.ok (), u) ∧ changed u)

theorem applyDirection_changes (ht : t.WellFormed) (direction : Direction) (fragment : Bytes) :
    ChangesUnless (t.applyDirection direction) fragment (fragment.length ≠ t.length)
      (t.Turned direction fragment) := by
  rcases (applyDirection_ensures ht direction fragment).ended with
    ⟨_, u, hresult, hlen, hturned⟩ | ⟨f, u, hresult, hlen, ⟨cause, rfl⟩, rfl⟩
  · exact ⟨fun hne => absurd hlen hne, fun _ => ⟨u, hresult, hturned⟩⟩
  · exact ⟨fun _ => ⟨cause, hresult⟩, fun heq => absurd hlen heq⟩

theorem applyPatches_changes (ht : t.WellFormed) (values : List UInt32) (fragment : Bytes) :
    ChangesUnless (t.applyPatches values) fragment
      (fragment.length ≠ t.length ∨ ¬ t.Accepts values) (t.Patched values fragment) := by
  rcases (applyPatches_ensures ht values fragment).ended with
    ⟨_, u, hresult, hlen, haccepts, hpatched⟩ | ⟨f, u, hresult, hrefused, ⟨cause, rfl⟩, rfl⟩
  · refine ⟨?_, fun _ => ⟨u, hresult, hpatched⟩⟩
    rintro (hne | hne)
    · exact absurd hlen hne
    · exact absurd haccepts hne
  · exact ⟨fun _ => ⟨cause, hresult⟩, fun hno => absurd hrefused hno⟩

/-! ## The two steps together -/

/-- Flipping the marked bytes twice restores them. -/
theorem Turned.twice {a b c : Bytes} (h : t.Turned .inverse a b) (h' : t.Turned .inverse b c) :
    c = a := by
  apply List.ext_getElem?
  intro i
  by_cases hi : i ∈ t.flips
  · rw [h'.flip i hi, h.flip i hi, Option.map_map]
    have hself : turned t.flipMask .inverse ∘ turned t.flipMask .inverse = id := by
      funext byte
      show byte ^^^ t.flipMask ^^^ t.flipMask = byte
      rw [UInt8.xor_assoc, UInt8.xor_self, UInt8.xor_zero]
    rw [hself, Option.map_id, id]
  · rw [h'.rest i hi, h.rest i hi]

/-- Turning first and patching first lead to the same fragment. -/
theorem Turned.patched_comm (ht : t.WellFormed) (haccepts : t.Accepts values)
    {a turned patched b c : Bytes} (h : t.Turned direction a turned)
    (hb : t.Patched values turned b) (h' : t.Patched values a patched)
    (hc : t.Turned direction patched c) : b = c := by
  apply List.ext_getElem?
  intro i
  by_cases hi : i ∈ t.flips
  · -- a marked byte is in no field
    have hclear : ∀ site ∈ t.sites, ¬ site.Covers i := fun site hsite =>
      ht.flips_apart site hsite i hi
    rw [hb.rest i hclear, h.flip i hi, hc.flip i hi, h'.rest i hclear]
  · rw [hc.rest i hi]
    by_cases hfield : ∃ site ∈ t.sites, site.Covers i
    · obtain ⟨site, hsite, hcovers⟩ := hfield
      exact hb.field.agree haccepts.1 h'.field hsite hcovers
    · have hclear : ∀ site ∈ t.sites, ¬ site.Covers i := fun site hsite hcovers =>
        hfield ⟨site, hsite, hcovers⟩
      rw [hb.rest i hclear, h'.rest i hclear, h.rest i hi]

/-- What an operation leaves of a fragment, whether it succeeds or not. -/
def after (act : Action Bytes (Failure TemplateError) Unit) (fragment : Bytes) : Bytes :=
  (act.result fragment).2

theorem after_inverse_twice (ht : t.WellFormed) (fragment : Bytes) :
    after (t.applyDirection .inverse) (after (t.applyDirection .inverse) fragment) = fragment := by
  have hfirst := applyDirection_changes ht .inverse fragment
  by_cases hlen : fragment.length = t.length
  · obtain ⟨u, hu, hturned⟩ := hfirst.2 (not_not_intro hlen)
    have hulen : u.length = t.length := hturned.length.trans hlen
    obtain ⟨v, hv, hback⟩ := (applyDirection_changes ht .inverse u).2 (not_not_intro hulen)
    simp only [after, hu, hv]
    exact hturned.twice hback
  · obtain ⟨cause, hkept⟩ := hfirst.1 hlen
    simp only [after, hkept]

theorem after_comm (ht : t.WellFormed) (direction : Direction) (values : List UInt32)
    (fragment : Bytes) :
    after (t.applyPatches values) (after (t.applyDirection direction) fragment) =
      after (t.applyDirection direction) (after (t.applyPatches values) fragment) := by
  have hturn := applyDirection_changes ht direction
  have hpatch := applyPatches_changes ht values
  by_cases hlen : fragment.length = t.length
  · obtain ⟨u, hu, hturned⟩ := (hturn fragment).2 (not_not_intro hlen)
    have hulen : u.length = t.length := hturned.length.trans hlen
    by_cases haccepts : t.Accepts values
    · obtain ⟨v, hv, hpatched⟩ := (hpatch fragment).2 (by simp [hlen, haccepts])
      have hvlen : v.length = t.length := hpatched.length.trans hlen
      obtain ⟨b, hb, hlast⟩ := (hpatch u).2 (by simp [hulen, haccepts])
      obtain ⟨c, hc, hlast'⟩ := (hturn v).2 (not_not_intro hvlen)
      simp only [after, hu, hv, hb, hc]
      exact hturned.patched_comm ht haccepts hlast hpatched hlast'
    · -- refused values leave both fragments alone
      obtain ⟨_, hkept⟩ := (hpatch fragment).1 (.inr haccepts)
      obtain ⟨_, hkept'⟩ := (hpatch u).1 (.inr haccepts)
      simp only [after, hkept, hu, hkept']
  · obtain ⟨_, hkept⟩ := (hturn fragment).1 hlen
    obtain ⟨_, hkept'⟩ := (hpatch fragment).1 (.inl hlen)
    simp only [after, hkept, hkept']

/-- Specialising a fragment of a valid template. Each of the two steps is refused, with the fragment
unchanged, exactly for the reasons given, and otherwise changes the bytes it is for and no others.
Flipping twice restores the fragment, and the steps can be taken in either order. -/
theorem specialisation_is_exact {t : Template} (hvalid : t.validate = .ok ()) (fragment : Bytes)
    (direction : Direction) (values : List UInt32) :
    ChangesUnless (t.applyDirection direction) fragment (fragment.length ≠ t.length)
      (t.Turned direction fragment) ∧
    ChangesUnless (t.applyPatches values) fragment
      (fragment.length ≠ t.length ∨ values.length ≠ t.sites.length ∨
        ∃ p ∈ t.sites.zip values, p.1.kind = .displacement ∧ 2 ^ 31 - 1 < p.2.toNat)
      (fun u => t.Patched values fragment u ∧ ∀ p ∈ t.sites.zip values,
        Bytes.ofLittleEndian (Bytes.slice u p.1.offset PatchSite.width) = p.2.toNat) ∧
    after (t.applyDirection .inverse) (after (t.applyDirection .inverse) fragment) = fragment ∧
    after (t.applyPatches values) (after (t.applyDirection direction) fragment) =
      after (t.applyDirection direction) (after (t.applyPatches values) fragment) := by
  have ht := wellFormed_of_validate hvalid
  have hpatch := applyPatches_changes ht values fragment
  rw [not_accepts_iff] at hpatch
  refine ⟨applyDirection_changes ht direction fragment, ⟨hpatch.1, fun hok => ?_⟩,
    after_inverse_twice ht fragment, after_comm ht direction values fragment⟩
  obtain ⟨u, hu, hpatched⟩ := hpatch.2 hok
  exact ⟨u, hu, hpatched, fun _ hp => hpatched.field.read hp⟩

/-- A fragment that is not the template's own code, with a value in its field and with one that the
field does not take. -/
theorem specialisation_is_exact_of_field :
    let t : Template :=
      { name := "pass", bytes := [0x0F, 0x58, 0xC1, 0, 0, 0, 0x10, 0xC3],
        sites := [⟨3, .displacement⟩], flips := [1], flipMask := 4 }
    let fragment : Bytes := [1, 2, 3, 4, 5, 6, 7, 8]
    t.validate = .ok () ∧
    (∃ u, (t.applyDirection .inverse).result fragment = (.ok (), u) ∧ t.Turned .inverse fragment u) ∧
    (∃ u, (t.applyPatches [0x12345678]).result fragment = (.ok (), u) ∧
      Bytes.ofLittleEndian (Bytes.slice u 3 4) = 0x12345678) ∧
    (∃ cause, (t.applyPatches [0x80000000]).result fragment = (.error (.error cause), fragment)) ∧
    after (t.applyPatches [0x12345678]) (after (t.applyDirection .inverse) fragment) =
      after (t.applyDirection .inverse) (after (t.applyPatches [0x12345678]) fragment) := by
  intro t fragment
  have hvalid : t.validate = .ok () := rfl
  obtain ⟨hturn, hpatch, -, hcomm⟩ := specialisation_is_exact hvalid fragment .inverse [0x12345678]
  obtain ⟨-, hrefuse, -, -⟩ := specialisation_is_exact hvalid fragment .inverse [0x80000000]
  have hlen : fragment.length = t.length := rfl
  refine ⟨hvalid, hturn.2 (not_not_intro hlen), ?_, hrefuse.1 (.inr (.inr ?_)), hcomm⟩
  · obtain ⟨u, hu, -, hread⟩ := hpatch.2 (by simp [hlen, t])
    exact ⟨u, hu, hread (⟨3, .displacement⟩, 0x12345678) List.mem_cons_self⟩
  · exact ⟨(⟨3, .displacement⟩, 0x80000000), List.mem_cons_self, rfl, by decide⟩

end SplitRadix.Kernel.Template
