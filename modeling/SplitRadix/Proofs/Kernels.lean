import SplitRadix.Proofs.Emission
import SplitRadix.Proofs.Sites
import SplitRadix.Routine.Layout

/-!
# Copies of kernels

A copy of a valid template has the template's code except in the marked bytes, which follow the
direction, and in the fields, which hold the values given. The only thing that can go wrong is a
value that a field does not take.

* `Turned`, `Patched`: what the two steps of specialising do to a fragment.
* `applyDirection_ensures`, `applyPatches_ensures`: they do that, or leave the fragment alone.
* `Specialised`, `specialise_ensures`: what a copy of a template holds after both.
* `copy_ensures`: what is written as a copy of a kernel, and why it can fail.
-/

namespace SplitRadix.Kernel

namespace Template

/-- There is one value for each field, and each field takes its value. -/
def Accepts (t : Template) (values : List UInt32) : Prop :=
  values.length = t.sites.length ∧ ∀ p ∈ t.sites.zip values, p.1.kind.accepts p.2 = true

/-- A marked byte of a template in a copy for a direction. -/
def turned (mask : UInt8) : Direction → UInt8 → UInt8
  | .forward, byte => byte
  | .inverse, byte => byte ^^^ mask

/-- The fields of `copy` hold `values`. -/
def Holds (t : Template) (values : List UInt32) (copy : Bytes) : Prop :=
  ∀ p ∈ t.sites.zip values, Bytes.slice copy p.1.offset PatchSite.width =
    Bytes.littleEndian PatchSite.width p.2.toNat

/-- `after` is `before` with its marked bytes turned for a direction. -/
structure Turned (t : Template) (direction : Direction) (before after : Bytes) : Prop where
  length : after.length = before.length
  flip : ∀ i ∈ t.flips, after[i]? = before[i]?.map (turned t.flipMask direction)
  rest : ∀ i, i ∉ t.flips → after[i]? = before[i]?

/-- `after` is `before` with `values` in its fields. -/
structure Patched (t : Template) (values : List UInt32) (before after : Bytes) : Prop where
  length : after.length = before.length
  field : t.Holds values after
  rest : ∀ i, (∀ site ∈ t.sites, ¬ site.Covers i) → after[i]? = before[i]?

/-- `copy` is the template's code, specialised for a direction and with `values` in its fields. -/
structure Specialised (t : Template) (direction : Direction) (values : List UInt32)
    (copy : Bytes) : Prop where
  length : copy.length = t.length
  accepts : t.Accepts values
  field : ∀ p ∈ t.sites.zip values, Bytes.slice copy p.1.offset PatchSite.width =
    Bytes.littleEndian PatchSite.width p.2.toNat
  flip : ∀ i ∈ t.flips, copy[i]? = t.bytes[i]?.map (turned t.flipMask direction)
  rest : ∀ i, i ∉ t.flips → (∀ site ∈ t.sites, ¬ site.Covers i) → copy[i]? = t.bytes[i]?

/-! ## Flipped bytes -/

theorem flipBytes_ensures (mask : UInt8) {sites : List Nat} {bytes : Bytes} (hnodup : sites.Nodup)
    (h : ∀ site ∈ sites, site < bytes.length) :
    (flipBytes mask sites).Ensures bytes
      (fun _ u => u.length = bytes.length ∧ (∀ i ∈ sites, u[i]? = bytes[i]?.map (· ^^^ mask)) ∧
        ∀ i, i ∉ sites → u[i]? = bytes[i]?)
      fun _ _ => False := by
  induction sites generalizing bytes with
  | nil => exact ⟨rfl, nofun, fun _ _ => rfl⟩
  | cons site rest ih =>
    have hsite := h site List.mem_cons_self
    obtain ⟨hfresh, hrest⟩ := List.nodup_cons.1 hnodup
    unfold flipBytes
    refine Action.ensures_bind.2 (.of_result_ok (dif_pos hsite) ?_)
    refine (@ih (bytes.set site (bytes[site] ^^^ mask)) hrest fun s hs => ?_).mono ?_
      fun _ _ hf => hf
    · rw [List.length_set]
      exact h s (List.mem_cons_of_mem _ hs)
    · intro _ u hu
      obtain ⟨hlen, hflipped, hkept⟩ := hu
      refine ⟨by rw [hlen, List.length_set], fun i hi => ?_, fun i hi => ?_⟩
      · rcases List.mem_cons.1 hi with rfl | hi
        · rw [hkept i hfresh]
          simp [hsite]
        · have hne : site ≠ i := fun heq => hfresh (heq ▸ hi)
          rw [hflipped i hi, List.getElem?_set_ne hne]
      · have hne : site ≠ i := fun heq => hi (heq ▸ List.mem_cons_self)
        rw [hkept i fun hmem => hi (List.mem_cons_of_mem _ hmem), List.getElem?_set_ne hne]

/-! ## Fields -/

theorem writeSites_ensures {sites : List (PatchSite × UInt32)} {bytes : Bytes}
    (hapart : sites.Pairwise fun p q => Apart p.1.range q.1.range)
    (h : ∀ p ∈ sites, p.1.offset + PatchSite.width ≤ bytes.length ∧
      p.1.offset + PatchSite.width < 2 ^ 64) :
    (writeSites sites).Ensures bytes
      (fun _ u => u.length = bytes.length ∧
        (∀ p ∈ sites, Bytes.slice u p.1.offset PatchSite.width =
          Bytes.littleEndian PatchSite.width p.2.toNat) ∧
        ∀ i, (∀ p ∈ sites, ¬ p.1.Covers i) → u[i]? = bytes[i]?)
      fun _ _ => False := by
  induction sites generalizing bytes with
  | nil => exact ⟨rfl, nofun, fun _ _ => rfl⟩
  | cons p rest ih =>
    obtain ⟨site, value⟩ := p
    obtain ⟨hsite, hword⟩ := h (site, value) List.mem_cons_self
    obtain ⟨hfirst, hrest⟩ := List.pairwise_cons.1 hapart
    dsimp only at hsite hword hfirst
    unfold writeSites
    rw [Word.add_of_lt hword]
    rw [Action.ensures_bind, Action.ensures_lift_ok, Action.ensures_bind]
    have hstart : ¬ bytes.length < site.offset := by omega
    have hstop : ¬ bytes.length < site.offset + PatchSite.width := by omega
    refine .of_result_ok ((if_neg hstart).trans (if_neg hstop)) ?_
    let field := Bytes.littleEndian PatchSite.width value.toNat
    have hfield : field.length = PatchSite.width := Bytes.length_littleEndian _ _
    have hfits : site.offset + field.length ≤ bytes.length := by rw [hfield]; exact hsite
    have hlength := Bytes.length_overwrite hfits
    refine (@ih (Bytes.overwrite bytes site.offset field) hrest fun q hq => ?_).mono ?_
      fun _ _ hf => hf
    · rw [hlength]
      exact h q (List.mem_cons_of_mem _ hq)
    · intro _ u hu
      obtain ⟨hlen, hwritten, hkept⟩ := hu
      -- the fields written later do not touch this one
      have hclear : ∀ i, site.Covers i → ∀ q ∈ rest, ¬ q.1.Covers i := by
        intro i hi q hq hcovers
        have := hfirst q hq
        simp only [Apart, PatchSite.range, PatchSite.Covers] at *
        omega
      refine ⟨hlen.trans hlength, fun q hq => ?_, fun i hi => ?_⟩
      · rcases List.mem_cons.1 hq with rfl | hq
        · have hsame := @Bytes.slice_overwrite bytes field site.offset (Nat.not_lt.1 hstart)
          rw [hfield] at hsame
          refine Eq.trans ?_ hsame
          exact Bytes.slice_congr fun i hlow hhigh => hkept i (hclear i ⟨hlow, hhigh⟩)
        · exact hwritten q hq
      · have houtside := hi _ List.mem_cons_self
        rw [hkept i fun q hq => hi q (List.mem_cons_of_mem _ hq)]
        refine Bytes.getElem?_overwrite hfits ?_
        rw [hfield]
        simp only [PatchSite.Covers] at houtside
        omega

/-- Reading a field gives the value that was written. -/
theorem Holds.read {t : Template} {values : List UInt32} {copy : Bytes} (h : t.Holds values copy)
    {p : PatchSite × UInt32} (hp : p ∈ t.sites.zip values) :
    Bytes.ofLittleEndian (Bytes.slice copy p.1.offset PatchSite.width) = p.2.toNat := by
  rw [h p hp, Bytes.ofLittleEndian_littleEndian]
  exact Nat.mod_eq_of_lt p.2.toNat_lt

/-- Two copies with the same values in their fields have the same bytes there. -/
theorem Holds.agree {t : Template} {values : List UInt32} {a b : Bytes}
    (hcount : values.length = t.sites.length) (ha : t.Holds values a) (hb : t.Holds values b)
    {site : PatchSite} (hsite : site ∈ t.sites) {i : Nat} (hi : site.Covers i) : a[i]? = b[i]? := by
  obtain ⟨value, hp⟩ : ∃ value, (site, value) ∈ t.sites.zip values := by
    have hfirst : (t.sites.zip values).map Prod.fst = t.sites :=
      List.map_fst_zip (Nat.le_of_eq hcount.symm)
    rw [← hfirst] at hsite
    obtain ⟨⟨_, value⟩, hp, rfl⟩ := List.mem_map.1 hsite
    exact ⟨value, hp⟩
  obtain ⟨hlow, hhigh⟩ := hi
  have hslices := (ha _ hp).trans (hb _ hp).symm
  have hbytes := congrArg (fun bytes : Bytes => bytes[i - site.offset]?) hslices
  simp only [Bytes.getElem?_slice] at hbytes
  rw [if_pos (by omega), if_pos (by omega), Nat.add_sub_cancel' hlow] at hbytes
  exact hbytes

/-! ## Specialising a copy -/

theorem applyDirection_ensures {t : Template} (ht : t.WellFormed) (direction : Direction)
    (fragment : Bytes) :
    (t.applyDirection direction).Ensures fragment
      (fun _ u => fragment.length = t.length ∧ t.Turned direction fragment u)
      fun f u => fragment.length ≠ t.length ∧ (∃ cause, f = .error cause) ∧ u = fragment := by
  unfold applyDirection checkFragment
  by_cases hlen : fragment.length = t.length
  · simp only [Action.ensures_bind, Action.ensures_get, if_pos hlen, Action.ensures_ofExcept_ok]
    cases direction with
    | forward =>
      have hturned : turned t.flipMask .forward = id := rfl
      exact ⟨hlen, rfl, fun i _ => by rw [hturned, Option.map_id, id], fun _ _ => rfl⟩
    | inverse =>
      have hflips : ∀ site ∈ t.flips, site < fragment.length := fun site hsite => by
        rw [hlen]
        exact ht.flips_lt site hsite
      refine (flipBytes_ensures t.flipMask ht.flips_nodup hflips).mono ?_ fun _ _ hf => hf.elim
      intro _ u hu
      obtain ⟨hulen, hflipped, hkept⟩ := hu
      exact ⟨hlen, hulen, hflipped, hkept⟩
  · simp only [Action.ensures_bind, Action.ensures_get, if_neg hlen]
    exact ⟨hlen, ⟨_, rfl⟩, rfl⟩

theorem applyPatches_ensures {t : Template} (ht : t.WellFormed) (values : List UInt32)
    (fragment : Bytes) :
    (t.applyPatches values).Ensures fragment
      (fun _ u => fragment.length = t.length ∧ t.Accepts values ∧ t.Patched values fragment u)
      fun f u => (fragment.length ≠ t.length ∨ ¬ t.Accepts values) ∧ (∃ cause, f = .error cause) ∧
        u = fragment := by
  unfold applyPatches checkFragment
  by_cases hlen : fragment.length = t.length
  · simp only [Action.ensures_bind, Action.ensures_get, if_pos hlen, Action.ensures_ofExcept_ok]
    by_cases hcount : values.length = t.sites.length
    · rw [if_neg (not_not_intro hcount)]
      split
      · rename_i site value hfind
        refine ⟨.inr fun h => ?_, ⟨_, rfl⟩, rfl⟩
        have hmem := List.mem_of_find?_eq_some hfind
        have hrefused := List.find?_some hfind
        simp [h.2 _ hmem] at hrefused
      · rename_i hfind
        have haccepts : t.Accepts values :=
          ⟨hcount, fun p hp => by simpa using List.find?_eq_none.1 hfind p hp⟩
        have hfirst : (t.sites.zip values).map Prod.fst = t.sites :=
          List.map_fst_zip (Nat.le_of_eq hcount.symm)
        have hapart : (t.sites.zip values).Pairwise fun p q => Apart p.1.range q.1.range := by
          have hsites := ht.sites_apart
          rw [← hfirst, List.pairwise_map] at hsites
          exact hsites
        refine (writeSites_ensures hapart fun p hp => ?_).mono ?_ fun _ _ h => h.elim
        · rw [hlen]
          exact ht.sites_le p.1 (List.of_mem_zip hp).1
        · intro _ u hu
          obtain ⟨hulen, hwritten, hkept⟩ := hu
          exact ⟨hlen, haccepts, hulen, hwritten,
            fun i hi => hkept i fun p hp => hi p.1 (List.of_mem_zip hp).1⟩
    · rw [if_pos hcount]
      exact ⟨.inr fun h => hcount h.1, ⟨_, rfl⟩, rfl⟩
  · simp only [Action.ensures_bind, Action.ensures_get, if_neg hlen]
    exact ⟨.inl hlen, ⟨_, rfl⟩, rfl⟩

/-- Specialising the template's own code. Fields and marked bytes do not touch, so neither step
undoes the other. -/
theorem specialise_ensures {t : Template} (ht : t.WellFormed) (direction : Direction)
    (values : List UInt32) :
    (do t.applyDirection direction; t.applyPatches values :
        Action Bytes (Failure TemplateError) Unit).Ensures t.bytes
      (fun _ u => t.Specialised direction values u)
      fun f _ => ¬ t.Accepts values ∧ ∃ cause, f = .error cause := by
  rw [Action.ensures_bind]
  refine (applyDirection_ensures ht direction t.bytes).mono ?_ fun _ _ hf => absurd rfl hf.1
  intro _ u hu
  obtain ⟨-, hturned⟩ := hu
  refine (applyPatches_ensures ht values u).mono ?_ ?_
  · intro _ v hv
    obtain ⟨hlen, haccepts, hpatched⟩ := hv
    refine ⟨hpatched.length.trans hlen, haccepts, hpatched.field, fun i hi => ?_,
      fun i hi hclear => ?_⟩
    · rw [hpatched.rest i fun site hsite => ht.flips_apart site hsite i hi, hturned.flip i hi]
    · rw [hpatched.rest i hclear, hturned.rest i hi]
  · intro f _ hf
    obtain ⟨hlen | hrefused, hcause, -⟩ := hf
    · exact absurd hturned.length hlen
    · exact ⟨hrefused, hcause⟩

end Template

/-- Every template of a library is well formed and has the number of fields its place asks for. -/
structure Library.WellFormed (lib : Library) : Prop where
  template : ∀ t ∈ lib.templates, t.WellFormed
  leaf_sites : ∀ t ∈ lib.leaves, t.sites.length = Library.leafSites
  fixed_sites : ∀ t ∈ lib.fixed, t.sites.length = 0

theorem Library.wellFormed_of_validate {lib : Library} (h : lib.validate = .ok ()) :
    lib.WellFormed := by
  have sites : ∀ {n : Nat} {t : Template}, checkSites n t = .ok () → t.sites.length = n := by
    intro n t ht
    unfold checkSites at ht
    split at ht
    · assumption
    · cases ht
  obtain ⟨⟨⟩, hvalid, h⟩ := exceptBind_eq_ok.1 h
  obtain ⟨⟨⟩, hleaves, hfixed⟩ := exceptBind_eq_ok.1 h
  rw [exceptForM_eq_ok] at hvalid hleaves hfixed
  exact ⟨fun t ht => t.wellFormed_of_validate (hvalid t ht), fun t ht => sites (hleaves t ht),
    fun t ht => sites (hfixed t ht)⟩

theorem Library.length_pos_of_validate {lib : Library} (h : lib.validate = .ok ()) {t : Template}
    (ht : t ∈ lib.templates) : 0 < t.length := by
  obtain ⟨⟨⟩, hvalid, -⟩ := exceptBind_eq_ok.1 h
  rw [exceptForM_eq_ok] at hvalid
  exact t.length_pos_of_validate (hvalid t ht)

theorem Library.leaf_mem_leaves (lib : Library) (pass : Leaf.Pass) : lib.leaf pass ∈ lib.leaves := by
  refine List.mem_map_of_mem ?_
  cases pass <;> decide

end SplitRadix.Kernel

namespace SplitRadix.Routine

open Kernel Target

/-- Why a kernel is not copied. -/
inductive CopyFailure (template : Template) (patches : List UInt32) (buffer : Code.Buffer) :
    Failure GenerateError → Prop where
  | noRoom (h : buffer.remaining < template.length) (cause : Code.BufferError) :
    CopyFailure template patches buffer (.error (.buffer cause))
  | outOfWord (h : 2 ^ 64 ≤ buffer.position + template.length) (x : Fault) :
    CopyFailure template patches buffer (.fault x)
  | refused (h : ¬ template.Accepts patches) (cause : TemplateError) :
    CopyFailure template patches buffer (.error (.template cause))

/-- A copy of a kernel is written at the cursor, specialised. -/
theorem copy_ensures {σ : Type} (direction : Direction) {template : Template}
    (ht : template.WellFormed) (patches : List UInt32) (e : Emission σ) :
    (copy direction template patches).Ensures e
      (fun fragment t =>
        fragment = ⟨template.name, e.buffer.position, template.length⟩ ∧
        ∃ bytes : Bytes, template.Specialised direction patches bytes ∧
          t = { e with buffer := e.buffer.push bytes })
      fun f _ => CopyFailure template patches e.buffer f := by
  unfold copy Emit.append
  simp only [Action.ensures_bind, Emit.ensures_onBuffer, Code.Buffer.ensures_append]
  refine ⟨fun hroom => ?_, fun hroom => .noRoom hroom _⟩
  refine (Code.Buffer.edit_push_ensures e.buffer
    (Template.specialise_ensures ht direction patches) fun u hu => hu.length).mono ?_ ?_
  · intro _ t hcopied
    obtain ⟨bytes, hbytes, rfl⟩ := hcopied
    refine ⟨?_, bytes, hbytes, rfl⟩
    show Fragment.mk _ _ (e.buffer.position + bytes.length - e.buffer.position) = _
    rw [hbytes.length, Nat.add_sub_cancel_left]
  · intro f _ hf
    rcases hf with ⟨x, rfl, hover⟩ | ⟨u, hrefused, cause, rfl⟩
    · exact .outOfWord hover x
    · exact .refused hrefused cause

end SplitRadix.Routine
