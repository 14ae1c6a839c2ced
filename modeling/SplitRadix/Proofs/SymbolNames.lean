import SplitRadix.Proofs.ObjectReading

/-!
# The names of a routine's symbols

The three symbols of a routine are called by one name, alone and with `_x4` and `_x8` appended. The
chosen name may end one of the others, and then it has no room of its own in the string table. In
any case there is just one place in the table where each of the three names is read.

* `nameAt_terminated`: a name is read inside the first entry or after it.
* `nameAt_inj`: a name that ends at most one entry is read at one place only.
* `kept`, `bytes_ofNames`: the entries of a table.
* `pairwise_kept`, `place_unique`: each of the three names is read at its place only.
-/

namespace SplitRadix.ObjectFile

/-- A name is read inside the first entry of a table or after it. -/
theorem nameAt_terminated {entry : Bytes} (h : 0 ∉ entry) (rest : Bytes) (place : Nat) :
    nameAt (entry ++ 0 :: rest) place =
      if place ≤ entry.length then some (entry.drop place)
      else nameAt rest (place - (entry.length + 1)) := by
  by_cases hle : place ≤ entry.length
  · rw [if_pos hle]
    refine nameAt_of_drop (List.drop_append_of_le_length hle) fun hzero => ?_
    exact h (List.mem_of_mem_drop hzero)
  · rw [if_neg hle]
    have hdrop : (entry ++ 0 :: rest).drop place = rest.drop (place - (entry.length + 1)) := by
      rw [List.drop_append, List.drop_eq_nil_of_le (by omega), List.nil_append,
        show place - entry.length = place - (entry.length + 1) + 1 by omega, List.drop_succ_cons]
    rw [nameAt, nameAt, hdrop]

namespace StringTable

variable {name : Bytes} {entries : List Bytes} {p q : Nat}

theorem listed_cons (entry : Bytes) (entries : List Bytes) :
    listed (entry :: entries) = entry ++ 0 :: listed entries := by
  rw [listed, List.flatMap_cons, List.append_assoc]
  rfl

/-- What is read among some entries ends one of them. -/
theorem exists_suffix_of_nameAt (hzero : ∀ entry ∈ entries, 0 ∉ entry)
    (h : nameAt (listed entries) p = some name) : ∃ entry ∈ entries, name <:+ entry := by
  induction entries generalizing p with
  | nil =>
    have hnone : nameAt (listed []) p = none := by simp [nameAt, listed]
    rw [hnone] at h
    cases h
  | cons entry entries ih =>
    obtain ⟨hfirst, hrest⟩ := List.forall_mem_cons.1 hzero
    rw [listed_cons, nameAt_terminated hfirst] at h
    split at h
    · cases h
      exact ⟨entry, List.mem_cons_self, List.drop_suffix _ _⟩
    · obtain ⟨other, hother, hsuffix⟩ := ih hrest h
      exact ⟨other, List.mem_cons_of_mem _ hother, hsuffix⟩

/-- A name that ends at most one entry is read at one place only. -/
theorem nameAt_inj (hzero : ∀ entry ∈ entries, 0 ∉ entry)
    (hpairs : entries.Pairwise fun a b => ¬ (name <:+ a ∧ name <:+ b))
    (hp : nameAt (listed entries) p = some name) (hq : nameAt (listed entries) q = some name) :
    p = q := by
  induction entries generalizing p q with
  | nil =>
    have hnone : nameAt (listed []) p = none := by simp [nameAt, listed]
    rw [hnone] at hp
    cases hp
  | cons entry entries ih =>
    obtain ⟨hfirst, hrest⟩ := List.forall_mem_cons.1 hzero
    obtain ⟨hapart, hpairs⟩ := List.pairwise_cons.1 hpairs
    -- no name is read both in the first entry and after it
    have hclash : ∀ {i j}, some (entry.drop i) = some name →
        nameAt (listed entries) j ≠ some name := by
      intro i j hi hj
      obtain ⟨other, hother, hsuffix⟩ := exists_suffix_of_nameAt hrest hj
      cases hi
      exact hapart other hother ⟨List.drop_suffix _ _, hsuffix⟩
    rw [listed_cons, nameAt_terminated hfirst] at hp hq
    split at hp
    · split at hq
      · have hlength := congrArg List.length (Option.some.inj (hp.trans hq.symm))
        simp only [List.length_drop] at hlength
        omega
      · exact absurd hq (hclash hp)
    · split at hq
      · exact absurd hp (hclash hq)
      · have := ih hrest hpairs hp hq
        omega

/-! ## Three names -/

theorem descending_of_isPrefix {a b : Bytes} (h : a <+: b) (hne : a ≠ b) :
    descending a b = false := by
  induction a generalizing b with
  | nil =>
    cases b with
    | nil => exact absurd rfl hne
    | cons _ _ => rfl
  | cons x a ih =>
    obtain ⟨rest, rfl⟩ := h
    have htail := ih (List.prefix_append a rest) fun heq => hne (congrArg (x :: ·) heq)
    simp [descending, htail]

/-- A name that ends another comes after it. -/
theorem nameBefore_of_suffix {a b : Bytes} (h : a <:+ b) (hne : a ≠ b) : nameBefore a b = false :=
  descending_of_isPrefix (List.reverse_prefix.2 h) fun heq => hne (List.reverse_inj.1 heq)

theorem nameBefore_concat (a b : Bytes) (x y : UInt8) :
    nameBefore (a ++ [x]) (b ++ [y]) = (decide (y < x) || (x == y && nameBefore a b)) := by
  simp only [nameBefore, List.reverse_append, List.reverse_singleton, List.singleton_append,
    descending]

theorem eq_of_suffix_concat {a b : Bytes} {x y : UInt8} (h : a ++ [x] <:+ b ++ [y]) : x = y := by
  rcases List.suffix_concat_iff.1 h with hnil | ⟨t, ht, -⟩
  · simp at hnil
  · exact (List.append_inj' ht rfl).2 |> List.singleton_inj.1

/-- The names that get room of their own, after one called `last`. -/
def kept (last : Bytes) : List Bytes → List Bytes
  | [] => []
  | name :: names => if name <:+ last then kept last names else name :: kept name names

theorem bytes_foldl_add (names : List Bytes) (t : StringTable) :
    (names.foldl add t).bytes = t.bytes ++ listed (kept t.last names) := by
  induction names generalizing t with
  | nil => exact (List.append_nil _).symm
  | cons name names ih =>
    rw [List.foldl_cons, ih, add, kept]
    by_cases h : name <:+ t.last
    · rw [if_pos (List.isSuffixOf_iff_suffix.2 h), if_pos h]
    · rw [if_neg (fun hsuffix => h (List.isSuffixOf_iff_suffix.1 hsuffix)), if_neg h, listed_cons]
      simp

/-- A table is a zero byte and then its entries. -/
theorem bytes_ofNames (names : List Bytes) :
    (ofNames names).bytes = 0 :: listed (kept [] (orderNames names)) :=
  bytes_foldl_add _ _

theorem mem_of_mem_kept {last entry : Bytes} {names : List Bytes} (h : entry ∈ kept last names) :
    entry ∈ names := by
  induction names generalizing last with
  | nil => cases h
  | cons name names ih =>
    rw [kept] at h
    split at h
    · exact List.mem_cons_of_mem _ (ih h)
    · rw [List.mem_cons] at h ⊢
      exact h.imp id ih

theorem mem_of_mem_orderNames {names : List Bytes} (h : name ∈ orderNames names) : name ∈ names := by
  induction names with
  | nil => cases h
  | cons first names ih =>
    rw [orderNames, mem_insertName] at h
    exact List.mem_cons.2 (h.imp id ih)

section Variants

variable (name)

/-- The name with `_x4` appended. -/
def x4Name : Bytes := name ++ [0x5F, 0x78, 0x34]

/-- The name with `_x8` appended. -/
def x8Name : Bytes := name ++ [0x5F, 0x78, 0x38]

theorem ne_x4Name : name ≠ x4Name name := fun h => by
  simpa [x4Name] using congrArg List.length h

theorem ne_x8Name : name ≠ x8Name name := fun h => by
  simpa [x8Name] using congrArg List.length h

theorem orderNames_variants :
    orderNames [name, x4Name name, x8Name name] =
      if nameBefore name (x8Name name) then [name, x8Name name, x4Name name]
      else if nameBefore name (x4Name name) then [x8Name name, name, x4Name name]
      else [x8Name name, x4Name name, name] := by
  have hne : x4Name name ≠ x8Name name := by simp [x4Name, x8Name]
  have hbefore : nameBefore (x4Name name) (x8Name name) = false := by
    have hconcat := nameBefore_concat (name ++ [0x5F, 0x78]) (name ++ [0x5F, 0x78]) 0x34 0x38
    simpa [x4Name, x8Name] using hconcat
  simp only [orderNames, insertName, if_neg hne, hbefore, if_neg (ne_x4Name name),
    if_neg (ne_x8Name name), Bool.false_eq_true, if_false]
  cases nameBefore name (x8Name name) <;> cases nameBefore name (x4Name name) <;> rfl

variable {name}

theorem x4Name_eq_concat : x4Name name = (name ++ [0x5F, 0x78]) ++ [0x34] := by simp [x4Name]

theorem x8Name_eq_concat : x8Name name = (name ++ [0x5F, 0x78]) ++ [0x38] := by simp [x8Name]

theorem not_x4Name_suffix : ¬ x4Name name <:+ name := fun h => by
  have := h.length_le
  simp only [x4Name, List.length_append, List.length_cons, List.length_nil] at this
  omega

theorem not_x8Name_suffix : ¬ x8Name name <:+ name := fun h => by
  have := h.length_le
  simp only [x8Name, List.length_append, List.length_cons, List.length_nil] at this
  omega

theorem not_x4Name_suffix_x8Name : ¬ x4Name name <:+ x8Name name := fun h => by
  rw [x4Name_eq_concat, x8Name_eq_concat] at h
  exact absurd (eq_of_suffix_concat h) (by decide)

theorem not_x8Name_suffix_x4Name : ¬ x8Name name <:+ x4Name name := fun h => by
  rw [x4Name_eq_concat, x8Name_eq_concat] at h
  exact absurd (eq_of_suffix_concat h) (by decide)

/-- A name that ends the one with `_x8` comes between the other two. -/
theorem nameBefore_of_suffix_x8Name (hname : name ≠ []) (h : name <:+ x8Name name) :
    nameBefore name (x8Name name) = false ∧ nameBefore name (x4Name name) = true := by
  refine ⟨nameBefore_of_suffix h (ne_x8Name name), ?_⟩
  obtain ⟨front, final, rfl⟩ : ∃ front final, name = front ++ [final] :=
    ⟨_, _, (List.dropLast_concat_getLast hname).symm⟩
  rw [x8Name_eq_concat] at h
  rw [x4Name_eq_concat, nameBefore_concat, eq_of_suffix_concat h]
  rfl

/-- A name that ends the one with `_x4` comes last. -/
theorem nameBefore_of_suffix_x4Name (hname : name ≠ []) (h : name <:+ x4Name name) :
    nameBefore name (x8Name name) = false ∧ nameBefore name (x4Name name) = false := by
  refine ⟨?_, nameBefore_of_suffix h (ne_x4Name name)⟩
  obtain ⟨front, final, rfl⟩ : ∃ front final, name = front ++ [final] :=
    ⟨_, _, (List.dropLast_concat_getLast hname).symm⟩
  rw [x4Name_eq_concat] at h
  rw [x8Name_eq_concat, nameBefore_concat, eq_of_suffix_concat h]
  rfl

/-- None of the three names ends both. -/
def Apart (name a b : Bytes) : Prop :=
  ∀ n ∈ [name, x4Name name, x8Name name], ¬ (n <:+ a ∧ n <:+ b)

theorem Apart.symm {a b : Bytes} (h : Apart name a b) : Apart name b a := fun n hn hboth =>
  h n hn ⟨hboth.2, hboth.1⟩

theorem apart_x8Name_x4Name (hname : name ≠ []) : Apart name (x8Name name) (x4Name name) := by
  simp only [Apart, List.forall_mem_cons]
  refine ⟨fun h => ?_, fun h => not_x4Name_suffix_x8Name h.1, fun h => not_x8Name_suffix_x4Name h.2,
    List.forall_mem_nil _⟩
  have hbefore := (nameBefore_of_suffix_x8Name hname h.1).2
  rw [(nameBefore_of_suffix_x4Name hname h.2).2] at hbefore
  cases hbefore

/-- A name that does not end an entry is apart from it. -/
theorem apart_of_not_suffix {entry : Bytes} (h : ¬ name <:+ entry) : Apart name name entry := by
  simp only [Apart, List.forall_mem_cons]
  exact ⟨fun hboth => h hboth.2, fun hboth => not_x4Name_suffix hboth.1,
    fun hboth => not_x8Name_suffix hboth.1, List.forall_mem_nil _⟩

/-- Each of the three names ends one entry of their table at most. -/
theorem pairwise_kept (hname : name ≠ []) :
    (kept [] (orderNames [name, x4Name name, x8Name name])).Pairwise (Apart name) := by
  have hnil : ¬ name <:+ [] := fun h => hname (List.suffix_nil.1 h)
  have hnil8 : ¬ x8Name name <:+ [] := fun h => by simp [x8Name] at h
  have hapart := apart_x8Name_x4Name hname
  rw [orderNames_variants]
  by_cases hbefore8 : nameBefore name (x8Name name) = true
  · have h8 : ¬ name <:+ x8Name name := fun h => by
      rw [(nameBefore_of_suffix_x8Name hname h).1] at hbefore8
      cases hbefore8
    have h4 : ¬ name <:+ x4Name name := fun h => by
      rw [(nameBefore_of_suffix_x4Name hname h).1] at hbefore8
      cases hbefore8
    rw [if_pos hbefore8]
    simp [kept, hnil, not_x8Name_suffix, not_x4Name_suffix_x8Name, hapart, apart_of_not_suffix h8,
      apart_of_not_suffix h4]
  · rw [if_neg hbefore8]
    by_cases hbefore4 : nameBefore name (x4Name name) = true
    · have h4 : ¬ name <:+ x4Name name := fun h => by
        rw [(nameBefore_of_suffix_x4Name hname h).2] at hbefore4
        cases hbefore4
      rw [if_pos hbefore4]
      by_cases h8 : name <:+ x8Name name
      · simp [kept, hnil8, h8, not_x4Name_suffix_x8Name, hapart]
      · simp [kept, hnil8, h8, not_x4Name_suffix, hapart, apart_of_not_suffix h4,
          (apart_of_not_suffix h8).symm]
    · have h8 : ¬ name <:+ x8Name name := fun h =>
        hbefore4 (nameBefore_of_suffix_x8Name hname h).2
      rw [if_neg hbefore4]
      by_cases h4 : name <:+ x4Name name
      · simp [kept, hnil8, h4, not_x4Name_suffix_x8Name, hapart]
      · simp [kept, hnil8, h4, not_x4Name_suffix_x8Name, hapart, (apart_of_not_suffix h4).symm,
          (apart_of_not_suffix h8).symm]

/-- Each of the three names is read at its place only. -/
theorem place_unique (hname : name ≠ []) (hzero : 0 ∉ name) {n : Bytes} {p : Nat}
    (hn : n ∈ [name, x4Name name, x8Name name])
    (h : nameAt (ofNames [name, x4Name name, x8Name name]).bytes p = some n) :
    p = (ofNames [name, x4Name name, x8Name name]).place n := by
  have hfree : ∀ entry ∈ [name, x4Name name, x8Name name], 0 ∉ entry ∧ entry ≠ [] := by
    simp [x4Name, x8Name, hzero, hname]
  have hplace := nameAt_of_holds (holds_place hn) (hfree n hn).1
  generalize (ofNames [name, x4Name name, x8Name name]).place n = q at hplace ⊢
  rw [bytes_ofNames, show (0 :: listed _ : Bytes) = [] ++ 0 :: listed _ from rfl,
    nameAt_terminated List.not_mem_nil] at h hplace
  -- a name is not empty, so it is read after the first byte
  have hlater : ∀ {i : Nat}, some (([] : Bytes).drop i) ≠ some n := fun {i} heq => by
    rw [List.drop_nil] at heq
    exact (hfree n hn).2 (Option.some.inj heq).symm
  split at h
  · exact absurd h hlater
  · split at hplace
    · exact absurd hplace hlater
    · have := nameAt_inj
        (fun entry hentry => (hfree entry (mem_of_mem_orderNames (mem_of_mem_kept hentry))).1)
        ((pairwise_kept hname).imp fun hpair => hpair n hn) h hplace
      simp only [List.length_nil] at *
      omega

/-- Where the name with `_x4` goes if the chosen name comes first: after both others. -/
theorem place_x4Name (hname : name ≠ []) (hzero : 0 ∉ name)
    (hbefore : nameBefore name (x8Name name) = true) :
    (ofNames [name, x4Name name, x8Name name]).place (x4Name name) = 2 * name.length + 6 := by
  have hnil : ¬ name <:+ [] := fun h => hname (List.suffix_nil.1 h)
  have hzero4 : 0 ∉ x4Name name := by simp [x4Name, hzero]
  have hzero8 : 0 ∉ x8Name name := by simp [x8Name, hzero]
  have hlength : (x8Name name).length = name.length + 3 := by simp [x8Name]
  refine (place_unique hname hzero (by simp) ?_).symm
  have hkept : kept [] [name, x8Name name, x4Name name] = [name, x8Name name, x4Name name] := by
    simp [kept, hnil, not_x8Name_suffix, not_x4Name_suffix_x8Name]
  rw [bytes_ofNames, orderNames_variants, if_pos hbefore, hkept]
  rw [show (0 :: listed _ : Bytes) = [] ++ 0 :: listed _ from rfl,
    nameAt_terminated List.not_mem_nil, if_neg (by simp), listed_cons, nameAt_terminated hzero,
    if_neg (by simp; omega), listed_cons, nameAt_terminated hzero8,
    if_neg (by rw [hlength]; simp; omega), listed_cons, nameAt_terminated hzero4,
    if_pos (by rw [hlength]; simp; omega), hlength]
  congr 1
  rw [List.length_nil, show 2 * name.length + 6 - (0 + 1) - (name.length + 1) - (name.length + 3 + 1) = 0
    by omega, List.drop_zero]

end Variants

end StringTable

end SplitRadix.ObjectFile
