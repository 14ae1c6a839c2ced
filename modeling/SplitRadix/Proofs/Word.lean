import SplitRadix.Word

/-!
# Computations that can fault

When a computation made of checked steps gives a value, and that value: each step gave one, and word
arithmetic gave the exact result.
-/

namespace SplitRadix

/-- A sequence of two computations gives a value only if both do. -/
theorem exceptBind_eq_ok {ε α β : Type} {x : Except ε α} {f : α → Except ε β} {b : β} :
    x >>= f = .ok b ↔ ∃ a, x = .ok a ∧ f a = .ok b := by
  cases x with
  | error e => exact ⟨nofun, fun ⟨_, h, _⟩ => nomatch h⟩
  | ok a => exact ⟨fun h => ⟨a, rfl, h⟩, fun ⟨_, ha, h⟩ => by cases ha; exact h⟩

theorem exceptBind_total {ε α β : Type} {x : Except ε α} {f : α → Except ε β} {a : α}
    (hx : x = .ok a) (h : ∃ b, f a = .ok b) : ∃ b, x >>= f = .ok b := by
  obtain ⟨b, hb⟩ := h
  exact ⟨b, exceptBind_eq_ok.2 ⟨a, hx, hb⟩⟩

/-- The value of a closed computation can be found by evaluation. -/
theorem eq_ok_of_toOption {ε α : Type} {x : Except ε α} {a : α} (h : x.toOption = some a) :
    x = .ok a := by
  cases x with
  | ok _ => exact congrArg _ (Option.some.inj h)
  | error _ => cases h

/-- A computation that can fault, among computations that can also report errors. -/
theorem lift_eq_ok {ε α : Type} {x : Except Fault α} {a : α} :
    (liftM x : Except (Failure ε) α) = .ok a ↔ x = .ok a := by
  cases x with
  | error y => exact ⟨nofun, nofun⟩
  | ok b => exact ⟨fun h => by cases h; rfl, fun h => by cases h; rfl⟩

/-- A check of every element passes only if all of them pass. -/
theorem exceptForM_eq_ok {ε α : Type} {f : α → Except ε Unit} {l : List α} :
    l.forM f = .ok () ↔ ∀ a ∈ l, f a = .ok () := by
  induction l with
  | nil => exact ⟨fun _ => nofun, fun _ => rfl⟩
  | cons a l ih =>
    show (f a >>= fun _ => l.forM f) = .ok () ↔ _
    rw [exceptBind_eq_ok, List.forall_mem_cons, ← ih]
    exact ⟨fun ⟨(), ha, h⟩ => ⟨ha, h⟩, fun ⟨ha, h⟩ => ⟨(), ha, h⟩⟩

/-- A list of computations that all give a value gives the list of the values. -/
theorem exceptMapM_of_ok {ε α β : Type} {f : α → Except ε β} {g : α → β} {l : List α}
    (h : ∀ a ∈ l, f a = .ok (g a)) : l.mapM f = .ok (l.map g) := by
  induction l with
  | nil => rfl
  | cons a l ih =>
    have htail := ih fun b hb => h b (List.mem_cons_of_mem a hb)
    rw [List.mapM_cons, h a List.mem_cons_self, htail]
    rfl

theorem eq_map_of_exceptMapM {ε α β : Type} {f : α → Except ε β} {g : α → β}
    (hf : ∀ {a b}, f a = .ok b → b = g a) {l : List α} {bs : List β} (h : l.mapM f = .ok bs) :
    bs = l.map g := by
  induction l generalizing bs with
  | nil => cases h; rfl
  | cons a l ih =>
    rw [List.mapM_cons] at h
    obtain ⟨b, hb, h⟩ := exceptBind_eq_ok.1 h
    obtain ⟨tail, htail, h⟩ := exceptBind_eq_ok.1 h
    cases h
    rw [hf hb, ih htail, List.map_cons]

namespace Word

theorem fit_eq_error {bits : Nat} {x y : Fault} {n : Nat} :
    fit bits x n = .error y ↔ x = y ∧ ¬ n < 2 ^ bits := by
  unfold fit
  split <;> simp [*]

theorem add_eq_ok {a b c : Nat} : add a b = .ok c ↔ a + b = c ∧ a + b < 2 ^ 64 := fit_eq_ok

theorem add_of_lt {a b : Nat} (h : a + b < 2 ^ 64) : add a b = .ok (a + b) :=
  add_eq_ok.2 ⟨rfl, h⟩

theorem le_of_add_eq_error {a b : Nat} {x : Fault} (h : add a b = .error x) : 2 ^ 64 ≤ a + b := by
  by_cases hlt : a + b < 2 ^ 64
  · rw [add_of_lt hlt] at h
    cases h
  · omega

theorem sub_eq_ok {a b c : Nat} : sub a b = .ok c ↔ b ≤ a ∧ a - b = c := by
  unfold sub
  split <;> simp [*]

theorem mul_eq_ok {a b c : Nat} : mul a b = .ok c ↔ a * b = c ∧ a * b < 2 ^ 64 := fit_eq_ok

theorem mul_of_lt {a b : Nat} (h : a * b < 2 ^ 64) : mul a b = .ok (a * b) :=
  mul_eq_ok.2 ⟨rfl, h⟩

/-- Different words are different signed numbers. -/
theorem toSigned_inj {m n : Nat} (hm : m < 2 ^ 64) (hn : n < 2 ^ 64) :
    toSigned m = toSigned n ↔ m = n := by
  unfold toSigned
  split <;> split <;> omega

theorem low32OfInt_toSigned {n : Nat} (h : n < 2 ^ 63) :
    low32OfInt (toSigned n) = UInt32.ofNat n := by
  have hvalue : (toSigned n % 2 ^ 32).toNat = n % 2 ^ 32 := by
    unfold toSigned
    rw [if_pos h]
    omega
  unfold low32OfInt
  rw [hvalue]
  exact UInt32.ofNat_mod_size

end Word

end SplitRadix
