import SplitRadix.Fault

/-!
# What an action ends with

An action that fails keeps the state it reached, so a statement about it has two sides: what holds
when it gives a value, and what holds when it fails. `Ensures act s ok fail` says both for a run
from `s`. There is one rule for each way actions are put together:

* `ensures_bind`: the second part starts where the first one ended, and failures pass through;
* `ensures_ofExcept`, `ensures_lift`: computations without state;
* `ensures_forM`: an invariant over the elements still to come.

Where only a value matters, `result_bind_eq_ok` takes a run apart.
-/

namespace SplitRadix.Action

variable {σ ε α β : Type} {s t : σ} {act : Action σ ε α} {next : α → Action σ ε β}
variable {ok : α → σ → Prop} {fail : ε → σ → Prop}

/-- A run from `s` that gives a value ends as `ok` says, and one that fails as `fail` says. -/
def Ensures (act : Action σ ε α) (s : σ) (ok : α → σ → Prop) (fail : ε → σ → Prop) : Prop :=
  match act.result s with
  | (.ok a, t) => ok a t
  | (.error e, t) => fail e t

theorem ensures_iff : act.Ensures s ok fail ↔
    (∀ a t, act.result s = (.ok a, t) → ok a t) ∧
      ∀ e t, act.result s = (.error e, t) → fail e t := by
  unfold Ensures
  rcases act.result s with ⟨_ | _, _⟩ <;> simp

theorem Ensures.of_ok (h : act.Ensures s ok fail) {a : α} (hr : act.result s = (.ok a, t)) :
    ok a t :=
  (ensures_iff.1 h).1 a t hr

theorem Ensures.of_error (h : act.Ensures s ok fail) {e : ε} (hr : act.result s = (.error e, t)) :
    fail e t :=
  (ensures_iff.1 h).2 e t hr

/-- A run ends in one of the two ways. -/
theorem Ensures.ended (h : act.Ensures s ok fail) :
    (∃ a t, act.result s = (.ok a, t) ∧ ok a t) ∨
      ∃ e t, act.result s = (.error e, t) ∧ fail e t := by
  rcases hr : act.result s with ⟨e | a, t⟩
  · exact .inr ⟨e, t, rfl, h.of_error hr⟩
  · exact .inl ⟨a, t, rfl, h.of_ok hr⟩

theorem Ensures.mono {ok' : α → σ → Prop} {fail' : ε → σ → Prop} (h : act.Ensures s ok fail)
    (hok : ∀ a t, ok a t → ok' a t) (hfail : ∀ e t, fail e t → fail' e t) :
    act.Ensures s ok' fail' := by
  rw [ensures_iff] at h ⊢
  exact ⟨fun a t hr => hok a t (h.1 a t hr), fun e t hr => hfail e t (h.2 e t hr)⟩

theorem Ensures.of_result_ok {a : α} (hr : act.result s = (.ok a, t)) (h : ok a t) :
    act.Ensures s ok fail := by
  unfold Ensures
  rw [hr]
  exact h

theorem Ensures.of_result_error {e : ε} (hr : act.result s = (.error e, t)) (h : fail e t) :
    act.Ensures s ok fail := by
  unfold Ensures
  rw [hr]
  exact h

/-! ## Runs that give a value -/

/-- Whether a closed run gives a value can be found by evaluation. -/
theorem exists_of_isOk (h : (act.result s).1.isOk = true) : ∃ a t, act.result s = (.ok a, t) := by
  rcases hr : act.result s with ⟨_ | a, t⟩
  · rw [hr] at h
    cases h
  · exact ⟨a, t, rfl⟩

/-- A run of two parts that gives a value is a run of each of them that does. -/
theorem result_bind_eq_ok {b : β} {u : σ} : (act >>= next).result s = (.ok b, u) ↔
    ∃ a t, act.result s = (.ok a, t) ∧ (next a).result t = (.ok b, u) := by
  rw [result_bind]
  rcases act.result s with ⟨_ | a, t⟩
  · exact ⟨nofun, nofun⟩
  · exact ⟨fun h => ⟨a, t, rfl, h⟩, fun ⟨_, _, hact, h⟩ => by cases hact; exact h⟩

theorem result_lift_eq_ok {δ : Type} {x : Except Fault α} {a : α} :
    (liftM x : Action σ (Failure δ) α).result s = (.ok a, t) ↔ x = .ok a ∧ s = t := by
  cases x with
  | ok _ => exact ⟨fun h => by cases h; exact ⟨rfl, rfl⟩, fun h => by cases h.1; cases h.2; rfl⟩
  | error _ => exact ⟨nofun, fun h => by cases h.1⟩

theorem result_ofExcept_eq_ok {x : Except ε α} {a : α} :
    (ofExcept x : Action σ ε α).result s = (.ok a, t) ↔ x = .ok a ∧ s = t := by
  simp [result, ofExcept, ExceptT.run]

/-! ## Parts of actions -/

@[simp] theorem ensures_pure {a : α} : (pure a : Action σ ε α).Ensures s ok fail ↔ ok a s :=
  Iff.rfl

@[simp] theorem ensures_bind {ok : β → σ → Prop} :
    (act >>= next).Ensures s ok fail ↔
      act.Ensures s (fun a t => (next a).Ensures t ok fail) fail := by
  unfold Ensures
  rw [result_bind]
  rcases act.result s with ⟨_ | _, _⟩ <;> rfl

@[simp] theorem ensures_throw {e : ε} : (throw e : Action σ ε α).Ensures s ok fail ↔ fail e s :=
  Iff.rfl

@[simp] theorem ensures_get {ok : σ → σ → Prop} :
    (get : Action σ ε σ).Ensures s ok fail ↔ ok s s :=
  Iff.rfl

@[simp] theorem ensures_modify {ok : PUnit → σ → Prop} {f : σ → σ} :
    (modify f : Action σ ε PUnit).Ensures s ok fail ↔ ok ⟨⟩ (f s) :=
  Iff.rfl

@[simp] theorem ensures_view {f : σ → α} :
    (view f : Action σ ε α).Ensures s ok fail ↔ ok (f s) s :=
  Iff.rfl

theorem ensures_ofExcept {x : Except ε α} :
    (ofExcept x : Action σ ε α).Ensures s ok fail ↔
      (∀ a, x = .ok a → ok a s) ∧ ∀ e, x = .error e → fail e s := by
  cases x <;> simp [Ensures, result, ofExcept, ExceptT.run]

/-- A computation that can only fault, in an action that can also report errors. -/
theorem ensures_lift {δ : Type} {x : Except Fault α} {fail : Failure δ → σ → Prop} :
    (liftM x : Action σ (Failure δ) α).Ensures s ok fail ↔
      (∀ a, x = .ok a → ok a s) ∧ ∀ y, x = .error y → fail (.fault y) s := by
  cases x with
  | ok a => exact ⟨fun h => ⟨fun _ ha => by cases ha; exact h, nofun⟩, fun h => h.1 a rfl⟩
  | error y => exact ⟨fun h => ⟨nofun, fun _ hy => by cases hy; exact h⟩, fun h => h.2 y rfl⟩

theorem ensures_ofExcept_ok {a : α} :
    (ofExcept (.ok a) : Action σ ε α).Ensures s ok fail ↔ ok a s :=
  Iff.rfl

theorem ensures_lift_ok {δ : Type} {a : α} {fail : Failure δ → σ → Prop} :
    (liftM (.ok a : Except Fault α) : Action σ (Failure δ) α).Ensures s ok fail ↔ ok a s :=
  Iff.rfl

theorem ensures_lift_error {δ : Type} {x : Fault} {fail : Failure δ → σ → Prop} :
    (liftM (.error x : Except Fault α) : Action σ (Failure δ) α).Ensures s ok fail ↔
      fail (.fault x) s :=
  Iff.rfl

theorem ensures_liftFault {x : Except Fault α} {fail : Fault → σ → Prop} :
    (liftM x : Action σ Fault α).Ensures s ok fail ↔
      (∀ a, x = .ok a → ok a s) ∧ ∀ y, x = .error y → fail y s := by
  cases x with
  | ok a => exact ⟨fun h => ⟨fun _ ha => by cases ha; exact h, nofun⟩, fun h => h.1 a rfl⟩
  | error y => exact ⟨fun h => ⟨nofun, fun _ hy => by cases hy; exact h⟩, fun h => h.2 y rfl⟩

/-! ## Lists of actions -/

/-- The invariant `inv l` holds while the elements `l` are still to come. -/
theorem ensures_forM {f : α → Action σ ε Unit} (inv : List α → σ → Prop)
    (step : ∀ a l s, inv (a :: l) s → (f a).Ensures s (fun _ t => inv l t) fail) :
    ∀ (l : List α) (s : σ), inv l s → (l.forM f).Ensures s (fun _ t => inv [] t) fail
  | [], _, h => h
  | a :: l, s, h => by
    show (f a >>= fun _ => l.forM f).Ensures s _ fail
    rw [ensures_bind]
    exact (step a l s h).mono (fun _ t ht => ensures_forM inv step l t ht) fun _ _ hf => hf

theorem ensures_mapM {f : α → Action σ ε β} (inv : List α → σ → Prop)
    (step : ∀ a l s, inv (a :: l) s → (f a).Ensures s (fun _ t => inv l t) fail) :
    ∀ (l : List α) (s : σ), inv l s → (l.mapM f).Ensures s (fun _ t => inv [] t) fail
  | [], _, h => h
  | a :: l, s, h => by
    rw [List.mapM_cons, ensures_bind]
    refine (step a l s h).mono (fun _ t ht => ?_) fun _ _ hf => hf
    rw [ensures_bind]
    exact (ensures_mapM inv step l t ht).mono (fun _ _ hu => hu) fun _ _ hf => hf

end SplitRadix.Action
