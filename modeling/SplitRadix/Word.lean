import SplitRadix.Fault

/-!
# Word arithmetic

Sizes, offsets and addresses are natural numbers below 2^64. The operations here compute in `Nat`
or `Int` and fault where the result leaves its word, so that a result, when there is one, is the
exact one. Narrowing to 32 bits is explicit (`low32`).
-/

namespace SplitRadix

/-- Powers are those of the core library, also where another library has its own. -/
@[default_instance 20000]
instance (priority := 20000) power {α : Type} [NatPow α] : Pow α Nat := instPowNat

end SplitRadix

namespace SplitRadix.Word

/-- The exact result `n` if it fits `bits` bits, else the fault `x`. -/
def fit (bits : Nat) (x : Fault) (n : Nat) : Except Fault Nat :=
  if n < 2 ^ bits then .ok n else .error x

theorem fit_eq_ok {bits : Nat} {x : Fault} {n m : Nat} :
    fit bits x n = .ok m ↔ n = m ∧ n < 2 ^ bits := by
  unfold fit
  split <;> simp [*]

def add (a b : Nat) : Except Fault Nat := fit 64 .addOverflow (a + b)

def mul (a b : Nat) : Except Fault Nat := fit 64 .mulOverflow (a * b)

def sub (a b : Nat) : Except Fault Nat :=
  if b ≤ a then .ok (a - b) else .error .subOverflow

def div (a b : Nat) : Except Fault Nat :=
  if b = 0 then .error .divideByZero else .ok (a / b)

def add32 (a b : Nat) : Except Fault Nat := fit 32 .addOverflow (a + b)

def mul32 (a b : Nat) : Except Fault Nat := fit 32 .mulOverflow (a * b)

/-- The low 32 bits. -/
def low32 (n : Nat) : Nat := n % 2 ^ 32

/-- The exact result `n` if it fits a signed 64-bit word, else the fault `x`. -/
def fitSigned (x : Fault) (n : Int) : Except Fault Int :=
  if -(2 ^ 63) ≤ n ∧ n < 2 ^ 63 then .ok n else .error x

def subSigned (a b : Int) : Except Fault Int := fitSigned .subOverflow (a - b)

def mulSigned (a b : Int) : Except Fault Int := fitSigned .mulOverflow (a * b)

/-- A 64-bit word read as a signed number. -/
def toSigned (n : Nat) : Int := if n < 2 ^ 63 then n else (n : Int) - 2 ^ 64

/-- The residue of an integer as a 64-bit word. -/
def ofInt (n : Int) : Nat := (n % 2 ^ 64).toNat

/-- The residue of an integer as a 32-bit word. -/
def low32OfInt (n : Int) : UInt32 := UInt32.ofNat (n % 2 ^ 32).toNat

/-- Whether `n` is 2^k for some `k`. -/
def isPowerOfTwo (n : Nat) : Bool := n == 2 ^ n.log2

theorem isPowerOfTwo_iff {n : Nat} : isPowerOfTwo n = true ↔ ∃ k, n = 2 ^ k := by
  unfold isPowerOfTwo
  constructor
  · intro h
    exact ⟨n.log2, by simpa using h⟩
  · rintro ⟨k, rfl⟩
    simp [Nat.log2_two_pow]

/-- The number of zero bits below the lowest one bit; 64 for zero. -/
def trailingZeros (n : Nat) : Nat :=
  if n = 0 then 64
  else if n % 2 = 1 then 0
  else 1 + trailingZeros (n / 2)
termination_by n
decreasing_by omega

theorem trailingZeros_two_pow (k : Nat) : trailingZeros (2 ^ k) = k := by
  induction k with
  | zero => rw [trailingZeros]; simp
  | succ k ih =>
    have hpos := Nat.two_pow_pos k
    have hdiv : 2 ^ (k + 1) / 2 = 2 ^ k := by omega
    rw [trailingZeros, if_neg (by omega), if_neg (by omega), hdiv, ih, Nat.add_comm]

end SplitRadix.Word
