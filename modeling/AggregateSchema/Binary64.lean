/-! Finite binary floating-point numbers of 64 bits, with exact rounding. -/
namespace AggregateSchema

/-- The number `significand * 2 ^ exponent`, negated if `negative`. A normal number has a significand
of 53 bits; a smaller one has the least exponent, -1074. -/
structure Binary64 where
  negative : Bool
  significand : Nat
  exponent : Int
  deriving DecidableEq, Repr, Inhabited

namespace Binary64

def leastExponent : Int := -1074

def greatestExponent : Int := 971

def isZero (x : Binary64) : Bool := x.significand == 0

def zero (negative : Bool) : Binary64 := ⟨negative, 0, leastExponent⟩

/-- Equality as numbers: the two zeros are one number. -/
def same (x y : Binary64) : Bool := x == y || (x.isZero && y.isZero)

@[simp] theorem same_refl (x : Binary64) : same x x = true := by simp [same]

theorem same_comm (x y : Binary64) : same x y = same y x := by
  simp [same, Bool.and_comm, BEq.comm]

theorem same_trans {x y z : Binary64} (h : same x y = true) (k : same y z = true) :
    same x z = true := by
  simp only [same, Bool.or_eq_true, beq_iff_eq, Bool.and_eq_true] at *
  rcases h with rfl | ⟨hx, hy⟩
  · exact k
  · rcases k with rfl | ⟨_, hz⟩
    · exact Or.inr ⟨hx, hy⟩
    · exact Or.inr ⟨hx, hz⟩

/-- A non-negative fraction `num / den`. -/
structure Fraction where
  num : Nat
  den : Nat

namespace Fraction

/-- The fraction times `2 ^ k`. -/
def scale (q : Fraction) (k : Int) : Fraction :=
  if 0 ≤ k then ⟨q.num * Nat.pow 2 k.toNat, q.den⟩ else ⟨q.num, q.den * Nat.pow 2 (-k).toNat⟩

def mul (p q : Fraction) : Fraction := ⟨p.num * q.num, p.den * q.den⟩

def div (p q : Fraction) : Fraction := ⟨p.num * q.den, p.den * q.num⟩

/-- The greatest `k` with `2 ^ k ≤ q`, for a positive fraction. -/
def floorLog2 (q : Fraction) : Int :=
  let k : Int := (Nat.log2 q.num : Int) - Nat.log2 q.den
  let r := q.scale (-k)
  if r.den ≤ r.num then k else k - 1

/-- The nearest natural number; a half goes to the even neighbour. -/
def round (q : Fraction) : Nat :=
  let below := q.num / q.den
  let rest := q.num % q.den
  if 2 * rest < q.den then below
  else if q.den < 2 * rest then below + 1
  else below + below % 2

end Fraction

/-- The absolute value. -/
def magnitude (x : Binary64) : Fraction := Fraction.scale ⟨x.significand, 1⟩ x.exponent

/-- The nearest number to a fraction; a half goes to the even significand, and a fraction that
rounds past the greatest number has none. -/
def ofFraction? (q : Fraction) : Option Binary64 :=
  if q.num = 0 then some (zero false)
  else
    let e := max leastExponent (q.floorLog2 - 52)
    let m := (q.scale (-e)).round
    let (m, e) := if m = Nat.pow 2 53 then (Nat.pow 2 52, e + 1) else (m, e)
    if greatestExponent < e then none else some ⟨false, m, e⟩

/-- The greatest power of ten that has a number near it. -/
def greatestPower : Nat := 308

def powerOfTen (k : Nat) : Fraction :=
  ((ofFraction? ⟨Nat.pow 10 k, 1⟩).getD (zero false)).magnitude

/-- Division by `10 ^ k`, rounded once for each factor of at most `10 ^ 308`. -/
def divPowerOfTen (x : Binary64) (k : Nat) : Option Binary64 :=
  if k ≤ greatestPower then ofFraction? (x.magnitude.div (powerOfTen k))
  else if x.isZero then some x
  else (ofFraction? (x.magnitude.div (powerOfTen greatestPower))).bind
    fun y => divPowerOfTen y (k - greatestPower)
  termination_by k
  decreasing_by simp only [greatestPower] at *; omega

/-- Reads `significand * 10 ^ power`: the significand and the power of ten are rounded each by
itself, and then their product or quotient is. -/
def ofDecimal? (negative : Bool) (significand : Nat) (power : Int) : Option Binary64 := do
  let x ← ofFraction? ⟨significand, 1⟩
  let y ←
    if power < 0 then x.divPowerOfTen (-power).toNat
    else if power.toNat ≤ greatestPower then
      ofFraction? (x.magnitude.mul (powerOfTen power.toNat))
    else if x.isZero then some x
    else none
  return { y with negative }

end Binary64

end AggregateSchema
