import AggregateSchema.Binary64

/-! The shortest decimal that reads back as a given number, and its text. -/
namespace AggregateSchema.Binary64

/-- The greatest `p` with `10 ^ p ≤ q`, for a positive fraction. -/
def Fraction.floorLog10 (q : Fraction) : Int :=
  if q.den ≤ q.num then (Nat.toDigits 10 (q.num / q.den)).length - 1
  else
    let a := (Nat.toDigits 10 (q.den / q.num)).length - 1
    if q.den ≤ q.num * Nat.pow 10 a then -a else -a - 1

/-- The fraction divided by `10 ^ k`. -/
def Fraction.inPowers (q : Fraction) (k : Int) : Fraction :=
  if 0 ≤ k then ⟨q.num, q.den * Nat.pow 10 k.toNat⟩ else ⟨q.num * Nat.pow 10 (-k).toNat, q.den⟩

/-- The point of the grid of multiples of `10 ^ k` that lies among the fractions that round to `x`,
the nearer of two, and the even one of two equally near. The ends of that interval belong to it
if the significand is even. -/
def gridPoint? (x : Binary64) (k : Int) : Option Nat :=
  let unit (n : Nat) : Fraction := (Fraction.scale ⟨n, 1⟩ (x.exponent - 2)).inPowers k
  let mid := unit (4 * x.significand)
  let gap := if x.significand = Nat.pow 2 52 ∧ x.exponent ≠ leastExponent then 1 else 2
  let low := unit (4 * x.significand - gap)
  let high := unit (4 * x.significand + 2)
  let closed := x.significand % 2 == 0
  let c := mid.num / mid.den
  let below := if closed then low.num ≤ c * low.den else low.num < c * low.den
  let above := if closed then (c + 1) * high.den ≤ high.num else (c + 1) * high.den < high.num
  if below ∧ above then
    let toLower := mid.num - c * mid.den
    let toUpper := (c + 1) * mid.den - mid.num
    some (if toLower < toUpper then c else if toUpper < toLower then c + 1 else c + c % 2)
  else if below then some c
  else if above then some (c + 1)
  else none

/-- The digits of the first grid, from one digit to seventeen, with a point that reads back, and
the power of ten of the last of them. -/
def shortest (x : Binary64) : Nat × Int :=
  let top := x.magnitude.floorLog10
  let grids := (List.range 17).map fun (n : Nat) => top - (n : Int)
  (grids.findSome? fun k => (gridPoint? x k).map (·, k)).getD (0, 0)

/-- How a decimal is laid out: the exponents of the leading digit that are written with a plain
point, and what stands before the exponent otherwise. -/
structure Layout where
  leastPlain : Int
  greatestPlain : Int
  positiveExponent : String
  negativeExponent : String

/-- Numbers from 0.00001 up to 10^16 are written with a point and at least one decimal; others with
a signed exponent. -/
def layout : Layout := ⟨-5, 15, "e+", "e-"⟩

def zeros (n : Nat) : String := String.ofList (List.replicate n '0')

/-- The digits without the zeros at their end. -/
def trimZeros (ds : List Char) : List Char := (ds.reverse.dropWhile (· == '0')).reverse

def Layout.render (l : Layout) (digits : Nat) (power : Int) : String :=
  let all := Nat.toDigits 10 digits
  let top := power + all.length - 1
  let ds := trimZeros all
  if l.leastPlain ≤ top ∧ top < 0 then
    "0." ++ zeros (-top - 1).toNat ++ String.ofList ds
  else if 0 ≤ top ∧ top ≤ l.greatestPlain then
    let n := top.toNat + 1
    let front := String.ofList (ds.take n) ++ zeros (n - ds.length)
    let back := ds.drop n
    front ++ "." ++ if back.isEmpty then "0" else String.ofList back
  else
    let lead := String.ofList (ds.take 1)
    let back := ds.drop 1
    let point := if back.isEmpty then "" else "." ++ String.ofList back
    let exponent := if top < 0 then l.negativeExponent else l.positiveExponent
    lead ++ point ++ exponent ++ toString top.natAbs

/-- The text of a number: a sign, and the shortest digits that read back. -/
def render (x : Binary64) : String :=
  (if x.negative then "-" else "") ++
    if x.isZero then "0.0"
    else
      let (digits, power) := x.shortest
      layout.render digits power

end AggregateSchema.Binary64
