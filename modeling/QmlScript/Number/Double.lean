/-!
# Binary floating point numbers

A finite number is a whole number of units below `2 ^ 53`, each a power of two from `-1074` on;
`ofDecimal` gives the number nearest to a decimal fraction, and of two nearest ones the even one. All of
it is exact arithmetic on whole numbers. A number is written with the fewest decimal digits that read back as it.
-/

namespace QmlScript

inductive Double where
  /-- `units * 2 ^ power`, with a sign that zero has too. -/
  | finite (negative : Bool) (units : Nat) (power : Int)
  | infinite (negative : Bool)
  | notANumber
  deriving DecidableEq, Repr

namespace Double

def leastPower : Int := -1074

def greatestPower : Int := 971

/-- `num / den` as a whole number, a half going to the even neighbour. -/
def roundDiv (num den : Nat) : Nat :=
  let below := num / den
  let rest := num % den
  if 2 * rest < den then below
  else if den < 2 * rest then below + 1
  else if below % 2 = 0 then below else below + 1

/-- `num * 2 ^ -power / den` as a whole number, a half going to the even neighbour. -/
def unitsOf (num den : Nat) (power : Int) : Nat :=
  if 0 ≤ power then roundDiv num (den * Nat.pow 2 power.toNat)
  else roundDiv (num * Nat.pow 2 (-power).toNat) den

def atLeastPower (num den : Nat) (power : Int) : Bool :=
  if 0 ≤ power then den * Nat.pow 2 power.toNat ≤ num else den ≤ num * Nat.pow 2 (-power).toNat

def ofFraction (negative : Bool) (num den : Nat) : Double :=
  let guess : Int := (Nat.log2 num : Int) - (Nat.log2 den : Int)
  let magnitude := if atLeastPower num den guess then guess else guess - 1
  let power := max (magnitude - 52) leastPower
  let units := unitsOf num den power
  let (units, power) := if units = Nat.pow 2 53 then (Nat.pow 2 52, power + 1) else (units, power)
  if greatestPower < power then .infinite negative else .finite negative units power

def decimalLength (n : Nat) : Nat := (Nat.toDigits 10 n).length

def ofDecimal (negative : Bool) (digits : Nat) (exponent : Int) : Double :=
  if digits = 0 then .finite negative 0 leastPower
  else
    let top := exponent + decimalLength digits
    if 400 < top then .infinite negative
    else if top < -400 then .finite negative 0 leastPower
    else if 0 ≤ exponent then ofFraction negative (digits * Nat.pow 10 exponent.toNat) 1
    else ofFraction negative digits (Nat.pow 10 (-exponent).toNat)

def isZero : Double → Bool
  | .finite _ 0 _ => true
  | _ => false

def equalsNat (x : Double) (n : Nat) : Bool :=
  match x with
  | .finite negative units power =>
    (units == 0 && n == 0) ||
    (!negative && if 0 ≤ power then units * Nat.pow 2 power.toNat == n
      else units == n * Nat.pow 2 (-power).toNat)
  | _ => false

end Double

end QmlScript

namespace QmlScript.Double

/-! ## The shortest text: on each decimal grid the neighbours of the number are tested -/

structure Decimal where
  digits : Nat
  exponent : Int
  deriving DecidableEq, Repr

def atLeastTen (num den : Nat) (e : Int) : Bool :=
  if 0 ≤ e then den * Nat.pow 10 e.toNat ≤ num else den ≤ num * Nat.pow 10 (-e).toNat

def firstDigitPower (num den : Nat) : Int :=
  let low : Int := ((Nat.log2 num : Int) - (Nat.log2 den : Int) - 1) * 30103 / 100000
  if atLeastTen num den (low + 2) then low + 2
  else if atLeastTen num den (low + 1) then low + 1
  else if atLeastTen num den low then low else low - 1

/-- The nearest neighbour of `units * 2 ^ power` among the multiples of `10 ^ e` that reads back as it. -/
def onGrid? (units : Nat) (power : Int) (e : Int) : Option Nat :=
  let scale := power - 2 -- quarters of a unit
  let up := (if 0 ≤ scale then Nat.pow 2 scale.toNat else 1) * (if 0 ≤ e then 1 else Nat.pow 10 (-e).toNat)
  let down := (if 0 ≤ scale then 1 else Nat.pow 2 (-scale).toNat) * (if 0 ≤ e then Nat.pow 10 e.toNat else 1)
  let value := 4 * units * up
  let low := (4 * units - if units = Nat.pow 2 52 && leastPower < power then 1 else 2) * up
  let high := (4 * units + 2) * up
  let fits := fun n =>
    if units % 2 = 0 then decide (low ≤ n * down) && decide (n * down ≤ high)
    else decide (low < n * down) && decide (n * down < high)
  let below := value / down
  let above := below + 1
  match fits below, fits above with
  | true, true =>
    let left := value - below * down
    let right := above * down - value
    if left < right then some below
    else if right < left then some above
    else if below % 2 = 0 then some below else some above
  | true, false => some below
  | false, true => some above
  | false, false => none

/-- The shortest decimal that reads back as `units * 2 ^ power`, from `tried` digits on, with `left` to go. -/
def shortestFrom (units : Nat) (power first : Int) (tried : Nat) : Nat → Decimal
  | 0 => ⟨units, power⟩
  | left + 1 =>
    let e := first - (tried : Int)
    match onGrid? units power e with
    | some digits => ⟨digits, e⟩
    | none => shortestFrom units power first (tried + 1) left

def shortest (units : Nat) (power : Int) : Decimal :=
  let num := if 0 ≤ power then units * Nat.pow 2 power.toNat else units
  let den := if 0 ≤ power then 1 else Nat.pow 2 (-power).toNat
  shortestFrom units power (firstDigitPower num den) 0 18

def exponentText (e : Int) : String :=
  let digits := toString e.natAbs
  let digits := if digits.length < 2 then "0" ++ digits else digits
  (if e < 0 then "e-" else "e+") ++ digits

def significant (n : Nat) : List Char :=
  ((Nat.toDigits 10 n).reverse.dropWhile (· == '0')).reverse

def Decimal.text (d : Decimal) : String :=
  let all := Nat.toDigits 10 d.digits
  let digits := significant d.digits
  let point : Int := d.exponent + all.length -- digits before the point
  if -4 < point && point ≤ 16 then
    if point ≤ 0 then
      "0." ++ String.ofList (List.replicate (-point).toNat '0' ++ digits)
    else if digits.length ≤ point.toNat then
      String.ofList (digits ++ List.replicate (point.toNat - digits.length) '0') ++ ".0"
    else String.ofList (digits.take point.toNat) ++ "." ++ String.ofList (digits.drop point.toNat)
  else
    match digits with
    | [] => "0.0"
    | [only] => String.ofList [only] ++ exponentText (point - 1)
    | head :: tail => String.ofList (head :: '.' :: tail) ++ exponentText (point - 1)

def text : Double → String
  | .finite negative units power =>
    (if negative then "-" else "") ++
      if units = 0 then "0.0" else (shortest units power).text
  | .infinite negative => if negative then "-inf" else "inf"
  | .notANumber => "nan"

end QmlScript.Double
