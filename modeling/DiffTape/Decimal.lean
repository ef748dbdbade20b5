/-
  THE DECIMAL TEXT OF A NUMBER.

  A finite number is written with the fewest significant digits that read back as the same
  number, always positionally: `100000000000000000000000`, `0.0000001`.  Of two such decimals
  the nearer one is taken, and of two equally near ones the larger.

  1. THE GRIDS.  A decimal with its last digit at `10 ^ t` is a point of the grid `10 ^ t · Nat`.
     The decimals that read back as `v` are those in the ROUNDING INTERVAL of `v`, half way to
     its two neighbours (ends included iff the mantissa is even, since ties round to even).
  2. ONLY TWO CANDIDATES.  If any point of a grid lies in the interval, then so does one of the
     two points next to `v`, because `v` itself lies in the interval.  So the grids are tried
     from the coarsest, and the first one with a hit has the fewest digits.

  All comparisons are exact, in natural numbers.
-/
import DiffTape.Scalar.Binary

namespace DiffTape.Decimal

open Float.Model (UnpackedFloat Format)
open Float.Model.UnpackedFloat (Sign)

/-! ## Digits -/

/-- The positive part of an exponent of ten, as a power.  `pow10 t / pow10 (-t)` is `10 ^ t`. -/
def pow10 (t : Int) : Nat := Nat.pow 10 t.toNat

/-- The positive part of an exponent of two, as a power. -/
def pow2 (e : Int) : Nat := Nat.pow 2 e.toNat

/-- How many decimal digits a number has; zero has none. -/
def digitCount (n : Nat) : Nat :=
  if n = 0 then 0 else digitCount (n / 10) + 1

/-- The place of the leading digit of the ratio `num / den`: the `t` for which it is at least
    `10 ^ t` and less than `10 ^ (t + 1)`. -/
def leadingPlace (num den : Nat) : Int :=
  if den ≤ num then
    digitCount (num / den) - 1
  else
    -- The least `k` with `den ≤ num · 10 ^ k`.
    -(digitCount ((den - 1) / num) : Int)

/-! ## The rounding interval -/

/-- A positive number and the decimals that read back as it, all over one denominator. -/
structure Interval where
  low : Nat
  value : Nat
  high : Nat
  den : Nat
  /-- The ends belong to the interval. -/
  closed : Bool

/-- The rounding interval of `m · 2 ^ e` in a format whose normal mantissas start at
    `leastNormal`.  The neighbour below is half as far if `m` is the least normal mantissa,
    unless that is the smallest normal number (`e = leastExponent`). -/
def Interval.ofFinite (leastNormal : Nat) (leastExponent : Int) (m : Nat) (e : Int) : Interval :=
  let scale := pow2 (e - 2)
  let below := if m = leastNormal ∧ e ≠ leastExponent then 1 else 2
  { low := (4 * m - below) * scale
    value := 4 * m * scale
    high := (4 * m + 2) * scale
    den := pow2 (2 - e)
    closed := m % 2 = 0 }

/-- The grid point `c · 10 ^ t` lies in the interval. -/
def Interval.contains (r : Interval) (c : Nat) (t : Int) : Bool :=
  let point := c * pow10 t * r.den
  let unit := pow10 (-t)
  if r.closed then
    r.low * unit ≤ point && point ≤ r.high * unit
  else
    r.low * unit < point && point < r.high * unit

/-- The point of the grid `10 ^ t` that reads back as the value, the nearer one of two. -/
def Interval.gridPoint? (r : Interval) (t : Int) : Option Nat :=
  let num := r.value * pow10 (-t)
  let unit := r.den * pow10 t
  let c := num / unit
  let upperIsNearer := unit ≤ 2 * (num % unit)
  match r.contains c t, r.contains (c + 1) t with
  | true, true => some (if upperIsNearer then c + 1 else c)
  | true, false => some c
  | false, true => some (c + 1)
  | false, false => none

/-- The first of the grids `10 ^ t`, `10 ^ (t - 1)`, … with a hit, as a point and its grid.  The
    fuel is a number of digits that is always enough. -/
def Interval.coarsest (r : Interval) (t : Int) : Nat → Nat × Int
  | 0 => (r.value * pow10 (-t) / (r.den * pow10 t), t)
  | fuel + 1 =>
    match r.gridPoint? t with
    | some c => (c, t)
    | none => r.coarsest (t - 1) fuel

/-- Seventeen digits tell any two 64-bit numbers apart. -/
def enoughDigits : Nat := 17

/-- The shortest decimal `c · 10 ^ t` that reads back as the value. -/
def Interval.shortest (r : Interval) : Nat × Int :=
  r.coarsest (leadingPlace r.value r.den) enoughDigits

/-! ## Positional text -/

/-- Removes the zeros at the end of `c` and moves the exponent along. -/
def trimZeros (c : Nat) (t : Int) : Nat × Int :=
  if h : c ≠ 0 ∧ c % 10 = 0 then trimZeros (c / 10) (t + 1) else (c, t)
termination_by c
decreasing_by omega

/-- `n` zeros. -/
def zeros (n : Nat) : String := String.ofList (List.replicate n '0')

/-- `c · 10 ^ t` without an exponent, and without a point if it is an integer. -/
def positional (c : Nat) (t : Int) : String :=
  let (c, t) := trimZeros c t
  let digits := Nat.toDigits 10 c
  if 0 ≤ t then
    String.ofList digits ++ zeros t.toNat
  else
    let places := (-t).toNat
    if places < digits.length then
      let whole := digits.length - places
      String.ofList (digits.take whole) ++ "." ++ String.ofList (digits.drop whole)
    else
      "0." ++ zeros (places - digits.length) ++ String.ofList digits

/-- A sign in front of the text of a magnitude. -/
def signed (s : Sign) (text : String) : String :=
  match s with
  | .negative => "-" ++ text
  | .positive => text

/-- The text of an unpacked number of a format.  Zero keeps its sign; NaN has none. -/
def text (format : Format) (x : UnpackedFloat) : String :=
  match x with
  | .notANumber => "NaN"
  | .infinity s => signed s "inf"
  | .zero s => signed s "0"
  | .finite s m e _ =>
    let leastExponent := 1 - (format.exponentBias + format.mantissaBitsWithoutImplicit : Int)
    let r := Interval.ofFinite (pow2 format.mantissaBitsWithoutImplicit) leastExponent m e
    let (c, t) := r.shortest
    signed s (positional c t)

end DiffTape.Decimal

namespace DiffTape

/-- The layout of a width. -/
def Width.format : Width → Float.Model.Format
  | .single => .binary32
  | .double => .binary64

/-- A number taken apart into sign, mantissa and exponent. -/
def Width.unpack : (w : Width) → w.Number → Float.Model.UnpackedFloat
  | .single, x => x.toModel.unpack
  | .double, x => x.toModel.unpack

/-- The decimal text of a number. -/
def Width.text (w : Width) (x : w.Number) : String :=
  Decimal.text w.format (w.unpack x)

end DiffTape
