/-
  THE TWO BINARY FORMATS.

  `Float32` and `Float` as numbers of a tape.  Arithmetic, comparison and classification are
  the exactly rounded operations of the formats, which the logic can unfold; the elementary
  functions are the ones of the platform, of which nothing is known here.

  `Width.Number` is the format of a width.
-/
import DiffTape.Scalar
import DiffTape.Width

namespace DiffTape

open Float.Model (UnpackedFloat)
open Float.Model.UnpackedFloat (Sign)

/-- The greatest integer not above `± m · 2 ^ e`.  An arithmetic shift to the right rounds down,
    also below zero. -/
def floorDyadic (negative : Bool) (m : Nat) (e : Int) : Int :=
  let signed : Int := if negative then -m else m
  if 0 ≤ e then signed <<< e.toNat else signed >>> (-e).toNat

/-- The greatest integer not above an unpacked number, if that is finite. -/
def floorUnpacked? : UnpackedFloat → Option Int
  | .zero _ => some 0
  | .finite s m e _ => some (floorDyadic (s matches .negative) m e)
  | .infinity _ => none
  | .notANumber => none

instance : Scalar Float where
  zero := 0
  one := 1
  decLt := inferInstance
  abs := Float.abs
  isFinite := Float.isFinite
  isNaN := Float.isNaN
  ofInt := Float.ofInt
  floorInt? x := floorUnpacked? x.toModel.unpack

instance : Scalar Float32 where
  zero := 0
  one := 1
  decLt := inferInstance
  abs := Float32.abs
  isFinite := Float32.isFinite
  isNaN := Float32.isNaN
  ofInt := Float32.ofInt
  floorInt? x := floorUnpacked? x.toModel.unpack

instance : Elementary Float where
  exp := Float.exp
  ln := Float.log
  log10 := Float.log10
  log2 := Float.log2
  sqrt := Float.sqrt
  sin := Float.sin
  cos := Float.cos
  tan := Float.tan
  asin := Float.asin
  acos := Float.acos
  atan := Float.atan
  atan2 := Float.atan2
  sinh := Float.sinh
  cosh := Float.cosh
  tanh := Float.tanh
  asinh := Float.asinh
  acosh := Float.acosh
  atanh := Float.atanh
  pow := Float.pow
  ln10 := 2.302585092994045684017991454684364208

instance : Elementary Float32 where
  exp := Float32.exp
  ln := Float32.log
  log10 := Float32.log10
  log2 := Float32.log2
  sqrt := Float32.sqrt
  sin := Float32.sin
  cos := Float32.cos
  tan := Float32.tan
  asin := Float32.asin
  acos := Float32.acos
  atan := Float32.atan
  atan2 := Float32.atan2
  sinh := Float32.sinh
  cosh := Float32.cosh
  tanh := Float32.tanh
  asinh := Float32.asinh
  acosh := Float32.acosh
  atanh := Float32.atanh
  pow := Float32.pow
  ln10 := 2.302585092994045684017991454684364208

/-- The numbers of a format. -/
abbrev Width.Number : Width → Type
  | .single => Float32
  | .double => Float

instance : (w : Width) → Scalar w.Number
  | .single => inferInstanceAs (Scalar Float32)
  | .double => inferInstanceAs (Scalar Float)

instance : (w : Width) → Elementary w.Number
  | .single => inferInstanceAs (Elementary Float32)
  | .double => inferInstanceAs (Elementary Float)

end DiffTape
