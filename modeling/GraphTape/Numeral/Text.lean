import GraphTape.Numeral.Shortest

/-!
# Numbers as text

Two ways to write a double-precision number.

* `plain`: the fewest digits that read back, always positional and never with an exponent. A
  whole number has no point.
* `fixed`: a fixed number of decimal places, the exact value rounded with halves going to the
  even neighbour.

A minus sign is written for every negative number, zero included.
-/

namespace GraphTape.Numeral

/-- `n` zeros. -/
def zeros (n : Nat) : String :=
  String.ofList (List.replicate n '0')

/-- A decimal written positionally, with no point when it is a whole number. -/
def Decimal.positional (d : Decimal) : String :=
  let digits := Nat.toDigits 10 d.digits
  if 0 ≤ d.exponent then
    String.ofList digits ++ zeros d.exponent.toNat
  else
    let places := (-d.exponent).toNat
    if places < digits.length then
      String.ofList (digits.take (digits.length - places)) ++ "." ++
        String.ofList (digits.drop (digits.length - places))
    else
      "0." ++ zeros (places - digits.length) ++ String.ofList digits

/-- The whole number nearest to `num / den`, a half going to the even neighbour. -/
def roundHalfEven (num den : Nat) : Nat :=
  let floor := num / den
  let rest := num % den
  if 2 * rest < den then floor
  else if den < 2 * rest then floor + 1
  else floor + floor % 2

/-- The fraction `num / den` with the given number of decimal places. -/
def fixedFraction (places num den : Nat) : String :=
  let scaled := roundHalfEven (num * tens places) den
  let digits := Nat.toDigits 10 (scaled % tens places)
  toString (scaled / tens places) ++ "." ++ zeros (places - digits.length) ++ String.ofList digits

/-- The text of a number from the text of its magnitude. -/
def signed (negative : Bool) (text : String) : String :=
  if negative then "-" ++ text else text

/-- The text of a number by the text of a positive magnitude and the text of zero. -/
def render (zero : String) (positive : Nat → Int → Bool → String) : Binary → String
  | .nan => "NaN"
  | .infinite negative => signed negative "inf"
  | .finite negative significand exponent narrow =>
    signed negative (if significand = 0 then zero else positive significand exponent narrow)

/-- The shortest positional text that reads back as the number. -/
def plain (x : Float) : String :=
  render "0" (fun significand exponent narrow =>
    (Window.ofMagnitude significand exponent narrow).shortest.positional) (.ofFloat x)

/-- The number with a fixed number of decimal places. -/
def fixed (places : Nat) (x : Float) : String :=
  render (fixedFraction places 0 1) (fun significand exponent _ =>
    let (num, den) := dyadic significand exponent
    fixedFraction places num den) (.ofFloat x)

end GraphTape.Numeral
