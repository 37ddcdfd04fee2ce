/-!
# Decimal numbers and their text

A `Decimal` is a number as it is written: a sign, a coefficient and a power of ten, with no rounding. This module reads
one (`Decimal.read?`), rounds one to a coarser grid (`Decimal.roundTo`), and lays one out without an exponent
(`Decimal.positional`) or with one where it is very large or very small (`Decimal.general`).
-/

namespace ScopedGrammar

/-- The number `± coefficient · 10 ^ exponent`. -/
structure Decimal where
  negative : Bool
  coefficient : Nat
  exponent : Int
deriving DecidableEq

namespace Decimal

/-! ## Digits -/

/-- The digits of a natural number, most significant first. -/
def digits (n : Nat) : List Char := Nat.toDigits 10 n

/-- The number that a run of digits denotes; no digits denote zero. -/
def digitsValue (cs : List Char) : Nat := cs.foldl (fun n c => 10 * n + (c.toNat - '0'.toNat)) 0

/-- The place after the leading digit: a nonzero number lies below `10 ^ lead` and not below `10 ^ (lead - 1)`. -/
def lead (d : Decimal) : Int := (digits d.coefficient).length + d.exponent

/-! ## Reading -/

/-- Splits off a leading sign; a number without one is positive. -/
def splitSign : List Char → Bool × List Char
  | '-' :: cs => (true, cs)
  | '+' :: cs => (false, cs)
  | cs => (false, cs)

/-- Reads an exponent mark with its digits, which have to end the text; no text at all is the exponent zero. -/
def readExponent? : List Char → Option Int
  | [] => some 0
  | c :: cs =>
    let (negative, ds) := splitSign cs
    if (c == 'e' || c == 'E') && !ds.isEmpty && ds.all Char.isDigit then
      some (if negative then -(digitsValue ds : Int) else digitsValue ds)
    else none

/-- Reads a sign, digits, a point with more digits and an exponent. All are optional, but the point needs a digit on
one of its sides. -/
def read? (cs : List Char) : Option Decimal :=
  let (negative, cs) := splitSign cs
  let whole := cs.takeWhile Char.isDigit
  let (fraction, rest) := match cs.dropWhile Char.isDigit with
    | '.' :: cs => (cs.takeWhile Char.isDigit, cs.dropWhile Char.isDigit)
    | cs => ([], cs)
  if whole.isEmpty && fraction.isEmpty then none
  else (readExponent? rest).map fun e => ⟨negative, digitsValue (whole ++ fraction), e - fraction.length⟩

/-! ## Rounding -/

/-- The integer nearest to a quotient; a tie goes to the even one. -/
def roundDiv (num den : Nat) : Nat :=
  let low := num / den
  let twice := 2 * (num % den)
  if twice < den then low else if den < twice then low + 1 else low + low % 2

/-- The nearest multiple of `10 ^ place`; a tie goes to the even multiple. A number that is one already stays. -/
def roundTo (d : Decimal) (place : Int) : Decimal :=
  if place ≤ d.exponent then d
  else { d with coefficient := roundDiv d.coefficient (Nat.pow 10 (place - d.exponent).toNat), exponent := place }

/-- Moves the zeros at the end of the coefficient into the exponent. -/
def trim (d : Decimal) : Decimal :=
  let zeros := ((digits d.coefficient).reverse.takeWhile (· == '0')).length
  if d.coefficient = 0 then d
  else { d with coefficient := d.coefficient / Nat.pow 10 zeros, exponent := d.exponent + zeros }

/-! ## Layout -/

/-- The sign as it is written: nothing for a positive number. -/
def sign (d : Decimal) : List Char := if d.negative then ['-'] else []

/-- A digit string with a point before its last `places` digits; zeros are put in front where it is too short. -/
def point (ds : List Char) (places : Nat) : List Char :=
  if places = 0 then ds
  else if places < ds.length then ds.take (ds.length - places) ++ '.' :: ds.drop (ds.length - places)
  else '0' :: '.' :: (List.replicate (places - ds.length) '0' ++ ds)

/-- The number with all its places written out and never an exponent. -/
def positional (d : Decimal) : List Char :=
  d.sign ++ point (digits d.coefficient ++ List.replicate d.exponent.toNat '0') (-d.exponent).toNat

/-- One digit, a point and the other digits, and the exponent of the first. -/
def scientific (d : Decimal) : List Char :=
  let ds := digits d.coefficient
  let power := d.lead - 1
  d.sign ++ point ds (ds.length - 1) ++ 'e' :: ((if power < 0 then ['-'] else []) ++ digits power.natAbs)

/-- The number with a point or an exponent: `positional`, with `.0` after an integer, from `0.0001` up to but not
including `10 ^ 16`, and `scientific` outside that range. -/
def general (d : Decimal) : List Char :=
  if d.coefficient = 0 ∨ (-4 < d.lead ∧ d.lead ≤ 16) then
    d.positional ++ if 0 ≤ d.exponent then ['.', '0'] else []
  else d.scientific

end Decimal

end ScopedGrammar
