import LoxLang.Number.Shortest

/-! Numbers as text: always positional, never an exponent, no point in a whole number. -/
namespace LoxLang.Number

def Decimal.chars (d : Decimal) : List Char :=
  let digits := Nat.toDigits 10 d.digits
  let behind := (-d.place).toNat
  if 0 ≤ d.place then digits ++ List.replicate d.place.toNat '0'
  else if digits.length ≤ behind then
    '0' :: '.' :: (List.replicate (behind - digits.length) '0' ++ digits)
  else
    let whole := digits.length - behind
    digits.take whole ++ '.' :: digits.drop whole

def magnitude (bits : UInt64) : List Char :=
  let biased := (bits >>> 52 &&& 0x7ff).toNat
  let fraction := (bits &&& 0xfffffffffffff).toNat
  if biased = 0x7ff then "inf".toList
  else if biased = 0 ∧ fraction = 0 then ['0']
  else if biased = 0 then (Rounding.ofDouble fraction leastExponent).shortest.chars
  else (Rounding.ofDouble (leadingBit + fraction) (leastExponent + biased - 1)).shortest.chars

def negative (bits : UInt64) : Bool := bits >>> 63 = 1

def text (x : Float) : String :=
  if x.isNaN then "NaN"
  else
    let digits := magnitude x.toBits
    String.ofList (if negative x.toBits then '-' :: digits else digits)

def valueOfDigits (digits : List Char) : Nat :=
  digits.foldl (fun n d => 10 * n + (d.toNat - '0'.toNat)) 0

def ofNumeral (numeral : List Char) : Float :=
  let whole := numeral.takeWhile (· ≠ '.')
  let fraction := (numeral.dropWhile (· ≠ '.')).drop 1
  Float.ofScientific (valueOfDigits (whole ++ fraction)) true fraction.length

end LoxLang.Number
