/-!
# Numbers and their texts

The sixty-three low bits of a binary64 number are its magnitude word. A finite magnitude is a whole
number of units, the unit being the least positive number, 2⁻¹⁰⁷⁴. Words stand in the order of their
magnitudes, and the word of infinity is the one after the greatest finite word. Rounding is exact: a
quotient of natural numbers goes to the nearest word, and a tie to the even one.

A number is shown by its sign and the shortest decimal of its magnitude; negative zero keeps its
sign. Infinity is `inf` and what is not a number is `NaN`, without a sign. The text that is read as
a number is an optional sign and then either a name or digits with at most one point, followed by an
optional exponent.
-/
namespace LineCalculator

/-! ## Magnitudes -/

namespace Binary64

/-- The words from one power of two to the next, 2⁵². -/
def binade : Nat := Nat.pow 2 52

/-- The word of infinity; the words below it are the finite ones. -/
def infinity : Nat := 2047 * binade

/-- The word of the number that is not a number. -/
def notANumber : Nat := infinity + Nat.pow 2 51

/-- The weight of the sign bit. -/
def signBit : Nat := Nat.pow 2 63

/-- The units that make one, 2¹⁰⁷⁴. -/
def unitsPerOne : Nat := Nat.pow 2 1074

/-- The magnitude of a finite word in units. Words below 2⁵² count units directly; from there on
the high bits of a word are the power of two that its low bits are scaled by. -/
def units (word : Nat) : Nat :=
  if word < binade then word else (binade + word % binade) * Nat.pow 2 (word / binade - 1)

/-- A quotient rounded to the nearest whole number, a tie to the even one. -/
def roundQuotient (num den : Nat) : Nat :=
  let below := num / den
  let twice := 2 * (num % den)
  if twice < den then below else if den < twice then below + 1 else below + below % 2

/-- The word nearest to `num / den`. Fifty-three bits are kept, fewer when the least bit would
fall below one unit; a carry out of the kept bits lands on the next power of two by itself. -/
def nearest (num den : Nat) : Nat :=
  let scaled := num * unitsPerOne
  let shift := (scaled / den).log2 - 52
  min (shift * binade + roundQuotient scaled (den * Nat.pow 2 shift)) infinity

/-- The magnitude word of a number. -/
def word (x : Float) : Nat := x.toBits.toNat % signBit

/-- The sign bit of a number is set; so it is on negative zero. -/
def isSigned (x : Float) : Bool := decide (signBit ≤ x.toBits.toNat)

/-- The number of a sign and a magnitude word. -/
def ofWord (signed : Bool) (word : Nat) : Float :=
  Float.ofBits (UInt64.ofNat (if signed then signBit + word else word))

end Binary64

/-! ## Decimals

A decimal is a natural number over a power of ten. It has one written form, positional and without
superfluous zeros, and one nearest binary64 word. A finite magnitude is shown by the fewest digits
that read back as the same word. With the number of digits fixed, the candidates are the two
neighbours of the magnitude on that decimal grid; of two that read back the nearer is shown, and in
an exact tie the upper one. Seventeen digits are always enough; the exact decimal stands behind them.
-/

/-- The number `numerator / 10 ^ places`. -/
structure Decimal where
  numerator : Nat
  places : Nat

namespace Decimal

/-- The digits after the point of `remainder / 10 ^ places`, up to the last that is not zero. -/
def fractionDigits : Nat → Nat → List Char
  | 0, _ => []
  | places + 1, remainder =>
    if remainder = 0 then []
    else
      let unit := Nat.pow 10 places
      Nat.digitChar (remainder / unit) :: fractionDigits places (remainder % unit)

/-- The written form: all digits of the whole part, then a point and the digits after it if there
are any. There is never an exponent. -/
def chars (d : Decimal) : List Char :=
  let one := Nat.pow 10 d.places
  let whole := Nat.toDigits 10 (d.numerator / one)
  match fractionDigits d.places (d.numerator % one) with
  | [] => whole
  | digits => whole ++ '.' :: digits

/-- The binary64 word nearest to the decimal. -/
def nearestWord (d : Decimal) : Nat :=
  Binary64.nearest d.numerator (Nat.pow 10 d.places)

/-- The least `k` with the magnitude of `word` below `10 ^ k`, counted on the whole digits of
`10 ^ 324` times the magnitude. -/
def order (word : Nat) : Int :=
  let scaled := Binary64.units word * Nat.pow 10 324 / Binary64.unitsPerOne
  ((Nat.toDigits 10 scaled).length : Int) - 324

/-- The neighbours of the magnitude of `word` on the grid of `10 ^ exponent`, the nearer first. -/
def neighbours (word : Nat) (exponent : Int) : List Decimal :=
  let places := (-exponent).toNat
  let step := Nat.pow 10 exponent.toNat
  let num := Binary64.units word * Nat.pow 10 places
  let den := Binary64.unitsPerOne * step
  let below : Decimal := ⟨num / den * step, places⟩
  let above : Decimal := ⟨(num / den + 1) * step, places⟩
  if 2 * (num % den) < den then [below, above] else [above, below]

/-- The nearest decimal on the grid of `10 ^ exponent` that reads back as `word`. -/
def onGrid? (word : Nat) (exponent : Int) : Option Decimal :=
  (neighbours word exponent).find? fun d => d.nearestWord == word

/-- The magnitude of `word` with all its digits. -/
def exact (word : Nat) : Decimal :=
  ⟨Binary64.units word * Nat.pow 5 1074, 1074⟩

/-- The decimal with the fewest digits that reads back as `word`. -/
def shortest (word : Nat) : Decimal :=
  let k := order word
  ((List.range 17).findSome? fun digits => onGrid? word (k - (digits + 1 : Nat))).getD (exact word)

theorem nearestWord_of_onGrid? {word : Nat} {exponent : Int} {d : Decimal}
    (h : onGrid? word exponent = some d) : d.nearestWord = word := by
  simpa using List.find?_some h

end Decimal

namespace Number

/-! ## Showing a number -/

/-- The text of a magnitude word that is not above infinity. -/
def magnitudeChars (word : Nat) : List Char :=
  if word = Binary64.infinity then ['i', 'n', 'f'] else (Decimal.shortest word).chars

/-- The text of a number. -/
def display (x : Float) : String :=
  let word := Binary64.word x
  if Binary64.infinity < word then "NaN"
  else if Binary64.isSigned x then String.ofList ('-' :: magnitudeChars word)
  else String.ofList (magnitudeChars word)

/-! ## Reading a number

The whole text has to fit. The value is rounded once, to the nearest number; one too great becomes
infinity.
-/

/-- The digits of an exponent. It stops growing once it has reached 65536, far beyond every
finite number. -/
def exponentDigits? (digits : List Char) : Option Nat :=
  if digits ≠ [] ∧ digits.all Char.isDigit then
    some (digits.foldl (fun e d => if e < 65536 then 10 * e + (d.toNat - '0'.toNat) else e) 0)
  else none

/-- What follows the digits: nothing, or `e` or `E` with a signed exponent. -/
def exponent? : List Char → Option Int
  | [] => some 0
  | mark :: rest =>
    if mark = 'e' ∨ mark = 'E' then
      match rest with
      | '-' :: digits => (exponentDigits? digits).map fun e => -(e : Int)
      | '+' :: digits => (exponentDigits? digits).map Int.ofNat
      | digits => (exponentDigits? digits).map Int.ofNat
    else none

/-- The digits after a point, and the text behind them; without a point, no digits. -/
def fractionPart : List Char → List Char × List Char
  | '.' :: rest => (rest.takeWhile Char.isDigit, rest.dropWhile Char.isDigit)
  | rest => ([], rest)

/-- The word nearest to `significand * 10 ^ exponent`. -/
def scaledWord (significand : Nat) (exponent : Int) : Nat :=
  Binary64.nearest (significand * Nat.pow 10 exponent.toNat) (Nat.pow 10 (-exponent).toNat)

/-- The word of a magnitude written in digits. -/
def digitsWord? (text : List Char) : Option Nat :=
  let whole := text.takeWhile Char.isDigit
  let (fraction, rest) := fractionPart (text.dropWhile Char.isDigit)
  if whole ++ fraction = [] then none
  else (exponent? rest).map fun e =>
    scaledWord (Nat.ofDigitChars 10 (whole ++ fraction) 0) (e - fraction.length)

/-- The word of a magnitude written as a name. -/
def namedWord? (text : List Char) : Option Nat :=
  let name := text.map Char.toLower
  if name = ['i', 'n', 'f'] ∨ name = ['i', 'n', 'f', 'i', 'n', 'i', 't', 'y'] then
    some Binary64.infinity
  else if name = ['n', 'a', 'n'] then some Binary64.notANumber
  else none

/-- The word of a magnitude. -/
def magnitudeWord? (text : List Char) : Option Nat :=
  (digitsWord? text).or (namedWord? text)

/-- The number that a text stands for. -/
def read? (text : String) : Option Float :=
  match text.toList with
  | '-' :: magnitude => (magnitudeWord? magnitude).map (Binary64.ofWord true)
  | '+' :: magnitude => (magnitudeWord? magnitude).map (Binary64.ofWord false)
  | magnitude => (magnitudeWord? magnitude).map (Binary64.ofWord false)

end Number

end LineCalculator
