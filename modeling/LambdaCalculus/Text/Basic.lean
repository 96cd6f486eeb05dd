/-!
# Characters and numbers in a text

Sets of characters given by ranges of code points, among them the characters with the Unicode property `White_Space`,
and how text is cut at such characters.  Text is a list of characters here, so that offsets count characters.

A natural number below a limit is read from left to right, so of two faults the first one is reported; a number is too
large as soon as the digits read so far are.
-/

namespace LambdaCalculus.Text

/-! ### White space -/

/-- Whether a character is in one of the ranges, which include both ends and are in ascending order. -/
def inRanges (ranges : List (Nat × Nat)) (c : Char) : Bool :=
  (ranges.takeWhile (·.1 ≤ c.toNat)).any (c.toNat ≤ ·.2)

/-- The code points of white space. -/
def whiteSpaceRanges : List (Nat × Nat) :=
  [(0x9, 0xD), (0x20, 0x20), (0x85, 0x85), (0xA0, 0xA0), (0x1680, 0x1680), (0x2000, 0x200A), (0x2028, 0x2029),
    (0x202F, 0x202F), (0x205F, 0x205F), (0x3000, 0x3000)]

def isWhiteSpace (c : Char) : Bool := inRanges whiteSpaceRanges c

/-- Removes white space at both ends. -/
def trim (text : List Char) : List Char :=
  ((text.dropWhile isWhiteSpace).reverse.dropWhile isWhiteSpace).reverse

/-- The parts before and after the first character with the property `p`. -/
def cutAt? (p : Char → Bool) : List Char → Option (List Char × List Char)
  | [] => none
  | c :: rest => if p c then some ([], rest) else (cutAt? p rest).map fun (before, after) => (c :: before, after)

/-! ### Decimal numbers -/

/-- Why a text is not the decimal form of a number. -/
inductive DecimalError where
  | empty
  | invalidDigit
  | tooLarge
  deriving DecidableEq, Repr

namespace DecimalError

def message : DecimalError → String
  | empty => "cannot parse integer from empty string"
  | invalidDigit => "invalid digit found in string"
  | tooLarge => "number too large to fit in target type"

end DecimalError

/-- The largest number that can be read, the largest of 64 bits. -/
def maxNumber : Nat := 18446744073709551615

/-- Reads digits behind those of `value`. -/
def readDigits (value : Nat) : List Char → Except DecimalError Nat
  | [] => .ok value
  | c :: rest =>
    if !c.isDigit then .error .invalidDigit
    else
      let value := 10 * value + (c.toNat - '0'.toNat)
      if maxNumber < value then .error .tooLarge else readDigits value rest

/-- Reads a number of at least one digit, which one plus sign may precede. -/
def readNumber : List Char → Except DecimalError Nat
  | [] => .error .empty
  | ['+'] => .error .invalidDigit
  | '+' :: digits => readDigits 0 digits
  | digits => readDigits 0 digits

end LambdaCalculus.Text
