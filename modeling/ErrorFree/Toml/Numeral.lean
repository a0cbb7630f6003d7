import ErrorFree.Decimal.Basic
import ErrorFree.Toml.Quoted
import ErrorFree.Toml.Value

/-!
# Numbers of TOML

**Integers** are decimal, with an optional sign and no leading zeros, or hexadecimal, octal or
binary, marked by `0x`, `0o` or `0b` and without a sign.  A single underscore may stand between
two digits. An integer has to fit into 64 bits with its sign.

**Floats** have a fraction, an exponent, or both; `inf` and `nan` may carry a sign.  A float that is
too large for a positive finite number is refused.
-/

namespace ErrorFree

namespace Toml

/-- The digits of a numeral after its first: more digits, each of which an underscore may
precede. -/
def moreDigits (isDigit : Char → Bool) : Nat → Reader (List Char)
  | 0, text => some ([], text)
  | fuel + 1, text =>
      match text with
      | '_' :: c :: rest =>
          if isDigit c then do
            let (digits, rest) ← moreDigits isDigit fuel rest
            return (c :: digits, rest)
          else none
      | '_' :: [] => none
      | c :: rest =>
          if isDigit c then do
            let (digits, rest) ← moreDigits isDigit fuel rest
            return (c :: digits, rest)
          else some ([], text)
      | [] => some ([], [])

/-- One or more digits. -/
def digits (isDigit : Char → Bool) : Reader (List Char)
  | [] => none
  | c :: rest =>
      if isDigit c then do
        let (more, rest) ← moreDigits isDigit rest.length rest
        return (c :: more, rest)
      else none

/-- One or more decimal digits without a leading zero. -/
def wholeDigits : Reader (List Char)
  | '0' :: rest => some (['0'], rest)
  | text => digits Char.isDigit text

/-- An optional sign; `true` is minus. -/
def sign : List Char → Bool × List Char
  | '+' :: rest => (false, rest)
  | '-' :: rest => (true, rest)
  | text => (false, text)

/-- The integer, if it fits into 64 bits. -/
def fitting (n : Int) : Option Value :=
  if -(Nat.pow 2 63 : Int) ≤ n ∧ n < Nat.pow 2 63 then some (.integer n) else none

/-- An integer in another base, read after its mark. -/
def basedInteger (base : Nat) : Reader Value := fun text => do
  let (ds, rest) ← digits (fun c => (hexDigit? c).any (· < base)) text
  let n := ds.foldl (fun acc c => base * acc + (hexDigit? c).getD 0) 0
  return (← fitting n, rest)

/-- A decimal integer. -/
def decimalInteger : Reader Value := fun text => do
  let (negative, body) := sign text
  let (ds, rest) ← wholeDigits body
  let n : Int := Nat.ofDigitChars 10 ds 0
  return (← fitting (if negative then -n else n), rest)

/-- An integer. -/
def integer : Reader Value
  | '0' :: 'x' :: rest => basedInteger 16 rest
  | '0' :: 'o' :: rest => basedInteger 8 rest
  | '0' :: 'b' :: rest => basedInteger 2 rest
  | text => decimalInteger text

/-- The digits of a fraction, none if there is none. -/
def fraction : Reader (List Char)
  | '.' :: rest => digits Char.isDigit rest
  | text => some ([], text)

/-- An exponent, zero if there is none. -/
def exponent : Reader Int
  | [] => some (0, [])
  | c :: text =>
      if c = 'e' ∨ c = 'E' then do
        let (negative, body) := sign text
        let (ds, rest) ← digits Char.isDigit body
        let n : Int := Nat.ofDigitChars 10 ds 0
        return (if negative then -n else n, rest)
      else some (0, c :: text)

/-- The binary number closest to a decimal whose exponent may be out of all bounds. -/
def closest (negative : Bool) (d : Decimal) : Binary64 :=
  if d.digits = 0 ∨ d.leadingExponent < -400 then Binary64.signedZero negative
  else if 400 < d.leadingExponent then .infinity negative
  else d.toBinary64 negative

/-- A float with a fraction or an exponent. -/
def decimalFloat : Reader Value := fun text => do
  let (negative, body) := sign text
  let (whole, rest) ← wholeDigits body
  let (places, rest) ← fraction rest
  let (scale, rest) ← exponent rest
  let x := closest negative ⟨Nat.ofDigitChars 10 (whole ++ places) 0, scale - places.length⟩
  if x = .infinity false then none else return (.float x, rest)

/-- A float by name. -/
def namedFloat : Reader Value := fun text => do
  let (negative, body) := sign text
  match expectAll "inf".toList body with
  | some rest => return (.float (.infinity negative), rest)
  | none =>
      let rest ← expectAll "nan".toList body
      return (.float .nan, rest)

/-- The text goes on, after whole digits, with a fraction or an exponent. -/
def looksFloat (text : List Char) : Bool :=
  match wholeDigits (sign text).2 with
  | some (_, c :: _) => c = '.' || c = 'e' || c = 'E'
  | _ => false

/-- A number. -/
def number : Reader Value := fun text =>
  match namedFloat text with
  | some result => some result
  | none => if looksFloat text then decimalFloat text else integer text

end Toml

end ErrorFree
