import ErrorFree.Binary64.Arithmetic

/-!
# Total number rules

The operations of the language that ordinary arithmetic leaves open.  Every one of them is total:
a question without an answer gives not-a-number or a signed infinity, and a value that has to be
finite is made so first.
-/

namespace ErrorFree

namespace Number

open Binary64

/-- The value itself if it is finite, zero otherwise. -/
def finiteOrZero (x : Binary64) : Binary64 :=
  if x.isFinite then x else zero

/-- Division.  Over a zero of either sign, zero gives not-a-number, a negative dividend negative
infinity, and everything else, not-a-number included, positive infinity. -/
def divide (dividend divisor : Binary64) : Binary64 :=
  if divisor.equal zero then
    if dividend.equal zero then .nan
    else if dividend.less zero then .infinity true
    else .infinity false
  else dividend.div divisor

/-- Minus one, zero or one by sign; not-a-number stays, both zeros give positive zero. -/
def sign (x : Binary64) : Binary64 :=
  if x.isNaN then .nan
  else if x.less zero then negOne
  else if zero.less x then one
  else zero

/-- The square root, not-a-number below zero. -/
def sqrt (x : Binary64) : Binary64 :=
  if x.less zero then .nan else x.sqrt

/-- The logarithm to base ten, not-a-number below zero. -/
def log10 (x : Binary64) : Binary64 :=
  if x.less zero then .nan else x.log10

/-- One for true, zero for false. -/
def truth (condition : Bool) : Binary64 :=
  if condition then one else zero

/-- The character with the whole part of the magnitude as its code: code zero for what is not
finite, the replacement character where there is no such character. -/
def toChar (x : Binary64) : Char :=
  let code := (finiteOrZero x).abs.toNatClamped (Nat.pow 2 32 - 1)
  if code.isValidChar then Char.ofNat code else '\uFFFD'

end Number

end ErrorFree
