import ErrorFree.Binary64.Arithmetic

/-!
# Relative jumps

A jump adds its distance to the position of the jump itself.  A landing place before the start is
moved forward, one at or behind the end backward, by whole multiples of the program's length; the
result is rounded down and kept between zero and the length.  All of this is done in rounded
arithmetic, so far or fractional distances may land on the length itself, which ends the run.
-/

namespace ErrorFree

namespace Jump

open Binary64

/-- The landing place moved into the program by whole multiples of its length. -/
def wrap (length target : Binary64) : Binary64 :=
  if target.less zero then target + (target.abs.div length).ceil * length
  else if length.lessEq target then target - (target.div length).floor * length
  else target

/-- The value kept between two bounds; not-a-number passes through. -/
def clamp (low high x : Binary64) : Binary64 :=
  if x.less low then low else if high.less x then high else x

/-- Where a jump by `offset` from `cursor` lands in a program of `length` bytes. -/
def target (cursor : Nat) (offset : Binary64) (length : Nat) : Nat :=
  let end' := ofNat length
  (clamp zero end' (wrap end' (ofNat cursor + offset)).floor).toNatClamped (twoTo 64 - 1)

end Jump

end ErrorFree
