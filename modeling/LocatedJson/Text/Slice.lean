/-!
# End-relative slices

A slice is named by two offsets. A negative offset counts from the end,
and an offset outside the list is moved to its nearer edge, so every pair
of offsets names a slice.
-/

namespace LocatedJson.Text

variable {α : Type}

/-- The place that an offset names in a list of `size` entries. -/
def place (size : Nat) (offset : Int) : Nat :=
  if offset < 0 then (offset + size).toNat else min offset.toNat size

/-- The entries from one offset up to, not including, another. -/
def slice (xs : List α) (start stop : Int) : List α :=
  (xs.drop (place xs.length start)).take (place xs.length stop - place xs.length start)

def sliceFrom (xs : List α) (start : Int) : List α := xs.drop (place xs.length start)

def sliceTo (xs : List α) (stop : Int) : List α := xs.take (place xs.length stop)

theorem place_le (size : Nat) (offset : Int) : place size offset ≤ size := by
  unfold place
  split <;> omega

theorem place_natCast {size n : Nat} (h : n ≤ size) : place size (n : Int) = n := by
  unfold place
  split <;> omega

end LocatedJson.Text
