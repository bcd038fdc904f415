/-!
# Limits

Bounds on what is read: the size of a text and the number of brackets
open at once. Both are positive. A depth counter is raised on entering a
structure, also when that exceeds the bound, and lowered on leaving one.
-/

namespace LocatedJson

structure Limits where
  maxSize : Nat := 10 * 1024 * 1024
  maxDepth : Nat := 100
  maxSize_pos : 0 < maxSize := by decide
  maxDepth_pos : 0 < maxDepth := by decide
  deriving DecidableEq, Repr

/-- Which bound is not positive. -/
inductive LimitsFault where
  | size
  | depth
  deriving DecidableEq, Repr

/-- A bound that was exceeded, with what was found. -/
inductive Excess where
  | size (found limit : Nat)
  | depth (found limit : Nat)
  deriving DecidableEq, Repr

namespace LimitsFault

def message : LimitsFault → String
  | size => "max_input_size must be positive"
  | depth => "max_nesting_depth must be positive"

end LimitsFault

namespace Excess

def message : Excess → String
  | size found limit => s!"Input size {found} exceeds limit {limit}"
  | depth found limit => s!"Nesting depth {found} exceeds limit {limit}"

end Excess

namespace Limits

/-- The limits with given bounds; the size is examined first. -/
def ofInts (size depth : Int) : Except LimitsFault Limits :=
  if hs : 0 < size then
    if hd : 0 < depth then
      .ok ⟨size.toNat, depth.toNat, by omega, by omega⟩
    else .error .depth
  else .error .size

def sizeExcess? (limits : Limits) (size : Nat) : Option Excess :=
  if limits.maxSize < size then some (.size size limits.maxSize) else none

def depthExcess? (limits : Limits) (depth : Nat) : Option Excess :=
  if limits.maxDepth < depth then some (.depth depth limits.maxDepth) else none

/-- The depth inside a structure, and the excess if that is too deep. -/
def enter (limits : Limits) (depth : Nat) : Nat × Option Excess :=
  (depth + 1, limits.depthExcess? (depth + 1))

/-- The depth after leaving a structure; it does not fall below zero. -/
def leave (depth : Nat) : Nat := depth - 1

theorem leave_enter (limits : Limits) (depth : Nat) :
    leave (limits.enter depth).1 = depth := rfl

end Limits

end LocatedJson
