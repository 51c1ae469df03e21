import Tdlib.Notifications.Flush

/-!
# The total count

Every group update carries the total count of the group, and the last one says what the count is. An
empty group update hands its count to the group update before it, and two updates that are combined
have the count of the second. So a pass keeps the last count, unless it drops the only group update
that is left: an empty one at the very beginning, with edits behind it or of a group that is hidden.
-/

namespace Tdlib.Notifications

open List

variable {ι C T : Type}

def Update.totalCount? : Update ι C T → Option Int
  | .group u => some u.totalCount
  | .edit _ _ => none

/-- The count in the last group update. -/
def lastCount : List (Update ι C T) → Option Int
  | [] => none
  | u :: us => (lastCount us).or u.totalCount?

namespace Pass

/-- The last count among the updates so far. -/
def count (p : Pass ι C T) : Option Int := lastCount (p.updates.filterMap id)

variable [LinearOrder ι] {needed : ι → Bool} {p p' : Pass ι C T} {n : Notification ι C}

variable {pos size : Nat} {isHidden isEmptyGroup : Bool} {us : List (Update ι C T)}

end Pass

/-! ## All passes -/

variable [LinearOrder ι] {us us' : List (Update ι C T)} {s s' : LastState ι} {isHidden : Bool}

end Tdlib.Notifications
