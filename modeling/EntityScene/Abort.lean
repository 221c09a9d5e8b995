/-!
# Abandoned calls

A call on the scene either returns or is *abandoned*: control leaves every call
in progress until somebody who asked to be told catches it. State changes made
before that point stay; only the guards held on the way out are released.

- `Abort`: the causes for which a call is abandoned.
- `Abort.message`: the text that goes with each cause.
-/

namespace EntityScene

/-- Why a call was abandoned. -/
inductive Abort
  /-- A component was put on a handle that has the null index. -/
  | nullHolder
  /-- Exclusive access to several kinds was asked for with a kind listed twice. -/
  | repeatedKind
  /-- No index is left for a new entity. -/
  | indicesExhausted
  /-- A count, a 32-bit word, has no room for one more. -/
  | countOverflow
  /-- A count is to be one less than zero. -/
  | countUnderflow
  /-- A row is read that the array does not have. -/
  | rowMissing (row size : Nat)
  /-- A row is taken out of an array that does not have it. -/
  | removalMissing (row size : Nat)
  /-- A program gave up for a reason of its own. -/
  | raised (text : String)
deriving DecidableEq, Repr, Inhabited

/-- The text that reports an abandoned call. -/
def Abort.message : Abort → String
  | .nullHolder => "the null entity cannot hold components"
  | .repeatedKind => "try_get_components_mut requires distinct component types"
  | .indicesExhausted => "entity index space exhausted"
  | .countOverflow => "attempt to add with overflow"
  | .countUnderflow => "attempt to subtract with overflow"
  | .rowMissing row size =>
    "index out of bounds: the len is " ++ toString size ++ " but the index is " ++ toString row
  | .removalMissing row size =>
    "swap_remove index (is " ++ toString row ++ ") should be < len (is " ++ toString size ++ ")"
  | .raised text => text

end EntityScene
