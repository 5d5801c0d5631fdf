import BLink.Model.Threads

/-! The calls of a set.
`BLinkSet<T>` keeps its values as the keys of a `BLinkMap<T, ()>`, and each of its functions below
makes one call of that map. A `SetRef` is the map's guard for the entry with the value.
-/

namespace BLink

open Library

variable {T : Type} [TotalOrd T]

/-- A call of a set. -/
inductive SetCall (T : Type) [TotalOrd T] where
  | contains (value : Query T)
  | get (value : Query T)
  | insert (value : T)
  | remove (value : Query T)
  | first
  | last
  | len
  | isEmpty

/-- The call that the set makes of its map. -/
def SetCall.call : SetCall T → Call T Unit
  | .contains value => .containsKey value
  | .get value => .get value
  | .insert value => .insert value ()
  | .remove value => .remove value
  | .first => .firstKeyValue
  | .last => .lastKeyValue
  | .len => .len
  | .isEmpty => .isEmpty

/-- What the set answers if its map has given the response: `insert` returns `is_none()` of it, and
`remove` returns `is_some()`.
-/
def SetCall.answer : SetCall T → Response T Unit → Response T Unit
  | .insert _, .previous value => .flag value.isNone
  | .remove _, .previous value => .flag value.isSome
  | _, response => response

/-- The set's call that makes the call of the map, if there is one. -/
def Call.asSet : Call T Unit → Option (SetCall T)
  | .containsKey value => some (.contains value)
  | .get value => some (.get value)
  | .insert value _ => some (.insert value)
  | .remove value => some (.remove value)
  | .firstKeyValue => some .first
  | .lastKeyValue => some .last
  | .len => some .len
  | .isEmpty => some .isEmpty
  | .getMut _ _ | .next _ => none

theorem Call.asSet_eq_some {call : Call T Unit} {outer : SetCall T}
    : call.asSet = some outer ↔ call = outer.call := by
  constructor
  · intro isSet
    cases call with
    | getMut | next => cases isSet
    | _ =>
        cases isSet
        rfl
  · intro isCall
    subst isCall
    cases outer <;> rfl

end BLink
