import OrderedStore.Fault
import OrderedStore.SortedMap

/-!
# The ordered map under a store

* `Backing M` : what a store asks of the map it stands on. Writes may fail, and a failed write may
  still leave the map changed, so a write gives back the map on either outcome;
* `Step` : what a cursor finds at its position. A cursor never holds the map. Each step is handed
  the map as it is at that moment, so writes made between two steps are seen by the later one;
* `Backing.read` : a look-up as an action, with the trace it leaves; `Backing.put` : writes a value,
  or removes the key where there is none;
* `ByteMap` : a sorted map from byte keys to byte values, on which a store stands unless it is given
  another. Its writes never fail;
* `RangeCursor` : its cursor, which remembers a lower bound on the keys still to be visited, and
  nothing else of the map. Each step looks for the least key within the bound in the map it is
  handed, and then admits only later keys, so the keys it finds ascend whatever is written between
  the steps. Once it has found the end, it stays there.
-/

namespace OrderedStore

/-- What a cursor finds at its position. -/
inductive Step where
  | entry (key value : Bytes)
  | exhausted
  deriving DecidableEq, Repr

/-- An ordered map from byte keys to byte values, on which a store can stand. -/
class Backing (M : Type) where
  /-- A forward-only position in such a map. -/
  Cursor : Type
  /-- Gives a key a value, in place of the one it had. -/
  insert (key value : Bytes) : EStateM Fault M Unit
  /-- Removes a key; a key that is not there is left so. -/
  delete (key : Bytes) : EStateM Fault M Unit
  get? (map : M) (key : Bytes) : Option Bytes
  /-- The map after a look-up, which may leave a trace in it, such as a count of its calls. -/
  afterGet (map : M) (key : Bytes) : M := map
  /-- A cursor before the least key that is at or after this one. -/
  seek (map : M) (key : Bytes) : Except Fault Cursor
  /-- A cursor before the least key; a map without keys answers `Fault.emptyMap`. -/
  seekFirst (map : M) : Except Fault Cursor
  size (map : M) : Nat
  isEmpty (map : M) : Bool := size map == 0
  /-- Reads the entry at a cursor, and moves the cursor past it. -/
  next (map : M) (cursor : Cursor) : Except Fault Step × Cursor
  /-- Gives a position up, after which every step finds the end. -/
  close (cursor : Cursor) : Cursor

variable {M : Type} [Backing M]

/-- Looks a key up, which never fails. -/
def Backing.read (key : Bytes) : EStateM Fault M (Option Bytes) :=
  modifyGet fun map => (Backing.get? map key, Backing.afterGet map key)

/-- Gives a key a value, or removes the key where there is no value to give. -/
def Backing.put (key : Bytes) : Option Bytes → EStateM Fault M Unit
  | some value => Backing.insert key value
  | none => Backing.delete key

/-! ## The sorted byte map -/

abbrev ByteMap := SortedMap Bytes Bytes

structure RangeCursor where
  /-- Which keys are still to be visited. -/
  bound : LowerBound Bytes
  /-- The end has been found, or the position given up. -/
  done : Bool := false
  deriving DecidableEq, Repr

namespace RangeCursor

/-- Finds the least entry still to be visited, and moves past it. -/
def next (map : ByteMap) (cursor : RangeCursor) : Step × RangeCursor :=
  if cursor.done then (.exhausted, cursor)
  else match map.first? cursor.bound with
    | some (key, value) => (.entry key value, { cursor with bound := .above key })
    | none => (.exhausted, { cursor with done := true })

def close (_ : RangeCursor) : RangeCursor := ⟨.unbounded, true⟩

/-! ## One step -/

variable {map : ByteMap} {cursor : RangeCursor}

theorem next_of_done (h : cursor.done = true) : cursor.next map = (.exhausted, cursor) := by
  rw [next, if_pos h]

theorem next_of_first?_some (h : cursor.done = false) {key value : Bytes}
    (hfirst : map.first? cursor.bound = some (key, value)) :
    cursor.next map = (.entry key value, ⟨.above key, false⟩) := by
  simp [next, h, hfirst]

theorem next_of_first?_none (h : cursor.done = false) (hfirst : map.first? cursor.bound = none) :
    cursor.next map = (.exhausted, ⟨cursor.bound, true⟩) := by
  simp [next, h, hfirst]

end RangeCursor

namespace ByteMap

/-- A cursor before the least key that is at or after this one. -/
def seek (_ : ByteMap) (key : Bytes) : RangeCursor := ⟨.atLeast key, false⟩

/-- A cursor before the least key, where there is one. -/
def seekFirst (map : ByteMap) : Except Fault RangeCursor :=
  if map.isEmpty then .error .emptyMap else .ok ⟨.unbounded, false⟩

instance : Backing ByteMap where
  Cursor := RangeCursor
  insert key value := modify (·.insert key value)
  delete key := modify (·.erase key)
  get? map key := map.get? key
  seek map key := .ok (seek map key)
  seekFirst := seekFirst
  size := SortedMap.size
  next map cursor := (.ok (cursor.next map).1, (cursor.next map).2)
  close := RangeCursor.close

/-! ## The operations of the contract -/

theorem backing_next (map : ByteMap) (cursor : RangeCursor) :
    Backing.next map cursor = (.ok (cursor.next map).1, (cursor.next map).2) := rfl

theorem backing_put (key : Bytes) (value? : Option Bytes) (map : ByteMap) :
    Backing.put key value? map = .ok () (map.put key value?) := by
  cases value? <;> rfl

end ByteMap
end OrderedStore
