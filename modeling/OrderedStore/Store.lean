import OrderedStore.Backing
import OrderedStore.Settings

/-!
# Stores

* `Store M` : a key-value store that stands on an ordered map of type `M`;
* `Store.empty`, `Store.withMap`, `Store.ofSettings` : a store without keys, over a map, and for a
  host's settings, none of which matters to a store in memory;
* `Store.get?`, `Store.read`, `Store.set`, `Store.delete` : one key is read, written, removed, each
  by one operation of the map. `Store.read_eq` : `Store.get?` is the answer of `Store.read`, without
  the trace that this leaves in the map.

An operation that writes is an `EStateM` action on the store: on either outcome it gives back the
store as it then is.
-/

namespace OrderedStore

structure Store (M : Type) where
  map : M

namespace Store

def empty : Store ByteMap := ⟨.empty⟩

instance : Inhabited (Store ByteMap) := ⟨empty⟩

/-- The store a host asks for by its settings, all of which are accepted and passed over. -/
def ofSettings (_ : Settings) : Except Fault (Store ByteMap) := .ok empty

variable {M : Type}

def withMap (map : M) : Store M := ⟨map⟩

/-- Runs an action of the map on the map of a store. -/
def onMap {α : Type} (action : EStateM Fault M α) : EStateM Fault (Store M) α := fun store =>
  match action store.map with
  | .ok a map => .ok a ⟨map⟩
  | .error fault map => .error fault ⟨map⟩

/-- Gives a store up. In memory there is nothing to release, and the store stays as it is. -/
def close (_ : Store M) : Except Fault Unit := .ok ()

variable [Backing M]

def get? (store : Store M) (key : Bytes) : Option Bytes := Backing.get? store.map key

def read (key : Bytes) : EStateM Fault (Store M) (Option Bytes) := onMap (Backing.read key)

theorem read_eq (key : Bytes) (store : Store M) :
    read key store = .ok (store.get? key) ⟨Backing.afterGet store.map key⟩ := rfl

def set (key value : Bytes) : EStateM Fault (Store M) Unit := onMap (Backing.insert key value)

def delete (key : Bytes) : EStateM Fault (Store M) Unit := onMap (Backing.delete key)

def size (store : Store M) : Nat := Backing.size store.map

def isEmpty (store : Store M) : Bool := Backing.isEmpty store.map

end Store
end OrderedStore
