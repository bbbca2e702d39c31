import OrderedStore.Merge
import OrderedStore.Scan
import OrderedStore.WriteBatch

/-!
# The roles of a storage backend

A host programs against roles and not against stores.

* `EntryScan`, `WriteBuffer` : what every scan and every buffer of writes can do by itself;
* `Reader` : point reads and ordered scans; `Writer` : point writes and buffered writes;
* `Backend` : both, with an end to its life;
* `Registration` : the entry of a backend in a host's registry.

A store plays all of these roles. It is its own reader and its own writer, so a reader sees every
write at once.
-/

namespace OrderedStore

class EntryScan (I : Type) where
  current? (scan : I) : Option (Bytes × Bytes)
  key? (scan : I) : Option Bytes := (current? scan).map (·.1)
  value? (scan : I) : Option Bytes := (current? scan).map (·.2)
  isValid (scan : I) : Bool := (current? scan).isSome
  close (scan : I) : I

/-- Point reads and ordered scans, on a backend of type `S` with scans of type `I`. -/
class Reader (S : Type) (I : outParam Type) [EntryScan I] where
  get? (backend : S) (key : Bytes) : Except Fault (Option Bytes)
  /-- A scan that stands at the first entry whose key is at or after this one. -/
  scan (backend : S) (start : Bytes) : I
  seekFirst (backend : S) (scan : I) : I
  seek (backend : S) (scan : I) (key : Bytes) : I
  next (backend : S) (scan : I) : I

/-- Writes that are held back; holding back never fails. -/
class WriteBuffer (B : Type) where
  set (buffer : B) (key value : Bytes) : B
  delete (buffer : B) (key : Bytes) : B
  /-- Holds back an operator, behind those that the key already has. -/
  merge (buffer : B) (key : Bytes) (operator : MergeOperator) : B
  /-- Drops all that is held back. -/
  close (buffer : B) : B

/-- Point writes and buffered writes, on a backend of type `S` with buffers of type `B`. -/
class Writer (S : Type) (B : outParam Type) [WriteBuffer B] where
  set (key value : Bytes) : EStateM Fault S Unit
  /-- Removes a key; a key that is not there is no fault. -/
  delete (key : Bytes) : EStateM Fault S Unit
  newBatch (backend : S) : B
  /-- Commits what a buffer holds back. -/
  execute : EStateM Fault (B × S) Unit

class Backend (S : Type) (I B : outParam Type) [EntryScan I] [WriteBuffer B] extends
    Reader S I, Writer S B where
  /-- The view to read through: the backend itself, and no snapshot of it. -/
  reader (backend : S) : S := backend
  /-- The view to write through: the backend itself. -/
  writer (backend : S) : S := backend
  close (backend : S) : Except Fault Unit

/-! ## A store in these roles -/

variable {M : Type} [Backing M]

instance : EntryScan (Scan M) where
  current? := Scan.current?
  close := Scan.close

instance : WriteBuffer WriteBatch where
  set := WriteBatch.set
  delete := WriteBatch.delete
  merge := WriteBatch.merge
  close := WriteBatch.close

instance : Reader (Store M) (Scan M) where
  get? store key := .ok (store.get? key)
  scan := Store.scan
  seekFirst store scan := scan.seekFirst store
  seek store scan key := scan.seek store key
  next store scan := scan.next store

instance : Writer (Store M) WriteBatch where
  set := Store.set
  delete := Store.delete
  newBatch := Store.newBatch
  execute := WriteBatch.execute

instance : Backend (Store M) (Scan M) WriteBatch where
  close := Store.close

/-! ## Registration -/

/-- The entry of a backend in a host's registry. -/
structure Registration where
  name : String
  version : String
  construct : Settings → Except Fault (Store ByteMap)

def registration : Registration := ⟨"treekv", "0.1.0", Store.ofSettings⟩

end OrderedStore
