import OrderedStore.Merge
import OrderedStore.SortedMap
import OrderedStore.Store

/-!
# Write batches

* `WriteBatch` : writes and merges that are held back until they are committed together;
* `WriteBatch.set`, `WriteBatch.delete`, `WriteBatch.merge` : hold one back; none of them can fail;
* `WriteBatch.commit` : what the batch does to a map. First the merges, by ascending key: each chain
  is run on the value its key has in the map, and the answer is written. Then the plain writes, in
  the order they were held back, so that they win over merges of the same key, and later ones over
  earlier ones. The first fault ends the commit, and what was written before it stays;
* `WriteBatch.execute` : commits the batch to a store, and leaves the batch empty on either outcome.
-/

namespace OrderedStore

/-- Writes and merges that are held back until they are committed together. -/
structure WriteBatch where
  /-- Plain writes, oldest first; `none` removes the key. A key written twice is listed twice. -/
  writes : Array (Bytes × Option Bytes)
  merges : SortedMap Bytes MergeChain

namespace WriteBatch

def empty : WriteBatch := ⟨#[], .empty⟩

instance : Inhabited WriteBatch := ⟨empty⟩

/-! ## Holding back -/

def set (batch : WriteBatch) (key value : Bytes) : WriteBatch :=
  { batch with writes := batch.writes.push (key, some value) }

def delete (batch : WriteBatch) (key : Bytes) : WriteBatch :=
  { batch with writes := batch.writes.push (key, none) }

/-- The operators held back for a key, first one first. -/
def chain (batch : WriteBatch) (key : Bytes) : MergeChain := (batch.merges.get? key).getD []

/-- Holds back an operator, behind those that the key already has. -/
def merge (batch : WriteBatch) (key : Bytes) (operator : MergeOperator) : WriteBatch :=
  { batch with merges := batch.merges.insert key (batch.chain key ++ [operator]) }

def close (_ : WriteBatch) : WriteBatch := empty

def writeCount (batch : WriteBatch) : Nat := batch.writes.size

def mergeKeyCount (batch : WriteBatch) : Nat := batch.merges.size

def isEmpty (batch : WriteBatch) : Bool := batch.writes.isEmpty && batch.merges.isEmpty

/-! ## The chain of a key -/

@[simp] theorem chain_empty (key : Bytes) : empty.chain key = [] := rfl

@[simp] theorem chain_set (batch : WriteBatch) (key value key' : Bytes) :
    (batch.set key value).chain key' = batch.chain key' := rfl

@[simp] theorem chain_delete (batch : WriteBatch) (key key' : Bytes) :
    (batch.delete key).chain key' = batch.chain key' := rfl

@[simp] theorem chain_merge_self (batch : WriteBatch) (key : Bytes) (operator : MergeOperator) :
    (batch.merge key operator).chain key = batch.chain key ++ [operator] := by
  simp [merge, chain]

theorem chain_merge_of_ne (batch : WriteBatch) {key key' : Bytes} (h : key' ≠ key)
    (operator : MergeOperator) : (batch.merge key operator).chain key' = batch.chain key' := by
  simp [merge, chain, SortedMap.get?_insert_of_ne _ h]

/-! ## Committing -/

variable {M : Type} [Backing M]

/-- Runs a chain on the value its key has in the map, and writes the answer. -/
def applyChain (key : Bytes) (chain : MergeChain) : EStateM Fault M Unit := do
  match chain.fold key (← Backing.read key) with
  | .ok merged => Backing.put key merged
  | .error fault => throw fault

/-- Writes all that is held back to a map, merges first. -/
def commit (batch : WriteBatch) : EStateM Fault M Unit := do
  batch.merges.toList.forM fun e => applyChain e.1 e.2
  batch.writes.toList.forM fun e => Backing.put e.1 e.2

/-- Commits the batch to a store; afterwards nothing is held back, whether or not it succeeded. -/
def execute : EStateM Fault (WriteBatch × Store M) Unit := fun (batch, store) =>
  match Store.onMap batch.commit store with
  | .ok () store => .ok () (empty, store)
  | .error fault store => .error fault (empty, store)

end WriteBatch

def Store.newBatch {M : Type} (_ : Store M) : WriteBatch := .empty

end OrderedStore
