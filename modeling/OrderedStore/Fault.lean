import OrderedStore.Bytes

/-!
# What can go wrong

* `Fault` : the ways in which an operation on a store fails. That a key or an entry is absent is
  never a fault;
* `Fault.message` : the text shown for a fault.
-/

namespace OrderedStore

/-- Why an operation on a store failed. -/
inductive Fault where
  /-- An ordered map has no first entry to start a scan from. -/
  | emptyMap
  /-- The ordered map under the store failed for a reason of its own. -/
  | mapFailure (reason : String)
  /-- A merge operator refused to combine the value of a key. -/
  | mergeFailure (key : Bytes) (reason : String)
  deriving DecidableEq, Repr

namespace Fault

/-- The text shown for a fault; a reason is shown as it is, a key by its bytes in decimal. -/
def message : Fault → String
  | emptyMap => "Ordered map is empty"
  | mapFailure reason => "Ordered map failure: " ++ reason
  | mergeFailure key reason =>
    "Merge failed for key [" ++ Bytes.decimals key ++ "]: " ++ reason

instance : ToString Fault := ⟨message⟩

@[simp] theorem message_emptyMap : emptyMap.message = "Ordered map is empty" := rfl

@[simp] theorem message_mapFailure (reason : String) :
    (mapFailure reason).message = "Ordered map failure: " ++ reason := rfl

@[simp] theorem message_mergeFailure (key : Bytes) (reason : String) :
    (mergeFailure key reason).message = "Merge failed for key [" ++ (key.decimals ++ "]: " ++ reason) := by
  rw [← String.append_assoc, ← String.append_assoc]
  rfl

end Fault
end OrderedStore
