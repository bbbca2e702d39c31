import OrderedStore.Bytes
import OrderedStore.Fault

/-!
# Combining a value with new input

* `MergeOperator` : combines a key's value so far, if it has one, with new input. Its answer is the
  new value, or `none` for a key that is to go;
* `MergeOperator.append` : writes bytes behind the value so far;
* `MergeChain.fold` : the operators of one key in turn, each on what the one before it answered. The
  first operator that fails ends the chain, and its fault is the chain's.
  `MergeChain.fold_eq_foldlM` : this is the left fold of lists;
* `Bytes.ofNatLE w n`, `Bytes.toNatLE v` : the `w` lowest base-256 digits of `n`, least significant
  first, and the number with the digits `v`;
* `Counter.encode`, `Counter.decode` : a counter is a value of eight bytes that hold an unsigned
  number, least significant byte first;
* `Counter.add` : the merge operator that adds a signed amount. The sum is exact, so nothing wraps:
  a sum of zero or less removes the key, and one of `2 ^ 64` or more is refused.
-/

namespace OrderedStore

/-! ## Operators and chains -/

/-- Combines the value of a key so far, absent or present, into its new value or its absence. An
operator has no state of its own: its answer depends on the key and that value alone. -/
abbrev MergeOperator := (key : Bytes) → (existing : Option Bytes) → Except Fault (Option Bytes)

/-- The operators to be run on the value of one key, first one first. -/
abbrev MergeChain := List MergeOperator

/-- Writes bytes behind the value so far; an absent value counts as empty. -/
def MergeOperator.append (suffix : Bytes) : MergeOperator := fun _ existing =>
  .ok (some (existing.getD [] ++ suffix))

/-- Runs the operators in turn, each on what the one before it answered. -/
def MergeChain.fold (chain : MergeChain) (key : Bytes) (existing : Option Bytes) :
    Except Fault (Option Bytes) :=
  chain.foldlM (fun current operator => operator key current) existing

namespace MergeChain

theorem fold_eq_foldlM (chain : MergeChain) (key : Bytes) (existing : Option Bytes) :
    chain.fold key existing =
      List.foldlM (fun current operator => operator key current) existing chain := rfl

@[simp] theorem fold_nil (key : Bytes) (existing : Option Bytes) :
    fold [] key existing = .ok existing := rfl

theorem fold_cons (operator : MergeOperator) (chain : MergeChain) (key : Bytes)
    (existing : Option Bytes) :
    fold (operator :: chain) key existing = (operator key existing).bind (fold chain key) := rfl

theorem fold_append (chain chain' : MergeChain) (key : Bytes) (existing : Option Bytes) :
    fold (chain ++ chain') key existing = (fold chain key existing).bind (fold chain' key) :=
  List.foldlM_append

end MergeChain

/-! ## Little-endian numbers -/

namespace Bytes

/-- The `width` lowest base-256 digits of a number, least significant first. -/
def ofNatLE : (width n : Nat) → Bytes
  | 0, _ => []
  | width + 1, n => UInt8.ofNat n :: ofNatLE width (n / 256)

/-- The number whose base-256 digits are these bytes, least significant first. -/
def toNatLE : Bytes → Nat
  | [] => 0
  | b :: rest => b.toNat + 256 * toNatLE rest

@[simp] theorem length_ofNatLE (width n : Nat) : (ofNatLE width n).length = width := by
  induction width generalizing n with
  | zero => rfl
  | succ width ih => simp [ofNatLE, ih]

end Bytes

/-! ## Counters -/

namespace Counter

def width : Nat := 8

def encode (count : UInt64) : Bytes := Bytes.ofNatLE width count.toNat

/-- The count that a value of a key holds; a value of any other length than eight is refused. -/
def decode (key value : Bytes) : Except Fault UInt64 :=
  if value.length = width then .ok (UInt64.ofNat (Bytes.toNatLE value))
  else .error (.mergeFailure key
    ("counter value must be " ++ width.repr ++ " bytes, got " ++ value.length.repr))

/-- Adds a signed amount to the count so far; an absent counter counts as zero. -/
def add (delta : Int64) : MergeOperator := fun key existing => do
  let count : UInt64 ← match existing with
    | some value => decode key value
    | none => pure 0
  let sum : Int := count.toNat + delta.toInt
  if sum ≤ 0 then
    return none
  else if sum < UInt64.size then
    return some (encode (UInt64.ofNat sum.toNat))
  else
    throw (.mergeFailure key "counter overflow")

end Counter
end OrderedStore
