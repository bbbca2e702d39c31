import Mathlib.Data.List.Dedup
import Mathlib.Data.List.Induction
import Mathlib.Data.List.Sort
import OrderedStore.Proofs.Action
import OrderedStore.WriteBatch

/-!
# What the calls on a batch leave held back

* `WriteBatch.Call` : a call that holds something back; `ofCalls calls` is the batch after these
  calls, on a batch that held nothing;
* `plainWrites calls`, `operators calls key`, `mergeKeys calls` : the sets and deletes in call
  order, the operators given for a key in call order, and the keys of the merge calls, each once and
  ascending. They are read off the calls alone;
* `toList_writes_ofCalls`, `chain_ofCalls`, `toList_merges_ofCalls` : they are what the batch holds;
* `plainWrites_append`, `operators_append` : they are read off calls in a row one after the other;
* `lastWrite? writes key` : what the last of a row of writes makes of a key, if one writes it;
* `SameOrders calls calls'` : the sets and deletes are the same in the same order, and so are the
  operators for each key; how these and those stand between each other is left open;
* `ofCalls_eq_iff` : two rows of calls leave one and the same batch exactly if they agree in these
  orders; `commits_alike` : so no other order of calls is ever seen, over any map.
-/

namespace OrderedStore.WriteBatch
open ByteKey

inductive Call where
  | set (key value : Bytes)
  | delete (key : Bytes)
  | merge (key : Bytes) (operator : MergeOperator)

namespace Call

def write? : Call → Option (Bytes × Option Bytes)
  | set key value => some (key, some value)
  | delete key => some (key, none)
  | merge .. => none

def mergeKey? : Call → Option Bytes
  | merge key _ => some key
  | _ => none

def operatorFor? (key : Bytes) : Call → Option MergeOperator
  | merge key' operator => if key' = key then some operator else none
  | _ => none

end Call

def hold (batch : WriteBatch) : Call → WriteBatch
  | .set key value => batch.set key value
  | .delete key => batch.delete key
  | .merge key operator => batch.merge key operator

/-- The batch after these calls, on a batch that held nothing. -/
def ofCalls (calls : List Call) : WriteBatch := calls.foldl hold .empty

/-! ## Read off the calls -/

/-- The sets and deletes in call order, repetitions included. -/
def plainWrites (calls : List Call) : List (Bytes × Option Bytes) := calls.filterMap Call.write?

def operators (calls : List Call) (key : Bytes) : MergeChain := calls.filterMap (Call.operatorFor? key)

/-- The keys of the merge calls, each once, in ascending byte order. -/
def mergeKeys (calls : List Call) : List Bytes :=
  (calls.filterMap Call.mergeKey?).dedup.insertionSort (· ≤ ·)

theorem plainWrites_append (calls calls' : List Call) :
    plainWrites (calls ++ calls') = plainWrites calls ++ plainWrites calls' := List.filterMap_append

theorem operators_append (calls calls' : List Call) (key : Bytes) :
    operators (calls ++ calls') key = operators calls key ++ operators calls' key := List.filterMap_append

theorem mem_operators {calls : List Call} {key : Bytes} {operator : MergeOperator} :
    operator ∈ operators calls key ↔ Call.merge key operator ∈ calls := by
  rw [operators, List.mem_filterMap]
  constructor
  · rintro ⟨call, hcall, hop⟩
    cases call with
    | merge key' operator' =>
      rw [Call.operatorFor?] at hop
      split at hop
      · next hkey => exact hkey ▸ Option.some.inj hop ▸ hcall
      · cases hop
    | _ => cases hop
  · intro hcall
    exact ⟨_, hcall, by simp [Call.operatorFor?]⟩

theorem mem_mergeKeys {calls : List Call} {key : Bytes} :
    key ∈ mergeKeys calls ↔ operators calls key ≠ [] := by
  rw [mergeKeys, List.mem_insertionSort, List.mem_dedup, List.mem_filterMap]
  constructor
  · rintro ⟨call, hcall, hkey⟩
    cases call with
    | merge key' operator =>
      exact List.ne_nil_of_mem (mem_operators.2 (Option.some.inj hkey ▸ hcall))
    | _ => cases hkey
  · intro hops
    obtain ⟨operator, hop⟩ := List.exists_mem_of_ne_nil _ hops
    exact ⟨_, mem_operators.1 hop, rfl⟩

theorem mergeKeys_ascending (calls : List Call) : (mergeKeys calls).Pairwise (· < ·) := by
  have hsorted : (mergeKeys calls).Pairwise (· ≤ ·) := List.pairwise_insertionSort _ _
  have hnodup : (mergeKeys calls).Nodup :=
    (List.perm_insertionSort _ _).nodup_iff.2 (List.nodup_dedup _)
  refine List.Pairwise.imp₂ (fun a b hle hne => ?_) hsorted hnodup
  by_contra hlt
  exact hne (List.le_antisymm hle (List.not_lt.1 hlt))

/-! ## What the batch holds -/

theorem ofCalls_snoc (calls : List Call) (call : Call) :
    ofCalls (calls ++ [call]) = (ofCalls calls).hold call := by
  simp [ofCalls]

theorem toList_writes_hold (batch : WriteBatch) (call : Call) :
    (batch.hold call).writes.toList = batch.writes.toList ++ call.write?.toList := by
  cases call <;> simp [hold, set, delete, merge, Call.write?]

theorem chain_hold (batch : WriteBatch) (call : Call) (key : Bytes) :
    (batch.hold call).chain key = batch.chain key ++ (call.operatorFor? key).toList := by
  cases call with
  | set | delete => simp [hold, Call.operatorFor?]
  | merge key' operator =>
    rw [Call.operatorFor?]
    split
    · next hkey => simp [hold, hkey]
    · next hkey => simp [hold, chain_merge_of_ne _ (Ne.symm hkey)]

theorem toList_writes_ofCalls (calls : List Call) :
    (ofCalls calls).writes.toList = plainWrites calls := by
  induction calls using List.reverseRecOn with
  | nil => rfl
  | append_singleton calls call ih =>
    rw [ofCalls_snoc, toList_writes_hold, ih, plainWrites_append]
    cases h : call.write? <;> simp [plainWrites, h]

theorem operators_snoc (calls : List Call) (call : Call) (key : Bytes) :
    operators (calls ++ [call]) key = operators calls key ++ (call.operatorFor? key).toList := by
  rw [operators_append]
  cases h : call.operatorFor? key <;> simp [operators, h]

theorem chain_ofCalls (calls : List Call) (key : Bytes) :
    (ofCalls calls).chain key = operators calls key := by
  induction calls using List.reverseRecOn with
  | nil => rfl
  | append_singleton calls call ih => rw [ofCalls_snoc, chain_hold, ih, operators_snoc]

theorem get?_merges_ofCalls (calls : List Call) (key : Bytes) :
    (ofCalls calls).merges.get? key =
      if operators calls key = [] then none else some (operators calls key) := by
  induction calls using List.reverseRecOn with
  | nil => rfl
  | append_singleton calls call ih =>
    rw [ofCalls_snoc, operators_snoc]
    cases call with
    | set | delete => simpa [hold, set, delete, Call.operatorFor?] using ih
    | merge key' operator =>
      by_cases hkey : key' = key
      · subst hkey
        simp [hold, merge, Call.operatorFor?, chain_ofCalls]
      · simpa [hold, merge, Call.operatorFor?, hkey, SortedMap.get?_insert_of_ne _ (Ne.symm hkey)]
          using ih

theorem toList_merges_ofCalls (calls : List Call) :
    (ofCalls calls).merges.toList = (mergeKeys calls).map fun key => (key, operators calls key) := by
  refine Ascending.eq_of_mem_iff (SortedMap.ascending _)
    (List.pairwise_map.2 (mergeKeys_ascending calls)) fun e => ?_
  rw [← SortedMap.get?_eq_some_iff, get?_merges_ofCalls, List.mem_map]
  constructor
  · intro h
    split at h
    · cases h
    · next hops => exact ⟨e.1, mem_mergeKeys.2 hops, by rw [Option.some.inj h]⟩
  · rintro ⟨key, hkey, rfl⟩
    exact if_neg (mem_mergeKeys.1 hkey)

/-! ## The last write of a key -/

/-- What the last of these writes to a key makes of it, if one writes it at all. -/
def lastWrite? (writes : List (Bytes × Option Bytes)) (key : Bytes) : Option (Option Bytes) :=
  writes.reverse.lookup key

/-- Of two rows of writes, the later one has the say on the keys it writes. -/
theorem lastWrite?_append (writes writes' : List (Bytes × Option Bytes)) (key : Bytes) :
    lastWrite? (writes ++ writes') key = (lastWrite? writes' key).or (lastWrite? writes key) := by
  rw [lastWrite?, List.reverse_append, List.lookup_append]
  rfl

theorem lastWrite?_eq_none_iff {writes : List (Bytes × Option Bytes)} {key : Bytes} :
    lastWrite? writes key = none ↔ key ∉ writes.map (·.1) := by
  rw [lastWrite?, List.lookup_eq_none_iff, List.mem_map]
  constructor
  · rintro h ⟨write, hwrite, rfl⟩
    simpa using h write (List.mem_reverse.2 hwrite)
  · intro h write hwrite
    have hne : key ≠ write.1 := fun heq => h ⟨write, List.mem_reverse.1 hwrite, heq.symm⟩
    simpa using hne

theorem lastWrite?_snoc (writes : List (Bytes × Option Bytes)) (e : Bytes × Option Bytes)
    (key : Bytes) :
    lastWrite? (writes ++ [e]) key = if key = e.1 then some e.2 else lastWrite? writes key := by
  rw [lastWrite?, lastWrite?, List.reverse_append, List.reverse_singleton, List.singleton_append,
    List.lookup_cons]
  by_cases hkey : key = e.1
  · rw [if_pos hkey, beq_iff_eq.2 hkey]
  · rw [if_neg hkey, beq_eq_false_iff_ne.2 hkey]

/-! ## The same calls in another order -/

/-- The same sets and deletes in the same order, and for each key the same operators in the same
order. -/
structure SameOrders (calls calls' : List Call) : Prop where
  writes : plainWrites calls = plainWrites calls'
  operators : ∀ key, operators calls key = WriteBatch.operators calls' key

theorem merges_ofCalls_eq {calls calls' : List Call} (h : ∀ key, operators calls key = operators calls' key) :
    (ofCalls calls).merges = (ofCalls calls').merges := by
  apply SortedMap.ext_get?
  intro key
  rw [get?_merges_ofCalls, get?_merges_ofCalls, h]

/-- A batch is told by the order of its plain writes and that of each chain, and tells no more. -/
theorem ofCalls_eq_iff {calls calls' : List Call} : ofCalls calls = ofCalls calls' ↔ SameOrders calls calls' := by
  constructor
  · intro h
    refine ⟨?_, fun key => ?_⟩
    · rw [← toList_writes_ofCalls, ← toList_writes_ofCalls, h]
    · rw [← chain_ofCalls, ← chain_ofCalls, h]
  · intro h
    have hwrites : (ofCalls calls).writes = (ofCalls calls').writes := by
      rw [← Array.toList_inj, toList_writes_ofCalls, toList_writes_ofCalls, h.writes]
    calc ofCalls calls = ⟨(ofCalls calls).writes, (ofCalls calls).merges⟩ := rfl
      _ = ⟨(ofCalls calls').writes, (ofCalls calls').merges⟩ := by rw [hwrites, merges_ofCalls_eq h.operators]
      _ = ofCalls calls' := rfl

variable {M : Type} [Backing M]

/-- Two batches that agree in the order of their plain writes and in that of each chain count the
same, come to the same over any map, and leave it the same. -/
theorem commits_alike {calls calls' : List Call} (h : SameOrders calls calls') (store : Store M) :
    let batch := calls.foldl hold store.newBatch
    let batch' := calls'.foldl hold store.newBatch
    (batch.writeCount = batch'.writeCount ∧ batch.mergeKeyCount = batch'.mergeKeyCount ∧
      (batch.isEmpty = true ↔ batch'.isEmpty = true)) ∧
    Action.outcome (execute (batch, store)) = Action.outcome (execute (batch', store)) ∧
    (Action.after (execute (batch, store))).2 = (Action.after (execute (batch', store))).2 := by
  intro batch batch'
  have hbatch : batch = batch' := ofCalls_eq_iff.2 h
  rw [hbatch]
  exact ⟨⟨rfl, rfl, Iff.rfl⟩, rfl, rfl⟩

/-- The chain of the second key fails when that of the first one has been written. -/
theorem commits_alike_mixed :
    let refusal := Fault.mergeFailure [2] "refused"
    let refuse : MergeOperator := fun _ _ => .error refusal
    let calls : List Call := [.merge [1] (.append [5]), .merge [1] (.append [6]), .merge [2] refuse, .set [3] [30],
      .delete [3]]
    let mixed : List Call := [.set [3] [30], .merge [2] refuse, .merge [1] (.append [5]), .delete [3],
      .merge [1] (.append [6])]
    let after (calls : List Call) := execute (ofCalls calls, Store.empty)
    SameOrders calls mixed ∧ (ofCalls mixed).mergeKeyCount = 2 ∧
      Action.outcome (after mixed) = .error refusal ∧ (Action.after (after mixed)).2.get? [1] = some [5, 6] := by
  intro refusal refuse calls mixed after
  have horders : SameOrders calls mixed := by
    refine ⟨rfl, fun key => ?_⟩
    by_cases hkey : [2] = key
    · subst hkey
      rfl
    · simp [calls, mixed, operators, Call.operatorFor?, hkey, List.filterMap_cons]
  obtain ⟨⟨-, hkeys, -⟩, houtcome, hstore⟩ := commits_alike horders Store.empty
  refine ⟨horders, hkeys.symm.trans rfl, houtcome.symm.trans rfl, ?_⟩
  rw [← show (Action.after (after calls)).2 = (Action.after (after mixed)).2 from hstore]
  rfl

end OrderedStore.WriteBatch
