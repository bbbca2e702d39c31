import OrderedStore.Proofs.Action
import OrderedStore.Proofs.Batch.Commit

/-!
# A store as the record of its writes

* `WriteBatch.applied value? writes chains` : the writes that a commit applies where the keys have
  these values: the answers of the chains and, if no chain fails, the plain writes.
  `WriteBatch.after_commit` : on either outcome a commit leaves the map with those writes made, and
  no others;
* `Mutation.applied`, `journal` : the same for one mutation, and for a run of them from no keys on.
  What the operators of a batch read is looked up in the journal itself, so a journal knows nothing
  of maps;
* `Store.keys` : the keys of a store, least first;
* `Store.get?_mutate_empty` : after any run, a look-up finds the last write of the key in the
  journal;
* `Store.mutate_refines_journal` : so the store is the finite map that its journal describes.
-/

namespace OrderedStore

/-! ## The writes of a commit -/

namespace WriteBatch

/-- The writes that a commit of these chains and then of these plain writes applies to keys with
these values; from a chain that fails on, there are none. -/
def applied (value? : Bytes → Option Bytes) (writes : List (Bytes × Option Bytes)) :
    List (Bytes × MergeChain) → List (Bytes × Option Bytes)
  | [] => writes
  | (key, chain) :: rest => match chain.fold key (value? key) with
    | .ok merged => (key, merged) :: applied value? writes rest
    | .error _ => []

theorem applied_congr {value? value?' : Bytes → Option Bytes} {chains : List (Bytes × MergeChain)}
    (h : ∀ key ∈ chains.map (·.1), value? key = value?' key) (writes : List (Bytes × Option Bytes)) :
    applied value? writes chains = applied value?' writes chains := by
  induction chains with
  | nil => rfl
  | cons e rest ih =>
    rw [List.map_cons, List.forall_mem_cons] at h
    rw [applied, applied, h.1, ih h.2]

theorem after_forM_applyChain {chains : List (Bytes × MergeChain)} (hkeys : (chains.map (·.1)).Nodup)
    (writes : List (Bytes × Option Bytes)) (map : ByteMap) :
    Action.after ((do
      chains.forM fun e => applyChain e.1 e.2
      writes.forM fun e => Backing.put e.1 e.2) map) =
        (applied map.get? writes chains).foldl (fun m e => m.put e.1 e.2) map := by
  induction chains generalizing map with
  | nil => exact congrArg Action.after (forM_put_eq writes map)
  | cons e rest ih =>
    obtain ⟨key, chain⟩ := e
    obtain ⟨hkey, hrest⟩ := List.nodup_cons.1 hkeys
    have hrun := applyChain_eq key chain map
    rw [applied]
    cases hfold : chain.fold key (map.get? key) with
    | error fault =>
      rw [hfold] at hrun
      rw [List.forM, Action.bind_of_error (Action.bind_of_error hrun _)]
      rfl
    | ok merged =>
      rw [hfold] at hrun
      have hvalue : ∀ k ∈ rest.map (·.1), (map.put key merged).get? k = map.get? k := fun k hk => by
        rw [SortedMap.get?_put, if_neg (ne_of_mem_of_not_mem hk hkey)]
      rw [List.forM, Action.bind_congr_run (Action.bind_of_ok hrun _), ih hrest,
        applied_congr hvalue]
      rfl

/-- A commit leaves the map with the writes it applied made in turn, whether or not it succeeds. -/
theorem after_commit (batch : WriteBatch) (map : ByteMap) :
    Action.after (batch.commit map) =
      (applied map.get? batch.writes.toList batch.merges.toList).foldl (fun m e => m.put e.1 e.2) map :=
  after_forM_applyChain (nodup_merges batch) batch.writes.toList map

end WriteBatch

/-! ## The writes of a run -/

def Mutation.applied (value? : Bytes → Option Bytes) : Mutation → List (Bytes × Option Bytes)
  | set key value => [(key, some value)]
  | delete key => [(key, none)]
  | execute batch => WriteBatch.applied value? batch.writes.toList batch.merges.toList

/-- The journal with the writes of one more mutation, whose operators read the values the journal
gives. -/
def Mutation.record (written : List (Bytes × Option Bytes)) (mutation : Mutation) :
    List (Bytes × Option Bytes) :=
  written ++ mutation.applied fun key => (WriteBatch.lastWrite? written key).join

/-- All writes that these mutations apply in turn, where at first there are no keys. -/
def journal (mutations : List Mutation) : List (Bytes × Option Bytes) := mutations.foldl Mutation.record []

theorem Mutation.map_apply (store : Store ByteMap) (mutation : Mutation) :
    (mutation.apply store).map =
      (mutation.applied store.get?).foldl (fun m e => m.put e.1 e.2) store.map := by
  cases mutation with
  | set key value => rfl
  | delete key => rfl
  | execute batch =>
    rw [apply, WriteBatch.execute_eq]
    refine Eq.trans ?_ (WriteBatch.after_commit batch store.map)
    cases batch.commit store.map <;> rfl

theorem Mutation.get?_apply (store : Store ByteMap) (mutation : Mutation) (key : Bytes) :
    (mutation.apply store).get? key =
      (WriteBatch.lastWrite? (mutation.applied store.get?) key).getD (store.get? key) := by
  change (mutation.apply store).map.get? key = _
  rw [Mutation.map_apply, WriteBatch.get?_of_put_each]
  rfl

namespace Store

/-- A look-up finds the last write of the key, after any run from no keys on. -/
theorem get?_mutate_empty (mutations : List Mutation) (key : Bytes) :
    (empty.mutate mutations).get? key = (WriteBatch.lastWrite? (journal mutations) key).join := by
  induction mutations using List.reverseRecOn generalizing key with
  | nil => rfl
  | append_singleton mutations mutation ih =>
    have hmutate : empty.mutate (mutations ++ [mutation]) = mutation.apply (empty.mutate mutations) := by
      simp [mutate]
    have hjournal : journal (mutations ++ [mutation]) = journal mutations ++
        mutation.applied (empty.mutate mutations).get? := by
      rw [funext ih]
      simp [journal, Mutation.record]
    rw [hmutate, hjournal, Mutation.get?_apply, WriteBatch.lastWrite?_append, ih]
    cases WriteBatch.lastWrite? (mutation.applied (empty.mutate mutations).get?) key <;> rfl

/-! ## The keys of a store -/

/-- The keys of a store, least first. -/
def keys (store : Store ByteMap) : List Bytes := store.map.toList.map (·.1)

variable (store : Store ByteMap)

theorem keys_ascending : store.keys.Pairwise (· < ·) := List.pairwise_map.2 store.map.ascending

theorem mem_keys {key : Bytes} : key ∈ store.keys ↔ (store.get? key).isSome = true :=
  SortedMap.mem_map_fst_toList

theorem size_eq_length_keys : store.size = store.keys.length := by
  rw [keys, List.length_map]
  exact SortedMap.size_eq_length store.map

theorem isEmpty_iff : store.isEmpty = true ↔ ∀ key, store.get? key = none := by
  have hkeys : store.isEmpty = true ↔ store.keys = [] := by
    rw [keys, List.map_eq_nil_iff]
    exact SortedMap.isEmpty_iff
  simp only [hkeys, List.eq_nil_iff_forall_not_mem, mem_keys, Bool.not_eq_true, Option.isSome_eq_false_iff,
    Option.isNone_iff_eq_none]

end Store

theorem Bytes.lt_append_cons (key : Bytes) (byte : UInt8) (rest : Bytes) : key < key ++ byte :: rest := by
  induction key with
  | nil => exact List.nil_lt_cons byte rest
  | cons b key ih => exact List.cons_lt_cons_iff.2 (.inr ⟨rfl, ih⟩)

/-- **A store is the finite map of the writes applied to it, ordered by bytes**: a look-up finds the
last of them, and a set or a delete cannot fail. -/
theorem Store.mutate_refines_journal (mutations : List Mutation) :
    let store := Store.empty.mutate mutations
    (store.keys.Pairwise (· < ·) ∧ ∀ (key : Bytes) byte rest, key < key ++ byte :: rest) ∧
    (∀ key, key ∈ store.keys ↔ (store.get? key).isSome = true) ∧
    (∀ key, store.get? key = (WriteBatch.lastWrite? (journal mutations) key).join) ∧
    (store.size = store.keys.length ∧ (store.isEmpty = true ↔ ∀ key, store.get? key = none)) ∧
    ∀ key value, (∃ store', Store.set key value store = .ok () store') ∧
      ∃ store', Store.delete key store = .ok () store' := by
  intro store
  refine ⟨⟨store.keys_ascending, Bytes.lt_append_cons⟩, fun key => store.mem_keys,
    get?_mutate_empty mutations, ⟨store.size_eq_length_keys, store.isEmpty_iff⟩, fun key value => ?_⟩
  exact ⟨⟨_, rfl⟩, _, rfl⟩

/-- A batch that stops at key `2` has merged key `1` by then, and makes no plain write. -/
example :
    let refuse : MergeOperator := fun key _ => .error (.mergeFailure key "refused")
    let batch := WriteBatch.ofCalls [.set [4] [4], .merge [2] refuse, .merge [1] (.append [7])]
    journal [.set [2] [], .execute batch, .delete [3]] =
      [([2], some []), ([1], some [7]), ([3], none)] := rfl

end OrderedStore
