import Mathlib.Data.List.Basic
import Mathlib.Data.List.Pairwise
import Mathlib.Data.List.Perm.Basic
import OrderedStore.Proofs.Action
import OrderedStore.Proofs.Batch.Commit

/-!
# The keys that a write has to do with

* `ByteMap.Agree keys map map'` : the maps have the same values at these keys;
* `ByteMap.Confined keys action` : the action neither reads nor writes any other key: what it comes
  to and what it leaves at these keys is told by the values at these keys, and it leaves all others
  as they were;
* `Confined.bind`, `Confined.forM` : actions in a row are confined if each of them is;
* `Confined.outcome_after`, `Confined.after_comm` : of two actions without a common key, the first
  one makes no difference to what the second one comes to, and they may change places;
* `WriteBatch.keys`, `WriteBatch.confined_commit` : the keys of a batch are those of its plain
  writes and of its merges, and its commit is confined to them;
* `Mutation.keys`, `Mutation.confined` : the same for any write to a store;
* `Mutation.Apart` : two writes without a common key. `Mutation.outcome_apply`,
  `Mutation.apply_comm` : neither makes a difference to what the other comes to, and they may change
  places;
* `Store.outcomes_of_apart`, `Store.mutate_perm_of_apart` : each write of a row without common keys
  comes to what it would come to by itself, and the row leaves the same store in any order;
* `WriteBatch.outcomes_in_any_order` : so batches without a common key may be executed in any order,
  also where some of them fail and leave a part of their merges behind.
-/

namespace OrderedStore

/-! ## Actions that keep to some keys -/

namespace ByteMap

def Agree (keys : List Bytes) (map map' : ByteMap) : Prop := ∀ key ∈ keys, map.get? key = map'.get? key

theorem Agree.put {keys : List Bytes} {map map' : ByteMap} (h : Agree keys map map') (key : Bytes)
    (value? : Option Bytes) : Agree keys (map.put key value?) (map'.put key value?) := fun k hk => by
  rw [SortedMap.get?_put, SortedMap.get?_put, h k hk]

theorem get?_put_of_not_mem {keys : List Bytes} {key k : Bytes} (hkey : key ∈ keys) (hk : k ∉ keys) (map : ByteMap)
    (value? : Option Bytes) : (map.put key value?).get? k = map.get? k := by
  rw [SortedMap.get?_put, if_neg (ne_of_mem_of_not_mem hkey hk).symm]

variable {α β ι : Type} {keys : List Bytes}

/-- The action neither reads nor writes a key but these. -/
structure Confined (keys : List Bytes) (action : EStateM Fault ByteMap α) : Prop where
  outcome_eq : ∀ {map map'}, Agree keys map map' → Action.outcome (action map) = Action.outcome (action map')
  agree : ∀ {map map'}, Agree keys map map' → Agree keys (Action.after (action map)) (Action.after (action map'))
  frame : ∀ map, ∀ key ∉ keys, (Action.after (action map)).get? key = map.get? key

namespace Confined

theorem pure (a : α) : Confined keys (Pure.pure a) := ⟨fun _ => rfl, fun hagree => hagree, fun _ _ _ => rfl⟩

theorem bind {x : EStateM Fault ByteMap α} {f : α → EStateM Fault ByteMap β} (hx : Confined keys x)
    (hf : ∀ a, Confined keys (f a)) : Confined keys (x >>= f) := by
  refine ⟨fun {map map'} hagree => ?_, fun {map map'} hagree => ?_, fun map key hkey => ?_⟩
  · rw [Action.outcome_bind, Action.outcome_bind, hx.outcome_eq hagree]
    cases Action.outcome (x map') with
    | ok a => exact (hf a).outcome_eq (hx.agree hagree)
    | error fault => rfl
  · rw [Action.after_bind, Action.after_bind, hx.outcome_eq hagree]
    cases Action.outcome (x map') with
    | ok a => exact (hf a).agree (hx.agree hagree)
    | error fault => exact hx.agree hagree
  · rw [Action.after_bind]
    cases Action.outcome (x map) with
    | ok a => exact ((hf a).frame _ key hkey).trans (hx.frame map key hkey)
    | error fault => exact hx.frame map key hkey

theorem forM {f : ι → EStateM Fault ByteMap Unit} {row : List ι} (hf : ∀ i ∈ row, Confined keys (f i)) :
    Confined keys (row.forM f) := by
  induction row with
  | nil => exact .pure ()
  | cons i row ih =>
    obtain ⟨hi, hrow⟩ := List.forall_mem_cons.1 hf
    exact hi.bind fun _ => ih hrow

/-! ### Two actions without a common key -/

section Disjoint

variable {keys' : List Bytes} {x : EStateM Fault ByteMap α} {y : EStateM Fault ByteMap β}
  (hx : Confined keys x) (hy : Confined keys' y) (hdisjoint : keys.Disjoint keys') (map : ByteMap)

include hx hdisjoint

theorem agree_after : Agree keys' (Action.after (x map)) map := fun key hkey =>
  hx.frame map key fun hmem => hdisjoint hmem hkey

include hy

theorem outcome_after : Action.outcome (y (Action.after (x map))) = Action.outcome (y map) :=
  hy.outcome_eq (hx.agree_after hdisjoint map)

theorem after_comm :
    Action.after (y (Action.after (x map))) = Action.after (x (Action.after (y map))) := by
  refine SortedMap.ext_get? fun key => ?_
  by_cases hkey' : key ∈ keys'
  · have hkey : key ∉ keys := fun hmem => hdisjoint hmem hkey'
    rw [hy.agree (hx.agree_after hdisjoint map) key hkey', hx.frame _ key hkey]
  · rw [hy.frame _ key hkey']
    by_cases hkey : key ∈ keys
    · exact (hx.agree (hy.agree_after hdisjoint.symm map) key hkey).symm
    · rw [hx.frame map key hkey, hx.frame _ key hkey, hy.frame map key hkey']

end Disjoint

/-! ### The actions of a commit -/

theorem put {key : Bytes} (hkey : key ∈ keys) (value? : Option Bytes) :
    Confined keys (Backing.put key value? : EStateM Fault ByteMap Unit) := by
  refine ⟨fun {map map'} _ => ?_, fun {map map'} hagree => ?_, fun map k hk => ?_⟩
  · rw [backing_put, backing_put]
    rfl
  · rw [backing_put, backing_put]
    exact hagree.put key value?
  · rw [backing_put]
    exact get?_put_of_not_mem hkey hk map value?

theorem applyChain {key : Bytes} (hkey : key ∈ keys) (chain : MergeChain) :
    Confined keys (WriteBatch.applyChain key chain : EStateM Fault ByteMap Unit) := by
  refine ⟨fun {map map'} hagree => ?_, fun {map map'} hagree => ?_, fun map k hk => ?_⟩
  · rw [WriteBatch.applyChain_eq, WriteBatch.applyChain_eq, hagree key hkey]
    cases chain.fold key (map'.get? key) <;> rfl
  · rw [WriteBatch.applyChain_eq, WriteBatch.applyChain_eq, hagree key hkey]
    cases chain.fold key (map'.get? key) with
    | ok merged => exact hagree.put key merged
    | error fault => exact hagree
  · rw [WriteBatch.applyChain_eq]
    cases chain.fold key (map.get? key) with
    | ok merged => exact get?_put_of_not_mem hkey hk map merged
    | error fault => rfl

end Confined
end ByteMap

/-! ## The keys of a write -/

def WriteBatch.keys (batch : WriteBatch) : List Bytes :=
  batch.writes.toList.map (·.1) ++ batch.merges.toList.map (·.1)

/-- A commit keeps to the keys of its batch, also where it fails. -/
theorem WriteBatch.confined_commit (batch : WriteBatch) :
    ByteMap.Confined batch.keys (batch.commit : EStateM Fault ByteMap Unit) := by
  refine .bind (.forM fun e he => .applyChain ?_ e.2) fun _ => .forM fun e he => .put ?_ e.2
  · exact List.mem_append_right _ (List.mem_map_of_mem he)
  · exact List.mem_append_left _ (List.mem_map_of_mem he)

namespace Mutation

def keys : Mutation → List Bytes
  | set key _ => [key]
  | delete key => [key]
  | execute batch => batch.keys

/-- What the mutation does to the map under the store. -/
def onByteMap : Mutation → EStateM Fault ByteMap Unit
  | set key value => Backing.insert key value
  | delete key => Backing.delete key
  | execute batch => batch.commit

theorem apply_eq (mutation : Mutation) (store : Store ByteMap) :
    mutation.apply store = ⟨Action.after (mutation.onByteMap store.map)⟩ := by
  cases mutation with
  | set key value => exact Store.after_onMap (Backing.insert key value) store
  | delete key => exact Store.after_onMap (Backing.delete key) store
  | execute batch =>
    rw [apply, onByteMap, WriteBatch.execute_eq]
    cases batch.commit store.map <;> rfl

theorem outcome_eq (mutation : Mutation) (store : Store ByteMap) :
    mutation.outcome store = Action.outcome (mutation.onByteMap store.map) := by
  cases mutation with
  | set key value => exact Store.outcome_onMap (Backing.insert key value) store
  | delete key => exact Store.outcome_onMap (Backing.delete key) store
  | execute batch =>
    rw [outcome, onByteMap, WriteBatch.execute_eq]
    cases batch.commit store.map <;> rfl

theorem confined (mutation : Mutation) : ByteMap.Confined mutation.keys mutation.onByteMap := by
  cases mutation with
  | set key value => exact .put (List.mem_singleton_self key) (some value)
  | delete key => exact .put (List.mem_singleton_self key) none
  | execute batch => exact batch.confined_commit

theorem get?_apply_of_not_mem {mutation : Mutation} {key : Bytes} (hkey : key ∉ mutation.keys)
    (store : Store ByteMap) : (mutation.apply store).get? key = store.get? key := by
  rw [apply_eq]
  exact mutation.confined.frame store.map key hkey

end Mutation

/-! ## Two writes without a common key -/

def Mutation.Apart (a b : Mutation) : Prop := a.keys.Disjoint b.keys

theorem Mutation.Apart.symm {a b : Mutation} (h : a.Apart b) : b.Apart a := List.disjoint_symm h

instance : Std.Symm Mutation.Apart := ⟨fun _ _ h => h.symm⟩

theorem Mutation.outcome_apply {a b : Mutation} (h : a.Apart b) (store : Store ByteMap) :
    b.outcome (a.apply store) = b.outcome store := by
  rw [outcome_eq, outcome_eq, apply_eq]
  exact a.confined.outcome_after b.confined h store.map

theorem Mutation.apply_comm {a b : Mutation} (h : a.Apart b) (store : Store ByteMap) :
    b.apply (a.apply store) = a.apply (b.apply store) := by
  simp only [apply_eq]
  rw [a.confined.after_comm b.confined h store.map]

/-! ## A row of writes -/

namespace Store

theorem outcomes_of_apart {mutations : List Mutation} (h : mutations.Pairwise Mutation.Apart)
    (store : Store ByteMap) :
    store.outcomes mutations = mutations.map fun mutation => mutation.outcome store := by
  induction mutations generalizing store with
  | nil => rfl
  | cons first rest ih =>
    obtain ⟨hfirst, hrest⟩ := List.pairwise_cons.1 h
    rw [outcomes, List.map_cons, ih hrest]
    congr 1
    exact List.map_congr_left fun mutation hmem => Mutation.outcome_apply (hfirst mutation hmem) store

theorem mutate_perm_of_apart {mutations mutations' : List Mutation} (h : mutations.Pairwise Mutation.Apart)
    (hperm : mutations.Perm mutations') (store : Store ByteMap) :
    store.mutate mutations = store.mutate mutations' := by
  refine hperm.foldl_eq' (fun a ha b hb between => ?_) store
  by_cases hab : a = b
  · rw [hab]
  · exact Mutation.apply_comm (h.forall ha hb hab) between

end Store

/-! ## A row of batches -/

/-- Batches without a common key commute, failures included: in any order each comes to what it
would come to alone, and the store is left the same. -/
theorem WriteBatch.outcomes_in_any_order {batches : List WriteBatch}
    (hkeys : batches.Pairwise fun a b => a.keys.Disjoint b.keys) (store : Store ByteMap)
    {order order' : List WriteBatch} (horder : order.Perm batches) (horder' : order'.Perm batches) :
    let alone batch := Action.outcome (execute (batch, store))
    store.outcomes (order.map .execute) = order.map alone ∧
    store.outcomes (order'.map .execute) = order'.map alone ∧
    store.mutate (order.map .execute) = store.mutate (order'.map .execute) := by
  intro alone
  have hapart : (order.map Mutation.execute).Pairwise Mutation.Apart :=
    List.pairwise_map.2 ((horder.pairwise_iff fun h => List.disjoint_symm h).2 hkeys)
  have hperm : (order.map Mutation.execute).Perm (order'.map Mutation.execute) :=
    (horder.trans horder'.symm).map _
  have hapart' := (hperm.pairwise_iff fun h => h.symm).1 hapart
  refine ⟨?_, ?_, Store.mutate_perm_of_apart hapart hperm store⟩
  · rw [Store.outcomes_of_apart hapart, List.map_map]
    rfl
  · rw [Store.outcomes_of_apart hapart', List.map_map]
    rfl

/-- The first batch stops at key `3`: key `1` is merged by then, and key `6` is not written. -/
theorem WriteBatch.outcomes_in_any_order_refused :
    let refuse : MergeOperator := fun key _ => .error (.mergeFailure key "refused")
    let first := ofCalls [.set [6] [], .merge [3] refuse, .merge [1] (.append [7])]
    let second := ofCalls [.set [2] [5], .merge [4] (.append [8]), .set [2] [6]]
    let store : Store ByteMap := ⟨SortedMap.ofList [([1], [1]), ([2], [2])]⟩
    store.outcomes ([second, first].map .execute) = [.ok (), .error (.mergeFailure [3] "refused")] ∧
      store.mutate ([first, second].map .execute) = store.mutate ([second, first].map .execute) ∧
      (store.mutate ([first, second].map .execute)).map.toList =
        [([1], [1, 7]), ([2], [6]), ([4], [8])] := by
  intro refuse first second store
  have hkeys : [first, second].Pairwise fun a b => a.keys.Disjoint b.keys := by
    have hdisjoint : ∀ key ∈ first.keys, key ∉ second.keys := by decide
    exact List.pairwise_pair.2 hdisjoint
  obtain ⟨-, houtcomes, hstore⟩ := outcomes_in_any_order hkeys store (List.Perm.refl _) (List.Perm.swap _ _ _)
  exact ⟨houtcomes, hstore, rfl⟩

end OrderedStore
