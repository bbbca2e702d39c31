import OrderedStore.Proofs.Batch.Commit

/-!
# Batches in a row

* `WriteBatch.effect calls key` : what a batch after these calls makes of the value of one key, or
  the fault that its operators end in;
* `WriteBatch.execute_eq_ok_iff`, `WriteBatch.execute_ok_of_effect_ok` : a batch goes through
  exactly if it has an effect on every key, and then each key has what that effect makes of its
  value;
* `WriteBatch.effect_append` : where no plain write comes before a merge, the effect of calls in a
  row is one effect after the other;
* `WriteBatch.execute_append_iff` : such a batch may be cut in two.
-/

namespace OrderedStore.WriteBatch

/-! ## One batch, key by key -/

/-- What a batch after these calls makes of the value of a key. -/
def effect (calls : List Call) (key : Bytes) (existing : Option Bytes) : Except Fault (Option Bytes) :=
  ((operators calls key).fold key existing).map fun merged =>
    (lastWrite? (plainWrites calls) key).getD merged

theorem effect_eq_ok_iff {calls : List Call} {key : Bytes} {existing value? : Option Bytes} :
    effect calls key existing = .ok value? ↔ ∃ merged, (operators calls key).fold key existing = .ok merged ∧
      value? = (lastWrite? (plainWrites calls) key).getD merged := by
  rw [effect]
  cases (operators calls key).fold key existing with
  | error fault => simp [Except.map]
  | ok merged => simp [Except.map, eq_comm]

theorem execute_eq_ok_iff {calls : List Call} {store store' : Store ByteMap} {batch' : WriteBatch} :
    execute (ofCalls calls, store) = .ok () (batch', store') ↔
      batch' = .empty ∧ ∀ key, effect calls key (store.get? key) = .ok (store'.get? key) := by
  have hcommit : (ofCalls calls).commit store.map = .ok () store'.map ↔
      ∀ key, effect calls key (store.get? key) = .ok (store'.get? key) := by
    rw [commit_eq_ok_iff, toList_writes_ofCalls]
    simp only [effect_eq_ok_iff, chain_ofCalls]
    rfl
  rw [← hcommit, execute_eq]
  constructor
  · intro h
    split at h
    · next hok =>
      cases h
      exact ⟨rfl, hok⟩
    · cases h
  · rintro ⟨rfl, hok⟩
    rw [hok]

theorem execute_ok_of_effect_ok {calls : List Call} {store : Store ByteMap}
    (h : ∀ key, ∃ value?, effect calls key (store.get? key) = .ok value?) :
    ∃ store', execute (ofCalls calls, store) = .ok () (.empty, store') := by
  cases hrun : execute (ofCalls calls, store) with
  | ok u rest =>
    obtain ⟨batch', store'⟩ := rest
    obtain ⟨rfl, -⟩ := execute_eq_ok_iff.1 hrun
    exact ⟨store', rfl⟩
  | error fault rest =>
    obtain ⟨c, hc⟩ := commit_eq_error_iff.1 (commit_of_execute_error hrun)
    obtain ⟨value?, hvalue⟩ := h c
    obtain ⟨merged, hmerged, -⟩ := effect_eq_ok_iff.1 hvalue
    have hfails := hc.fails
    rw [chain_ofCalls] at hfails
    cases hmerged.symm.trans hfails

/-! ## A batch cut in two -/

theorem operators_of_mergeKeys_nil {calls : List Call} (h : mergeKeys calls = []) (key : Bytes) :
    operators calls key = [] := by
  by_contra hops
  have hkey := mem_mergeKeys.2 hops
  rw [h] at hkey
  exact List.not_mem_nil hkey

/-- With no operator behind a plain write, the operators of both parts are one chain. -/
theorem effect_append {first second : List Call} (hcut : plainWrites first = [] ∨ mergeKeys second = [])
    (key : Bytes) (existing : Option Bytes) :
    effect (first ++ second) key existing = (effect first key existing).bind (effect second key) := by
  unfold effect
  rw [operators_append, plainWrites_append, lastWrite?_append, MergeChain.fold_append]
  cases (operators first key).fold key existing with
  | error fault => rfl
  | ok merged =>
    obtain hwrites | hmerges := hcut
    · have hlast : lastWrite? (plainWrites first) key = none := by rw [hwrites]; rfl
      simp [Except.bind, Except.map, hlast]
    · have hops := operators_of_mergeKeys_nil hmerges key
      cases lastWrite? (plainWrites second) key <;> simp [Except.bind, Except.map, hops]

/-- **A batch can be cut in two** where its first part has no plain writes or its second one no
merges: the whole goes through exactly if both parts do in turn, and leaves the same store. -/
theorem execute_append_iff {first second : List Call}
    (hcut : plainWrites first = [] ∨ mergeKeys second = []) (store : Store ByteMap)
    (rest : WriteBatch × Store ByteMap) :
    execute (ofCalls (first ++ second), store) = .ok () rest ↔
      ∃ batch' between, execute (ofCalls first, store) = .ok () (batch', between) ∧
        execute (ofCalls second, between) = .ok () rest := by
  obtain ⟨batch, store'⟩ := rest
  simp only [execute_eq_ok_iff, effect_append hcut]
  constructor
  · rintro ⟨hbatch, hwhole⟩
    have hfirst : ∀ key, ∃ value?, effect first key (store.get? key) = .ok value? := by
      intro key
      have hkey := hwhole key
      cases heffect : effect first key (store.get? key) with
      | ok value? => exact ⟨value?, rfl⟩
      | error fault =>
        rw [heffect] at hkey
        cases hkey
    obtain ⟨between, hbetween⟩ := execute_ok_of_effect_ok hfirst
    have heffect := (execute_eq_ok_iff.1 hbetween).2
    refine ⟨.empty, between, ⟨rfl, heffect⟩, hbatch, fun key => ?_⟩
    have hkey := hwhole key
    rw [heffect key] at hkey
    exact hkey
  · rintro ⟨-, between, ⟨-, hfirst⟩, hbatch, hsecond⟩
    refine ⟨hbatch, fun key => ?_⟩
    rw [hfirst key]
    exact hsecond key

/-- Key `2` is removed by the first part, so that the second one makes it anew; key `1` is merged in
both. -/
theorem execute_append_iff_removed :
    let first := [.merge [2] fun _ _ => .ok none, .merge [1] (.append [7])]
    let second := [.merge [2] (.append [8]), .set [3] [5], .merge [1] (.append [9]), .delete [3]]
    let store : Store ByteMap := ⟨SortedMap.ofList [([1], [1]), ([2], [2])]⟩
    plainWrites first = [] ∧ ∃ rest, execute (ofCalls (first ++ second), store) = .ok () rest ∧
      rest.2.map.toList = [([1], [1, 7, 9]), ([2], [8])] := by
  intro first second store
  exact ⟨rfl, _, (execute_append_iff (.inl rfl) store _).2 ⟨_, _, rfl, rfl⟩, rfl⟩

end OrderedStore.WriteBatch
