import OrderedStore.Proofs.Action
import OrderedStore.Proofs.Batch.Calls

/-!
# What a commit does to a map

* `WriteBatch.pointProgram calls` : the keys with operators in ascending order, each combined once
  (`WriteBatch.combine`), and then the plain writes in call order (`Store.put`), one store call for
  each. A key is combined by one read, its operators on what was read, and one write of their
  answer; the read answers `Store.get?` and leaves its trace (`Store.read_eq`). The first failure,
  of an operator or of a call, ends the program;
* `WriteBatch.execute_eq_pointProgram` : over any map, executing a batch is that program, and leaves
  the batch empty;
* `MergeChain.FailsWith` : the first operator of a chain that fails does so with this fault;
* `WriteBatch.Merged chains done before after` : the keys in `done` have what their chains make of
  the values `before`, all other keys have what they had. `forM_applyChain_eq_ok_iff` : that is what
  the first loop of a commit achieves, key by key;
* `WriteBatch.get?_of_put_each` : after the second loop a key has its last write;
* `WriteBatch.StopsAt batch before after c fault` : the keys below `c` have been merged and no
  others, and the chain of `c` fails;
* `WriteBatch.commit_eq_ok_iff`, `WriteBatch.commit_eq_error_iff` : the two outcomes of a commit, in
  terms of the values before it alone;
* `WriteBatch.get?_of_execute_ok`, `WriteBatch.execute_error_iff` : the same for a batch after any
  calls.
-/

namespace OrderedStore

/-! ## A commit as a program of point calls -/

section PointProgram

variable {M : Type} [Backing M]

/-- A set where there is a value, a delete where there is none. -/
def Store.put (key : Bytes) : Option Bytes → EStateM Fault (Store M) Unit
  | some value => Store.set key value
  | none => Store.delete key

theorem Store.onMap_put (key : Bytes) (value? : Option Bytes) :
    Store.onMap (Backing.put key value?) = (Store.put key value? : EStateM Fault (Store M) Unit) := by
  cases value? <;> rfl

namespace WriteBatch

/-- One read of a key, its operators on what was read, one write of their answer. -/
def combine (key : Bytes) (chain : MergeChain) : EStateM Fault (Store M) Unit := do
  match chain.fold key (← Store.read key) with
  | .ok merged => Store.put key merged
  | .error fault => throw fault

/-- The store calls of a commit, in order. -/
def pointProgram (calls : List Call) : EStateM Fault (Store M) Unit := do
  (mergeKeys calls).forM fun key => combine key (operators calls key)
  (plainWrites calls).forM fun write => Store.put write.1 write.2

theorem onMap_applyChain (key : Bytes) (chain : MergeChain) :
    Store.onMap (applyChain key chain) = (combine key chain : EStateM Fault (Store M) Unit) := by
  unfold applyChain combine
  rw [Store.onMap_bind]
  refine congrArg (Store.read key >>= ·) (funext fun existing => ?_)
  cases chain.fold key existing with
  | ok merged => exact Store.onMap_put key merged
  | error fault => rfl

theorem onMap_commit (calls : List Call) :
    Store.onMap (ofCalls calls).commit = (pointProgram calls : EStateM Fault (Store M) Unit) := by
  rw [commit, Store.onMap_bind, Store.onMap_forM, Store.onMap_forM, toList_merges_ofCalls,
    toList_writes_ofCalls, pointProgram]
  simp only [onMap_applyChain, Store.onMap_put, List.forM_eq_forM, List.forM_map]

/-- Executing a batch is one fixed program of store calls, over any map. On either outcome the batch
is left empty, and executing it then is no call at all. -/
theorem execute_eq_pointProgram (calls : List Call) (store : Store M) :
    (execute (ofCalls calls, store) = match pointProgram calls store with
      | .ok () store' => .ok () (.empty, store')
      | .error fault store' => .error fault (.empty, store')) ∧
    ∀ store' : Store M, execute (.empty, store') = .ok () (.empty, store') := by
  constructor
  · rw [← onMap_commit]
    rfl
  · intro store'
    rfl

end WriteBatch

end PointProgram

/-! ## The first operator that fails -/

/-- The operators before some operator succeed, and that one fails with this fault on their
answer. -/
def MergeChain.FailsWith (chain : MergeChain) (key : Bytes) (existing : Option Bytes) (fault : Fault) :
    Prop :=
  ∃ earlier operator later current, chain = earlier ++ operator :: later ∧
    MergeChain.fold earlier key existing = .ok current ∧ operator key current = .error fault

theorem MergeChain.fold_eq_error_iff {chain : MergeChain} {key : Bytes} {existing : Option Bytes}
    {fault : Fault} :
    chain.fold key existing = .error fault ↔ chain.FailsWith key existing fault := by
  constructor
  · intro h
    induction chain generalizing existing with
    | nil => cases h
    | cons operator chain ih =>
      rw [fold_cons] at h
      cases hop : operator key existing with
      | error fault' =>
        rw [hop] at h
        exact ⟨[], operator, chain, existing, rfl, rfl, hop.trans h⟩
      | ok current =>
        rw [hop] at h
        obtain ⟨earlier, failing, later, last, rfl, hearlier, hfail⟩ := ih h
        refine ⟨operator :: earlier, failing, later, last, rfl, ?_, hfail⟩
        rw [fold_cons, hop]
        exact hearlier
  · rintro ⟨earlier, operator, later, current, rfl, hearlier, hfail⟩
    rw [fold_append, hearlier]
    change fold (operator :: later) key current = _
    rw [fold_cons, hfail]
    rfl

namespace WriteBatch
open ByteKey

/-! ## The loop over the chains -/

/-- The keys in `done` have what their chains make of the values before, all others what they
had. -/
structure Merged (chains : Bytes → MergeChain) (done : List Bytes) (before after : ByteMap) : Prop where
  of_mem : ∀ key ∈ done, (chains key).fold key (before.get? key) = .ok (after.get? key)
  of_not_mem : ∀ key ∉ done, after.get? key = before.get? key

theorem applyChain_eq (key : Bytes) (chain : MergeChain) (map : ByteMap) :
    applyChain key chain map = match chain.fold key (map.get? key) with
      | .ok merged => .ok () (map.put key merged)
      | .error fault => .error fault map := by
  change (match chain.fold key (map.get? key) with
    | .ok merged => Backing.put key merged
    | .error fault => throw fault : EStateM Fault ByteMap Unit) map = _
  cases chain.fold key (map.get? key) with
  | ok merged => exact ByteMap.backing_put key merged map
  | error fault => rfl

/-- The chains see the values before the loop: each key is visited once, and a visit changes no
other. -/
theorem forM_applyChain_eq_ok_iff {chains : Bytes → MergeChain} {keys : List Bytes}
    (hkeys : keys.Nodup) {map map' : ByteMap} :
    (keys.forM fun key => applyChain key (chains key)) map = .ok () map' ↔
      Merged chains keys map map' := by
  induction keys generalizing map with
  | nil =>
    constructor
    · rintro ⟨⟩
      exact ⟨fun key h => absurd h List.not_mem_nil, fun _ _ => rfl⟩
    · intro h
      rw [SortedMap.ext_get? fun key => h.of_not_mem key (by simp)]
      rfl
  | cons key keys ih =>
    obtain ⟨hkey, hkeys⟩ := List.nodup_cons.1 hkeys
    rw [List.forM, Action.bind_eq_ok_iff]
    simp only [ih hkeys, applyChain_eq]
    constructor
    · rintro ⟨⟨⟩, t, ht, hmerged⟩
      split at ht
      · next merged hfold =>
        cases ht
        constructor
        · intro k hk
          rcases List.mem_cons.1 hk with rfl | hk
          · rw [hmerged.of_not_mem k hkey, SortedMap.get?_put, if_pos rfl, hfold]
          · rw [← hmerged.of_mem k hk, SortedMap.get?_put, if_neg (ne_of_mem_of_not_mem hk hkey)]
        · intro k hk
          obtain ⟨hne, hk⟩ := not_or.1 (mt List.mem_cons.2 hk)
          rw [hmerged.of_not_mem k hk, SortedMap.get?_put, if_neg hne]
      · cases ht
    · intro h
      refine ⟨(), map.put key (map'.get? key), by rw [h.of_mem key (by simp)], ?_, ?_⟩
      · intro k hk
        rw [← h.of_mem k (List.mem_cons_of_mem _ hk), SortedMap.get?_put,
          if_neg (ne_of_mem_of_not_mem hk hkey)]
      · intro k hk
        rw [SortedMap.get?_put]
        split
        · next hkk => rw [hkk]
        · next hne => exact h.of_not_mem k (by simp [hne, hk])

/-! ## The loop over the plain writes -/

theorem forM_put_eq (writes : List (Bytes × Option Bytes)) (map : ByteMap) :
    (writes.forM fun e => Backing.put e.1 e.2) map =
      .ok () (writes.foldl (fun m e => m.put e.1 e.2) map) := by
  induction writes generalizing map with
  | nil => rfl
  | cons e writes ih =>
    rw [List.forM, List.foldl_cons, Action.bind_eq_ok_iff]
    exact ⟨(), map.put e.1 e.2, ByteMap.backing_put e.1 e.2 map, ih _⟩

theorem get?_of_put_each (writes : List (Bytes × Option Bytes)) (map : ByteMap) (key : Bytes) :
    (writes.foldl (fun m e => m.put e.1 e.2) map).get? key =
      (lastWrite? writes key).getD (map.get? key) := by
  induction writes using List.reverseRecOn with
  | nil => rfl
  | append_singleton writes e ih =>
    rw [List.foldl_append, List.foldl_cons, List.foldl_nil, SortedMap.get?_put, lastWrite?_snoc]
    split
    · rfl
    · exact ih

/-! ## The whole commit -/

theorem toList_merges_eq (batch : WriteBatch) :
    batch.merges.toList =
      (batch.merges.toList.map (·.1)).map fun key => (key, batch.chain key) := by
  rw [List.map_map]
  refine (List.map_id _).symm.trans (List.map_congr_left fun e he => ?_)
  have hget : batch.merges.get? e.1 = some e.2 := SortedMap.get?_eq_some_iff.2 he
  simp [chain, hget]

theorem chain_eq_nil_of_not_mem {batch : WriteBatch} {key : Bytes}
    (h : key ∉ batch.merges.toList.map (·.1)) : batch.chain key = [] := by
  have hget : batch.merges.get? key = none := SortedMap.get?_eq_none_iff.2 fun chain hmem =>
    h (List.mem_map.2 ⟨_, hmem, rfl⟩)
  rw [chain, hget, Option.getD_none]

theorem Merged.fold_chain {batch : WriteBatch} {before after : ByteMap}
    (h : Merged batch.chain (batch.merges.toList.map (·.1)) before after) (key : Bytes) :
    (batch.chain key).fold key (before.get? key) = .ok (after.get? key) := by
  by_cases hkey : key ∈ batch.merges.toList.map (·.1)
  · exact h.of_mem key hkey
  · rw [h.of_not_mem key hkey, chain_eq_nil_of_not_mem hkey, MergeChain.fold_nil]

theorem forM_merges_eq (batch : WriteBatch) : (batch.merges.toList.forM fun e => applyChain e.1 e.2) =
    ((batch.merges.toList.map (·.1)).forM fun key => applyChain key (batch.chain key) :
      EStateM Fault ByteMap Unit) := by
  conv_lhs => rw [toList_merges_eq]
  rw [List.forM_eq_forM, List.forM_map]
  rfl

theorem nodup_merges (batch : WriteBatch) : (batch.merges.toList.map (·.1)).Nodup :=
  List.Pairwise.imp (fun h => ne_of_before h) (List.pairwise_map.2 batch.merges.ascending)

/-- The chains below `c` have been merged, and that of `c` fails on the value before. -/
structure StopsAt (batch : WriteBatch) (before after : ByteMap) (c : Bytes) (fault : Fault) : Prop where
  fails : (batch.chain c).fold c (before.get? c) = .error fault
  below : ∀ key, key < c → (batch.chain key).fold key (before.get? key) = .ok (after.get? key)
  rest : ∀ key, ¬ key < c → after.get? key = before.get? key

theorem forM_merges_stopsAt {batch : WriteBatch} {map map' : ByteMap} {fault : Fault}
    (h : (batch.merges.toList.forM fun e => applyChain e.1 e.2) map = .error fault map') :
    ∃ c, batch.StopsAt map map' c fault := by
  rw [forM_merges_eq, Action.forM_eq_error_iff] at h
  obtain ⟨earlier, c, later, t, hrow, hearlier, hc⟩ := h
  have hnodup := nodup_merges batch
  have hsorted : (batch.merges.toList.map (·.1)).Pairwise (· < ·) :=
    List.pairwise_map.2 batch.merges.ascending
  rw [hrow] at hnodup hsorted
  obtain ⟨-, hlater, hbefore⟩ := List.pairwise_append.1 hsorted
  have hmerged := (forM_applyChain_eq_ok_iff (List.nodup_append.1 hnodup).1).1 hearlier
  rw [applyChain_eq] at hc
  split at hc
  · cases hc
  · next hfold =>
    cases hc
    have hout : ∀ key, ¬ key < c → map'.get? key = map.get? key := fun key hkey =>
      hmerged.of_not_mem key fun hmem => hkey (hbefore key hmem c (by simp))
    refine ⟨c, ?_, fun key hkey => ?_, hout⟩
    · rw [← hout c (List.lt_irrefl c)]
      exact hfold
    · by_cases hmem : key ∈ earlier
      · exact hmerged.of_mem key hmem
      · -- a listed key below `c` stands before it, so this one is not listed
        have hlisted : key ∉ batch.merges.toList.map (·.1) := by
          rw [hrow]
          intro hmem'
          rcases List.mem_append.1 hmem' with h | h
          · exact hmem h
          · rcases List.mem_cons.1 h with rfl | h
            · exact List.lt_irrefl _ hkey
            · exact List.lt_irrefl _ (List.lt_trans hkey ((List.pairwise_cons.1 hlater).1 key h))
        rw [hmerged.of_not_mem key hmem, chain_eq_nil_of_not_mem hlisted, MergeChain.fold_nil]

/-- A commit succeeds exactly if every chain does on the value its key had. -/
theorem commit_eq_ok_iff {batch : WriteBatch} {map map' : ByteMap} :
    batch.commit map = .ok () map' ↔ ∀ key, ∃ merged,
      (batch.chain key).fold key (map.get? key) = .ok merged ∧
      map'.get? key = (lastWrite? batch.writes.toList key).getD merged := by
  rw [commit, Action.bind_eq_ok_iff]
  constructor
  · rintro ⟨⟨⟩, t, ht, hwrites⟩ key
    rw [forM_merges_eq, forM_applyChain_eq_ok_iff (nodup_merges batch)] at ht
    rw [forM_put_eq] at hwrites
    cases hwrites
    exact ⟨t.get? key, ht.fold_chain key, get?_of_put_each _ _ _⟩
  · intro h
    cases ht : (batch.merges.toList.forM fun e => applyChain e.1 e.2) map with
    | error fault t =>
      obtain ⟨c, hc⟩ := forM_merges_stopsAt ht
      obtain ⟨merged, hmerged, -⟩ := h c
      cases hc.fails.symm.trans hmerged
    | ok u t =>
      have hfold := fun key => Merged.fold_chain ((forM_applyChain_eq_ok_iff (nodup_merges batch)).1
        (forM_merges_eq batch ▸ ht)) key
      refine ⟨(), t, rfl, ?_⟩
      rw [forM_put_eq]
      congr 1
      refine SortedMap.ext_get? fun key => ?_
      obtain ⟨merged, hmerged, hkey⟩ := h key
      rw [hfold key] at hmerged
      cases hmerged
      rw [get?_of_put_each, hkey]

/-- A commit stops at one key only, and in one state. -/
theorem StopsAt.unique {batch : WriteBatch} {before after after' : ByteMap} {c c' : Bytes}
    {fault fault' : Fault} (h : batch.StopsAt before after c fault)
    (h' : batch.StopsAt before after' c' fault') : fault = fault' ∧ after = after' := by
  have hle : ¬ c' < c := fun hlt => by cases h'.fails.symm.trans (h.below c' hlt)
  have hge : ¬ c < c' := fun hlt => by cases h.fails.symm.trans (h'.below c hlt)
  obtain rfl : c' = c := eq_of_not_before hle hge
  refine ⟨Except.error.inj (h.fails.symm.trans h'.fails), SortedMap.ext_get? fun key => ?_⟩
  by_cases hkey : key < c'
  · exact Except.ok.inj ((h.below key hkey).symm.trans (h'.below key hkey))
  · rw [h.rest key hkey, h'.rest key hkey]

theorem commit_stopsAt {batch : WriteBatch} {map map' : ByteMap} {fault : Fault}
    (h : batch.commit map = .error fault map') : ∃ c, batch.StopsAt map map' c fault := by
  rw [commit, Action.bind_eq_error_iff] at h
  obtain h | ⟨⟨⟩, t, -, hwrites⟩ := h
  · exact forM_merges_stopsAt h
  · rw [forM_put_eq] at hwrites
    cases hwrites

/-- A commit fails at the least key whose chain fails on the value it had. -/
theorem commit_eq_error_iff {batch : WriteBatch} {map map' : ByteMap} {fault : Fault} :
    batch.commit map = .error fault map' ↔ ∃ c, batch.StopsAt map map' c fault := by
  refine ⟨commit_stopsAt, ?_⟩
  rintro ⟨c, h⟩
  cases hcommit : batch.commit map with
  | ok u t =>
    obtain ⟨merged, hmerged, -⟩ := commit_eq_ok_iff.1 hcommit c
    cases h.fails.symm.trans hmerged
  | error fault' t =>
    obtain ⟨c', h'⟩ := commit_stopsAt hcommit
    obtain ⟨rfl, rfl⟩ := h.unique h'
    rfl

/-! ## Executing a batch after any calls -/

theorem execute_eq {M : Type} [Backing M] (batch : WriteBatch) (store : Store M) :
    execute (batch, store) = match batch.commit store.map with
      | .ok () map => .ok () (.empty, ⟨map⟩)
      | .error fault map => .error fault (.empty, ⟨map⟩) := by
  rw [execute, Store.onMap]
  cases batch.commit store.map <;> rfl

theorem commit_of_execute_ok {M : Type} [Backing M] {batch batch' : WriteBatch} {store store' : Store M}
    (h : execute (batch, store) = .ok () (batch', store')) : batch.commit store.map = .ok () store'.map := by
  rw [execute_eq] at h
  split at h
  · next hcommit =>
    cases h
    exact hcommit
  · cases h

theorem commit_of_execute_error {M : Type} [Backing M] {batch batch' : WriteBatch} {store store' : Store M}
    {fault : Fault} (h : execute (batch, store) = .error fault (batch', store')) :
    batch.commit store.map = .error fault store'.map := by
  rw [execute_eq] at h
  split at h
  · cases h
  · next hcommit =>
    cases h
    exact hcommit

/-- **A successful execution**: a key has its last plain write, or else what its operators make of
the value before the batch. They succeed on that value, also where a plain write has the say. -/
theorem get?_of_execute_ok {calls : List Call} {store store' : Store ByteMap} {batch' : WriteBatch}
    (h : execute (ofCalls calls, store) = .ok () (batch', store')) (key : Bytes) :
    (∀ value?, lastWrite? (plainWrites calls) key = some value? → store'.get? key = value?) ∧
    (lastWrite? (plainWrites calls) key = none → operators calls key ≠ [] →
      (operators calls key).fold key (store.get? key) = .ok (store'.get? key)) ∧
    (lastWrite? (plainWrites calls) key = none → operators calls key = [] →
      store'.get? key = store.get? key) ∧
    ∃ merged, (operators calls key).fold key (store.get? key) = .ok merged := by
  obtain ⟨merged, hfold, hkey⟩ := commit_eq_ok_iff.1 (commit_of_execute_ok h) key
  rw [chain_ofCalls] at hfold
  rw [toList_writes_ofCalls] at hkey
  change (operators calls key).fold key (store.get? key) = _ at hfold
  change store'.get? key = _ at hkey
  refine ⟨fun value? hlast => ?_, fun hlast _ => ?_, fun hlast hops => ?_, merged, hfold⟩
  · rw [hkey, hlast, Option.getD_some]
  · rw [hfold, hkey, hlast, Option.getD_none]
  · rw [hops, MergeChain.fold_nil] at hfold
    rw [hkey, hlast, Option.getD_none, Except.ok.inj hfold]

/-- Key `1` is merged and written, key `2` is removed and made anew inside its chain, key `3` is
new. -/
theorem get?_of_execute_ok_mixed :
    let calls := [.merge [3] (.append [9]), .set [1] [5], .merge [1] (.append [7]), .delete [1],
      .set [1] [6], .merge [2] (fun _ _ => .ok none), .merge [2] (.append [8])]
    let store : Store ByteMap := ⟨SortedMap.ofList [([1], [1]), ([2], [2]), ([4], [4])]⟩
    ∃ batch' store', execute (ofCalls calls, store) = .ok () (batch', store') ∧
      store'.get? [1] = some [6] ∧ store'.get? [2] = some [8] ∧ store'.get? [3] = some [9] ∧
      store'.get? [4] = some [4] := by
  intro calls store
  obtain ⟨batch', store', h⟩ : ∃ batch' store', execute (ofCalls calls, store) =
    .ok () (batch', store') := ⟨_, _, rfl⟩
  have h2 := (get?_of_execute_ok h [2]).2.1 rfl (List.cons_ne_nil _ _)
  have h3 := (get?_of_execute_ok h [3]).2.1 rfl (List.cons_ne_nil _ _)
  exact ⟨batch', store', h, (get?_of_execute_ok h [1]).1 _ rfl, (Except.ok.inj h2).symm,
    (Except.ok.inj h3).symm, (get?_of_execute_ok h [4]).2.2.1 rfl rfl⟩

/-- **A failed execution** stops at the least key whose operators fail on the value before. The keys
below it are merged, all others are as before, and no plain write is applied. -/
theorem execute_error_iff (calls : List Call) (store : Store ByteMap) :
    ((∃ fault rest, execute (ofCalls calls, store) = .error fault rest) ↔
      ∃ key fault, (operators calls key).FailsWith key (store.get? key) fault) ∧
    ∀ fault batch' store', execute (ofCalls calls, store) = .error fault (batch', store') →
      ∃ c, (operators calls c).FailsWith c (store.get? c) fault ∧
        (∀ key fault', (operators calls key).FailsWith key (store.get? key) fault' → c ≤ key) ∧
        (∀ key, operators calls key ≠ [] → key < c →
          (operators calls key).fold key (store.get? key) = .ok (store'.get? key)) ∧
        ∀ key, ¬ (operators calls key ≠ [] ∧ key < c) → store'.get? key = store.get? key := by
  simp only [← MergeChain.fold_eq_error_iff, ← chain_ofCalls]
  refine ⟨⟨?_, ?_⟩, ?_⟩
  · rintro ⟨fault, ⟨batch', store'⟩, h⟩
    obtain ⟨c, hc⟩ := commit_eq_error_iff.1 (commit_of_execute_error h)
    exact ⟨c, fault, hc.fails⟩
  · rintro ⟨key, fault, hkey⟩
    cases h : execute (ofCalls calls, store) with
    | error fault' rest => exact ⟨fault', rest, rfl⟩
    | ok u rest =>
      obtain ⟨merged, hmerged, -⟩ := commit_eq_ok_iff.1 (commit_of_execute_ok h) key
      cases hkey.symm.trans hmerged
  · intro fault batch' store' h
    obtain ⟨c, hc, hbelow, hrest⟩ := commit_eq_error_iff.1 (commit_of_execute_error h)
    refine ⟨c, hc, fun key fault' hkey hlt => ?_, fun key _ hlt => hbelow key hlt, fun key hkey => ?_⟩
    · cases hkey.symm.trans (hbelow key hlt)
    · by_cases hlt : key < c
      · -- below `c`, only a key without operators is left
        have hops : (ofCalls calls).chain key = [] := by
          by_contra hops
          exact hkey ⟨hops, hlt⟩
        have hfold := hbelow key hlt
        rw [hops, MergeChain.fold_nil] at hfold
        exact (Except.ok.inj hfold).symm
      · exact hrest key hlt

/-- The second operator of key `2` refuses, and the write of key `4` is not applied. -/
theorem execute_error_iff_refused :
    let refuse : MergeOperator := fun key _ => .error (.mergeFailure key "refused")
    let calls := [.set [4] [5], .merge [2] (.append [8]), .merge [2] refuse, .merge [1] (.append [7])]
    let store : Store ByteMap := ⟨SortedMap.ofList [([2], [2]), ([4], [4])]⟩
    ∃ fault batch' store', execute (ofCalls calls, store) = .error fault (batch', store') ∧
      store'.get? [4] = some [4] := by
  intro refuse calls store
  have hfails : (operators calls [2]).FailsWith [2] (store.get? [2]) (.mergeFailure [2] "refused") :=
    ⟨[.append [8]], refuse, [], some [2, 8], rfl, rfl, rfl⟩
  obtain ⟨fault, ⟨batch', store'⟩, h⟩ := (execute_error_iff calls store).1.2 ⟨_, _, hfails⟩
  obtain ⟨c, -, -, -, hrest⟩ := (execute_error_iff calls store).2 fault batch' store' h
  exact ⟨fault, batch', store', h, hrest [4] fun hkey => hkey.1 rfl⟩

end WriteBatch
end OrderedStore
