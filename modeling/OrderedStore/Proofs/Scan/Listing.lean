import OrderedStore.Proofs.Scan.Session

/-!
# What draining a scan over a sorted byte map lists

* `Store.Lists store late rows` : the rows are the entries of the store whose keys are late enough.
  The rows ascend, so there is one such list at most;
* `Store.entriesWithin` : the entries of a store within a bound, in order, and
  `Store.entriesWithin_above` : behind the first of them there are the others;
* `Scan.drainWithin_next_of_looks` : a scan that looks for keys within a bound finds these entries,
  one at each step;
* `Scan.drain_agrees_with_lookups` : so a drain comes to its end, and lists the entry it starts at
  and all entries that the store holds beyond.
-/

namespace OrderedStore
open ByteKey

/-! ## Entries within a bound -/

namespace Store

/-- The rows are the entries with late enough keys, each key once and in order. -/
structure Lists (store : Store ByteMap) (late : Bytes → Prop) (rows : List (Bytes × Bytes)) : Prop where
  ascending : rows.Pairwise fun a b => a.1 < b.1
  mem_iff : ∀ key value, (key, value) ∈ rows ↔ late key ∧ store.get? key = some value

/-- The entries whose keys are within a bound, least key first. -/
def entriesWithin (store : Store ByteMap) (bound : LowerBound Bytes) : List (Bytes × Bytes) :=
  store.map.toList.filter fun e => bound.admits e.1

variable {store : Store ByteMap} {bound : LowerBound Bytes}

theorem ascending_entriesWithin (store : Store ByteMap) (bound : LowerBound Bytes) :
    Ascending (store.entriesWithin bound) := store.map.ascending.filter _

theorem lists_entriesWithin {late : Bytes → Prop} (h : ∀ key, bound.admits key = true ↔ late key) :
    store.Lists late (store.entriesWithin bound) := by
  refine ⟨store.ascending_entriesWithin bound, fun key value => ?_⟩
  rw [entriesWithin, List.mem_filter, ← SortedMap.get?_eq_some_iff, h, and_comm]
  rfl

theorem length_entriesWithin_unbounded (store : Store ByteMap) :
    (store.entriesWithin .unbounded).length = store.size := by
  have hall : store.entriesWithin .unbounded = store.map.toList := List.filter_eq_self.2 fun _ _ => rfl
  rw [hall]
  exact (SortedMap.size_eq_length store.map).symm

theorem first?_eq_head? : store.map.first? bound = (store.entriesWithin bound).head? := by
  rw [SortedMap.first?_eq_find?, entriesWithin, List.head?_filter]

theorem entriesWithin_above {e : Bytes × Bytes} {rest : List (Bytes × Bytes)}
    (h : store.entriesWithin bound = e :: rest) : store.entriesWithin (.above e.1) = rest := by
  have hascending := store.ascending_entriesWithin bound
  have hfirst : e ∈ store.entriesWithin bound := by simp [h]
  have hadmits : bound.admits e.1 = true := (List.mem_filter.1 hfirst).2
  have hwithin : store.entriesWithin (.above e.1) =
      (store.entriesWithin bound).filter fun x => (LowerBound.above e.1).admits x.1 := by
    rw [entriesWithin, entriesWithin, List.filter_filter]
    refine List.filter_congr fun x _ => ?_
    cases hx : (LowerBound.above e.1).admits x.1 with
    | false => rfl
    | true => rw [LowerBound.admits_of_before (LowerBound.admits_above.1 hx) hadmits, Bool.and_true]
  rw [h, Ascending.cons_iff] at hascending
  rw [hwithin, h, List.filter_cons_of_neg (by simp), List.filter_eq_self]
  exact fun x hx => LowerBound.admits_above.2 (hascending.1 x hx)

end Store

/-! ## Draining -/

namespace Scan

/-- One step for each entry within the bound, and no more. -/
theorem drainWithin_next_of_looks {scan : Scan ByteMap} {bound : LowerBound Bytes} (h : scan.Looks bound)
    (store : Store ByteMap) : ∃ last : Scan ByteMap, last.position = .exhausted ∧
      drainWithin store (store.entriesWithin bound).length (scan.next store) =
        (.entries (store.entriesWithin bound), last) := by
  generalize hrows : store.entriesWithin bound = rows
  have hfirst : store.map.first? bound = rows.head? := hrows ▸ Store.first?_eq_head?
  -- On the entries that are left: the step to the first of them leaves a cursor that looks for the others.
  induction rows generalizing scan bound with
  | nil =>
    rw [next_of_looks_none h hfirst]
    exact ⟨_, rfl, rfl⟩
  | cons e rest ih =>
    have hlooks : Looks ⟨some (⟨.above e.1, false⟩ : RangeCursor), .showing e.1 e.2⟩ (.above e.1) :=
      ⟨rfl, rfl⟩
    have habove := Store.entriesWithin_above hrows
    obtain ⟨last, hlast, hdrain⟩ := ih hlooks habove (habove ▸ Store.first?_eq_head?)
    refine ⟨last, hlast, ?_⟩
    rw [next_of_looks_some h hfirst, List.length_cons, drainWithin_succ_of_showing rfl, hdrain]
    rfl

theorem drainWithin_of_looks {scan : Scan ByteMap} {key value : Bytes} (hposition : scan.position = .showing key value)
    (h : scan.Looks (.above key)) (store : Store ByteMap) :
    ∃ limit, ∃ last : Scan ByteMap, last.position = .exhausted ∧
      drainWithin store limit scan = (.entries ((key, value) :: store.entriesWithin (.above key)), last) := by
  obtain ⟨last, hlast, hdrain⟩ := drainWithin_next_of_looks h store
  refine ⟨(store.entriesWithin (.above key)).length + 1, last, hlast, ?_⟩
  rw [drainWithin_succ_of_showing hposition, hdrain]
  rfl

/-- A scan in use gives the entry it stands at and what the store holds beyond, or nothing. -/
theorem drainWithin_of_settled {scan : Scan ByteMap} (h : scan.Settled) (store : Store ByteMap) :
    ∃ limit, ∃ last : Scan ByteMap, last.position = .exhausted ∧
      drainWithin store limit scan = (.entries (match scan.current? with
        | some (key, value) => (key, value) :: store.entriesWithin (.above key)
        | none => []), last) := by
  cases h with
  | showing key value => exact drainWithin_of_looks rfl ⟨rfl, rfl⟩ store
  | ended cursor h => exact ⟨0, _, rfl, rfl⟩

theorem drain_seekTo (scan : Scan ByteMap) (store : Store ByteMap) (target : Target) :
    ((scan.seekTo store target).drain store).1 = .entries (store.entriesWithin target.bound) := by
  obtain ⟨start, hlooks, hseek⟩ | ⟨hfirst, hseek⟩ := seekTo_eq_next scan store target
  · obtain ⟨last, -, hdrain⟩ := drainWithin_next_of_looks hlooks store
    rw [hseek, drain_of_drainWithin hdrain (by simp)]
  · rw [Store.first?_eq_head?, List.head?_eq_none_iff] at hfirst
    rw [hseek, hfirst, drain_of_exhausted rfl]

/-- **A drain agrees with look-ups, and ends**: it gives the entry shown, as it was read, and the
present entries beyond its key. -/
theorem drain_agrees_with_lookups (store : Store ByteMap) (start : Bytes) (turns : List (Turn ByteMap)) :
    let s := (Session.opened store start).run turns
    let drained := s.scan.drain s.store
    s.scan.DrainEnds s.store ∧
    (match s.scan.current? with
      | some (key, value) =>
        ∃ beyond, drained.1 = .entries ((key, value) :: beyond) ∧ s.store.Lists (key < ·) beyond
      | none => drained.1 = .entries []) ∧
    (drained.2.position = .exhausted ∧ drained.2.fault? = none) ∧
    (∀ (scan : Scan ByteMap) (store : Store ByteMap) key, ∃ rows,
      ((scan.seek store key).drain store).1 = .entries rows ∧ store.Lists (key ≤ ·) rows) ∧
    ∀ (scan : Scan ByteMap) (store : Store ByteMap), ∃ rows,
      ((scan.seekFirst store).drain store).1 = .entries rows ∧ store.Lists (fun _ => True) rows ∧
        rows.length = store.size := by
  intro s drained
  obtain ⟨limit, last, hlast, hwithin⟩ := drainWithin_of_settled (settled_run store start turns) s.store
  have hdrain : drained = _ := drain_of_drainWithin hwithin (by simp)
  have hend : drained.2.position = .exhausted := (congrArg (·.2.position) hdrain).trans hlast
  refine ⟨⟨limit, ?_⟩, ?_, ⟨hend, by rw [fault?, hend]⟩, fun scan store key => ?_, fun scan store => ?_⟩
  · rw [hwithin]
    simp
  · have hlisted := congrArg Prod.fst hdrain
    cases hcurrent : s.scan.current? with
    | some e =>
      rw [hcurrent] at hlisted
      exact ⟨_, hlisted, Store.lists_entriesWithin fun _ => LowerBound.admits_above⟩
    | none =>
      rw [hcurrent] at hlisted
      exact hlisted
  · exact ⟨_, drain_seekTo scan store (.key key), Store.lists_entriesWithin fun _ => Target.admits_bound⟩
  · refine ⟨_, drain_seekTo scan store .first, Store.lists_entriesWithin fun key => by simp [Target.bound], ?_⟩
    exact Store.length_entriesWithin_unbounded store

/-- The entry that the scan stands at is gone by the time it is drained, and a key before it has come. -/
example :
    let store : Store ByteMap := ⟨SortedMap.ofList [([2], [20]), ([4], [40])]⟩
    let s := (Session.opened store [1]).run [.change (·.mutate [.delete [2], .set [1] [10], .set [4] [41]])]
    (s.scan.drain s.store).1 = .entries [([2], [20]), ([4], [41])] := by
  intro store s
  have hwithin : drainWithin s.store 2 s.scan = (.entries [([2], [20]), ([4], [41])], _) := rfl
  rw [drain_of_drainWithin hwithin (by simp)]

end Scan
end OrderedStore
