import Mathlib.Algebra.Group.Int.Defs
import OrderedStore.Proofs.Counter.Chain
import OrderedStore.Proofs.Footprint

/-!
# A counter in a store that many write to

* `Counter.Tally key` : a batch that has to do with a key only to count it up, by amounts that are
  not negative;
* `Counter.Turn key` : such a batch is executed, or a write is made that has nothing to do with the
  key. A run is any row of them. `Counter.outcomes` : what the executions of the first kind in it
  come to;
* `Tally.fold_of_ok`, `Tally.fold_of_error` : what one of these executions makes of the key;
* `Tally.counts_on`, `Tally.fault_eq` : it keeps a count a count, and fails by running over alone;
* `fold_of_run_ok`, `fold_of_run_error` : a run makes of the key what one chain of all its amounts
  does, and some execution fails exactly where that chain does;
* `Counter.counted_in_any_order` : so no amount is lost or counted twice in any order, and the
  counter runs over exactly if the sum of all amounts is too great.
-/

namespace OrderedStore.Counter

variable {key : Bytes}

/-! ## One batch that counts -/

/-- A batch that has to do with a key only to count it up. -/
structure Tally (key : Bytes) where
  batch : WriteBatch
  /-- The amounts, in the order in which they were held back; none of them is negative. -/
  deltas : List Int64
  nonneg : ∀ delta ∈ deltas, 0 ≤ delta
  chain_eq : batch.chain key = deltas.map add
  unwritten : key ∉ batch.writes.toList.map (·.1)

namespace Tally

variable (tally : Tally key)

def mutation : Mutation := .execute tally.batch

/-- No operator for another key can fail. -/
def Reliable : Prop := ∀ key', key' ≠ key → ∀ operator ∈ tally.batch.chain key', ∀ existing,
  ∃ value?, operator key' existing = .ok value?

def single (delta : Int64) (hnonneg : 0 ≤ delta) : Tally key where
  batch := WriteBatch.empty.merge key (add delta)
  deltas := [delta]
  nonneg := by simpa using hnonneg
  chain_eq := by simp
  unwritten := by simp [WriteBatch.merge, WriteBatch.empty]

theorem single_reliable (delta : Int64) (hnonneg : 0 ≤ delta) : (single delta hnonneg : Tally key).Reliable := by
  intro key' hne operator hmem
  have hchain : (single delta hnonneg : Tally key).batch.chain key' = [] := WriteBatch.chain_merge_of_ne _ hne _
  rw [hchain] at hmem
  cases hmem

variable {tally} {store : Store ByteMap}

theorem fold_of_ok (h : tally.mutation.outcome store = .ok ()) :
    MergeChain.fold (tally.deltas.map add) key (store.get? key) =
      .ok ((tally.mutation.apply store).get? key) := by
  rw [Mutation.outcome_eq] at h
  obtain ⟨merged, hfold, hkey⟩ := WriteBatch.commit_eq_ok_iff.1 (Action.eq_ok_of_outcome h) key
  rw [WriteBatch.lastWrite?_eq_none_iff.2 tally.unwritten, Option.getD_none] at hkey
  rw [tally.chain_eq, ← hkey] at hfold
  rw [Mutation.apply_eq]
  exact hfold

theorem fold_of_error (hreliable : tally.Reliable) {fault : Fault}
    (h : tally.mutation.outcome store = .error fault) :
    MergeChain.fold (tally.deltas.map add) key (store.get? key) = .error fault ∧
      (tally.mutation.apply store).get? key = store.get? key := by
  rw [Mutation.outcome_eq] at h
  obtain ⟨c, hstops⟩ := WriteBatch.commit_eq_error_iff.1 (Action.eq_error_of_outcome h)
  have hfails := hstops.fails
  obtain rfl : c = key := by
    by_contra hne
    obtain ⟨_, operator, _, current, hchain, -, hrefuses⟩ := MergeChain.fold_eq_error_iff.1 hfails
    obtain ⟨value?, hok⟩ := hreliable c hne operator (by simp [hchain]) current
    cases hok.symm.trans hrefuses
  rw [tally.chain_eq] at hfails
  rw [Mutation.apply_eq]
  exact ⟨hfails, hstops.rest c (List.lt_irrefl c)⟩

section Reliable

variable (hreliable : tally.Reliable) {start : UInt64} (hstart : countOf key (store.get? key) = .ok start)

include hreliable hstart

/-- The counting itself fails in one way only. -/
theorem fault_eq {fault : Fault} (h : tally.mutation.outcome store = .error fault) :
    fault = .mergeFailure key "counter overflow" := by
  have hfold := (fold_of_error hreliable h).1
  obtain ⟨_, _, hok, -⟩ | herror := fold_adds_counts tally.deltas hstart
  · cases hok.symm.trans hfold
  · exact Except.error.inj (hfold.symm.trans herror)

theorem counts_on : ∃ count, countOf key ((tally.mutation.apply store).get? key) = .ok count := by
  cases houtcome : tally.mutation.outcome store with
  | error fault =>
    rw [(fold_of_error hreliable houtcome).2]
    exact ⟨start, hstart⟩
  | ok u =>
    have hfold := fold_of_ok houtcome
    obtain ⟨merged, count, hok, hcount⟩ | herror := fold_adds_counts tally.deltas hstart
    · rw [Except.ok.inj (hfold.symm.trans hok)]
      exact ⟨count, hcount⟩
    · cases herror.symm.trans hfold

end Reliable

end Tally

/-! ## Runs -/

/-- A turn in a run: a batch that counts the key is executed, or a write is made that does not touch
it. -/
inductive Turn (key : Bytes) where
  | count (tally : Tally key)
  | other (mutation : Mutation) (untouched : key ∉ mutation.keys)

namespace Turn

def mutation : Turn key → Mutation
  | count tally => tally.mutation
  | other mutation _ => mutation

def tally? : Turn key → Option (Tally key)
  | count tally => some tally
  | other .. => none

def deltas : Turn key → List Int64
  | count tally => tally.deltas
  | other .. => []

end Turn

/-- What the executions of the batches that count come to, in a run from this store on. -/
def outcomes (store : Store ByteMap) : List (Turn key) → List (Except Fault Unit)
  | [] => []
  | .count tally :: turns => tally.mutation.outcome store :: outcomes (tally.mutation.apply store) turns
  | .other mutation _ :: turns => outcomes (mutation.apply store) turns

def finish (store : Store ByteMap) (turns : List (Turn key)) : Store ByteMap :=
  store.mutate (turns.map Turn.mutation)

/-- If all go through, they count as one chain of all their amounts. -/
theorem fold_of_run_ok {turns : List (Turn key)} {store : Store ByteMap}
    (h : ∀ outcome ∈ outcomes store turns, outcome = .ok ()) :
    MergeChain.fold ((turns.flatMap Turn.deltas).map add) key (store.get? key) =
      .ok ((finish store turns).get? key) := by
  induction turns generalizing store with
  | nil => rfl
  | cons turn turns ih =>
    cases turn with
    | count tally =>
      obtain ⟨htally, hturns⟩ := List.forall_mem_cons.1 h
      rw [List.flatMap_cons, Turn.deltas, List.map_append, MergeChain.fold_append, Tally.fold_of_ok htally]
      exact ih hturns
    | other mutation untouched =>
      rw [← Mutation.get?_apply_of_not_mem untouched store]
      exact ih h

theorem fold_of_run_error {turns : List (Turn key)} {store : Store ByteMap}
    (hreliable : ∀ tally ∈ turns.filterMap Turn.tally?, tally.Reliable) {fault : Fault}
    (h : .error fault ∈ outcomes store turns) :
    ∃ fault', MergeChain.fold ((turns.flatMap Turn.deltas).map add) key (store.get? key) = .error fault' := by
  induction turns generalizing store with
  | nil => cases h
  | cons turn turns ih =>
    cases turn with
    | count tally =>
      obtain ⟨htally, hturns⟩ := List.forall_mem_cons.1 hreliable
      rw [List.flatMap_cons, Turn.deltas, List.map_append, MergeChain.fold_append]
      cases houtcome : tally.mutation.outcome store with
      | error first => exact ⟨first, by rw [(Tally.fold_of_error htally houtcome).1]; rfl⟩
      | ok u =>
        rw [Tally.fold_of_ok houtcome]
        rw [outcomes, houtcome] at h
        obtain h | h := List.mem_cons.1 h
        · cases h
        · exact ih hturns h
    | other mutation untouched =>
      rw [← Mutation.get?_apply_of_not_mem untouched store]
      exact ih hreliable h

/-- The value of the key stands for a count all along, so nothing but running over can go wrong. -/
theorem fault_of_run {turns : List (Turn key)} {store : Store ByteMap}
    (hreliable : ∀ tally ∈ turns.filterMap Turn.tally?, tally.Reliable) {start : UInt64}
    (hstart : countOf key (store.get? key) = .ok start) {fault : Fault} (h : .error fault ∈ outcomes store turns) :
    fault = .mergeFailure key "counter overflow" := by
  induction turns generalizing store start with
  | nil => cases h
  | cons turn turns ih =>
    cases turn with
    | count tally =>
      obtain ⟨htally, hturns⟩ := List.forall_mem_cons.1 hreliable
      obtain ⟨count, hcount⟩ := Tally.counts_on htally hstart
      rw [outcomes] at h
      obtain h | h := List.mem_cons.1 h
      · exact Tally.fault_eq htally hstart h.symm
      · exact ih hturns hcount h
    | other mutation untouched =>
      exact ih hreliable (by rwa [Mutation.get?_apply_of_not_mem untouched]) h

/-! ## The sum of all amounts -/

theorem flatMap_deltas (turns : List (Turn key)) :
    turns.flatMap Turn.deltas = (turns.filterMap Turn.tally?).flatMap Tally.deltas := by
  induction turns with
  | nil => rfl
  | cons turn turns ih =>
    rw [List.flatMap_cons, ih]
    cases turn <;> rfl

/-- **No update of a counter is lost or made twice**, in whatever order batches that only count it
up are executed. If nothing but the counting can fail, one does exactly if the sum is too great. -/
theorem counted_in_any_order {store : Store ByteMap} {start : UInt64}
    (hstart : countOf key (store.get? key) = .ok start) {tallies : List (Tally key)}
    (hdeltas : ∃ tally ∈ tallies, tally.deltas ≠ []) {turns : List (Turn key)}
    (hturns : (turns.filterMap Turn.tally?).Perm tallies) :
    let sum : Int := start.toNat + total (tallies.flatMap Tally.deltas)
    ((∀ outcome ∈ outcomes store turns, outcome = .ok ()) → sum ≤ 2 ^ 64 - 1 ∧
      (finish store turns).get? key = if sum = 0 then none else some (encode (UInt64.ofNat sum.toNat))) ∧
    ((∀ tally ∈ tallies, tally.Reliable) →
      ((∃ fault, .error fault ∈ outcomes store turns) ↔ 2 ^ 64 - 1 < sum) ∧
      ∀ fault, .error fault ∈ outcomes store turns → fault = .mergeFailure key "counter overflow") := by
  intro sum
  have hperm : (turns.flatMap Turn.deltas).Perm (tallies.flatMap Tally.deltas) := by
    rw [flatMap_deltas]
    exact hturns.flatMap_right _
  have hnonneg : ∀ delta ∈ tallies.flatMap Tally.deltas, 0 ≤ delta := fun delta hdelta => by
    obtain ⟨tally, -, hmem⟩ := List.mem_flatMap.1 hdelta
    exact tally.nonneg delta hmem
  have hne : turns.flatMap Turn.deltas ≠ [] := by
    obtain ⟨tally, htally, hne⟩ := hdeltas
    obtain ⟨delta, hdelta⟩ := List.exists_mem_of_ne_nil _ hne
    exact List.ne_nil_of_mem (hperm.mem_iff.2 (List.mem_flatMap.2 ⟨tally, htally, hdelta⟩))
  have hfold := fold_adds (fun delta hdelta => hnonneg delta (hperm.mem_iff.1 hdelta)) hne hstart
  rw [total_perm hperm] at hfold
  change _ = checked key sum.toNat at hfold
  have hsum : 0 ≤ sum := Int.add_nonneg (Int.natCast_nonneg _) (total_nonneg hnonneg)
  have hsize : UInt64.size = 2 ^ 64 := rfl
  refine ⟨fun hok => ?_, fun hreliable => ⟨⟨?_, fun hgreat => ?_⟩, ?_⟩⟩
  · rw [fold_of_run_ok hok, checked] at hfold
    split at hfold
    · next hlt =>
      rw [Except.ok.inj hfold, value?]
      have hzero : sum.toNat = 0 ↔ sum = 0 := by omega
      exact ⟨by omega, by simp only [hzero]⟩
    · cases hfold
  · rintro ⟨fault, hfault⟩
    obtain ⟨fault', herror⟩ := fold_of_run_error
      (fun tally htally => hreliable tally (hturns.mem_iff.1 htally)) hfault
    rw [herror, checked] at hfold
    split at hfold
    · cases hfold
    · omega
  · by_contra hnone
    have hok : ∀ outcome ∈ outcomes store turns, outcome = .ok () := fun outcome hmem => by
      cases outcome with
      | ok u => rfl
      | error fault => exact absurd ⟨fault, hmem⟩ hnone
    rw [fold_of_run_ok hok, checked, if_neg (by omega)] at hfold
    cases hfold
  · intro fault hfault
    exact fault_of_run (fun tally htally => hreliable tally (hturns.mem_iff.1 htally)) hstart hfault

/-- From `2 ^ 64 - 4` the three that are added fit, and from `2 ^ 64 - 3` one batch is refused. -/
theorem counted_in_any_order_full :
    let tallies : List (Tally [1]) := [.single 1 (by decide), .single 2 (by decide)]
    let turns := [.count (.single 2 (by decide)), .other (.delete [2]) (by decide), .count (.single 1 (by decide))]
    let holding (count : UInt64) : Store ByteMap := ⟨SortedMap.ofList [([1], encode count)]⟩
    (turns.filterMap Turn.tally?).Perm tallies ∧
    (finish (holding 0xFFFFFFFFFFFFFFFC) turns).get? [1] = some (encode 0xFFFFFFFFFFFFFFFF) ∧
      (∃ fault, .error fault ∈ outcomes (holding 0xFFFFFFFFFFFFFFFD) turns) ∧
      ∀ fault, .error fault ∈ outcomes (holding 0xFFFFFFFFFFFFFFFD) turns →
        fault = .mergeFailure [1] "counter overflow" := by
  intro tallies turns holding
  have hturns : (turns.filterMap Turn.tally?).Perm tallies := List.Perm.swap _ _ _
  have hdeltas : ∃ tally ∈ tallies, tally.deltas ≠ [] := ⟨_, List.mem_cons_self, by decide⟩
  have hreliable : ∀ tally ∈ tallies, tally.Reliable := fun tally htally => by
    simp only [tallies, List.mem_cons, List.not_mem_nil, or_false] at htally
    obtain rfl | rfl := htally <;> exact Tally.single_reliable _ _
  have hfits : countOf [1] ((holding 0xFFFFFFFFFFFFFFFC).get? [1]) = .ok 0xFFFFFFFFFFFFFFFC := rfl
  have hgreat : countOf [1] ((holding 0xFFFFFFFFFFFFFFFD).get? [1]) = .ok 0xFFFFFFFFFFFFFFFD := rfl
  have hok : ∀ outcome ∈ outcomes (holding 0xFFFFFFFFFFFFFFFC) turns, outcome = .ok () := by
    have houtcomes : outcomes (holding 0xFFFFFFFFFFFFFFFC) turns = [.ok (), .ok ()] := rfl
    simp [houtcomes]
  obtain ⟨hfails, hfault⟩ := (counted_in_any_order hgreat hdeltas hturns).2 hreliable
  exact ⟨hturns, ((counted_in_any_order hfits hdeltas hturns).1 hok).2, hfails.2 (by decide), hfault⟩

end OrderedStore.Counter
