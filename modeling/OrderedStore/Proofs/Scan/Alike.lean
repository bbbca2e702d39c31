import OrderedStore.Proofs.Scan.Session

/-!
# Scans that no caller can tell apart

* `Scan.Sight` : all that a caller can ask a scan for, short of using it;
* `Scan.Use`, `Scan.transcript` : a run in which the store is written to and the scan is used, and
  what is seen of the scan after each turn, with what it gave where it was drained;
* `Scan.Alike` : the scans are the same, or both are at their end, wherever their cursors are then;
* `Scan.Alike.use`, `Scan.Alike.transcript_eq` : alike scans stay alike under one use, and so
  throughout a run;
* `Scan.transcript_seekFirst_eq_seek_nil` : so a scan sent to the first key and one sent to the
  empty key cannot be told apart.
-/

namespace OrderedStore.Scan

variable {M : Type} [Backing M]

/-! ## What is seen of a scan -/

structure Sight where
  current? : Option (Bytes × Bytes)
  key? : Option Bytes
  value? : Option Bytes
  isValid : Bool
  fault? : Option Fault

def sight (scan : Scan M) : Sight := ⟨scan.current?, scan.key?, scan.value?, scan.isValid, scan.fault?⟩

/-- A turn in a run that no seek is part of: the store is written to, or the scan is used. -/
inductive Use where
  | write (mutation : Mutation)
  | next
  | close
  | drain

/-- The store and the scan after a turn, and what the scan gave if it was drained. -/
structure Used (M : Type) [Backing M] where
  store : Store M
  scan : Scan M
  drained? : Option Drained := none

def use (scan : Scan M) (store : Store M) : Use → Used M
  | .write mutation => { store := mutation.apply store, scan }
  | .next => { store, scan := scan.next store }
  | .close => { store, scan := scan.close }
  | .drain => ⟨store, (scan.drain store).2, (scan.drain store).1⟩

/-- What is seen of a scan after each turn of a run. -/
def transcript (scan : Scan M) (store : Store M) : List Use → List (Sight × Option Drained)
  | [] => []
  | u :: uses =>
    let used := scan.use store u
    (used.scan.sight, used.drained?) :: transcript used.scan used.store uses

/-! ## Alike scans -/

/-- The scans are the same, or both at their end, where they ask their cursors no more. -/
inductive Alike : Scan M → Scan M → Prop
  | same (scan : Scan M) : Alike scan scan
  | ended {a b : Scan M} (ha : a.position = .exhausted) (hb : b.position = .exhausted) : Alike a b

namespace Alike

variable {a b : Scan M}

theorem position_eq (h : Alike a b) : a.position = b.position := by
  cases h with
  | same => rfl
  | ended ha hb => rw [ha, hb]

theorem sight_eq (h : Alike a b) : a.sight = b.sight := by
  simp [sight, key?, value?, isValid, current?, fault?, h.position_eq]

/-- One turn keeps scans alike, makes the same of the store, and drains them to the same. -/
theorem use (h : Alike a b) (store : Store M) (u : Use) :
    (a.use store u).store = (b.use store u).store ∧ Alike (a.use store u).scan (b.use store u).scan ∧
      (a.use store u).drained? = (b.use store u).drained? := by
  cases h with
  | same => exact ⟨rfl, .same _, rfl⟩
  | ended ha hb =>
    -- Neither scan asks its cursor, so what the cursors would find does not matter.
    cases u with
    | write mutation => exact ⟨rfl, .ended ha hb, rfl⟩
    | next =>
      refine ⟨rfl, .ended ?_ ?_, rfl⟩
      · simp [Scan.use, next, ha, Position.isTerminal]
      · simp [Scan.use, next, hb, Position.isTerminal]
    | close => exact ⟨rfl, .same _, rfl⟩
    | drain =>
      have hdrained : (a.drain store).1 = (b.drain store).1 := by
        rw [drain_of_exhausted ha, drain_of_exhausted hb]
      refine ⟨rfl, .ended ?_ ?_, congrArg some hdrained⟩
      · simp [Scan.use, drain_of_exhausted ha, ha]
      · simp [Scan.use, drain_of_exhausted hb, hb]

theorem transcript_eq (h : Alike a b) (store : Store M) (uses : List Use) :
    a.transcript store uses = b.transcript store uses := by
  induction uses generalizing a b store with
  | nil => rfl
  | cons u uses ih =>
    obtain ⟨hstore, hscan, hdrained⟩ := h.use store u
    rw [transcript, transcript, hscan.sight_eq, hdrained, hstore, ih hscan]

end Alike

/-! ## Two ways to the start -/

theorem first?_bound_of_start_eq (map : ByteMap) {target target' : Target} (h : target.start = target'.start) :
    map.first? target.bound = map.first? target'.bound := by
  have hadmits : ∀ key, target.bound.admits key = target'.bound.admits key := fun key => by
    rw [Bool.eq_iff_iff, Target.admits_bound, Target.admits_bound, h]
  simp only [SortedMap.first?_eq_find?, hadmits]

/-- Where nothing is found, one scan may have a cursor and the other not. -/
theorem alike_seekTo (a b : Scan ByteMap) (store : Store ByteMap) {target target' : Target}
    (h : target.start = target'.start) : Alike (a.seekTo store target) (b.seekTo store target') := by
  have hsame := first?_bound_of_start_eq store.map h
  cases hfirst : store.map.first? target.bound with
  | some e =>
    rw [seekTo_of_first?_some hfirst, seekTo_of_first?_some (hsame ▸ hfirst)]
    exact .same _
  | none => exact .ended (seekTo_of_first?_none hfirst a) (seekTo_of_first?_none (hsame ▸ hfirst) b)

/-- No caller can tell a scan sent to the first key from one sent to the empty key, at once or after
any writes, steps, closes and drains. -/
theorem transcript_seekFirst_eq_seek_nil (store : Store ByteMap) (a b : Scan ByteMap) (uses : List Use) :
    (a.seekFirst store).sight = (b.seek store []).sight ∧
      (a.seekFirst store).transcript store uses = (b.seek store []).transcript store uses := by
  have halike : Alike (a.seekFirst store) (b.seek store []) :=
    alike_seekTo a b store (show Target.first.start = (Target.key []).start from rfl)
  exact ⟨halike.sight_eq, halike.transcript_eq store uses⟩

/-- Over a store without keys they are alike and not the same: only one of them has a cursor. -/
example : (unpositioned.seekFirst Store.empty).cursor = none ∧
    (unpositioned.seek Store.empty []).cursor = some (⟨.atLeast [], true⟩ : RangeCursor) := ⟨rfl, rfl⟩

end OrderedStore.Scan
