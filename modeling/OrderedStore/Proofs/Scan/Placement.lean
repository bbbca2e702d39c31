import OrderedStore.Proofs.Scan.Alike
import OrderedStore.Proofs.Scan.Listing

/-!
# Where the cursor of a scan is left

* `Scan.Operation`, `Used.run` : a run in which the store is written to and the scan is sent to
  targets, stepped, closed and drained. A drain is made to its end here, and its steps are not turns
  of the run;
* `Scan.settled_drain` : a drain comes back with entries, and leaves the scan settled;
* `Used.Sound` : what holds between two operations. `Used.Sound.operate` : each operation restores
  it, and so does a run (`Used.Sound.run`);
* `Scan.cursor_tracks_position` : so the position of a scan tells where its cursor is.
-/

namespace OrderedStore.Scan

variable {M : Type} [Backing M]

/-! ## Runs -/

/-- An operation in a run: the scan is sent to a target, or it is used, or the store is written
to. -/
inductive Operation where
  | seek (target : Target)
  | use (u : Use)

def operate (scan : Scan M) (store : Store M) : Operation → Used M
  | .seek target => { store, scan := scan.seekTo store target }
  | .use u => scan.use store u

namespace Used

def opened (store : Store M) (start : Bytes) : Used M := { store, scan := store.scan start }

/-- The store and the scan after a run, and what the last operation gave if it was a drain. -/
def run (used : Used M) (operations : List Operation) : Used M :=
  operations.foldl (fun used operation => used.scan.operate used.store operation) used

end Used

/-! ## What every operation restores -/

theorem settled_drain {scan : Scan ByteMap} (h : scan.Settled) (store : Store ByteMap) :
    (scan.drain store).2.Settled ∧ ∃ rows, (scan.drain store).1 = .entries rows := by
  obtain ⟨limit, last, -, hwithin⟩ := drainWithin_of_settled h store
  have hlast : (drainWithin store limit scan).2.Settled :=
    drainWithin_keeps (P := Settled) (fun _ hsettled => settled_next hsettled store) limit h
  rw [hwithin] at hlast
  rw [drain_of_drainWithin hwithin (by simp)]
  exact ⟨hlast, _, rfl⟩

/-- Between two operations the scan is settled, and if it was drained, that gave entries. -/
structure Used.Sound (used : Used ByteMap) : Prop where
  settled : used.scan.Settled
  drained : ∀ drained, used.drained? = some drained → ∃ rows, drained = .entries rows

theorem Used.Sound.operate {used : Used ByteMap} (h : used.Sound) (operation : Operation) :
    (used.scan.operate used.store operation).Sound := by
  have hnone : ∀ drained, (none : Option Drained) = some drained → ∃ rows, drained = .entries rows := by
    intro drained hdrained
    cases hdrained
  cases operation with
  | seek target => exact ⟨settled_seekTo used.scan used.store target, hnone⟩
  | use u =>
    cases u with
    | write mutation => exact ⟨h.settled, hnone⟩
    | next => exact ⟨settled_next h.settled used.store, hnone⟩
    | close => exact ⟨settled_close used.scan, hnone⟩
    | drain =>
      obtain ⟨hlast, hrows⟩ := settled_drain h.settled used.store
      refine ⟨hlast, fun drained hdrained => ?_⟩
      rwa [← Option.some.inj hdrained]

theorem Used.Sound.run {used : Used ByteMap} (h : used.Sound) (operations : List Operation) :
    (used.run operations).Sound := by
  induction operations generalizing used with
  | nil => exact h
  | cons operation operations ih => exact ih (h.operate operation)

theorem Used.sound_opened (store : Store ByteMap) (start : Bytes) : (Used.opened store start).Sound :=
  ⟨settled_seekTo unpositioned store (.key start), fun drained hdrained => by cases hdrained⟩

/-! ## Position and cursor -/

namespace Settled

variable {scan : Scan ByteMap} (h : scan.Settled)

include h

theorem position_ne_unread : scan.position ≠ .unread := by
  cases h <;> simp

theorem position_ne_failed (fault : Fault) : scan.position ≠ .failed fault := by
  cases h <;> simp

theorem fault?_eq_none : scan.fault? = none := by
  cases h <;> rfl

theorem cursor_of_showing {key value : Bytes} (hposition : scan.position = .showing key value) :
    scan.cursor = some ({ bound := .above key, done := false } : RangeCursor) := by
  cases h with
  | showing => cases hposition; rfl
  | ended => cases hposition

theorem cursor_of_exhausted (hposition : scan.position = .exhausted) :
    scan.cursor = none ∨ ∃ cursor : RangeCursor, scan.cursor = some cursor ∧ cursor.done = true := by
  cases h with
  | showing => cases hposition
  | ended cursor hdone =>
    cases cursor with
    | none => exact .inl rfl
    | some cursor => exact .inr ⟨cursor, rfl, hdone cursor rfl⟩

end Settled

/-- **The position of a scan tells where its cursor is** between two operations: right behind the
entry shown, or at the end, if there is one. No scan in use is at a fault. -/
theorem cursor_tracks_position (store : Store ByteMap) (start : Bytes) (operations : List Operation) :
    let used := (Used.opened store start).run operations
    (used.scan.position ≠ .unread ∧ ∀ fault, used.scan.position ≠ .failed fault) ∧
    (used.scan.fault? = none ∧ ∀ drained, used.drained? = some drained → ∃ rows, drained = .entries rows) ∧
    (∀ key value, used.scan.position = .showing key value →
      used.scan.cursor = some ({ bound := .above key, done := false } : RangeCursor)) ∧
    (used.scan.position = .exhausted →
      used.scan.cursor = none ∨ ∃ cursor : RangeCursor, used.scan.cursor = some cursor ∧ cursor.done = true) := by
  intro used
  obtain ⟨hsettled, hdrained⟩ : used.Sound := (Used.sound_opened store start).run operations
  exact ⟨⟨hsettled.position_ne_unread, hsettled.position_ne_failed⟩, ⟨hsettled.fault?_eq_none, hdrained⟩,
    fun key value => hsettled.cursor_of_showing, hsettled.cursor_of_exhausted⟩

end OrderedStore.Scan
