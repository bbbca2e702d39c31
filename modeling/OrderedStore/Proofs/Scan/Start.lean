import OrderedStore.Proofs.Scan.Sweep
import OrderedStore.Store

/-!
# How a scan starts

* `Store.cursorAt` : the cursor that the map under a store gives for a target;
* `Scan.seekTo_eq` : a scan that gets its cursor takes the first step with it; one that gets none is
  at its end, whatever the fault was;
* `Scan.TellsStart` : what a caller needs to tell a start that failed from a store without keys;
* `Scan.tellsStart_seekFirst_iff` : a scan tells of no other failed start than that of a store
  without keys;
* `Scripted` : a map that holds nothing and whose cursors give the answers of a script, one at each
  step. Nothing in the contract of a map forbids a cursor to fail and then to go on, or to find
  entries beyond the end.
-/

namespace OrderedStore

/-- A map that holds nothing, and answers its scans as a script says. -/
structure Scripted where
  /-- Whether there is a first entry to start from. -/
  first : Except Fault Unit
  /-- What a cursor finds, step by step. -/
  script : List (Except Fault Step)

/-- A cursor is what is left of the script, so a step is seen in it. Giving it up is of no
effect. -/
instance : Backing Scripted where
  Cursor := List (Except Fault Step)
  insert _ _ := pure ()
  delete _ := pure ()
  get? _ _ := none
  seek map _ := .ok map.script
  seekFirst map := map.first.map fun _ => map.script
  size _ := 0
  next _ cursor := (cursor.head?.getD (.ok .exhausted), cursor.tail)
  close cursor := cursor

/-! ## The first step -/

variable {M : Type} [Backing M]

/-- What the map under a store answers to a seek. -/
def Store.cursorAt (store : Store M) : Scan.Target → Except Fault (Backing.Cursor M)
  | .key start => Backing.seek store.map start
  | .first => Backing.seekFirst store.map

namespace Scan

/-- A seek is its first step, or the end where there is no cursor to take that step with. -/
theorem seekTo_eq (scan : Scan M) (store : Store M) (target : Target) :
    scan.seekTo store target = match store.cursorAt target with
      | .ok cursor =>
        ⟨some (Backing.next store.map cursor).2, .ofStep (Backing.next store.map cursor).1⟩
      | .error _ => ⟨none, .exhausted⟩ := by
  cases target with
  | key start =>
    rw [seekTo, seek, Store.cursorAt]
    cases Backing.seek store.map start <;> rfl
  | first =>
    rw [seekTo, seekFirst, Store.cursorAt]
    cases Backing.seekFirst store.map with
    | ok cursor => rfl
    | error fault =>
      -- the fault is noted down, and the step that follows passes over it
      cases fault <;> rfl

theorem seekTo_of_error {store : Store M} {target : Target} {fault : Fault}
    (h : store.cursorAt target = .error fault) (scan : Scan M) :
    scan.seekTo store target = ⟨none, .exhausted⟩ := by
  rw [seekTo_eq, h]

/-! ## A start that fails -/

/-- The scan shows the fault of its start, and gives it when it is drained; that there are no keys
is no fault, but the end. -/
def TellsStart (scan : Scan M) (store : Store M) : Fault → Prop
  | .emptyMap => scan.position = .exhausted ∧ scan.fault? = none ∧ (scan.drain store).1 = .entries []
  | fault => scan.isValid = false ∧ scan.fault? = some fault ∧ (scan.drain store).1 = .failed fault

/-- No failed start is told but that of a store without keys: whatever the fault, the scan is at its
end, shows no fault, and drains to no entries. -/
theorem tellsStart_seekFirst_iff {store : Store M} {fault : Fault}
    (h : Backing.seekFirst store.map = .error fault) (scan : Scan M) :
    let started := scan.seekFirst store
    (started.TellsStart store fault ↔ fault = .emptyMap) ∧ started.isValid = false ∧
      started.position = .exhausted ∧ started.fault? = none ∧ (started.drain store).1 = .entries [] := by
  intro started
  have hcursor : store.cursorAt .first = .error fault := h
  have hstarted : started = ⟨none, .exhausted⟩ := seekTo_of_error hcursor scan
  rw [hstarted]
  have hdrain : (drain ⟨none, .exhausted⟩ store).1 = .entries [] := by rw [drain_of_exhausted rfl]
  refine ⟨?_, rfl, rfl, rfl, hdrain⟩
  cases fault with
  | emptyMap => exact ⟨fun _ => rfl, fun _ => ⟨rfl, rfl, hdrain⟩⟩
  | _ => simp [TellsStart, fault?]

theorem tellsStart_seekFirst_iff_no_keys :
    Backing.seekFirst Store.empty.map = .error .emptyMap ∧
      (unpositioned.seekFirst Store.empty).TellsStart Store.empty .emptyMap :=
  ⟨rfl, (tellsStart_seekFirst_iff rfl unpositioned).1.2 rfl⟩

/-- A map refuses to start a scan, and the scan reads as one over a store without keys. -/
theorem start_refused_untold :
    let refusal := Fault.mapFailure "disk gone"
    let store : Store Scripted := ⟨⟨.error refusal, [.ok (.entry [1] [10])]⟩⟩
    Backing.seekFirst store.map = .error refusal ∧ (unpositioned.seekFirst store).fault? = none ∧
      ((unpositioned.seekFirst store).drain store).1 = .entries [] ∧
      ¬ (unpositioned.seekFirst store).TellsStart store refusal := by
  intro refusal store
  have hdrain : ((unpositioned.seekFirst store).drain store).1 = .entries [] := by
    rw [drain_of_exhausted rfl]
  refine ⟨rfl, rfl, hdrain, fun h => ?_⟩
  cases h.2.1

end Scan
end OrderedStore
