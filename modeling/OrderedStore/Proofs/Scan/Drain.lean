import Mathlib.Logic.Function.Iterate
import OrderedStore.Proofs.Scan.Session

/-!
# Draining a scan, step by step

* `Scan.afterSteps` : the scan after so many steps, in one state of the store;
* `Scan.StepFails` : the next step of the scan asks its cursor, and the cursor fails.
  `Scan.position_next_eq_failed_iff` : this is the only way in which a step comes to a fault;
* `Scan.drain_of_exhausted_after`, `Scan.drain_of_failed_after` : a drain ends at the first step
  after which no entry is shown, and gives the entries shown before it, or the fault met there;
* `Scan.drain_hides_no_fault` : so a drain gives a fault wherever the steps meet one, and no part of
  a list then.
-/

namespace OrderedStore.Scan

variable {M : Type} [Backing M]

/-! ## Steps without writes between them -/

def afterSteps (scan : Scan M) (store : Store M) (n : Nat) : Scan M := (fun scan => scan.next store)^[n] scan

@[simp] theorem afterSteps_zero (scan : Scan M) (store : Store M) : scan.afterSteps store 0 = scan := rfl

theorem afterSteps_next (scan : Scan M) (store : Store M) (n : Nat) :
    (scan.next store).afterSteps store n = scan.afterSteps store (n + 1) :=
  (Function.iterate_succ_apply _ n scan).symm

theorem afterSteps_succ (scan : Scan M) (store : Store M) (n : Nat) :
    scan.afterSteps store (n + 1) = (scan.afterSteps store n).next store :=
  Function.iterate_succ_apply' _ n scan

/-- The next step asks the cursor, and the cursor fails. -/
def StepFails (scan : Scan M) (store : Store M) (fault : Fault) : Prop :=
  scan.position.isTerminal = false ∧
    ∃ cursor, scan.cursor = some cursor ∧ (Backing.next store.map cursor).1 = .error fault

theorem ofStep_eq_failed_iff {found : Except Fault Step} {fault : Fault} :
    Position.ofStep found = .failed fault ↔ found = .error fault := by
  rcases found with _ | _ | _ <;> simp [Position.ofStep]

theorem position_next_eq_failed_iff {scan : Scan M} {store : Store M} {fault : Fault} :
    (scan.next store).position = .failed fault ↔ scan.StepFails store fault := by
  rw [StepFails, next]
  cases scan.position.isTerminal with
  | true => simp
  | false =>
    cases scan.cursor with
    | none => simp
    | some cursor => simp [ofStep_eq_failed_iff]

/-- The entries shown before each of so many steps. -/
def shownBefore (scan : Scan M) (store : Store M) (n : Nat) : List (Bytes × Bytes) :=
  (List.range n).filterMap fun i => (scan.afterSteps store i).current?

theorem shownBefore_succ {scan : Scan M} {key value : Bytes} (h : scan.position = .showing key value)
    (store : Store M) (n : Nat) :
    scan.shownBefore store (n + 1) = (key, value) :: (scan.next store).shownBefore store n := by
  have hcurrent : (scan.afterSteps store 0).current? = some (key, value) := by simp [current?, h]
  rw [shownBefore, List.range_succ_eq_map, List.filterMap_cons, hcurrent, List.filterMap_map]
  rfl

theorem showing_of_isValid {scan : Scan M} (h : scan.isValid = true) :
    ∃ key value, scan.position = .showing key value := by
  cases hposition : scan.position with
  | showing key value => exact ⟨key, value, rfl⟩
  | _ => simp [isValid, current?, hposition] at h

/-! ## Draining -/

theorem Drained.after_nil (drained : Drained) : drained.after [] = drained := by cases drained <;> rfl

theorem Drained.after_after (drained : Drained) (a b : List (Bytes × Bytes)) :
    (drained.after b).after a = drained.after (a ++ b) := by
  cases drained <;> simp [Drained.after]

theorem drainWithin_of_shows {store : Store M} {n : Nat} {scan : Scan M}
    (hshows : ∀ i < n, (scan.afterSteps store i).isValid = true) :
    drainWithin store n scan =
      ((drainWithin store 0 (scan.afterSteps store n)).1.after (scan.shownBefore store n),
        scan.afterSteps store n) := by
  induction n generalizing scan with
  | zero => exact Prod.ext (Drained.after_nil _).symm (drainWithin_zero_scan store scan)
  | succ n ih =>
    obtain ⟨key, value, hposition⟩ : ∃ key value, scan.position = .showing key value :=
      showing_of_isValid (hshows 0 (Nat.succ_pos n))
    have hnext : ∀ i < n, ((scan.next store).afterSteps store i).isValid = true := fun i hi => by
      rw [afterSteps_next]
      exact hshows (i + 1) (Nat.succ_lt_succ hi)
    rw [drainWithin_succ_of_showing hposition, ih hnext, afterSteps_next, Drained.after_after,
      shownBefore_succ hposition]
    rfl

section FirstSilent

variable {store : Store M} {scan : Scan M} {n : Nat} (hshows : ∀ i < n, (scan.afterSteps store i).isValid = true)

include hshows

theorem drainEnds_of_silent_after (hsilent : (scan.afterSteps store n).isValid = false) : scan.DrainEnds store := by
  refine ⟨n, ?_⟩
  rw [drainWithin_of_shows hshows, drainWithin, drainFrom]
  cases hposition : (scan.afterSteps store n).position with
  | showing key value => simp [isValid, current?, hposition] at hsilent
  | _ => simp [Drained.after]

theorem drain_of_exhausted_after (hend : (scan.afterSteps store n).position = .exhausted) :
    scan.drain store = (.entries (scan.shownBefore store n), scan.afterSteps store n) := by
  have hwithin : drainWithin store n scan =
      (.entries (scan.shownBefore store n), scan.afterSteps store n) := by
    rw [drainWithin_of_shows hshows, drainWithin, drainFrom, hend]
    simp [Drained.after]
  exact drain_of_drainWithin hwithin (by simp)

theorem drain_of_failed_after {fault : Fault} (hend : (scan.afterSteps store n).position = .failed fault) :
    scan.drain store = (.failed fault, scan.afterSteps store n) := by
  have hwithin : drainWithin store n scan = (.failed fault, scan.afterSteps store n) := by
    rw [drainWithin_of_shows hshows, drainWithin, drainFrom, hend]
    rfl
  exact drain_of_drainWithin hwithin (by simp)

end FirstSilent

theorem position_afterSteps_ne_unread {scan : Scan M} (hread : scan.position ≠ .unread) (store : Store M)
    (n : Nat) : (scan.afterSteps store n).position ≠ .unread := by
  cases n with
  | zero => exact hread
  | succ n =>
    rw [afterSteps_succ]
    exact position_next_ne_unread _ store

/-- **A drain never hides a fault behind a part of the list**: it gives all entries shown before the
first silent step, or the fault of that step, and then the same fault again. -/
theorem drain_hides_no_fault (store : Store M) (start : Bytes) (turns : List (Turn M)) (n : Nat) :
    let s := (Session.opened store start).run turns
    let stood (i : Nat) : Scan M := s.scan.afterSteps s.store i
    (∀ i < n, (stood i).isValid = true) → (stood n).isValid = false →
      s.scan.DrainEnds s.store ∧
      ((∀ fault, s.scan.position ≠ .failed fault) →
        (∀ i < n, ∀ fault, ¬ (stood i).StepFails s.store fault) →
        s.scan.drain s.store = (.entries (s.scan.shownBefore s.store n), stood n) ∧
          (stood n).position = .exhausted ∧ (stood n).fault? = none) ∧
      ∀ fault, (s.scan.position = .failed fault ∨ ∃ i, n = i + 1 ∧ (stood i).StepFails s.store fault) →
        s.scan.drain s.store = (.failed fault, stood n) ∧
          (stood n).fault? = some fault ∧ (stood n).isValid = false ∧
          ∀ store', (stood n).drain store' = (.failed fault, stood n) := by
  intro s stood hshows hsilent
  have hread : (stood n).position ≠ .unread :=
    position_afterSteps_ne_unread (Session.position_run_ne_unread store start turns) s.store n
  refine ⟨drainEnds_of_silent_after hshows hsilent, fun hsound hsteps => ?_, fun fault hfails => ?_⟩
  · have hend : (stood n).position = .exhausted := by
      cases hposition : (stood n).position with
      | unread => exact absurd hposition hread
      | showing key value => simp [isValid, current?, hposition] at hsilent
      | exhausted => rfl
      | failed fault =>
        -- It stood there from the start, or came there with its last step.
        cases n with
        | zero => exact absurd hposition (hsound fault)
        | succ i =>
          rw [show stood (i + 1) = (stood i).next s.store from afterSteps_succ s.scan s.store i,
            position_next_eq_failed_iff] at hposition
          exact absurd hposition (hsteps i (Nat.lt_succ_self i) fault)
    exact ⟨drain_of_exhausted_after hshows hend, hend, by rw [fault?, hend]⟩
  · have hend : (stood n).position = .failed fault := by
      obtain hfailed | ⟨i, rfl, hstep⟩ := hfails
      · cases n with
        | zero => exact hfailed
        | succ i =>
          have := hshows 0 (Nat.succ_pos i)
          simp [stood, isValid, current?, hfailed] at this
      · rw [← position_next_eq_failed_iff, ← afterSteps_succ] at hstep
        exact hstep
    exact ⟨drain_of_failed_after hshows hend, by rw [fault?, hend], hsilent, drain_of_failed hend⟩

/-- A cursor claims at its third step that there are no keys, and would go on; another one comes to
its end there. -/
theorem drain_hides_no_fault_scripted :
    let shown : List (Except Fault Step) := [.ok (.entry [1] [10]), .ok (.entry [2] [20])]
    let faulty : Store Scripted := ⟨⟨.ok (), shown ++ [.error .emptyMap, .ok (.entry [3] [30])]⟩⟩
    let sound : Store Scripted := ⟨⟨.ok (), shown ++ [.ok .exhausted, .error .emptyMap]⟩⟩
    ((faulty.scan []).afterSteps faulty 1).StepFails faulty .emptyMap ∧
      ((faulty.scan []).drain faulty).1 = .failed .emptyMap ∧
      ((sound.scan []).drain sound).1 = .entries [([1], [10]), ([2], [20])] := by
  intro shown faulty sound
  have hfails : ((faulty.scan []).afterSteps faulty 1).StepFails faulty .emptyMap := ⟨rfl, _, rfl, rfl⟩
  have hfaulty := (drain_hides_no_fault faulty [] [] 2 (by decide) rfl).2.2 .emptyMap (.inr ⟨1, rfl, hfails⟩)
  have hsteps : ∀ i < 2, ∀ fault, ¬ ((sound.scan []).afterSteps sound i).StepFails sound fault := by
    intro i hi fault hstep
    rw [← position_next_eq_failed_iff] at hstep
    match i, hi with
    | 0, _ | 1, _ => cases hstep
  have hsound := (drain_hides_no_fault sound [] [] 2 (by decide) rfl).2.1 (fun fault h => by cases h) hsteps
  exact ⟨hfails, congrArg Prod.fst hfaulty.1, congrArg Prod.fst hsound.1⟩

end OrderedStore.Scan
