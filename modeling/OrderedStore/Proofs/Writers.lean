import Mathlib.Logic.Function.Basic
import OrderedStore.Proofs.Journal

/-!
# Writers that share a store

* `Mutation.IsPlain`, `Mutation.writes` : a write of one key or of a batch without merges, and what
  it writes;
* `written steps` : what a writer writes with these steps, in order;
* `Interleaving writers run` : the run takes the steps of all writers, each writer's in its own
  order;
* `Interleaving.last_write_wins` : after any such run a key has the last write of it that some
  writer made.
-/

namespace OrderedStore

/-! ## What a writer writes -/

namespace Mutation

/-- No operator is held back in it. -/
def IsPlain : Mutation → Prop
  | execute batch => batch.merges = .empty
  | set .. | delete .. => True

/-- The plain writes, in the order in which they were held back; `none` removes the key. -/
def writes : Mutation → List (Bytes × Option Bytes)
  | set key value => [(key, some value)]
  | delete key => [(key, none)]
  | execute batch => batch.writes.toList

theorem applied_of_isPlain {mutation : Mutation} (h : mutation.IsPlain) (value? : Bytes → Option Bytes) :
    mutation.applied value? = mutation.writes := by
  cases mutation with
  | set key value => rfl
  | delete key => rfl
  | execute batch =>
    have hmerges : batch.merges = .empty := h
    rw [applied, hmerges]
    rfl

end Mutation

/-- What a writer writes with these steps, in order. -/
def written (steps : List Mutation) : List (Bytes × Option Bytes) := steps.flatMap Mutation.writes

theorem lastWrite?_written_cons (mutation : Mutation) (steps : List Mutation) (key : Bytes) :
    WriteBatch.lastWrite? (written (mutation :: steps)) key =
      (WriteBatch.lastWrite? (written steps) key).or (WriteBatch.lastWrite? mutation.writes key) :=
  WriteBatch.lastWrite?_append mutation.writes (written steps) key

/-! ## Runs of several writers -/

/-- At each turn some writer takes its next step, until none has any. -/
inductive Interleaving {ι : Type} [DecidableEq ι] : (ι → List Mutation) → List Mutation → Prop
  | done {writers : ι → List Mutation} (h : ∀ i, writers i = []) : Interleaving writers []
  | step {writers : ι → List Mutation} {i : ι} {mutation : Mutation} {steps run : List Mutation}
      (hnext : writers i = mutation :: steps) (hrun : Interleaving (Function.update writers i steps) run) :
      Interleaving writers (mutation :: run)

namespace Interleaving

variable {ι : Type} [DecidableEq ι] {writers : ι → List Mutation} {run : List Mutation}

/-- The last writer of a key in a run is at its own last write of the key, since the run holds all
that it writes. -/
theorem lastWrite?_or_untouched (h : Interleaving writers run) (hplain : ∀ i, ∀ step ∈ writers i, step.IsPlain)
    (store : Store ByteMap) (key : Bytes) :
    (∃ i, WriteBatch.lastWrite? (written (writers i)) key = some ((store.mutate run).get? key)) ∨
    (∀ i, WriteBatch.lastWrite? (written (writers i)) key = none) ∧
      (store.mutate run).get? key = store.get? key := by
  induction h generalizing store with
  | done h => exact .inr ⟨fun i => by rw [h i]; rfl, rfl⟩
  | @step writers i mutation steps run hnext hrun ih =>
    have hmutation : mutation.IsPlain := hplain i mutation (by simp [hnext])
    have hrest : ∀ j, ∀ step ∈ Function.update writers i steps j, step.IsPlain := fun j step hstep => by
      by_cases hj : j = i
      · subst hj
        rw [Function.update_self] at hstep
        exact hplain j step (by simp [hnext, hstep])
      · rw [Function.update_of_ne hj] at hstep
        exact hplain j step hstep
    have hvalue := Mutation.get?_apply store mutation key
    rw [Mutation.applied_of_isPlain hmutation] at hvalue
    change (∃ _, _ = some (((mutation.apply store).mutate run).get? key)) ∨
      _ ∧ ((mutation.apply store).mutate run).get? key = _
    obtain ⟨j, hlater⟩ | ⟨hnone, hsame⟩ := ih hrest (mutation.apply store)
    · -- a later step of writer `j` has the say
      refine .inl ⟨j, ?_⟩
      by_cases hj : j = i
      · subst hj
        rw [Function.update_self] at hlater
        rw [hnext, lastWrite?_written_cons, hlater, Option.some_or]
      · rwa [Function.update_of_ne hj] at hlater
    · have hsteps : WriteBatch.lastWrite? (written steps) key = none := by
        have := hnone i
        rwa [Function.update_self] at this
      rw [hsame, hvalue]
      cases hlast : WriteBatch.lastWrite? mutation.writes key with
      | some value? =>
        -- no writer writes the key after this step, so it is the last one of writer `i` as well
        refine .inl ⟨i, ?_⟩
        rw [hnext, lastWrite?_written_cons, hsteps, hlast, Option.none_or, Option.getD_some]
      | none =>
        refine .inr ⟨fun j => ?_, rfl⟩
        by_cases hj : j = i
        · subst hj
          rw [hnext, lastWrite?_written_cons, hsteps, hlast, Option.none_or]
        · have := hnone j
          rwa [Function.update_of_ne hj] at this

/-- **Writers converge to a last write of one of them**, in any interleaving of their steps, and
leave all other keys as they were at first. -/
theorem last_write_wins (h : Interleaving writers run) (hplain : ∀ i, ∀ step ∈ writers i, step.IsPlain)
    (store : Store ByteMap) (key : Bytes) :
    ((∃ i, key ∈ (written (writers i)).map (·.1)) →
      ∃ i value?, WriteBatch.lastWrite? (written (writers i)) key = some value? ∧
        (store.mutate run).get? key = value?) ∧
    ((∀ i, key ∉ (written (writers i)).map (·.1)) → (store.mutate run).get? key = store.get? key) := by
  constructor
  · rintro ⟨j, hj⟩
    obtain ⟨i, hlast⟩ | ⟨hnone, -⟩ := h.lastWrite?_or_untouched hplain store key
    · exact ⟨i, _, hlast, rfl⟩
    · exact absurd hj (WriteBatch.lastWrite?_eq_none_iff.1 (hnone j))
  · intro hkey
    obtain ⟨i, hlast⟩ | ⟨-, hsame⟩ := h.lastWrite?_or_untouched hplain store key
    · rw [WriteBatch.lastWrite?_eq_none_iff.2 (hkey i)] at hlast
      cases hlast
    · exact hsame

/-- The second writer is done before the batch of the first one, which writes key `1` twice, is
executed. -/
theorem last_write_wins_batch :
    let batch := WriteBatch.ofCalls [.set [2] [20], .delete [1], .set [1] [11]]
    let writers : Bool → List Mutation
      | true => [.set [1] [10], .execute batch]
      | false => [.delete [2], .set [1] [12]]
    let run : List Mutation := [.delete [2], .set [1] [10], .set [1] [12], .execute batch]
    let store : Store ByteMap := ⟨SortedMap.ofList [([2], [2]), ([3], [3])]⟩
    Interleaving writers run ∧
      (∃ i value?, WriteBatch.lastWrite? (written (writers i)) [1] = some value? ∧
        (store.mutate run).get? [1] = value?) ∧
      (store.mutate run).get? [3] = some [3] := by
  intro batch writers run store
  have hrun : Interleaving writers run := .step (i := false) rfl <| .step (i := true) rfl <|
    .step (i := false) rfl <| .step (i := true) rfl <| .done fun i => by cases i <;> rfl
  have hplain : ∀ i, ∀ step ∈ writers i, step.IsPlain := by
    have htrue : ∀ step ∈ writers true, step.IsPlain := by simp [writers, Mutation.IsPlain]; rfl
    have hfalse : ∀ step ∈ writers false, step.IsPlain := by simp [writers, Mutation.IsPlain]
    exact fun i => i.casesOn hfalse htrue
  have hlast := hrun.last_write_wins hplain store
  exact ⟨hrun, (hlast [1]).1 ⟨true, by decide⟩, (hlast [3]).2 fun i => by cases i <;> decide⟩

end Interleaving
end OrderedStore
