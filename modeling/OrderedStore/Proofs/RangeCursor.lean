import Mathlib.Data.List.Induction
import OrderedStore.Proofs.Scan.Start

/-!
# A cursor that is handed any maps

* `RangeCursor.Use`, `RangeCursor.after`, `RangeCursor.answers` : a run in which a cursor takes
  steps, each in a map of its own, and may be closed; the cursor after it, and what the steps
  answered;
* `RangeCursor.Awaits` : a key that no step has gone past yet;
* `RangeCursor.Follows` : what the cursor remembers of its run. `Follows.use` : one turn keeps it,
  so it holds after any run (`follows_after`);
* `ByteMap.first?_eq_some_iff_least` : the least entry within a bound, told by look-ups;
* `RangeCursor.finds_least_awaited` : so each step finds the least key that is still awaited, as
  long as there is one and the cursor has not come to its end.
-/

namespace OrderedStore

theorem ByteMap.first?_eq_some_iff_least {map : ByteMap} {bound : LowerBound Bytes} {key value : Bytes} :
    map.first? bound = some (key, value) ↔ bound.admits key = true ∧ map.get? key = some value ∧
      ∀ k, bound.admits k = true → (map.get? k).isSome = true → key ≤ k := by
  rw [SortedMap.first?_eq_some_iff, ← SortedMap.get?_eq_some_iff]
  constructor
  · rintro ⟨hvalue, hkey, hleast⟩
    refine ⟨hkey, hvalue, fun k hk hsome => ?_⟩
    obtain ⟨v, hv⟩ := Option.isSome_iff_exists.1 hsome
    obtain heq | hlt := hleast (k, v) (SortedMap.get?_eq_some_iff.1 hv) hk
    · cases heq
      exact List.le_refl key
    · exact List.le_of_lt hlt
  · rintro ⟨hkey, hvalue, hleast⟩
    refine ⟨hvalue, hkey, fun e he hadmits => ?_⟩
    have hget : map.get? e.1 = some e.2 := SortedMap.get?_eq_some_iff.2 he
    by_cases hlt : key < e.1
    · exact .inr hlt
    · have heq : e.1 = key := List.le_antisymm (List.not_lt.1 hlt) (hleast e.1 hadmits (by simp [hget]))
      rw [heq, hvalue, Option.some.injEq] at hget
      exact .inl (Prod.ext heq hget.symm)

namespace RangeCursor

/-! ## Runs -/

/-- What is done with a cursor: it takes a step in some map, or it is closed. -/
inductive Use where
  | step (map : ByteMap)
  | close

def answer (cursor : RangeCursor) (map : ByteMap) : Except Fault Step := (Backing.next map cursor).1

def use (cursor : RangeCursor) : Use → RangeCursor
  | .step map => (Backing.next map cursor).2
  | .close => Backing.close (M := ByteMap) cursor

def after (cursor : RangeCursor) (uses : List Use) : RangeCursor := uses.foldl use cursor

/-- What the steps of a run answer, in order. -/
def answers : RangeCursor → List Use → List (Except Fault Step)
  | _, [] => []
  | cursor, .step map :: uses => cursor.answer map :: answers (cursor.use (.step map)) uses
  | cursor, .close :: uses => answers (cursor.use .close) uses

def keysFound (given : List (Except Fault Step)) : List Bytes := given.filterMap fun
  | .ok (.entry key _) => some key
  | _ => none

theorem after_snoc (cursor : RangeCursor) (uses : List Use) (u : Use) :
    cursor.after (uses ++ [u]) = (cursor.after uses).use u := by
  simp [after]

theorem answers_append (cursor : RangeCursor) (uses uses' : List Use) :
    cursor.answers (uses ++ uses') = cursor.answers uses ++ (cursor.after uses).answers uses' := by
  induction uses generalizing cursor with
  | nil => rfl
  | cons u uses ih =>
    cases u with
    | step map => exact congrArg (cursor.answer map :: ·) (ih (cursor.use (.step map)))
    | close => exact ih (cursor.use .close)

theorem answers_of_done {cursor : RangeCursor} (h : cursor.done = true) (uses : List Use) :
    ∀ found ∈ cursor.answers uses, found = .ok .exhausted := by
  induction uses generalizing cursor with
  | nil => simp [answers]
  | cons u uses ih =>
    cases u with
    | step map =>
      rw [answers, answer, use, ByteMap.backing_next, next_of_done h, List.forall_mem_cons]
      exact ⟨rfl, ih h⟩
    | close => exact ih rfl

/-! ## What a cursor remembers -/

/-- The key is not before the target, and beyond all keys that were found. -/
def Awaits (target : Scan.Target) (given : List (Except Fault Step)) (key : Bytes) : Prop :=
  target.start ≤ key ∧ ∀ k ∈ keysFound given, k < key

theorem awaits_snoc {target : Scan.Target} {given : List (Except Fault Step)} {key value k : Bytes} :
    Awaits target (given ++ [.ok (.entry key value)]) k ↔ Awaits target given k ∧ key < k := by
  simp [Awaits, keysFound, List.filterMap_append, or_imp, forall_and, and_assoc]

/-- Whether the cursor was closed or has come to the end, and if neither, which keys it still
awaits. -/
structure Follows (target : Scan.Target) (uses : List Use) (given : List (Except Fault Step))
    (cursor : RangeCursor) : Prop where
  done_iff : cursor.done = true ↔ .close ∈ uses ∨ .ok .exhausted ∈ given
  admits_iff : cursor.done = false → ∀ key, cursor.bound.admits key = true ↔ Awaits target given key

theorem Follows.use {target : Scan.Target} {uses : List Use} {given : List (Except Fault Step)}
    {cursor : RangeCursor} (h : Follows target uses given cursor) (u : Use) :
    Follows target (uses ++ [u]) (given ++ cursor.answers [u]) (cursor.use u) := by
  cases u with
  | close =>
    constructor <;> simp [RangeCursor.use, Backing.close, RangeCursor.close]
  | step map =>
    rw [answers, answers, answer, RangeCursor.use, ByteMap.backing_next]
    cases hdone : cursor.done with
    | true =>
      rw [next_of_done hdone]
      exact ⟨by simp [hdone], by simp [hdone]⟩
    | false =>
      cases hfirst : map.first? cursor.bound with
      | none =>
        rw [next_of_first?_none hdone hfirst]
        exact ⟨by simp, by simp⟩
      | some e =>
        rw [next_of_first?_some hdone hfirst]
        -- The bound moves behind the key found, and so do the keys awaited.
        have hopen := h.done_iff
        rw [hdone] at hopen
        refine ⟨by simpa using hopen, fun _ key => ?_⟩
        have hfound : cursor.bound.admits e.1 = true := (SortedMap.first?_eq_some_iff.1 hfirst).2.1
        rw [awaits_snoc, ← h.admits_iff hdone, LowerBound.admits_above]
        exact ⟨fun hlt => ⟨LowerBound.admits_of_before hlt hfound, hlt⟩, And.right⟩

theorem eq_of_cursorAt {store : Store ByteMap} {target : Scan.Target} {cursor : RangeCursor}
    (h : store.cursorAt target = .ok cursor) : cursor = ⟨target.bound, false⟩ := by
  cases target with
  | key start => exact (Except.ok.inj h).symm
  | first =>
    change ByteMap.seekFirst store.map = .ok cursor at h
    rw [ByteMap.seekFirst] at h
    split at h
    · cases h
    · exact (Except.ok.inj h).symm

/-- After any run a cursor that was made for a target remembers this of it. -/
theorem follows_after {store : Store ByteMap} {target : Scan.Target} {cursor : RangeCursor}
    (hcursor : store.cursorAt target = .ok cursor) (uses : List Use) :
    Follows target uses (cursor.answers uses) (cursor.after uses) := by
  induction uses using List.reverseRecOn with
  | nil =>
    rw [eq_of_cursorAt hcursor]
    refine ⟨by simp [after, answers], fun _ key => ?_⟩
    simp [after, answers, Awaits, keysFound, Scan.Target.admits_bound]
  | append_singleton uses u ih =>
    rw [after_snoc, answers_append]
    exact ih.use u

/-! ## The law of the cursor -/

theorem answer_eq_entry_iff {cursor : RangeCursor} {map : ByteMap} {key value : Bytes} :
    cursor.answer map = .ok (.entry key value) ↔
      cursor.done = false ∧ map.first? cursor.bound = some (key, value) := by
  rw [answer, ByteMap.backing_next]
  cases hdone : cursor.done with
  | true => simp [next_of_done hdone]
  | false =>
    cases hfirst : map.first? cursor.bound with
    | none => simp [next_of_first?_none hdone hfirst]
    | some e => simp [next_of_first?_some hdone hfirst, Prod.ext_iff]

theorem answer_entry_or_exhausted (cursor : RangeCursor) (map : ByteMap) :
    (∃ key value, cursor.answer map = .ok (.entry key value)) ∨ cursor.answer map = .ok .exhausted := by
  rw [answer, ByteMap.backing_next]
  cases (cursor.next map).1 with
  | entry key value => exact .inl ⟨key, value, rfl⟩
  | exhausted => exact .inr rfl

section Follows

variable {target : Scan.Target} {uses : List Use} {given : List (Except Fault Step)} {cursor : RangeCursor}
  (h : Follows target uses given cursor) {map : ByteMap}

include h

theorem Follows.done_eq_false_iff : cursor.done = false ↔ .close ∉ uses ∧ .ok .exhausted ∉ given := by
  rw [← Bool.not_eq_true, h.done_iff, not_or]

/-- The entry found is the least that is awaited. -/
theorem Follows.answer_eq_entry_iff {key value : Bytes} :
    cursor.answer map = .ok (.entry key value) ↔ (.close ∉ uses ∧ .ok .exhausted ∉ given) ∧
      Awaits target given key ∧ map.get? key = some value ∧
        ∀ k, Awaits target given k → (map.get? k).isSome = true → key ≤ k := by
  rw [RangeCursor.answer_eq_entry_iff, ← h.done_eq_false_iff, and_congr_right_iff]
  intro hdone
  simp only [ByteMap.first?_eq_some_iff_least, h.admits_iff hdone]

theorem Follows.finds_iff :
    (∃ key value, cursor.answer map = .ok (.entry key value)) ↔ (.close ∉ uses ∧ .ok .exhausted ∉ given) ∧
      ∃ key, Awaits target given key ∧ (map.get? key).isSome = true := by
  constructor
  · rintro ⟨key, value, hfound⟩
    obtain ⟨hopen, hkey, hvalue, -⟩ := h.answer_eq_entry_iff.1 hfound
    exact ⟨hopen, key, hkey, by rw [hvalue]; rfl⟩
  · rintro ⟨hopen, key, hkey, hsome⟩
    have hdone : cursor.done = false := h.done_eq_false_iff.2 hopen
    obtain ⟨value, hvalue⟩ := Option.isSome_iff_exists.1 hsome
    cases hfirst : map.first? cursor.bound with
    | some e => exact ⟨e.1, e.2, RangeCursor.answer_eq_entry_iff.2 ⟨hdone, hfirst⟩⟩
    | none =>
      have hnot := SortedMap.first?_eq_none_iff.1 hfirst _ (SortedMap.get?_eq_some_iff.1 hvalue)
      rw [(h.admits_iff hdone key).2 hkey] at hnot
      cases hnot

end Follows

/-- **A cursor finds the least key still awaited**, with the value it has in the map at hand. Where
none is awaited, or after a close, it is at its end for good. -/
theorem finds_least_awaited {store : Store ByteMap} {target : Scan.Target} {cursor : RangeCursor}
    (hcursor : store.cursorAt target = .ok cursor) (uses : List Use) (map : ByteMap) :
    let given := cursor.answers uses
    let found := (cursor.after uses).answer map
    ((∃ key value, found = .ok (.entry key value)) ∨ found = .ok .exhausted) ∧
    ((∃ key value, found = .ok (.entry key value)) ↔ (.close ∉ uses ∧ .ok .exhausted ∉ given) ∧
      ∃ key, Awaits target given key ∧ (map.get? key).isSome = true) ∧
    (∀ key value, found = .ok (.entry key value) → Awaits target given key ∧ map.get? key = some value ∧
      ∀ k, Awaits target given k → (map.get? k).isSome = true → key ≤ k) ∧
    (found = .ok .exhausted →
      ∀ later, ∀ a ∈ (cursor.after (uses ++ [.step map])).answers later, a = .ok .exhausted) := by
  intro given found
  have hfollows : Follows target uses given (cursor.after uses) := follows_after hcursor uses
  refine ⟨answer_entry_or_exhausted _ map, hfollows.finds_iff,
    fun key value hfound => (hfollows.answer_eq_entry_iff.1 hfound).2, fun hfound => ?_⟩
  refine answers_of_done ((follows_after hcursor (uses ++ [.step map])).done_iff.2 (.inr ?_))
  rw [answers_append, List.mem_append]
  exact .inr (by rw [← hfound]; exact List.mem_cons_self)

/-- The second map has nothing to do with the first one, and the third holds no key beyond those found. -/
theorem finds_least_awaited_unrelated :
    let first : ByteMap := SortedMap.ofList [([2], [20]), ([5], [50])]
    let second : ByteMap := SortedMap.ofList [([1], [1]), ([3], [30]), ([9], [90])]
    let third : ByteMap := SortedMap.ofList [([3], [31])]
    let cursor : RangeCursor := ⟨.atLeast [2], false⟩
    (⟨first⟩ : Store ByteMap).cursorAt (.key [2]) = .ok cursor ∧
      (cursor.after [.step first]).answer second = .ok (.entry [3] [30]) ∧
      (∀ k, Awaits (.key [2]) [.ok (.entry [2] [20])] k → (second.get? k).isSome = true → [3] ≤ k) ∧
      (cursor.after [.step first, .step second]).answer third = .ok .exhausted ∧
      ∀ later, ∀ a ∈ (cursor.after [.step first, .step second, .step third]).answers later,
        a = .ok .exhausted := by
  intro first second third cursor
  have hcursor : (⟨first⟩ : Store ByteMap).cursorAt (.key [2]) = .ok cursor := rfl
  obtain ⟨-, -, hleast, -⟩ := finds_least_awaited hcursor [.step first] second
  obtain ⟨-, -, -, hend⟩ := finds_least_awaited hcursor [.step first, .step second] third
  exact ⟨hcursor, rfl, (hleast [3] [30] rfl).2.2, rfl, hend rfl⟩

end RangeCursor
end OrderedStore
