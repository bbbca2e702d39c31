import Mathlib.Data.List.DropRight
import Mathlib.Logic.Function.Basic
import OrderedStore.Proofs.Action
import OrderedStore.Proofs.Batch.Calls

/-!
# What a batch holds back in a run

* `WriteBatch.Turn`, `WriteBatch.Session`, `Session.run` : a store of any kind and any number of
  batches for it, and runs in which calls are made on the batches and the store changes in any other
  way;
* `held b turns` : the calls that a batch was given since it was last executed or closed, each with
  the number of its turn. They are read off the turns alone;
* `Session.batch_run` : the batch is what these calls, on a batch that held nothing, would make of
  it;
* `mem_held_iff` : a call is among them from its turn on, until the batch is drained;
* `TakesPart b turns n q` : the call of turn `n` is among those that the batch holds when it is
  executed in turn `q`;
* `holds_calls_since_drain` : so a batch holds these calls and no others, and each of them is
  executed once at most.
-/

namespace OrderedStore.WriteBatch

variable {M ι : Type} [DecidableEq ι]

/-! ## Runs -/

/-- A turn in a run: a call is made on one of the batches, or the store changes. -/
inductive Turn (M ι : Type) where
  | hold (b : ι) (call : Call)
  | execute (b : ι)
  | close (b : ι)
  /-- Other callers leave the store in another state: by a `Mutation`, by many, or in any other way. -/
  | change (write : Store M → Store M)

namespace Turn

/-- Afterwards the batch holds nothing. -/
def drains (b : ι) : Turn M ι → Bool
  | execute b' | close b' => b = b'
  | hold .. | change _ => false

def call? (b : ι) : Turn M ι → Option Call
  | hold b' call => if b = b' then some call else none
  | _ => none

end Turn

structure Session (M ι : Type) where
  store : Store M
  batches : ι → WriteBatch

namespace Session

variable [Backing M]

/-- A batch is first had from a store, with nothing held back. -/
def opened (store : Store M) : Session M ι := ⟨store, fun _ => store.newBatch⟩

def turn (s : Session M ι) : Turn M ι → Session M ι
  | .hold b call => { s with batches := Function.update s.batches b ((s.batches b).hold call) }
  | .execute b =>
    let after := Action.after (WriteBatch.execute (s.batches b, s.store))
    ⟨after.2, Function.update s.batches b after.1⟩
  | .close b => { s with batches := Function.update s.batches b (s.batches b).close }
  | .change write => { s with store := write s.store }

def run (s : Session M ι) (turns : List (Turn M ι)) : Session M ι := turns.foldl turn s

theorem run_snoc (s : Session M ι) (turns : List (Turn M ι)) (t : Turn M ι) :
    s.run (turns ++ [t]) = (s.run turns).turn t := by
  simp [run]

end Session

theorem batch_after_execute [Backing M] (batch : WriteBatch) (store : Store M) :
    (Action.after (execute (batch, store))).1 = .empty := by
  rw [execute]
  cases Store.onMap batch.commit store <;> rfl

theorem Session.batch_turn [Backing M] (s : Session M ι) (t : Turn M ι) (b : ι) :
    (s.turn t).batches b =
      if t.drains b then .empty else (t.call? b).elim (s.batches b) (s.batches b).hold := by
  cases t with
  | hold b' call => by_cases hb : b = b' <;> simp [turn, Turn.drains, Turn.call?, hb]
  | execute b' => by_cases hb : b = b' <;> simp [turn, Turn.drains, Turn.call?, batch_after_execute, hb]
  | close b' => by_cases hb : b = b' <;> simp [turn, Turn.drains, Turn.call?, WriteBatch.close, hb]
  | change write => rfl

/-! ## The calls since the last drain -/

/-- The calls that the batch was given since it was last executed or closed, each with the number of
its turn. -/
def held (b : ι) (turns : List (Turn M ι)) : List (Call × Nat) :=
  (turns.zipIdx.rtakeWhile fun t => !t.1.drains b).filterMap fun t => (t.1.call? b).map (·, t.2)

def heldCalls (b : ι) (turns : List (Turn M ι)) : List Call := (held b turns).map (·.1)

theorem held_snoc (b : ι) (turns : List (Turn M ι)) (t : Turn M ι) :
    held b (turns ++ [t]) =
      if t.drains b then [] else held b turns ++ ((t.call? b).map (·, turns.length)).toList := by
  rw [held, List.zipIdx_append, List.zipIdx_singleton, Nat.zero_add]
  cases hdrains : t.drains b with
  | true => rw [List.rtakeWhile_concat_neg _ _ _ (by simp [hdrains]), if_pos rfl, List.filterMap_nil]
  | false =>
    rw [List.rtakeWhile_concat_pos _ _ _ (by simp [hdrains]), List.filterMap_append, if_neg Bool.false_ne_true, held]
    cases hcall : t.call? b <;> simp [hcall]

theorem heldCalls_snoc (b : ι) (turns : List (Turn M ι)) (t : Turn M ι) :
    heldCalls b (turns ++ [t]) = if t.drains b then [] else heldCalls b turns ++ (t.call? b).toList := by
  rw [heldCalls, held_snoc]
  split
  · rfl
  · rw [List.map_append, heldCalls]
    cases t.call? b <;> simp

/-- A batch is what the calls since its last drain make of it. -/
theorem Session.batch_run [Backing M] (store : Store M) (turns : List (Turn M ι)) (b : ι) :
    ((opened store).run turns).batches b = ofCalls (heldCalls b turns) := by
  induction turns using List.reverseRecOn with
  | nil => rfl
  | append_singleton turns t ih =>
    rw [run_snoc, batch_turn, heldCalls_snoc, ih]
    split
    · rfl
    · cases t.call? b with
      | none => simp
      | some call => exact (ofCalls_snoc _ call).symm

/-! ## Who takes part in an execution -/

theorem Turn.call?_eq_some_iff {b : ι} {t : Turn M ι} {call : Call} :
    t.call? b = some call ↔ t = .hold b call := by
  cases t with
  | hold b' call' => grind [call?]
  | _ => simp [call?]

theorem getElem?_snoc_eq_some_iff {α : Type} {l : List α} {a x : α} {n : Nat} :
    (l ++ [a])[n]? = some x ↔ l[n]? = some x ∨ n = l.length ∧ a = x := by
  rw [List.getElem?_append]
  split
  · next hlt => simp [Nat.ne_of_lt hlt]
  · next hge =>
    rw [List.getElem?_eq_none (Nat.le_of_not_lt hge), List.getElem?_singleton]
    have hlast : n - l.length = 0 ↔ n = l.length := by omega
    simp [hlast]

theorem mem_held_snoc {b : ι} {turns : List (Turn M ι)} {t : Turn M ι} {call : Call} {n : Nat} :
    (call, n) ∈ held b (turns ++ [t]) ↔
      t.drains b = false ∧ ((call, n) ∈ held b turns ∨ n = turns.length ∧ t = .hold b call) := by
  rw [held_snoc, ← Turn.call?_eq_some_iff]
  cases t.drains b with
  | true => simp
  | false => simp [eq_comm, and_comm]

theorem mem_held_iff {b : ι} {turns : List (Turn M ι)} {call : Call} {n : Nat} :
    (call, n) ∈ held b turns ↔
      turns[n]? = some (.hold b call) ∧ ∀ m t, n < m → turns[m]? = some t → t.drains b = false := by
  induction turns using List.reverseRecOn with
  | nil => simp [held]
  | append_singleton turns t ih =>
    have hlt : ∀ {m : Nat} {u : Turn M ι}, turns[m]? = some u → m < turns.length := fun hu =>
      (List.getElem?_eq_some_iff.1 hu).1
    simp only [mem_held_snoc, ih, getElem?_snoc_eq_some_iff]
    constructor
    · rintro ⟨hdrains, ⟨hcall, hrest⟩ | ⟨rfl, rfl⟩⟩
      · refine ⟨.inl hcall, ?_⟩
        rintro m u hm (hu | ⟨-, rfl⟩)
        · exact hrest m u hm hu
        · exact hdrains
      · refine ⟨.inr ⟨rfl, rfl⟩, ?_⟩
        rintro m u hm (hu | ⟨-, rfl⟩)
        · exact absurd (hlt hu) (by omega)
        · exact hdrains
    · rintro ⟨hcall | ⟨rfl, rfl⟩, hrest⟩
      · have hdrains := hrest turns.length t (hlt hcall) (.inr ⟨rfl, rfl⟩)
        exact ⟨hdrains, .inl ⟨hcall, fun m u hm hu => hrest m u hm (.inl hu)⟩⟩
      · exact ⟨rfl, .inr ⟨rfl, rfl⟩⟩

/-- The call of turn `n` is held back before turn `q`. -/
def HeldAt (b : ι) (turns : List (Turn M ι)) (n q : Nat) : Prop := ∃ call, (call, n) ∈ held b (turns.take q)

/-- The call of turn `n` is among those that are executed in turn `q`. -/
def TakesPart (b : ι) (turns : List (Turn M ι)) (n q : Nat) : Prop :=
  turns[q]? = some (.execute b) ∧ HeldAt b turns n q

theorem HeldAt.not_drains {b : ι} {turns : List (Turn M ι)} {n q m : Nat} (h : HeldAt b turns n q) (hn : n < m)
    (hm : m < q) {t : Turn M ι} (ht : turns[m]? = some t) : t.drains b = false := by
  obtain ⟨call, hmem⟩ := h
  exact (mem_held_iff.1 hmem).2 m t hn (by rw [List.getElem?_take_of_lt hm, ht])

theorem HeldAt.lt {b : ι} {turns : List (Turn M ι)} {n q : Nat} (h : HeldAt b turns n q) : n < q := by
  obtain ⟨call, hmem⟩ := h
  obtain ⟨hn, -⟩ := List.getElem?_eq_some_iff.1 (mem_held_iff.1 hmem).1
  rw [List.length_take] at hn
  omega

/-- A call is held back before one turn at most that drains the batch. -/
theorem HeldAt.unique {b : ι} {turns : List (Turn M ι)} {n q q' : Nat} {t t' : Turn M ι}
    (h : HeldAt b turns n q) (ht : turns[q]? = some t) (hdrains : t.drains b = true)
    (h' : HeldAt b turns n q') (ht' : turns[q']? = some t') (hdrains' : t'.drains b = true) : q = q' := by
  obtain hlt | heq | hlt := Nat.lt_trichotomy q q'
  · have := h'.not_drains h.lt hlt ht
    simp [hdrains] at this
  · exact heq
  · have := h.not_drains h'.lt hlt ht'
    simp [hdrains'] at this

/-! ## What can be asked of a batch -/

theorem mergeKeyCount_ofCalls (calls : List Call) :
    (ofCalls calls).mergeKeyCount = (calls.filterMap Call.mergeKey?).dedup.length := by
  rw [mergeKeyCount, SortedMap.size_eq_length, toList_merges_ofCalls, List.length_map, mergeKeys,
    List.length_insertionSort]

theorem isEmpty_ofCalls_iff {calls : List Call} : (ofCalls calls).isEmpty = true ↔ calls = [] := by
  rw [isEmpty, Bool.and_eq_true, SortedMap.isEmpty_iff, toList_merges_ofCalls, List.map_eq_nil_iff, Array.isEmpty_iff,
    ← Array.toList_eq_nil_iff, toList_writes_ofCalls]
  constructor
  · rintro ⟨hwrites, hkeys⟩
    cases calls with
    | nil => rfl
    | cons call calls =>
      cases call with
      | set | delete => cases hwrites
      | merge key operator =>
        have hmem : key ∈ mergeKeys (.merge key operator :: calls) :=
          mem_mergeKeys.2 (List.ne_nil_of_mem (mem_operators.2 List.mem_cons_self))
        rw [hkeys] at hmem
        cases hmem
  · rintro rfl
    exact ⟨rfl, rfl⟩

theorem ne_nil_of_mem_merges_ofCalls {calls : List Call} {e : Bytes × MergeChain}
    (h : e ∈ (ofCalls calls).merges.toList) : e.2 ≠ [] := by
  rw [toList_merges_ofCalls] at h
  obtain ⟨key, hkey, rfl⟩ := List.mem_map.1 h
  exact mem_mergeKeys.1 hkey

/-- **A batch holds the calls since its last drain, and no others**. A call takes part in one
execution at most, and in none if the batch is closed first. -/
theorem holds_calls_since_drain [Backing M] (store : Store M) (turns : List (Turn M ι)) (b : ι) :
    let s := (Session.opened store).run turns
    let calls := heldCalls b turns
    ((s.batches b).writes.toList = plainWrites calls ∧ (∀ key, (s.batches b).chain key = operators calls key) ∧
      ∀ e ∈ (s.batches b).merges.toList, e.2 ≠ []) ∧
    ((s.batches b).writeCount = (plainWrites calls).length ∧
      (s.batches b).mergeKeyCount = (calls.filterMap Call.mergeKey?).dedup.length ∧
      ((s.batches b).isEmpty = true ↔ calls = [])) ∧
    (s.turn (.execute b)).store = (Action.after (execute (ofCalls calls, s.store))).2 ∧
    (∀ n q q', TakesPart b turns n q → TakesPart b turns n q' → q = q') ∧
    ∀ n q q', turns[q]? = some (.close b) → HeldAt b turns n q → ¬ TakesPart b turns n q' := by
  intro s calls
  have hbatch : s.batches b = ofCalls calls := Session.batch_run store turns b
  have hexecute : (Turn.execute b : Turn M ι).drains b = true := by simp [Turn.drains]
  have hclose : (Turn.close b : Turn M ι).drains b = true := by simp [Turn.drains]
  refine ⟨⟨?_, fun key => ?_, fun e he => ?_⟩, ⟨?_, ?_, ?_⟩, ?_, ?_, ?_⟩
  · rw [hbatch, toList_writes_ofCalls]
  · rw [hbatch, chain_ofCalls]
  · rw [hbatch] at he
    exact ne_nil_of_mem_merges_ofCalls he
  · rw [hbatch, writeCount, ← Array.length_toList, toList_writes_ofCalls]
  · rw [hbatch, mergeKeyCount_ofCalls]
  · rw [hbatch, isEmpty_ofCalls_iff]
  · rw [← hbatch]
    rfl
  · rintro n q q' ⟨hq, hheld⟩ ⟨hq', hheld'⟩
    exact hheld.unique hq hexecute hheld' hq' hexecute
  · rintro n q q' hq hheld ⟨hq', hheld'⟩
    obtain rfl := hheld.unique hq hclose hheld' hq' hexecute
    rw [hq] at hq'
    cases hq'

end OrderedStore.WriteBatch
