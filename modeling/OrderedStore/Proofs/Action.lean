import OrderedStore.Store
import OrderedStore.WriteBatch

/-!
# Actions that fail and keep their state, and mutations of a store

* `Action.bind_eq_ok_iff`, `Action.bind_eq_error_iff` : two actions in a row. The second starts from
  the state the first one left, and a failure of the first one is that of both;
* `Action.forM_eq_error_iff` : a row of actions fails at one of them, from the state that those
  before it left;
* `Action.bind_of_ok`, `Action.bind_of_error`, `Action.bind_congr_run` : the same, for a first
  action whose run is known;
* `Action.after`, `Action.outcome` : the state left, on either outcome, and the outcome without the
  state, which make up a run together (`Action.eq_ok_of_outcome`, `Action.eq_error_of_outcome`);
* `Action.after_bind`, `Action.outcome_bind` : both of two actions in a row;
* `Store.onMap_bind`, `Store.onMap_forM` : actions of the map in a row, run on a store;
* `Store.after_onMap`, `Store.outcome_onMap` : an action of the map, run on a store, leaves the map
  of the store as it leaves the map, and comes to the same;
* `Mutation` : a write to a store by any caller, of one key or of a whole batch; `Mutation.apply`,
  `Mutation.outcome` : the store afterwards, whether or not the write succeeded, and what the write
  came to; `Store.mutate`, `Store.outcomes` : the same for a row of mutations.
-/

namespace OrderedStore.Action

variable {σ α β ι : Type}

theorem bind_eq_ok_iff {x : EStateM Fault σ α} {f : α → EStateM Fault σ β} {s s' : σ} {b : β} :
    (x >>= f) s = .ok b s' ↔ ∃ a t, x s = .ok a t ∧ f a t = .ok b s' := by
  change EStateM.bind x f s = _ ↔ _
  unfold EStateM.bind
  cases x s with
  | ok a t =>
    constructor
    · exact fun h => ⟨a, t, rfl, h⟩
    · rintro ⟨_, _, ⟨⟩, h⟩
      exact h
  | error fault t => simp

theorem bind_eq_error_iff {x : EStateM Fault σ α} {f : α → EStateM Fault σ β} {s s' : σ}
    {fault : Fault} : (x >>= f) s = .error fault s' ↔
      x s = .error fault s' ∨ ∃ a t, x s = .ok a t ∧ f a t = .error fault s' := by
  change EStateM.bind x f s = _ ↔ _
  unfold EStateM.bind
  cases x s with
  | ok a t =>
    constructor
    · exact fun h => .inr ⟨a, t, rfl, h⟩
    · rintro (⟨⟨⟩⟩ | ⟨_, _, ⟨⟩, h⟩)
      exact h
  | error fault t => simp

theorem bind_of_ok {x : EStateM Fault σ α} {s t : σ} {a : α} (h : x s = .ok a t)
    (f : α → EStateM Fault σ β) : (x >>= f) s = f a t := by
  change EStateM.bind x f s = _
  rw [EStateM.bind, h]

theorem bind_of_error {x : EStateM Fault σ α} {s t : σ} {fault : Fault} (h : x s = .error fault t)
    (f : α → EStateM Fault σ β) : (x >>= f) s = .error fault t := by
  change EStateM.bind x f s = _
  rw [EStateM.bind, h]

theorem bind_congr_run {x y : EStateM Fault σ α} {s t : σ} (h : x s = y t) (f : α → EStateM Fault σ β) :
    (x >>= f) s = (y >>= f) t := by
  change EStateM.bind x f s = EStateM.bind y f t
  rw [EStateM.bind, EStateM.bind, h]

/-- A row of actions fails at one of them, and those before it have been run. -/
theorem forM_eq_error_iff {f : ι → EStateM Fault σ Unit} {row : List ι} {s s' : σ} {fault : Fault} :
    row.forM f s = .error fault s' ↔ ∃ earlier i later t, row = earlier ++ i :: later ∧
      earlier.forM f s = .ok () t ∧ f i t = .error fault s' := by
  induction row generalizing s with
  | nil =>
    constructor
    · intro h
      cases h
    · rintro ⟨earlier, i, later, t, hrow, -⟩
      cases earlier <;> cases hrow
  | cons i row ih =>
    rw [List.forM, bind_eq_error_iff]
    constructor
    · rintro (h | ⟨⟨⟩, t, hi, h⟩)
      · exact ⟨[], i, row, s, rfl, rfl, h⟩
      · obtain ⟨earlier, j, later, u, rfl, hearlier, hj⟩ := ih.1 h
        exact ⟨i :: earlier, j, later, u, rfl, bind_eq_ok_iff.2 ⟨(), t, hi, hearlier⟩, hj⟩
    · rintro ⟨earlier, j, later, u, hrow, hearlier, hj⟩
      cases earlier with
      | nil =>
        cases hrow
        cases hearlier
        exact .inl hj
      | cons _ earlier =>
        cases hrow
        obtain ⟨⟨⟩, t, hi, hearlier⟩ := bind_eq_ok_iff.1 hearlier
        exact .inr ⟨(), t, hi, ih.2 ⟨earlier, j, later, u, rfl, hearlier, hj⟩⟩

/-- The state left, on either outcome. -/
def after : EStateM.Result Fault σ α → σ
  | .ok _ s => s
  | .error _ s => s

/-- What the action came to, without the state left. -/
def outcome : EStateM.Result Fault σ α → Except Fault α
  | .ok a _ => .ok a
  | .error fault _ => .error fault

theorem eq_ok_of_outcome {r : EStateM.Result Fault σ α} {a : α} (h : outcome r = .ok a) : r = .ok a (after r) := by
  cases r with
  | ok a' s => rw [Except.ok.inj h]; rfl
  | error fault s => cases h

theorem eq_error_of_outcome {r : EStateM.Result Fault σ α} {fault : Fault} (h : outcome r = .error fault) :
    r = .error fault (after r) := by
  cases r with
  | ok a s => cases h
  | error fault' s => rw [Except.error.inj h]; rfl

theorem after_bind (x : EStateM Fault σ α) (f : α → EStateM Fault σ β) (s : σ) :
    after ((x >>= f) s) = match outcome (x s) with
      | .ok a => after (f a (after (x s)))
      | .error _ => after (x s) := by
  cases hx : x s with
  | ok a t => rw [bind_of_ok hx]; rfl
  | error fault t => rw [bind_of_error hx]; rfl

theorem outcome_bind (x : EStateM Fault σ α) (f : α → EStateM Fault σ β) (s : σ) :
    outcome ((x >>= f) s) = (outcome (x s)).bind fun a => outcome (f a (after (x s))) := by
  cases hx : x s with
  | ok a t => rw [bind_of_ok hx]; rfl
  | error fault t => rw [bind_of_error hx]; rfl

end OrderedStore.Action

namespace OrderedStore.Store

variable {M α β ι : Type}

theorem onMap_bind (x : EStateM Fault M α) (f : α → EStateM Fault M β) :
    onMap (x >>= f) = onMap x >>= fun a => onMap (f a) := by
  funext store
  change onMap (EStateM.bind x f) store = EStateM.bind (onMap x) _ store
  simp only [onMap, EStateM.bind]
  cases x store.map <;> rfl

theorem onMap_forM (f : ι → EStateM Fault M Unit) (row : List ι) :
    onMap (row.forM f) = row.forM fun i => onMap (f i) := by
  induction row with
  | nil => rfl
  | cons i row ih => rw [List.forM, List.forM, onMap_bind, ih]

theorem after_onMap (x : EStateM Fault M α) (store : Store M) :
    Action.after (onMap x store) = ⟨Action.after (x store.map)⟩ := by
  rw [onMap]
  cases x store.map <;> rfl

theorem outcome_onMap (x : EStateM Fault M α) (store : Store M) :
    Action.outcome (onMap x store) = Action.outcome (x store.map) := by
  rw [onMap]
  cases x store.map <;> rfl

end OrderedStore.Store

/-! ## Mutations -/

namespace OrderedStore

/-- A write to a store. -/
inductive Mutation where
  | set (key value : Bytes)
  | delete (key : Bytes)
  | execute (batch : WriteBatch)

/-- The store afterwards, on either outcome. -/
def Mutation.apply {M : Type} [Backing M] (store : Store M) : Mutation → Store M
  | set key value => Action.after (Store.set key value store)
  | delete key => Action.after (Store.delete key store)
  | execute batch => (Action.after (WriteBatch.execute (batch, store))).2

def Store.mutate {M : Type} [Backing M] (store : Store M) (mutations : List Mutation) : Store M :=
  mutations.foldl Mutation.apply store

def Mutation.outcome {M : Type} [Backing M] (store : Store M) : Mutation → Except Fault Unit
  | set key value => Action.outcome (Store.set key value store)
  | delete key => Action.outcome (Store.delete key store)
  | execute batch => Action.outcome (WriteBatch.execute (batch, store))

/-- A fault of one mutation does not keep the next from being made. -/
def Store.outcomes {M : Type} [Backing M] (store : Store M) : List Mutation → List (Except Fault Unit)
  | [] => []
  | mutation :: rest => mutation.outcome store :: Store.outcomes (mutation.apply store) rest

end OrderedStore
