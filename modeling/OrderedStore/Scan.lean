import OrderedStore.Store

/-!
# Forward scans over a store

* `Position` : where a scan stands: nothing read yet, at an entry, at the end, or at a fault. The
  last two are terminal: only a new seek leaves them;
* `Scan M` : a scan over a store that stands on a map of type `M`. The entry it shows is the one it
  read, whatever is written to the store afterwards;
* `Scan.seek`, `Scan.seekFirst`, `Scan.next`, `Scan.close` : its operations, each on the store as it
  is at that moment. A seek takes one step at once, to stand at its first entry;
* `Scan.drain`, `Scan.drainWithin` : the entries a scan still has to show, however many steps that
  takes, and up to a limit of steps;
* `Scan.DrainEnds` : a limit of steps suffices. `Scan.drain_of_drainWithin` : a drain is then one
  with any such limit.
-/

namespace OrderedStore

inductive Position where
  /-- Nothing has been read since the last seek. -/
  | unread
  | showing (key value : Bytes)
  /-- At the end, or closed. -/
  | exhausted
  /-- At a fault that the cursor met. -/
  | failed (fault : Fault)
  deriving DecidableEq, Repr

namespace Position

/-- The scan shows no entry, and no step will make it show one. -/
def isTerminal : Position → Bool
  | exhausted | failed _ => true
  | unread | showing .. => false

def ofStep : Except Fault Step → Position
  | .ok (.entry key value) => showing key value
  | .ok .exhausted => exhausted
  | .error fault => failed fault

end Position

structure Scan (M : Type) [Backing M] where
  /-- The cursor that the next step moves, if a seek has given one. -/
  cursor : Option (Backing.Cursor M)
  position : Position

namespace Scan
variable {M : Type} [Backing M]

def unpositioned : Scan M := ⟨none, .unread⟩

instance : Inhabited (Scan M) := ⟨unpositioned⟩

/-! ## Steps -/

/-- Moves to the next entry. A scan in a terminal position, or without a cursor, is at the end. -/
def next (scan : Scan M) (store : Store M) : Scan M :=
  if scan.position.isTerminal then { scan with position := .exhausted }
  else match scan.cursor with
    | none => { scan with position := .exhausted }
    | some cursor =>
      let found := Backing.next store.map cursor
      ⟨some found.2, .ofStep found.1⟩

theorem next_of_isTerminal {scan : Scan M} (h : scan.position.isTerminal = true) (store : Store M) :
    scan.next store = { scan with position := .exhausted } := by
  simp [next, h]

/-- Moves to the first entry whose key is at or after this one, from wherever the scan stood. A seek
that fails finds no entry. The cursor the scan had is dropped without `Backing.close`, which could
change nothing but this cursor. -/
def seek (_ : Scan M) (store : Store M) (key : Bytes) : Scan M :=
  let start : Scan M := match Backing.seek store.map key with
    | .ok cursor => ⟨some cursor, .unread⟩
    | .error _ => unpositioned
  start.next store

/-- Moves to the first entry, from wherever the scan stood, dropping its cursor as `Scan.seek` does.
The step that follows every seek also takes a scan that met a fault to the end. -/
def seekFirst (_ : Scan M) (store : Store M) : Scan M :=
  let start : Scan M := match Backing.seekFirst store.map with
    | .ok cursor => ⟨some cursor, .unread⟩
    | .error .emptyMap => ⟨none, .exhausted⟩
    | .error fault => ⟨none, .failed fault⟩
  start.next store

/-- Drops the cursor, as `Scan.seek` does; the scan is at the end. -/
def close (_ : Scan M) : Scan M := ⟨none, .exhausted⟩

/-! ## What a scan shows -/

def current? (scan : Scan M) : Option (Bytes × Bytes) :=
  match scan.position with
  | .showing key value => some (key, value)
  | _ => none

def key? (scan : Scan M) : Option Bytes := scan.current?.map (·.1)

def value? (scan : Scan M) : Option Bytes := scan.current?.map (·.2)

def isValid (scan : Scan M) : Bool := scan.current?.isSome

/-- The fault that ended the scan, if one did. -/
def fault? (scan : Scan M) : Option Fault :=
  match scan.position with
  | .failed fault => some fault
  | _ => none

/-! ## Draining -/

/-- What draining a scan gives. -/
inductive Drained where
  /-- The end was found, after these entries. -/
  | entries (shown : List (Bytes × Bytes))
  /-- A fault was met, and what had been shown before it is dropped. -/
  | failed (fault : Fault)
  /-- The scan still showed an entry when no step was left. -/
  | unfinished
  deriving DecidableEq, Repr

instance : Inhabited Drained := ⟨.unfinished⟩

/-- The same, with entries that were shown before. -/
def Drained.after (earlier : List (Bytes × Bytes)) : Drained → Drained
  | entries shown => entries (earlier ++ shown)
  | failed fault => failed fault
  | unfinished => unfinished

/-- Steps on while the scan shows an entry, at most `limit` times, with the entries shown so far. -/
def drainFrom (store : Store M) : (limit : Nat) → (shown : Array (Bytes × Bytes)) → Scan M →
    Drained × Scan M
  | limit, shown, scan => match scan.position with
    | .showing key value => match limit with
      | 0 => (.unfinished, scan)
      | limit + 1 => drainFrom store limit (shown.push (key, value)) (scan.next store)
    | .failed fault => (.failed fault, scan)
    | .unread | .exhausted => (.entries shown.toList, scan)

def drainWithin (store : Store M) (limit : Nat) (scan : Scan M) : Drained × Scan M :=
  drainFrom store limit #[] scan

/-- The scan is drained in finitely many steps. -/
def DrainEnds (scan : Scan M) (store : Store M) : Prop :=
  ∃ limit, (drainWithin store limit scan).1 ≠ .unfinished

theorem drainFrom_eq (store : Store M) (limit : Nat) (shown : Array (Bytes × Bytes))
    (scan : Scan M) : drainFrom store limit shown scan =
      ((drainWithin store limit scan).1.after shown.toList, (drainWithin store limit scan).2) := by
  induction limit generalizing shown scan with
  | zero =>
    cases h : scan.position <;> simp [drainWithin, drainFrom, h, Drained.after]
  | succ limit ih =>
    cases h : scan.position with
    | showing key value =>
      rw [drainWithin, drainFrom, drainFrom, h]
      simp only
      rw [ih, ih (#[].push (key, value))]
      cases (drainWithin store limit (scan.next store)).1 <;> simp [Drained.after]
    | _ => simp [drainWithin, drainFrom, h, Drained.after]

theorem drainWithin_succ_of_showing {scan : Scan M} {key value : Bytes}
    (h : scan.position = .showing key value) (store : Store M) (limit : Nat) :
    drainWithin store (limit + 1) scan =
      ((drainWithin store limit (scan.next store)).1.after [(key, value)],
        (drainWithin store limit (scan.next store)).2) := by
  rw [drainWithin, drainFrom, h]
  exact drainFrom_eq store limit _ _

/-- The entry shown is added to those shown so far, and the scan steps on; or the drain is over. -/
def drainRound (store : Store M) :
    Array (Bytes × Bytes) × Scan M → (Array (Bytes × Bytes) × Scan M) ⊕ (Drained × Scan M)
  | (shown, scan) => match scan.position with
    | .showing key value => .inl (shown.push (key, value), scan.next store)
    | .failed fault => .inr (.failed fault, scan)
    | .unread | .exhausted => .inr (.entries shown.toList, scan)

/-- Round after round until the drain is over. A scan that always shows an entry is drained for
ever. -/
def drainAll (store : Store M) (shown : Array (Bytes × Bytes)) (scan : Scan M) : Drained × Scan M :=
  Id.run (repeatM (fun state => pure (drainRound store state)) (shown, scan))

/-- The entries the scan still has to show, first the one it stands at. -/
def drain (scan : Scan M) (store : Store M) : Drained × Scan M := drainAll store #[] scan

theorem drainAll_eq (store : Store M) (shown : Array (Bytes × Bytes)) (scan : Scan M) :
    drainAll store shown scan = match scan.position with
      | .showing key value => drainAll store (shown.push (key, value)) (scan.next store)
      | .failed fault => (.failed fault, scan)
      | .unread | .exhausted => (.entries shown.toList, scan) := by
  rw [drainAll, repeatM_eq_of_monadTail]
  simp only [repeatM.body, drainRound]
  cases scan.position <;> rfl

theorem drainAll_eq_drainFrom {store : Store M} {limit : Nat} {shown : Array (Bytes × Bytes)}
    {scan : Scan M} (h : (drainFrom store limit shown scan).1 ≠ .unfinished) :
    drainAll store shown scan = drainFrom store limit shown scan := by
  induction limit generalizing shown scan with
  | zero =>
    rw [drainAll_eq, drainFrom]
    cases hposition : scan.position with
    | showing key value => simp [drainFrom, hposition] at h
    | _ => rfl
  | succ limit ih =>
    rw [drainFrom] at h
    rw [drainAll_eq, drainFrom]
    cases hposition : scan.position with
    | showing key value =>
      rw [hposition] at h
      exact ih h
    | _ => rfl

theorem drain_of_drainWithin {store : Store M} {limit : Nat} {scan last : Scan M} {drained : Drained}
    (h : drainWithin store limit scan = (drained, last)) (hdrained : drained ≠ .unfinished) :
    scan.drain store = (drained, last) := by
  have hfinished : (drainFrom store limit #[] scan).1 ≠ .unfinished := by
    rw [← drainWithin, h]
    exact hdrained
  rw [drain, drainAll_eq_drainFrom hfinished]
  exact h

theorem drain_of_exhausted {scan : Scan M} (h : scan.position = .exhausted) (store : Store M) :
    scan.drain store = (.entries [], scan) := by
  rw [drain, drainAll_eq, h]

theorem drain_of_failed {scan : Scan M} {fault : Fault} (h : scan.position = .failed fault)
    (store : Store M) : scan.drain store = (.failed fault, scan) := by
  rw [drain, drainAll_eq, h]

end Scan

/-- A scan that stands at the first entry whose key is at or after this one. -/
def Store.scan {M : Type} [Backing M] (store : Store M) (start : Bytes) : Scan M :=
  Scan.unpositioned.seek store start

end OrderedStore
