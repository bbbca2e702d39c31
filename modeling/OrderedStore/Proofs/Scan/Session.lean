import Mathlib.Data.List.Induction
import OrderedStore.Proofs.Scan.Start

/-!
# A scan in use

* `Scan.drain_of_isTerminal` : a drain leaves a scan in a terminal position as it is;
  `Scan.DrainEnds.exists_limit` : a drain that ends is one with some limit of steps;
* `Scan.Turn`, `Scan.Session`, `Session.run` : a run in which the store changes in any way and calls
  are made on a scan. Draining takes its steps one by one, so a drain with a limit is the same call
  under way, and the store may change before the next such turn;
* `Session.exists_drain_turn` : a drain that ends is one such turn;
* `Session.opened` : the only way to come by a scan;
* `Session.run_keeps`, `Session.opened_run` : what a step and a close keep, every turn but a seek
  keeps; and if a seek brings it about, every scan in use has it;
* `Session.position_run_ne_unread` : between two turns a scan has been read since its last seek, so
  one that shows no entry is in a terminal position;
* `Scan.Silent` : the scan shows no entry, however it is asked;
* `Scan.silent_until_seek` : a scan that shows no entry shows none until it is sent elsewhere,
  whatever its cursor would find;
* `Scan.Settled` : the scan shows an entry, and its cursor looks for the keys beyond that one; or it
  is at its end, and so is its cursor, if it has one;
* `Scan.settled_run` : a scan in use is settled between any two turns, however the store changes;
* `Scan.seekTo_of_first?_some`, `Scan.seekTo_of_first?_none` : where a seek leaves a scan, told by
  the least entry from its target on.
-/

namespace OrderedStore.Scan

variable {M : Type} [Backing M]

/-! ## Draining, step by step -/

@[simp] theorem drainWithin_zero_scan (store : Store M) (scan : Scan M) :
    (drainWithin store 0 scan).2 = scan := by
  rw [drainWithin, drainFrom]
  cases scan.position <;> rfl

theorem drainWithin_of_current?_none {scan : Scan M} (h : scan.current? = none) (store : Store M)
    (limit : Nat) : (drainWithin store limit scan).2 = scan := by
  rw [drainWithin, drainFrom]
  cases hposition : scan.position with
  | showing key value => simp [current?, hposition] at h
  | _ => rfl

theorem drainWithin_keeps {P : Scan M → Prop} {store : Store M}
    (hnext : ∀ scan : Scan M, P scan → P (scan.next store)) (limit : Nat) {scan : Scan M} (h : P scan) :
    P (drainWithin store limit scan).2 := by
  induction limit generalizing scan with
  | zero => simpa using h
  | succ limit ih =>
    cases hposition : scan.position with
    | showing key value =>
      rw [drainWithin_succ_of_showing hposition]
      exact ih (hnext scan h)
    | _ => rwa [drainWithin_of_current?_none (by simp [current?, hposition])]

theorem drain_of_isTerminal {scan : Scan M} (h : scan.position.isTerminal = true) (store : Store M) :
    (scan.drain store).2 = scan := by
  cases hposition : scan.position with
  | exhausted => rw [drain_of_exhausted hposition]
  | failed fault => rw [drain_of_failed hposition]
  | unread | showing key value => simp [hposition, Position.isTerminal] at h

theorem DrainEnds.exists_limit {scan : Scan M} {store : Store M} (h : scan.DrainEnds store) :
    ∃ limit, scan.drain store = drainWithin store limit scan := by
  obtain ⟨limit, hfinished⟩ := h
  exact ⟨limit, drain_of_drainWithin rfl hfinished⟩

/-! ## Runs -/

/-- A turn in a run: the store changes, or a call is made on the scan. -/
inductive Turn (M : Type) where
  /-- Other callers leave the store in another state: by a `Mutation`, by many, or in any other way. -/
  | change (write : Store M → Store M)
  | seek (target : Target)
  | next
  | close
  /-- The scan is drained, and this many steps are taken at most. -/
  | drain (limit : Nat)

def Turn.isSeek : Turn M → Bool
  | seek _ => true
  | _ => false

structure Session (M : Type) [Backing M] where
  store : Store M
  scan : Scan M

namespace Session

/-- A scan is first had from a store, at the first entry from some key on. -/
def opened (store : Store M) (start : Bytes) : Session M := ⟨store, store.scan start⟩

def turn (s : Session M) : Turn M → Session M
  | .change write => { s with store := write s.store }
  | .seek target => { s with scan := s.scan.seekTo s.store target }
  | .next => { s with scan := s.scan.next s.store }
  | .close => { s with scan := s.scan.close }
  | .drain limit => { s with scan := (s.scan.drainWithin s.store limit).2 }

theorem exists_drain_turn {s : Session M} (h : s.scan.DrainEnds s.store) :
    ∃ limit, s.turn (.drain limit) = { s with scan := (s.scan.drain s.store).2 } := by
  obtain ⟨limit, hlimit⟩ := h.exists_limit
  exact ⟨limit, by rw [turn, hlimit]⟩

def run (s : Session M) (turns : List (Turn M)) : Session M := turns.foldl turn s

theorem run_append (s : Session M) (turns turns' : List (Turn M)) :
    s.run (turns ++ turns') = (s.run turns).run turns' := List.foldl_append

/-! ## What a run keeps -/

section Keeps

variable {P : Scan M → Prop} (hnext : ∀ (scan : Scan M) (store : Store M), P scan → P (scan.next store))
  (hclose : ∀ scan : Scan M, P scan → P scan.close)

include hnext hclose

theorem turn_keeps {s : Session M} (h : P s.scan) {t : Turn M} (ht : t.isSeek = false) :
    P (s.turn t).scan := by
  cases t with
  | change write => exact h
  | seek target => cases ht
  | next => exact hnext s.scan s.store h
  | close => exact hclose s.scan h
  | drain limit => exact drainWithin_keeps (fun scan => hnext scan s.store) limit h

/-- What a step and a close keep, a run without seeks keeps. -/
theorem run_keeps {s : Session M} (h : P s.scan) {turns : List (Turn M)}
    (hturns : ∀ t ∈ turns, t.isSeek = false) : P (s.run turns).scan := by
  induction turns generalizing s with
  | nil => exact h
  | cons t turns ih =>
    obtain ⟨ht, hturns⟩ := List.forall_mem_cons.1 hturns
    exact ih (turn_keeps hnext hclose h ht) hturns

theorem opened_run (hseek : ∀ (scan : Scan M) (store : Store M) target, P (scan.seekTo store target))
    (store : Store M) (start : Bytes) (turns : List (Turn M)) : P ((opened store start).run turns).scan := by
  induction turns using List.reverseRecOn with
  | nil => exact hseek unpositioned store (.key start)
  | append_singleton turns t ih =>
    rw [run_append]
    cases ht : t.isSeek with
    | false => exact turn_keeps hnext hclose ih ht
    | true =>
      cases t with
      | seek target => exact hseek _ _ target
      | _ => cases ht

end Keeps

end Session

/-! ## Positions between two turns -/

theorem position_ofStep_ne_unread (found : Except Fault Step) : Position.ofStep found ≠ .unread := by
  rcases found with _ | _ | _ <;> simp [Position.ofStep]

theorem position_next_ne_unread (scan : Scan M) (store : Store M) : (scan.next store).position ≠ .unread := by
  by_cases hterminal : scan.position.isTerminal = true
  · simp [next_of_isTerminal hterminal]
  · rw [next, if_neg hterminal]
    cases scan.cursor with
    | none => simp
    | some cursor => exact position_ofStep_ne_unread _

theorem position_seekTo_ne_unread (scan : Scan M) (store : Store M) (target : Target) :
    (scan.seekTo store target).position ≠ .unread := by
  rw [seekTo_eq]
  cases store.cursorAt target with
  | ok cursor => exact position_ofStep_ne_unread _
  | error fault => simp

theorem Session.position_run_ne_unread (store : Store M) (start : Bytes) (turns : List (Turn M)) :
    ((opened store start).run turns).scan.position ≠ .unread :=
  opened_run (P := fun scan => scan.position ≠ .unread) (fun scan store _ => position_next_ne_unread scan store)
    (fun _ _ => by simp [Scan.close]) position_seekTo_ne_unread store start turns

theorem isTerminal_of_current?_none {scan : Scan M} (hread : scan.position ≠ .unread)
    (h : scan.current? = none) : scan.position.isTerminal = true := by
  cases hposition : scan.position with
  | unread => exact absurd hposition hread
  | showing key value => simp [current?, hposition] at h
  | exhausted | failed fault => rfl

/-! ## Silence -/

/-- The scan shows no entry, whichever way it is asked. -/
structure Silent (scan : Scan M) : Prop where
  current : scan.current? = none
  key : scan.key? = none
  value : scan.value? = none
  invalid : scan.isValid = false

theorem silent_of_current?_none {scan : Scan M} (h : scan.current? = none) : scan.Silent :=
  ⟨h, by simp [key?, h], by simp [value?, h], by simp [isValid, h]⟩

theorem current?_of_isTerminal {scan : Scan M} (h : scan.position.isTerminal = true) :
    scan.current? = none := by
  cases hposition : scan.position <;> simp_all [current?, Position.isTerminal]

theorem Session.isTerminal_run {s : Session M} (h : s.scan.position.isTerminal = true)
    {turns : List (Turn M)} (hturns : ∀ t ∈ turns, t.isSeek = false) :
    (s.run turns).scan.position.isTerminal = true :=
  run_keeps (P := fun scan => scan.position.isTerminal = true)
    (fun scan store h => by rw [next_of_isTerminal h]; rfl) (fun _ _ => rfl) h hturns

/-- The end is left by a seek only, and not for a fault either. -/
theorem Session.exhausted_run {s : Session M} (h : s.scan.position = .exhausted)
    {turns : List (Turn M)} (hturns : ∀ t ∈ turns, t.isSeek = false) :
    (s.run turns).scan.position = .exhausted :=
  run_keeps (P := fun scan => scan.position = .exhausted)
    (fun scan store h => by rw [next_of_isTerminal (by rw [h]; rfl)]) (fun _ _ => rfl) h hturns

theorem Session.exhausted_run_of_mem {s : Session M} (h : s.scan.position.isTerminal = true)
    {turns : List (Turn M)} (hturns : ∀ t ∈ turns, t.isSeek = false)
    (hmem : .next ∈ turns ∨ .close ∈ turns) : (s.run turns).scan.position = .exhausted := by
  obtain ⟨t, ht, hmem⟩ : ∃ t, (t = .next ∨ t = .close) ∧ t ∈ turns := by
    obtain hmem | hmem := hmem
    · exact ⟨.next, .inl rfl, hmem⟩
    · exact ⟨.close, .inr rfl, hmem⟩
  obtain ⟨earlier, later, rfl⟩ := List.append_of_mem hmem
  have hearlier : (s.run earlier).scan.position.isTerminal = true :=
    isTerminal_run h fun t' ht' => hturns t' (List.mem_append_left _ ht')
  have hstep : ((s.run earlier).turn t).scan.position = .exhausted := by
    obtain rfl | rfl := ht
    · rw [turn, next_of_isTerminal hearlier]
    · rfl
  rw [run_append]
  exact exhausted_run hstep fun t' ht' => hturns t' (by simp [ht'])

/-- **A scan that shows no entry is silent until a seek**: no step makes it show one or moves its
cursor, and one more step, or a close, takes its fault away. -/
theorem silent_until_seek (store : Store M) (start : Bytes) (turns : List (Turn M)) :
    let s := (Session.opened store start).run turns
    s.scan.close.Silent ∧
    (∀ target fault, s.store.cursorAt target = .error fault → (s.scan.seekTo s.store target).Silent) ∧
    (s.scan.current? = none → ∀ later : List (Turn M), (∀ t ∈ later, t.isSeek = false) →
      (s.run later).scan.Silent ∧
      (∀ store', ((s.run later).scan.next store').cursor = (s.run later).scan.cursor) ∧
      (.next ∈ later ∨ .close ∈ later → (s.run later).scan.fault? = none)) := by
  intro s
  refine ⟨silent_of_current?_none rfl, fun target fault h => ?_, fun hnone later hlater => ?_⟩
  · rw [seekTo_of_error h]
    exact silent_of_current?_none rfl
  · have hterminal : s.scan.position.isTerminal = true :=
      isTerminal_of_current?_none (Session.position_run_ne_unread store start turns) hnone
    have hlast := Session.isTerminal_run hterminal hlater
    refine ⟨silent_of_current?_none (current?_of_isTerminal hlast), fun store' => ?_, fun hmem => ?_⟩
    · rw [next_of_isTerminal hlast]
    · rw [fault?, Session.exhausted_run_of_mem hterminal hlater hmem]

/-- The cursor fails once, goes on, ends, and goes on again; giving it up does nothing. -/
theorem silent_until_seek_scripted :
    let lost := Fault.mapFailure "lost"
    let script := [.ok (.entry [1] [10]), .error lost, .ok (.entry [2] [20]), .ok .exhausted,
      .ok (.entry [3] [30])]
    let s := (Session.opened (⟨⟨.ok (), script⟩⟩ : Store Scripted) []).run [.next]
    let later := [.next, .change fun _ => ⟨⟨.ok (), []⟩⟩, .drain 5, .next]
    s.scan.fault? = some lost ∧ (s.run later).scan.Silent ∧ (s.run later).scan.fault? = none ∧
      (s.run later).scan.cursor = some (script.drop 2) := by
  intro lost script s later
  obtain ⟨-, -, hsilent⟩ := silent_until_seek (⟨⟨.ok (), script⟩⟩ : Store Scripted) [] [.next]
  obtain ⟨hshown, -, hfault⟩ := hsilent rfl later (by simp [later, Turn.isSeek])
  exact ⟨rfl, hshown, hfault (.inl List.mem_cons_self), rfl⟩

/-! ## Where a scan over a sorted byte map stands -/

/-- The scan is at an entry and its cursor right behind it, or both are at the end. -/
inductive Settled : Scan ByteMap → Prop
  | showing (key value : Bytes) : Settled ⟨some (⟨.above key, false⟩ : RangeCursor), .showing key value⟩
  | ended (cursor : Option RangeCursor) (h : ∀ c ∈ cursor, c.done = true) : Settled ⟨cursor, .exhausted⟩

theorem settled_next_of_looks {scan : Scan ByteMap} {bound : LowerBound Bytes} (h : scan.Looks bound)
    (store : Store ByteMap) : (scan.next store).Settled := by
  cases hfirst : store.map.first? bound with
  | some e =>
    rw [next_of_looks_some h hfirst]
    exact .showing e.1 e.2
  | none =>
    rw [next_of_looks_none h hfirst]
    exact .ended _ (by simp)

theorem settled_next {scan : Scan ByteMap} (h : scan.Settled) (store : Store ByteMap) :
    (scan.next store).Settled := by
  cases h with
  | showing key value => exact settled_next_of_looks ⟨rfl, rfl⟩ store
  | ended cursor h =>
    rw [next_of_isTerminal rfl]
    exact .ended cursor h

theorem settled_close (scan : Scan ByteMap) : scan.close.Settled := .ended none (by simp)

theorem settled_seekTo (scan : Scan ByteMap) (store : Store ByteMap) (target : Target) :
    (scan.seekTo store target).Settled := by
  obtain ⟨start, hlooks, hseek⟩ | ⟨-, hseek⟩ := seekTo_eq_next scan store target
  · rw [hseek]
    exact settled_next_of_looks hlooks store
  · rw [hseek]
    exact .ended none (by simp)

theorem settled_run (store : Store ByteMap) (start : Bytes) (turns : List (Turn ByteMap)) :
    ((Session.opened store start).run turns).scan.Settled :=
  Session.opened_run (P := Settled) (fun _ store h => settled_next h store) (fun scan _ => settled_close scan)
    settled_seekTo store start turns

variable {store : Store ByteMap} {target : Target}

theorem seekTo_of_first?_some {key value : Bytes} (h : store.map.first? target.bound = some (key, value))
    (scan : Scan ByteMap) :
    scan.seekTo store target = ⟨some (⟨.above key, false⟩ : RangeCursor), .showing key value⟩ := by
  obtain ⟨start, hlooks, hseek⟩ | ⟨hnone, -⟩ := seekTo_eq_next scan store target
  · rw [hseek, next_of_looks_some hlooks h]
  · simp [h] at hnone

theorem seekTo_of_first?_none (h : store.map.first? target.bound = none) (scan : Scan ByteMap) :
    (scan.seekTo store target).position = .exhausted := by
  obtain ⟨start, hlooks, hseek⟩ | ⟨-, hseek⟩ := seekTo_eq_next scan store target
  · rw [hseek, next_of_looks_none hlooks h]
  · rw [hseek]

end OrderedStore.Scan
