import Mathlib.Data.List.Nodup
import OrderedStore.Proofs.Action
import OrderedStore.Scan
import OrderedStore.SortedMap

/-!
# A scan between whose steps the store changes

* `Scan.Event`, `Scan.visits` : a run in which callers write to the store and the scan takes steps.
  Each step is a `Visit`, with the store at that moment and the scan after it;
* `Scan.Target`, `Scan.visitsFrom` : the same from a seek, whose own step is the first visit.
  `Scan.seekTo_eq_next` : that step is one of a scan that looks for the keys from the target on;
* `Scan.Sweep bound visits` : each visit finds the least key within a bound in its own store, the
  bound then being that key, until one finds none; after that no visit shows anything. The stores
  are related in no way;
* `Scan.sweep_visitsFrom` : the visits of a scan are a sweep, whatever is written in between;
* `Sweep.ascending`, `Sweep.present` : what a sweep shows;
* `Sweep.shown_or_missing` : what it passes over, and from that `Sweep.count_of_stable` and
  `Sweep.nothing_beyond`, once it has ended;
* `Scan.interleaved_scan` : all of it, for a scan from a seek.
-/

namespace OrderedStore.Scan
open ByteKey

/-! ## Runs -/

/-- What happens next: the store is written to, or the scan takes a step. -/
inductive Event where
  | write (mutation : Mutation)
  | step

/-- A step: the store at that moment, and the scan after it. -/
structure Visit where
  store : Store ByteMap
  scan : Scan ByteMap

def visits : Store ByteMap → Scan ByteMap → List Event → List Visit
  | _, _, [] => []
  | store, scan, .write mutation :: events => visits (mutation.apply store) scan events
  | store, scan, .step :: events => ⟨store, scan.next store⟩ :: visits store (scan.next store) events

inductive Target where
  | key (start : Bytes)
  | first

/-- The least key that may be shown. -/
def Target.start : Target → Bytes
  | key start => start
  | first => []

def Target.bound : Target → LowerBound Bytes
  | key start => .atLeast start
  | first => .unbounded

theorem Target.admits_bound {target : Target} {key : Bytes} :
    target.bound.admits key = true ↔ target.start ≤ key := by
  cases target with
  | key start => exact LowerBound.admits_atLeast.trans List.not_lt
  | first => simp [bound, start]

def seekTo {M : Type} [Backing M] (scan : Scan M) (store : Store M) : Target → Scan M
  | .key start => scan.seek store start
  | .first => scan.seekFirst store

/-- The step of a seek, and those of the run that follows it. -/
def visitsFrom (store : Store ByteMap) (scan : Scan ByteMap) (target : Target) (events : List Event) :
    List Visit :=
  ⟨store, scan.seekTo store target⟩ :: visits store (scan.seekTo store target) events

/-- The entries shown, one for each visit that shows one. -/
def shown (visits : List Visit) : List (Bytes × Bytes) := visits.filterMap (·.scan.current?)

/-! ## Sweeps -/

/-- Every visit finds the least key within the bound in its own store, and later ones look beyond
that key; where there is none, nothing is shown any more. -/
inductive Sweep : LowerBound Bytes → List Visit → Prop
  | nil {bound : LowerBound Bytes} : Sweep bound []
  | found {bound : LowerBound Bytes} {visit : Visit} {rest : List Visit} {key value : Bytes}
      (hfirst : visit.store.map.first? bound = some (key, value))
      (hshows : visit.scan.current? = some (key, value)) (hrest : Sweep (.above key) rest) :
      Sweep bound (visit :: rest)
  | ended {bound : LowerBound Bytes} {visit : Visit} {rest : List Visit}
      (hfirst : visit.store.map.first? bound = none) (hshows : visit.scan.current? = none)
      (hrest : shown rest = []) : Sweep bound (visit :: rest)

/-- The scan is under way, and looks for keys within a bound. -/
structure Looks (scan : Scan ByteMap) (bound : LowerBound Bytes) : Prop where
  cursor : scan.cursor = some (⟨bound, false⟩ : RangeCursor)
  live : scan.position.isTerminal = false

theorem next_of_looks {scan : Scan ByteMap} {bound : LowerBound Bytes} (h : scan.Looks bound)
    (store : Store ByteMap) : scan.next store =
      ⟨some ((⟨bound, false⟩ : RangeCursor).next store.map).2,
        .ofStep (.ok ((⟨bound, false⟩ : RangeCursor).next store.map).1)⟩ := by
  rw [next, if_neg (by simp [h.live]), h.cursor]
  rfl

theorem next_of_looks_some {scan : Scan ByteMap} {bound : LowerBound Bytes} (h : scan.Looks bound)
    {store : Store ByteMap} {key value : Bytes} (hfirst : store.map.first? bound = some (key, value)) :
    scan.next store = ⟨some (⟨.above key, false⟩ : RangeCursor), .showing key value⟩ := by
  rw [next_of_looks h, RangeCursor.next_of_first?_some rfl hfirst]
  rfl

theorem next_of_looks_none {scan : Scan ByteMap} {bound : LowerBound Bytes} (h : scan.Looks bound)
    {store : Store ByteMap} (hfirst : store.map.first? bound = none) :
    scan.next store = ⟨some (⟨bound, true⟩ : RangeCursor), .exhausted⟩ := by
  rw [next_of_looks h, RangeCursor.next_of_first?_none rfl hfirst]
  rfl

theorem shown_visits_of_terminal {scan : Scan ByteMap} (h : scan.position.isTerminal = true)
    (store : Store ByteMap) (events : List Event) : shown (visits store scan events) = [] := by
  induction events generalizing store scan with
  | nil => rfl
  | cons event events ih =>
    cases event with
    | write mutation => exact ih h (mutation.apply store)
    | step =>
      rw [visits, next_of_isTerminal h]
      exact ih rfl store

/-- Writes to the store leave the scan as it is, so each step finds what its own store holds. -/
theorem sweep_visits {scan : Scan ByteMap} {bound : LowerBound Bytes} (h : scan.Looks bound)
    (store : Store ByteMap) (events : List Event) : Sweep bound (visits store scan events) := by
  induction events generalizing store scan bound with
  | nil => exact .nil
  | cons event events ih =>
    cases event with
    | write mutation => exact ih h (mutation.apply store)
    | step =>
      rw [visits]
      cases hfirst : store.map.first? bound with
      | some e =>
        rw [next_of_looks_some h hfirst]
        exact .found hfirst rfl (ih ⟨rfl, rfl⟩ store)
      | none =>
        rw [next_of_looks_none h hfirst]
        exact .ended hfirst rfl (shown_visits_of_terminal rfl store events)

/-- At the first key of a store without keys a scan is over at once. -/
theorem seekTo_eq_next (scan : Scan ByteMap) (store : Store ByteMap) (target : Target) :
    (∃ start : Scan ByteMap, start.Looks target.bound ∧ scan.seekTo store target = start.next store) ∨
      store.map.first? target.bound = none ∧ scan.seekTo store target = ⟨none, .exhausted⟩ := by
  cases target with
  | key start => exact .inl ⟨⟨some (⟨.atLeast start, false⟩ : RangeCursor), .unread⟩, ⟨rfl, rfl⟩, rfl⟩
  | first =>
    cases hempty : store.map.isEmpty with
    | true =>
      refine .inr ⟨?_, ?_⟩
      · simp [SortedMap.first?_eq_none_iff, SortedMap.isEmpty_iff.1 hempty]
      · simp [seekTo, seekFirst, Backing.seekFirst, ByteMap.seekFirst, hempty, next, Position.isTerminal]
    | false =>
      refine .inl ⟨⟨some (⟨.unbounded, false⟩ : RangeCursor), .unread⟩, ⟨rfl, rfl⟩, ?_⟩
      simp [seekTo, seekFirst, Backing.seekFirst, ByteMap.seekFirst, hempty]

theorem sweep_visitsFrom (store : Store ByteMap) (scan : Scan ByteMap) (target : Target)
    (events : List Event) : Sweep target.bound (visitsFrom store scan target events) := by
  obtain ⟨start, hlooks, hseek⟩ | ⟨hfirst, hseek⟩ := seekTo_eq_next scan store target
  · rw [visitsFrom, hseek]
    exact sweep_visits hlooks store (.step :: events)
  · rw [visitsFrom, hseek]
    exact .ended hfirst rfl (shown_visits_of_terminal rfl store events)

/-! ## What a sweep shows -/

variable {bound : LowerBound Bytes} {run : List Visit}

@[simp] theorem shown_nil : shown [] = [] := rfl

theorem shown_append (a b : List Visit) : shown (a ++ b) = shown a ++ shown b := List.filterMap_append

theorem shown_cons_of_some {visit : Visit} {e : Bytes × Bytes} (h : visit.scan.current? = some e)
    (rest : List Visit) : shown (visit :: rest) = e :: shown rest :=
  List.filterMap_cons_some h

theorem shown_cons_of_none {visit : Visit} (h : visit.scan.current? = none) (rest : List Visit) :
    shown (visit :: rest) = shown rest :=
  List.filterMap_cons_none h

theorem Sweep.admits (h : Sweep bound run) : ∀ e ∈ shown run, bound.admits e.1 = true := by
  induction h with
  | nil => simp
  | found hfirst hshows _ ih =>
    rw [shown_cons_of_some hshows, List.forall_mem_cons]
    have hkey := (SortedMap.first?_eq_some_iff.1 hfirst).2.1
    refine ⟨hkey, fun e he => ?_⟩
    exact LowerBound.admits_of_before (LowerBound.admits_above.1 (ih e he)) hkey
  | ended _ hshows hrest =>
    rw [shown_cons_of_none hshows, hrest]
    simp

theorem Sweep.ascending (h : Sweep bound run) : (shown run).Pairwise fun a b => a.1 < b.1 := by
  induction h with
  | nil => exact .nil
  | found _ hshows hrest ih =>
    rw [shown_cons_of_some hshows, List.pairwise_cons]
    exact ⟨fun e he => LowerBound.admits_above.1 (hrest.admits e he), ih⟩
  | ended _ hshows hrest =>
    rw [shown_cons_of_none hshows, hrest]
    exact .nil

theorem Sweep.present (h : Sweep bound run) : ∀ v ∈ run, ∀ key value,
    v.scan.current? = some (key, value) → v.store.get? key = some value := by
  induction h with
  | nil => simp
  | found hfirst hshows _ ih =>
    rw [List.forall_mem_cons]
    refine ⟨fun key value hcurrent => ?_, ih⟩
    rw [hshows] at hcurrent
    cases hcurrent
    exact SortedMap.get?_eq_some_iff.2 (SortedMap.first?_eq_some_iff.1 hfirst).1
  | ended _ hshows hrest =>
    rw [List.forall_mem_cons]
    refine ⟨by simp [hshows], fun v hv key value hcurrent => ?_⟩
    have hmem : (key, value) ∈ shown _ := List.mem_filterMap.2 ⟨v, hv, hcurrent⟩
    simp [hrest] at hmem

theorem get?_of_lt_first {store : Store ByteMap} {first value key : Bytes}
    (hfirst : store.map.first? bound = some (first, value)) (hkey : bound.admits key = true)
    (hlt : key < first) : store.get? key = none := by
  refine SortedMap.get?_eq_none_iff.2 fun x hx => ?_
  obtain heq | hbefore := (SortedMap.first?_eq_some_iff.1 hfirst).2.2 _ hx hkey
  · cases heq
    exact before_irrefl first hlt
  · exact before_asymm hbefore hlt

theorem get?_of_first_none {store : Store ByteMap} {key : Bytes} (hfirst : store.map.first? bound = none)
    (hkey : bound.admits key = true) : store.get? key = none := by
  refine SortedMap.get?_eq_none_iff.2 fun x hx => ?_
  have := SortedMap.first?_eq_none_iff.1 hfirst _ hx
  simp [hkey] at this

/-- A key that is not shown is missing where the sweep ended, or at the visit that went past it. -/
theorem Sweep.shown_or_missing (h : Sweep bound run) {earlier later : List Visit} {last : Visit}
    (hrun : run = earlier ++ last :: later) (hearlier : ∀ v ∈ earlier, v.scan.isValid = true)
    (hlast : last.scan.isValid = false) {key : Bytes} (hkey : bound.admits key = true) :
    key ∈ (shown earlier).map (·.1) ∨ last.store.get? key = none ∨
      ∃ v ∈ earlier, v.store.get? key = none ∧ ∃ e ∈ shown earlier, key < e.1 := by
  induction h generalizing earlier with
  | nil => simp at hrun
  | @found bound visit rest first value hfirst hshows _ ih =>
    cases earlier with
    | nil =>
      cases hrun
      simp [isValid, hshows] at hlast
    | cons _ earlier =>
      cases hrun
      rw [shown_cons_of_some hshows]
      by_cases hlt : key < first
      · exact .inr (.inr ⟨visit, by simp, get?_of_lt_first hfirst hkey hlt, (first, value), by simp, hlt⟩)
      by_cases hgt : first < key
      · obtain hmem | hnone | ⟨v, hv, hnone, e, he, hlt⟩ :=
          ih rfl (List.forall_mem_cons.1 hearlier).2 (LowerBound.admits_above.2 hgt)
        · exact .inl (List.mem_cons_of_mem _ hmem)
        · exact .inr (.inl hnone)
        · exact .inr (.inr ⟨v, List.mem_cons_of_mem _ hv, hnone, e, List.mem_cons_of_mem _ he, hlt⟩)
      · have heq : key = first := List.le_antisymm (List.not_lt.1 hgt) (List.not_lt.1 hlt)
        exact .inl (by simp [heq])
  | ended hfirst hshows _ =>
    cases earlier with
    | nil =>
      cases hrun
      exact .inr (.inl (get?_of_first_none hfirst hkey))
    | cons _ earlier =>
      cases hrun
      have := hearlier _ List.mem_cons_self
      simp [isValid, hshows] at this

/-! ## What a sweep has shown where it ends -/

section Ended

variable {earlier later : List Visit} {last : Visit} {key : Bytes}

theorem Sweep.ascending_earlier (h : Sweep bound (earlier ++ last :: later)) :
    (shown earlier).Pairwise fun a b => a.1 < b.1 := by
  have hall := h.ascending
  rw [shown_append, List.pairwise_append] at hall
  exact hall.1

theorem Sweep.count_of_stable (h : Sweep bound (earlier ++ last :: later))
    (hearlier : ∀ v ∈ earlier, v.scan.isValid = true) (hlast : last.scan.isValid = false)
    (hkey : bound.admits key = true)
    (hstable : ∀ v ∈ earlier ++ [last], (v.store.get? key).isSome = true) :
    ((shown earlier).map (·.1)).count key = 1 := by
  have hnodup : ((shown earlier).map (·.1)).Nodup :=
    List.pairwise_map.2 (h.ascending_earlier.imp fun hlt => ne_of_before hlt)
  refine List.count_eq_one_of_mem hnodup ?_
  obtain hmem | hnone | ⟨v, hv, hnone, -⟩ := h.shown_or_missing rfl hearlier hlast hkey
  · exact hmem
  · simpa [hnone] using hstable last (by simp)
  · simpa [hnone] using hstable v (by simp [hv])

theorem Sweep.nothing_beyond (h : Sweep bound (earlier ++ last :: later))
    (hearlier : ∀ v ∈ earlier, v.scan.isValid = true) (hlast : last.scan.isValid = false)
    (hkey : bound.admits key = true) (hbeyond : ∀ e ∈ shown earlier, e.1 < key) :
    last.store.get? key = none := by
  obtain hmem | hnone | ⟨-, -, -, e, he, hlt⟩ := h.shown_or_missing rfl hearlier hlast hkey
  · obtain ⟨e, he, rfl⟩ := List.mem_map.1 hmem
    exact absurd (hbeyond e he) (List.lt_irrefl e.1)
  · exact hnone
  · exact absurd (hbeyond e he) (List.lt_asymm hlt)

theorem Sweep.lt_of_getLast? (h : Sweep bound (earlier ++ last :: later)) {e : Bytes × Bytes}
    (he : (shown earlier).getLast? = some e) (hlt : e.1 < key) : ∀ x ∈ shown earlier, x.1 < key := by
  obtain ⟨others, hothers⟩ := List.getLast?_eq_some_iff.1 he
  have hascending := h.ascending_earlier
  rw [hothers, List.pairwise_append] at hascending
  intro x hx
  rw [hothers, List.mem_append, List.mem_singleton] at hx
  obtain hx | rfl := hx
  · exact List.lt_trans (hascending.2.2 x hx e (by simp)) hlt
  · exact hlt

end Ended

/-! ## Scans -/

/-- **A scan while the store is written to** shows ascending keys from its target on, each entry as
it is in the store at that step; by its end each key that was there throughout is shown once. -/
theorem interleaved_scan (store : Store ByteMap) (scan : Scan ByteMap) (target : Target)
    (events : List Event) :
    let run := visitsFrom store scan target events
    ((∀ e ∈ shown run, target.start ≤ e.1) ∧ (shown run).Pairwise fun a b => a.1 < b.1) ∧
    (∀ v ∈ run, ∀ key value, v.scan.current? = some (key, value) → v.store.get? key = some value) ∧
    ∀ earlier last later, run = earlier ++ last :: later →
      (∀ v ∈ earlier, v.scan.isValid = true) → last.scan.isValid = false →
        (∀ key, target.start ≤ key → (∀ v ∈ earlier ++ [last], (v.store.get? key).isSome = true) →
          ((shown earlier).map (·.1)).count key = 1) ∧
        ∀ key, (match (shown earlier).getLast? with
            | some e => e.1 < key
            | none => target.start ≤ key) → last.store.get? key = none := by
  intro run
  have hsweep : Sweep target.bound run := sweep_visitsFrom store scan target events
  refine ⟨⟨fun e he => Target.admits_bound.1 (hsweep.admits e he), hsweep.ascending⟩, hsweep.present, ?_⟩
  intro earlier last later hrun hearlier hlast
  rw [hrun] at hsweep
  refine ⟨fun key hkey hstable => ?_, fun key hkey => ?_⟩
  · exact hsweep.count_of_stable hearlier hlast (Target.admits_bound.2 hkey) hstable
  · cases hshown : (shown earlier).getLast? with
    | some e =>
      rw [hshown] at hkey
      have hbeyond := hsweep.lt_of_getLast? hshown hkey
      have he : target.bound.admits e.1 = true :=
        hsweep.admits e (by simp [shown_append, List.mem_of_getLast? hshown])
      exact hsweep.nothing_beyond hearlier hlast (LowerBound.admits_of_before hkey he) hbeyond
    | none =>
      rw [hshown] at hkey
      refine hsweep.nothing_beyond hearlier hlast (Target.admits_bound.2 hkey) ?_
      simp [List.getLast?_eq_none_iff.1 hshown]

/-- Keys come and go before and behind the scan; key `4` was there all along. -/
theorem interleaved_scan_of_writes :
    let store : Store ByteMap := ⟨SortedMap.ofList [([1], [10]), ([3], [30]), ([4], [40])]⟩
    let events : List Event := [.write (.set [2] [20]), .write (.delete [3]), .step, .write (.set [1] []),
      .write (.delete [2]), .step, .write (.set [3] [31]), .step, .step]
    let run := visitsFrom store .unpositioned (.key [1]) events
    shown run = [([1], [10]), ([2], [20]), ([4], [40])] ∧
      ((shown (run.take 3)).map (·.1)).count [4] = 1 := by
  intro store events run
  refine ⟨rfl, ?_⟩
  have hend := (interleaved_scan store .unpositioned (.key [1]) events).2.2 (run.take 3)
    (run.get ⟨3, by decide⟩) (run.drop 4) rfl (by decide) rfl
  exact hend.1 [4] (by decide) (by decide)

end OrderedStore.Scan
