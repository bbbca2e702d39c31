import OrderedStore.Proofs.Counter.Codec

/-!
# Chains of counters

* `Counter.countOf key value?` : the count a value of a key stands for, where absence stands for
  zero;
* `Counter.value? n` : the value that stands for a count, which for zero is absence;
* `Counter.checked key n` : that value, or the refusal of a count that eight bytes do not hold;
* `Counter.add_eq` : one operator takes a count to the checked sum, which is zero where it would be
  less;
* `Counter.walk start deltas` : the same steps in exact integers, cut off at zero, until one goes
  too far;
* `Counter.checked_toNat` : what one operator checks is where one step of the walk comes to;
* `Counter.fold_adds_value?`, `Counter.fold_adds_of_countOf` : a chain answers what its walk comes
  to;
* `Counter.chain_follows_walk` : so whatever the amounts, a chain of counters is a walk that nothing
  wraps in;
* `Counter.fold_adds_counts` : a chain of them ends at a count or runs over;
* `Counter.fold_adds` : a chain of amounts that are not negative checks the sum of all of them once.
  No count on the way is greater than the last one, so a chain is refused for its total alone.
-/

namespace OrderedStore.Counter

/-! ## Counts and values -/

/-- The count that a value of a key, or its absence, stands for. -/
def countOf (key : Bytes) : Option Bytes → Except Fault UInt64
  | some value => decode key value
  | none => .ok 0

/-- The value that stands for a count: zero is kept by no value. -/
def value? (count : Nat) : Option Bytes := if count = 0 then none else some (encode (UInt64.ofNat count))

/-- The value for a count, which is refused if eight bytes do not hold it. -/
def checked (key : Bytes) (count : Nat) : Except Fault (Option Bytes) :=
  if count < UInt64.size then .ok (value? count) else .error (.mergeFailure key "counter overflow")

theorem countOf_value? (key : Bytes) (count : Nat) : countOf key (value? count) = .ok (UInt64.ofNat count) := by
  rw [value?]
  split
  · next hzero => rw [hzero]; rfl
  · exact decode_encode key _

theorem add_eq {key : Bytes} {existing : Option Bytes} {count : UInt64}
    (hcount : countOf key existing = .ok count) (delta : Int64) :
    add delta key existing = checked key (count.toNat + delta.toInt).toNat := by
  have hadd : add delta key existing = (countOf key existing).bind fun count =>
      if (count.toNat : Int) + delta.toInt ≤ 0 then .ok none
      else if (count.toNat : Int) + delta.toInt < UInt64.size then
        .ok (some (encode (UInt64.ofNat ((count.toNat : Int) + delta.toInt).toNat)))
      else .error (.mergeFailure key "counter overflow") := by
    cases existing <;> rfl
  rw [hadd, hcount, checked, value?]
  change (if _ then _ else _ : Except Fault (Option Bytes)) = _
  have hsize : 0 < UInt64.size := by decide
  by_cases hzero : (count.toNat : Int) + delta.toInt ≤ 0
  · have htoNat : ((count.toNat : Int) + delta.toInt).toNat = 0 := by omega
    rw [if_pos hzero, htoNat, if_pos hsize, if_pos rfl]
  · have htoNat : ((count.toNat : Int) + delta.toInt).toNat ≠ 0 := by omega
    rw [if_neg hzero, if_neg htoNat]
    by_cases hlt : (count.toNat : Int) + delta.toInt < UInt64.size
    · rw [if_pos hlt, if_pos (by omega)]
    · rw [if_neg hlt, if_neg (by omega)]

/-! ## Walks -/

/-- Each step adds its amount, and comes to zero where that would be less. A step to more than eight
bytes hold is not made, and the walk then comes to nothing. -/
def walk (start : Int) : List Int64 → Option Int
  | [] => some start
  | delta :: deltas =>
    if start + delta.toInt ≤ 2 ^ 64 - 1 then walk (max 0 (start + delta.toInt)) deltas else none

theorem walk_range {deltas : List Int64} {start s : Int} (hstart : 0 ≤ start ∧ start ≤ 2 ^ 64 - 1)
    (h : walk start deltas = some s) : 0 ≤ s ∧ s ≤ 2 ^ 64 - 1 := by
  induction deltas generalizing start with
  | nil => exact Option.some.inj h ▸ hstart
  | cons delta deltas ih =>
    rw [walk] at h
    split at h
    · next hle => exact ih (by omega) h
    · cases h

theorem exists_count_of_walk {deltas : List Int64} {start : UInt64} {s : Int}
    (h : walk start.toNat deltas = some s) : ∃ count : UInt64, (count.toNat : Int) = s := by
  have hstart := start.toNat_lt
  obtain ⟨hnonneg, hle⟩ := walk_range (by omega) h
  have hlt : s.toNat < 2 ^ 64 := by omega
  refine ⟨UInt64.ofNat s.toNat, ?_⟩
  rw [UInt64.toNat_ofNat_of_lt' hlt, Int.toNat_of_nonneg hnonneg]

def arrival (key : Bytes) : Option Int → Except Fault (Option Bytes)
  | some s => .ok (value? s.toNat)
  | none => .error (.mergeFailure key "counter overflow")

/-- What one operator checks is where one step of a walk comes to. -/
theorem checked_toNat (key : Bytes) (s : Int) :
    checked key s.toNat = arrival key (if s ≤ 2 ^ 64 - 1 then some (max 0 s) else none) := by
  have hsize : UInt64.size = 2 ^ 64 := rfl
  have hclamped : (max 0 s).toNat = s.toNat := by omega
  rw [checked]
  split
  · rw [if_pos (by omega), arrival, hclamped]
  · rw [if_neg (by omega), arrival]

/-- A chain answers what its walk comes to, from a count that is kept as its value. -/
theorem fold_adds_value? (deltas : List Int64) (key : Bytes) {count : Nat} (hcount : count < UInt64.size) :
    MergeChain.fold (deltas.map add) key (value? count) = arrival key (walk count deltas) := by
  induction deltas generalizing count with
  | nil => rfl
  | cons delta deltas ih =>
    have htoNat : (UInt64.ofNat count).toNat = count := UInt64.toNat_ofNat_of_lt' hcount
    rw [List.map_cons, MergeChain.fold_cons, add_eq (countOf_value? key count), htoNat, checked_toNat, walk]
    generalize (count : Int) + delta.toInt = s
    split
    · next hle =>
      have hlt : (max 0 s).toNat < 2 ^ 64 := by omega
      have hrest := ih hlt
      rw [Int.toNat_of_nonneg (Int.le_max_left 0 s)] at hrest
      exact hrest
    · rfl

section CountOf

variable {key : Bytes} {existing : Option Bytes} {count : UInt64} (hcount : countOf key existing = .ok count)

include hcount

/-- After its first operator a chain does not see how the count it started from was kept. -/
theorem fold_adds_of_countOf {deltas : List Int64} (hne : deltas ≠ []) :
    MergeChain.fold (deltas.map add) key existing = arrival key (walk count.toNat deltas) := by
  cases deltas with
  | nil => exact absurd rfl hne
  | cons delta deltas =>
    have hvalue : countOf key (value? count.toNat) = .ok count := by rw [countOf_value?, UInt64.ofNat_toNat]
    rw [← fold_adds_value? _ key count.toNat_lt, List.map_cons, MergeChain.fold_cons, MergeChain.fold_cons,
      add_eq hcount, add_eq hvalue]

theorem fold_adds_of_walk {deltas : List Int64} {s : Int} (h : walk count.toNat deltas = some s) :
    ∃ merged count', MergeChain.fold (deltas.map add) key existing = .ok merged ∧
      countOf key merged = .ok count' ∧ (count'.toNat : Int) = s := by
  cases deltas with
  | nil => exact ⟨existing, count, rfl, hcount, Option.some.inj h⟩
  | cons delta deltas =>
    obtain ⟨count', rfl⟩ := exists_count_of_walk h
    rw [fold_adds_of_countOf hcount (List.cons_ne_nil _ _), h]
    exact ⟨value? count'.toNat, count', rfl, by rw [countOf_value?, UInt64.ofNat_toNat], rfl⟩

theorem fold_adds_arrives {deltas : List Int64} (hne : deltas ≠ []) {s : Int}
    (h : walk count.toNat deltas = some s) : ∃ count' : UInt64, (count'.toNat : Int) = s ∧
      MergeChain.fold (deltas.map add) key existing = .ok (if s = 0 then none else some (encode count')) := by
  obtain ⟨count', rfl⟩ := exists_count_of_walk h
  refine ⟨count', rfl, ?_⟩
  rw [fold_adds_of_countOf hcount hne, h, arrival, Int.toNat_natCast, value?, UInt64.ofNat_toNat]
  simp only [Int.natCast_eq_zero]

/-- A step is refused exactly if it goes beyond what eight bytes hold. -/
theorem add_refused_iff (delta : Int64) :
    add delta key existing = .error (.mergeFailure key "counter overflow") ↔
      2 ^ 64 - 1 < (count.toNat : Int) + delta.toInt := by
  rw [add_eq hcount, checked_toNat]
  split
  · next hle =>
    simp only [arrival, reduceCtorEq, false_iff]
    exact Int.not_lt.2 hle
  · next hgt =>
    simp only [arrival, true_iff]
    exact Int.not_le.1 hgt

end CountOf

theorem fold_adds_counts (deltas : List Int64) {key : Bytes} {existing : Option Bytes} {count : UInt64}
    (hcount : countOf key existing = .ok count) :
    (∃ merged count', MergeChain.fold (deltas.map add) key existing = .ok merged ∧
      countOf key merged = .ok count') ∨
    MergeChain.fold (deltas.map add) key existing = .error (.mergeFailure key "counter overflow") := by
  cases h : walk count.toNat deltas with
  | some s =>
    obtain ⟨merged, count', hfold, hmerged, -⟩ := fold_adds_of_walk hcount h
    exact .inl ⟨merged, count', hfold, hmerged⟩
  | none =>
    have hne : deltas ≠ [] := by
      rintro rfl
      cases h
    rw [fold_adds_of_countOf hcount hne, h]
    exact .inr rfl

theorem exists_countOf {existing : Option Bytes} (h : ∀ value, existing = some value → value.length = width)
    (key : Bytes) :
    ∃ count : UInt64, countOf key existing = .ok count ∧ existing.elim 0 Bytes.toNatLE = count.toNat := by
  cases existing with
  | none => exact ⟨0, rfl, rfl⟩
  | some value => exact ⟨_, decode_of_length (h value rfl) key, (toNat_ofNat_toNatLE (h value rfl)).symm⟩

theorem fold_adds_of_length_ne {deltas : List Int64} (hne : deltas ≠ []) {value : Bytes}
    (h : value.length ≠ width) (key : Bytes) : MergeChain.fold (deltas.map add) key (some value) =
      .error (.mergeFailure key
        ("counter value must be " ++ width.repr ++ " bytes, got " ++ value.length.repr)) := by
  obtain ⟨delta, deltas, rfl⟩ := List.exists_cons_of_ne_nil hne
  rw [List.map_cons, MergeChain.fold_cons, add, decode_of_length_ne h]
  rfl

/-- No chain leaves a zero written out, since zero is kept by no value. -/
theorem toNatLE_ne_zero_of_fold_adds {deltas : List Int64} (hne : deltas ≠ []) {key value : Bytes}
    {existing : Option Bytes} (h : MergeChain.fold (deltas.map add) key existing = .ok (some value)) :
    value.length = width ∧ Bytes.toNatLE value ≠ 0 := by
  by_cases hlength : ∀ value, existing = some value → value.length = width
  · obtain ⟨start, hstart, -⟩ := exists_countOf hlength key
    cases hwalk : walk start.toNat deltas with
    | none =>
      rw [fold_adds_of_countOf hstart hne, hwalk] at h
      cases h
    | some s =>
      obtain ⟨count, rfl, hfold⟩ := fold_adds_arrives hstart hne hwalk
      rw [hfold] at h
      split at h
      · cases h
      · next hzero =>
        rw [← Option.some.inj (Except.ok.inj h), toNatLE_encode]
        exact ⟨length_encode count, by omega⟩
  · push Not at hlength
    obtain ⟨refused, rfl, hrefused⟩ := hlength
    rw [fold_adds_of_length_ne hne hrefused] at h
    cases h

/-- **A chain of counters is a clamped walk in exact integers**: it answers what the walk comes to,
with no zero written out, or refuses the first step beyond eight bytes. -/
theorem chain_follows_walk (key : Bytes) (existing : Option Bytes) {deltas : List Int64} (hne : deltas ≠ []) :
    let merged := MergeChain.fold (deltas.map add) key existing
    let start : Nat := existing.elim 0 Bytes.toNatLE
    let overflow : Fault := .mergeFailure key "counter overflow"
    (∀ value, existing = some value → value.length ≠ 8 →
      merged = .error (.mergeFailure key ("counter value must be 8 bytes, got " ++ toString value.length))) ∧
    ((∀ value, existing = some value → value.length = 8) →
      (∀ s, walk start deltas = some s → ∃ count : UInt64, (count.toNat : Int) = s ∧
        merged = .ok (if s = 0 then none else some (encode count))) ∧
      (walk start deltas = none → merged = .error overflow) ∧
      ∀ earlier delta later s, deltas = earlier ++ delta :: later → walk start earlier = some s →
        (0 ≤ s ∧ s ≤ 2 ^ 64 - 1) ∧ (-2 ^ 127 ≤ s + delta.toInt ∧ s + delta.toInt < 2 ^ 127) ∧
        ∃ current, MergeChain.fold (earlier.map add) key existing = .ok current ∧
          (add delta key current = .error overflow ↔ 2 ^ 64 - 1 < s + delta.toInt)) ∧
    ∀ value, merged = .ok (some value) → value.length = 8 ∧ Bytes.toNatLE value ≠ 0 := by
  intro merged start overflow
  refine ⟨?_, fun hlength => ?_, fun value => toNatLE_ne_zero_of_fold_adds hne⟩
  · rintro value rfl hlength
    exact fold_adds_of_length_ne hne hlength key
  · obtain ⟨count, hcount, hstart⟩ := exists_countOf hlength key
    rw [show start = count.toNat from hstart]
    refine ⟨fun s hwalk => fold_adds_arrives hcount hne hwalk, fun hwalk => ?_, ?_⟩
    · rw [show merged = _ from fold_adds_of_countOf hcount hne, hwalk]
      rfl
    · rintro earlier delta later s - hwalk
      obtain ⟨current, count', hfold, hcurrent, rfl⟩ := fold_adds_of_walk hcount hwalk
      have hcount' := count'.toNat_lt
      have hlow := delta.le_toInt
      have hhigh := delta.toInt_lt
      exact ⟨by omega, by omega, current, hfold, add_refused_iff hcurrent delta⟩

/-- To nine five are added, more is taken than there is, and three are added. The greatest amount can
then be added once, and not twice. -/
theorem chain_follows_walk_past_zero :
    let deltas : List Int64 := [5, Int64.minValue, 3]
    let more : List Int64 := deltas ++ [Int64.maxValue, Int64.maxValue]
    let fold (deltas : List Int64) := MergeChain.fold (deltas.map add) [7]
    (∃ count : UInt64, (count.toNat : Int) = 3 ∧ fold deltas (some (encode 9)) = .ok (some (encode count))) ∧
      fold more (some (encode 9)) = .error (.mergeFailure [7] "counter overflow") ∧
      fold deltas (some [9]) = .error (.mergeFailure [7] "counter value must be 8 bytes, got 1") := by
  intro deltas more fold
  have hdeltas : deltas ≠ [] := List.cons_ne_nil _ _
  have hmore : more ≠ [] := List.cons_ne_nil _ _
  have hlength : ∀ value, some (encode 9) = some value → value.length = 8 := by
    rintro value ⟨⟩
    rfl
  obtain ⟨-, hwalk, -⟩ := chain_follows_walk [7] (some (encode 9)) hdeltas
  obtain ⟨-, hwalk', -⟩ := chain_follows_walk [7] (some (encode 9)) hmore
  obtain ⟨hrefused, -⟩ := chain_follows_walk [7] (some [9]) hdeltas
  exact ⟨(hwalk hlength).1 3 rfl, (hwalk' hlength).2.1 rfl, hrefused [9] rfl (by decide)⟩

/-! ## Amounts that are not negative -/

def total : List Int64 → Int
  | [] => 0
  | delta :: deltas => delta.toInt + total deltas

theorem total_perm {deltas deltas' : List Int64} (h : deltas.Perm deltas') : total deltas = total deltas' := by
  induction h with
  | nil => rfl
  | cons delta _ ih => rw [total, total, ih]
  | swap delta delta' deltas =>
    simp only [total]
    omega
  | trans _ _ ih ih' => exact ih.trans ih'

theorem total_nonneg {deltas : List Int64} (h : ∀ delta ∈ deltas, 0 ≤ delta) : 0 ≤ total deltas := by
  induction deltas with
  | nil => exact Int.le_refl 0
  | cons delta deltas ih =>
    obtain ⟨hdelta, hdeltas⟩ := List.forall_mem_cons.1 h
    rw [total]
    exact Int.add_nonneg (Int64.le_iff_toInt_le.1 hdelta) (ih hdeltas)

theorem walk_of_nonneg {deltas : List Int64} (hnonneg : ∀ delta ∈ deltas, 0 ≤ delta) {start : Int}
    (hstart : 0 ≤ start ∧ start ≤ 2 ^ 64 - 1) :
    walk start deltas = if start + total deltas ≤ 2 ^ 64 - 1 then some (start + total deltas) else none := by
  induction deltas generalizing start with
  | nil => rw [walk, total, Int.add_zero, if_pos hstart.2]
  | cons delta deltas ih =>
    obtain ⟨hdelta, hdeltas⟩ := List.forall_mem_cons.1 hnonneg
    have htotal := total_nonneg hdeltas
    have hdelta : 0 ≤ delta.toInt := Int64.le_iff_toInt_le.1 hdelta
    have hclamped : max 0 (start + delta.toInt) = start + delta.toInt := by omega
    rw [walk, total, hclamped, ← Int.add_assoc]
    split
    · next hle => exact ih hdeltas ⟨by omega, hle⟩
    · next hgt =>
      -- what is too much already does not become less
      rw [if_neg (by omega)]

/-- A chain of amounts that are not negative checks their sum, added to its start. -/
theorem fold_adds {deltas : List Int64} (hnonneg : ∀ delta ∈ deltas, 0 ≤ delta) (hne : deltas ≠ [])
    {key : Bytes} {existing : Option Bytes} {count : UInt64} (hcount : countOf key existing = .ok count) :
    MergeChain.fold (deltas.map add) key existing = checked key (count.toNat + total deltas).toNat := by
  have hstart := count.toNat_lt
  have hsum : 0 ≤ count.toNat + total deltas := Int.add_nonneg (Int.natCast_nonneg _) (total_nonneg hnonneg)
  rw [fold_adds_of_countOf hcount hne, walk_of_nonneg hnonneg (by omega), checked_toNat, Int.max_eq_right hsum]

/-- With an amount below zero the sum alone does not decide: here the first step is refused already. -/
example : MergeChain.fold [add 1, add (-1)] [7] (value? (2 ^ 64 - 1)) =
    .error (.mergeFailure [7] "counter overflow") := rfl

end OrderedStore.Counter
