import OrderedStore.SearchTree

/-!
# Maps sorted by byte keys

* `SortedMap κ β` : finitely many entries, in ascending byte order of their keys. A map is a
  balanced search tree up to its list of entries, so maps with the same entries are equal, however
  they came about;
* `SortedMap.toList`, `SortedMap.ascending` : the entries, and their order;
* `SortedMap.insert`, `SortedMap.erase`, `SortedMap.put`, `SortedMap.get?` : one key is written,
  removed, either of these, and read;
* `SortedMap.ofList` : entries inserted in turn, so the last value given to a key is kept;
* `SortedMap.first?` : the least entry whose key is within a bound;
* `mem_toList_insert`, `mem_toList_erase`, `get?_eq_some_iff` : the operations on the entries, and
  look-up as finding the entry of a key;
* `get?_empty`, `get?_insert_self`, `get?_insert_of_ne`, `get?_erase_self`, `get?_erase_of_ne`,
  `get?_put` : what each operation does to look-up;
* `ext_get?` : a map is determined by its look-ups;
* `get?_ofList`, `ofList_toList` : the map of a list has the last value that the list gives to a
  key, and a map is that of its own entries;
* `first?_eq_some_iff`, `first?_eq_none_iff` : the least entry within a bound.
-/

namespace OrderedStore
open ByteKey

variable {κ β : Type} [ByteKey κ]

/-- The entries ascend, and each node holds the number of entries below it. -/
structure SearchTree.Valid (t : SearchTree κ β) : Prop where
  ascending : Ascending t.toList
  sized : t.Sized

/-- Search trees with the same entries. -/
instance SearchTree.sameEntries (κ β : Type) [ByteKey κ] :
    Setoid { t : SearchTree κ β // t.Valid } where
  r a b := a.1.toList = b.1.toList
  iseqv := ⟨fun _ => rfl, Eq.symm, Eq.trans⟩

/-- Finitely many entries in ascending byte order of their keys. -/
def SortedMap (κ β : Type) [ByteKey κ] : Type := Quotient (SearchTree.sameEntries κ β)

namespace SortedMap

/-! ## Entries -/

def toList (m : SortedMap κ β) : List (κ × β) := Quotient.lift (·.1.toList) (fun _ _ h => h) m

theorem ascending (m : SortedMap κ β) : Ascending m.toList := by
  induction m using Quotient.ind with
  | _ t => exact t.2.ascending

theorem toList_inj {m m' : SortedMap κ β} : m.toList = m'.toList ↔ m = m' := by
  induction m using Quotient.ind with
  | _ t =>
    induction m' using Quotient.ind with
    | _ t' => exact ⟨fun h => Quotient.sound h, fun h => congrArg toList h⟩

instance [DecidableEq κ] [DecidableEq β] : DecidableEq (SortedMap κ β) := fun _ _ =>
  decidable_of_iff _ toList_inj

/-! ## Operations -/

def empty : SortedMap κ β := Quotient.mk _ ⟨.leaf, .nil, trivial⟩

instance : Inhabited (SortedMap κ β) := ⟨empty⟩

def size (m : SortedMap κ β) : Nat :=
  Quotient.lift (·.1.size) (fun a b (h : a.1.toList = b.1.toList) => by
    rw [SearchTree.size_eq_length a.2.sized, SearchTree.size_eq_length b.2.sized, h]) m

def isEmpty (m : SortedMap κ β) : Bool := m.size == 0

def get? (m : SortedMap κ β) (key : κ) : Option β :=
  Quotient.lift (·.1.get? key) (fun a b (h : a.1.toList = b.1.toList) => by
    apply Option.ext
    intro v
    rw [SearchTree.get?_eq_some_iff a.2.ascending, SearchTree.get?_eq_some_iff b.2.ascending, h]) m

/-- The least entry whose key is within a bound. -/
def first? (m : SortedMap κ β) (bound : LowerBound κ) : Option (κ × β) :=
  Quotient.lift (·.1.first? bound) (fun a b (h : a.1.toList = b.1.toList) => by
    rw [SearchTree.first?_eq_find? a.2.ascending, SearchTree.first?_eq_find? b.2.ascending, h]) m

def insert (m : SortedMap κ β) (key : κ) (value : β) : SortedMap κ β :=
  Quotient.lift (fun t => Quotient.mk _ ⟨t.1.insert key value,
      SearchTree.ascending_insert t.2.ascending, SearchTree.sized_insert t.2.sized⟩)
    (fun a b (h : a.1.toList = b.1.toList) => Quotient.sound <| Ascending.eq_of_mem_iff
      (SearchTree.ascending_insert a.2.ascending) (SearchTree.ascending_insert b.2.ascending)
      fun x => by
        rw [SearchTree.mem_toList_insert a.2.ascending, SearchTree.mem_toList_insert b.2.ascending,
          h]) m

def erase (m : SortedMap κ β) (key : κ) : SortedMap κ β :=
  Quotient.lift (fun t => Quotient.mk _ ⟨t.1.erase key,
      SearchTree.ascending_erase t.2.ascending, SearchTree.sized_erase t.2.sized⟩)
    (fun a b (h : a.1.toList = b.1.toList) => Quotient.sound <| Ascending.eq_of_mem_iff
      (SearchTree.ascending_erase a.2.ascending) (SearchTree.ascending_erase b.2.ascending)
      fun x => by
        rw [SearchTree.mem_toList_erase a.2.ascending, SearchTree.mem_toList_erase b.2.ascending,
          h]) m

/-- Gives a key a value, or removes the key where there is no value to give. -/
def put (m : SortedMap κ β) (key : κ) : Option β → SortedMap κ β
  | some value => m.insert key value
  | none => m.erase key

/-- The entries inserted in turn: of those with one key, the last is kept. -/
def ofList (entries : List (κ × β)) : SortedMap κ β :=
  entries.foldl (fun m e => m.insert e.1 e.2) empty

/-! ## What the operations do to the entries -/

@[simp] theorem toList_empty : (empty : SortedMap κ β).toList = [] := rfl

theorem mem_toList_insert {m : SortedMap κ β} {key : κ} {value : β} {x : κ × β} :
    x ∈ (m.insert key value).toList ↔ x = (key, value) ∨ x.1 ≠ key ∧ x ∈ m.toList := by
  induction m using Quotient.ind with
  | _ t => exact SearchTree.mem_toList_insert t.2.ascending

theorem mem_toList_erase {m : SortedMap κ β} {key : κ} {x : κ × β} :
    x ∈ (m.erase key).toList ↔ x.1 ≠ key ∧ x ∈ m.toList := by
  induction m using Quotient.ind with
  | _ t => exact SearchTree.mem_toList_erase t.2.ascending

theorem size_eq_length (m : SortedMap κ β) : m.size = m.toList.length := by
  induction m using Quotient.ind with
  | _ t => exact SearchTree.size_eq_length t.2.sized

theorem isEmpty_iff {m : SortedMap κ β} : m.isEmpty = true ↔ m.toList = [] := by
  rw [isEmpty, beq_iff_eq, size_eq_length, List.length_eq_zero_iff]

/-! ## What the operations do to look-up -/

theorem get?_eq_some_iff {m : SortedMap κ β} {k : κ} {v : β} :
    m.get? k = some v ↔ (k, v) ∈ m.toList := by
  induction m using Quotient.ind with
  | _ t => exact SearchTree.get?_eq_some_iff t.2.ascending

theorem get?_eq_none_iff {m : SortedMap κ β} {k : κ} :
    m.get? k = none ↔ ∀ v, (k, v) ∉ m.toList := by
  simp only [← get?_eq_some_iff, Option.eq_none_iff_forall_not_mem, Option.mem_def]

@[simp] theorem get?_empty (k : κ) : (empty : SortedMap κ β).get? k = none := rfl

@[simp] theorem get?_insert_self (m : SortedMap κ β) (k : κ) (v : β) :
    (m.insert k v).get? k = some v :=
  get?_eq_some_iff.2 (mem_toList_insert.2 (.inl rfl))

theorem get?_insert_of_ne (m : SortedMap κ β) {k k' : κ} (h : k' ≠ k) (v : β) :
    (m.insert k v).get? k' = m.get? k' := by
  apply Option.ext
  intro w
  rw [get?_eq_some_iff, get?_eq_some_iff, mem_toList_insert]
  simp [h]

@[simp] theorem get?_erase_self (m : SortedMap κ β) (k : κ) : (m.erase k).get? k = none :=
  get?_eq_none_iff.2 fun _ h => (mem_toList_erase.1 h).1 rfl

theorem get?_erase_of_ne (m : SortedMap κ β) {k k' : κ} (h : k' ≠ k) :
    (m.erase k).get? k' = m.get? k' := by
  apply Option.ext
  intro w
  rw [get?_eq_some_iff, get?_eq_some_iff, mem_toList_erase]
  simp [h]

theorem get?_put [DecidableEq κ] (m : SortedMap κ β) (k k' : κ) (v? : Option β) :
    (m.put k v?).get? k' = if k' = k then v? else m.get? k' := by
  split
  · next h => cases v? <;> simp [put, h]
  · next h =>
    cases v? with
    | none => exact get?_erase_of_ne m h
    | some v => exact get?_insert_of_ne m h v

/-- A map is determined by its look-ups. -/
theorem ext_get? {m m' : SortedMap κ β} (h : ∀ k, m.get? k = m'.get? k) : m = m' :=
  toList_inj.1 <| m.ascending.eq_of_mem_iff m'.ascending fun x => by
    rw [← get?_eq_some_iff, ← get?_eq_some_iff, h]

theorem mem_map_fst_toList {m : SortedMap κ β} {k : κ} :
    k ∈ m.toList.map (·.1) ↔ (m.get? k).isSome = true := by
  rw [Option.isSome_iff_exists, List.mem_map]
  constructor
  · rintro ⟨e, he, rfl⟩
    exact ⟨e.2, get?_eq_some_iff.2 he⟩
  · rintro ⟨v, hv⟩
    exact ⟨(k, v), get?_eq_some_iff.1 hv, rfl⟩

/-! ## Maps of lists -/

section OfList
variable [DecidableEq κ]

/-- Of the values inserted for a key, the last has the say. -/
theorem get?_foldl_insert (entries : List (κ × β)) (m : SortedMap κ β) (k : κ) :
    (entries.foldl (fun m e => m.insert e.1 e.2) m).get? k =
      ((entries.filter (·.1 = k)).getLast?.map (·.2)).or (m.get? k) := by
  induction entries generalizing m with
  | nil => rfl
  | cons e rest ih =>
    rw [List.foldl_cons, ih]
    by_cases hkey : e.1 = k
    · rw [List.filter_cons_of_pos (by simpa using hkey), List.getLast?_cons, ← hkey, get?_insert_self]
      cases (rest.filter (·.1 = e.1)).getLast? <;> rfl
    · rw [List.filter_cons_of_neg (by simpa using hkey), get?_insert_of_ne _ (Ne.symm hkey)]

theorem get?_ofList (entries : List (κ × β)) (k : κ) :
    (ofList entries).get? k = (entries.filter (·.1 = k)).getLast?.map (·.2) := by
  rw [ofList, get?_foldl_insert, get?_empty, Option.or_none]

theorem get?_ofList_eq_none_iff {entries : List (κ × β)} {k : κ} :
    (ofList entries).get? k = none ↔ k ∉ entries.map (·.1) := by
  rw [get?_ofList, Option.map_eq_none_iff, List.getLast?_eq_none_iff, List.filter_eq_nil_iff]
  simp only [decide_eq_true_eq, List.mem_map, not_exists, not_and]

/-- No key has two entries, so the last entry of a key is the one that a look-up finds. -/
theorem ofList_toList (m : SortedMap κ β) : ofList m.toList = m := by
  apply ext_get?
  intro k
  rw [get?_ofList]
  cases hlast : (m.toList.filter (·.1 = k)).getLast? with
  | none =>
    rw [List.getLast?_eq_none_iff, List.filter_eq_nil_iff] at hlast
    exact (get?_eq_none_iff.2 fun v hv => by simpa using hlast _ hv).symm
  | some e =>
    obtain ⟨he, hkey⟩ := List.mem_filter.1 (List.mem_of_getLast? hlast)
    exact (get?_eq_some_iff.2 (of_decide_eq_true hkey ▸ he)).symm

end OfList

/-! ## The least entry within a bound -/

theorem first?_eq_find? (m : SortedMap κ β) (bound : LowerBound κ) :
    m.first? bound = m.toList.find? fun e => bound.admits e.1 := by
  induction m using Quotient.ind with
  | _ t => exact SearchTree.first?_eq_find? t.2.ascending

theorem first?_eq_none_iff {m : SortedMap κ β} {bound : LowerBound κ} :
    m.first? bound = none ↔ ∀ e ∈ m.toList, bound.admits e.1 = false := by
  simp [first?_eq_find?]

/-- The entry found is within the bound, and comes before every other entry that is. -/
theorem first?_eq_some_iff {m : SortedMap κ β} {bound : LowerBound κ} {e : κ × β} :
    m.first? bound = some e ↔
      e ∈ m.toList ∧ bound.admits e.1 = true ∧
        ∀ x ∈ m.toList, bound.admits x.1 = true → x = e ∨ Before e.1 x.1 := by
  rw [first?_eq_find?]
  exact m.ascending.find?_eq_some_iff

end SortedMap
end OrderedStore
