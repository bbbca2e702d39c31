import OrderedStore.Entries

/-!
# Balanced search trees

* `SearchTree κ β` : a binary tree with an entry at each node. Each node also holds the number of
  entries below it, by which the tree is kept balanced;
* `SearchTree.toList` : the entries from left to right. All that is proved of a tree is said of this
  list; the tree is a search tree where the list is `Ascending`;
* `SearchTree.insert`, `SearchTree.erase`, `SearchTree.get?`, `SearchTree.first?` : the operations,
  each along one path from the root. `mem_toList_insert`, `mem_toList_erase`, `get?_eq_some_iff` and
  `first?_eq_find?` say what they do to a search tree.

Of two neighbouring trees neither is to outweigh the other more than three times, where a tree
weighs one more than it has entries. After an insertion or a removal one rotation restores that, a
double rotation where the inner grandchild is at least twice as heavy as the outer one. Rotations
leave the list of entries as it is (`toList_balance`).
-/

namespace OrderedStore
open ByteKey

/-- A binary tree with an entry at each node. -/
inductive SearchTree (κ β : Type) where
  | leaf
  /-- An entry between two trees, with the number of entries of all three. -/
  | node (size : Nat) (left : SearchTree κ β) (key : κ) (value : β) (right : SearchTree κ β)

namespace SearchTree
variable {κ β : Type}

/-! ## Entries -/

/-- The entries from left to right, in front of others. -/
def listOnto : SearchTree κ β → List (κ × β) → List (κ × β)
  | leaf, behind => behind
  | node _ l k v r, behind => l.listOnto ((k, v) :: r.listOnto behind)

def toList (t : SearchTree κ β) : List (κ × β) := t.listOnto []

theorem listOnto_eq (t : SearchTree κ β) (behind : List (κ × β)) :
    t.listOnto behind = t.toList ++ behind := by
  induction t generalizing behind with
  | leaf => rfl
  | node s l k v r ihl ihr =>
    rw [toList, listOnto, listOnto, ihl, ihr, ihl (_ :: listOnto r []), ← toList]
    simp

@[simp] theorem toList_leaf : (leaf : SearchTree κ β).toList = [] := rfl

@[simp] theorem toList_node (s : Nat) (l : SearchTree κ β) (k : κ) (v : β) (r : SearchTree κ β) :
    (node s l k v r).toList = l.toList ++ (k, v) :: r.toList := by
  rw [toList, listOnto, listOnto_eq, ← toList]

/-! ## Sizes -/

/-- The number of entries, as the root holds it. -/
def size : SearchTree κ β → Nat
  | leaf => 0
  | node size .. => size

/-- Each node holds the number of entries below it. -/
def Sized : SearchTree κ β → Prop
  | leaf => True
  | node s l _ _ r => s = l.size + r.size + 1 ∧ l.Sized ∧ r.Sized

theorem size_eq_length {t : SearchTree κ β} (h : t.Sized) : t.size = t.toList.length := by
  induction t with
  | leaf => rfl
  | node s l k v r ihl ihr =>
    obtain ⟨hs, hl, hr⟩ := h
    rw [toList_node, List.length_append, List.length_cons, ← ihl hl, ← ihr hr]
    exact hs

def bin (l : SearchTree κ β) (k : κ) (v : β) (r : SearchTree κ β) : SearchTree κ β :=
  node (l.size + r.size + 1) l k v r

@[simp] theorem toList_bin (l : SearchTree κ β) (k : κ) (v : β) (r : SearchTree κ β) :
    (bin l k v r).toList = l.toList ++ (k, v) :: r.toList := toList_node ..

@[simp] theorem sized_bin {l : SearchTree κ β} {k : κ} {v : β} {r : SearchTree κ β} :
    (bin l k v r).Sized ↔ l.Sized ∧ r.Sized := by simp [bin, Sized]

/-! ## Balance -/

/-- What a tree counts for in a comparison of neighbours. -/
def weight (t : SearchTree κ β) : Nat := t.size + 1

/-- Lifts the root of the right tree, or of its left subtree where that is the heavier one. -/
def rotateLeft (l : SearchTree κ β) (k : κ) (v : β) : SearchTree κ β → SearchTree κ β
  | leaf => bin l k v leaf
  | node _ rl rk rv rr =>
    if rl.weight < 2 * rr.weight then bin (bin l k v rl) rk rv rr
    else match rl with
      | leaf => bin (bin l k v leaf) rk rv rr
      | node _ ll lk lv lr => bin (bin l k v ll) lk lv (bin lr rk rv rr)

/-- Lifts the root of the left tree, or of its right subtree where that is the heavier one. -/
def rotateRight (k : κ) (v : β) (r : SearchTree κ β) : SearchTree κ β → SearchTree κ β
  | leaf => bin leaf k v r
  | node _ ll lk lv lr =>
    if lr.weight < 2 * ll.weight then bin ll lk lv (bin lr k v r)
    else match lr with
      | leaf => bin ll lk lv (bin leaf k v r)
      | node _ rl rk rv rr => bin (bin ll lk lv rl) rk rv (bin rr k v r)

/-- An entry between two trees, one of which may have become too heavy. -/
def balance (l : SearchTree κ β) (k : κ) (v : β) (r : SearchTree κ β) : SearchTree κ β :=
  if 3 * l.weight < r.weight then rotateLeft l k v r
  else if 3 * r.weight < l.weight then rotateRight k v r l
  else bin l k v r

@[simp] theorem toList_rotateLeft (l : SearchTree κ β) (k : κ) (v : β) (r : SearchTree κ β) :
    (rotateLeft l k v r).toList = l.toList ++ (k, v) :: r.toList := by
  cases r with
  | leaf => simp [rotateLeft]
  | node s rl rk rv rr =>
    simp only [rotateLeft]
    split
    · simp
    · cases rl <;> simp

@[simp] theorem toList_rotateRight (l : SearchTree κ β) (k : κ) (v : β) (r : SearchTree κ β) :
    (rotateRight k v r l).toList = l.toList ++ (k, v) :: r.toList := by
  cases l with
  | leaf => simp [rotateRight]
  | node s ll lk lv lr =>
    simp only [rotateRight]
    split
    · simp
    · cases lr <;> simp

@[simp] theorem toList_balance (l : SearchTree κ β) (k : κ) (v : β) (r : SearchTree κ β) :
    (balance l k v r).toList = l.toList ++ (k, v) :: r.toList := by
  unfold balance
  split
  · simp
  · split <;> simp

theorem sized_rotateLeft {l : SearchTree κ β} {k : κ} {v : β} {r : SearchTree κ β} (hl : l.Sized)
    (hr : r.Sized) : (rotateLeft l k v r).Sized := by
  cases r with
  | leaf => simp [rotateLeft, hl, Sized]
  | node s rl rk rv rr =>
    obtain ⟨-, hrl, hrr⟩ := hr
    simp only [rotateLeft]
    split
    · simp [hl, hrl, hrr]
    · cases rl with
      | leaf => simp [hl, hrr, Sized]
      | node s' ll lk lv lr => simp [hl, hrr, hrl.2.1, hrl.2.2]

theorem sized_rotateRight {l : SearchTree κ β} {k : κ} {v : β} {r : SearchTree κ β} (hl : l.Sized)
    (hr : r.Sized) : (rotateRight k v r l).Sized := by
  cases l with
  | leaf => simp [rotateRight, hr, Sized]
  | node s ll lk lv lr =>
    obtain ⟨-, hll, hlr⟩ := hl
    simp only [rotateRight]
    split
    · simp [hr, hll, hlr]
    · cases lr with
      | leaf => simp [hr, hll, Sized]
      | node s' rl rk rv rr => simp [hr, hll, hlr.2.1, hlr.2.2]

theorem sized_balance {l : SearchTree κ β} {k : κ} {v : β} {r : SearchTree κ β} (hl : l.Sized)
    (hr : r.Sized) : (balance l k v r).Sized := by
  unfold balance
  split
  · exact sized_rotateLeft hl hr
  · split
    · exact sized_rotateRight hl hr
    · exact sized_bin.2 ⟨hl, hr⟩

/-! ## Joining two trees -/

/-- Takes the leftmost entry out. -/
def popFirst? : SearchTree κ β → Option ((κ × β) × SearchTree κ β)
  | leaf => none
  | node _ l k v r => match l.popFirst? with
    | none => some ((k, v), r)
    | some (e, l') => some (e, balance l' k v r)

theorem toList_of_popFirst?_none {t : SearchTree κ β} (h : t.popFirst? = none) : t.toList = [] := by
  cases t with
  | leaf => rfl
  | node s l k v r =>
    rw [popFirst?] at h
    split at h <;> simp at h

theorem toList_of_popFirst?_some {t t' : SearchTree κ β} {e : κ × β}
    (h : t.popFirst? = some (e, t')) : t.toList = e :: t'.toList := by
  induction t generalizing t' with
  | leaf => simp [popFirst?] at h
  | node s l k v r ihl _ =>
    rw [popFirst?] at h
    split at h
    · next hl =>
      obtain ⟨rfl, rfl⟩ := Prod.mk.inj (Option.some.inj h)
      simp [toList_of_popFirst?_none hl]
    · next hl =>
      obtain ⟨rfl, rfl⟩ := Prod.mk.inj (Option.some.inj h)
      simp [ihl hl]

theorem sized_of_popFirst?_some {t t' : SearchTree κ β} {e : κ × β} (ht : t.Sized)
    (h : t.popFirst? = some (e, t')) : t'.Sized := by
  induction t generalizing t' with
  | leaf => simp [popFirst?] at h
  | node s l k v r ihl _ =>
    obtain ⟨-, hl, hr⟩ := ht
    rw [popFirst?] at h
    split at h
    · obtain ⟨-, rfl⟩ := Prod.mk.inj (Option.some.inj h)
      exact hr
    · next hpop =>
      obtain ⟨rfl, rfl⟩ := Prod.mk.inj (Option.some.inj h)
      exact sized_balance (ihl hl hpop) hr

/-- The entries of two trees, those of the first in front. -/
def join (l r : SearchTree κ β) : SearchTree κ β :=
  match r.popFirst? with
  | none => l
  | some (e, r') => balance l e.1 e.2 r'

@[simp] theorem toList_join (l r : SearchTree κ β) : (join l r).toList = l.toList ++ r.toList := by
  unfold join
  split
  · next h => simp [toList_of_popFirst?_none h]
  · next h => simp [toList_of_popFirst?_some h]

theorem sized_join {l r : SearchTree κ β} (hl : l.Sized) (hr : r.Sized) : (join l r).Sized := by
  unfold join
  split
  · exact hl
  · next h => exact sized_balance hl (sized_of_popFirst?_some hr h)

/-! ## Operations -/

variable [ByteKey κ]

/-- Gives a key a value, in place of the one it had. -/
def insert (key : κ) (value : β) : SearchTree κ β → SearchTree κ β
  | leaf => bin leaf key value leaf
  | node s l k v r =>
    if Before key k then balance (l.insert key value) k v r
    else if Before k key then balance l k v (r.insert key value)
    else node s l key value r

/-- Removes a key; a key that is not there is left so. -/
def erase (key : κ) : SearchTree κ β → SearchTree κ β
  | leaf => leaf
  | node _ l k v r =>
    if Before key k then balance (l.erase key) k v r
    else if Before k key then balance l k v (r.erase key)
    else join l r

def get? (key : κ) : SearchTree κ β → Option β
  | leaf => none
  | node _ l k v r =>
    if Before key k then l.get? key else if Before k key then r.get? key else some v

def first? (bound : LowerBound κ) : SearchTree κ β → Option (κ × β)
  | leaf => none
  | node _ l k v r =>
    if bound.admits k then (l.first? bound).or (some (k, v)) else r.first? bound

theorem sized_insert {key : κ} {value : β} {t : SearchTree κ β} (h : t.Sized) :
    (t.insert key value).Sized := by
  induction t with
  | leaf => simp [insert, Sized]
  | node s l k v r ihl ihr =>
    obtain ⟨hs, hl, hr⟩ := h
    rw [insert]
    split
    · exact sized_balance (ihl hl) hr
    · split
      · exact sized_balance hl (ihr hr)
      · exact ⟨hs, hl, hr⟩

theorem sized_erase {key : κ} {t : SearchTree κ β} (h : t.Sized) : (t.erase key).Sized := by
  induction t with
  | leaf => exact h
  | node s l k v r ihl ihr =>
    obtain ⟨-, hl, hr⟩ := h
    rw [erase]
    split
    · exact sized_balance (ihl hl) hr
    · split
      · exact sized_balance hl (ihr hr)
      · exact sized_join hl hr

/-! ## What the operations do to a search tree -/

theorem mem_toList_insert {key : κ} {value : β} {t : SearchTree κ β} (h : Ascending t.toList)
    {x : κ × β} :
    x ∈ (t.insert key value).toList ↔ x = (key, value) ∨ x.1 ≠ key ∧ x ∈ t.toList := by
  induction t with
  | leaf => simp [insert]
  | node s l k v r ihl ihr =>
    rw [toList_node, Ascending.append_cons_iff] at h
    obtain ⟨hl, hr, hlk, hkr⟩ := h
    rw [insert]
    split
    · next hlt =>
      have hk : k ≠ key := (ne_of_before hlt).symm
      have hr' : ∀ y ∈ r.toList, y.1 ≠ key := fun y hy =>
        (ne_of_before (before_trans hlt (hkr y hy))).symm
      simp only [toList_balance, toList_node, List.mem_append, List.mem_cons, ihl hl]
      grind
    · next hge =>
      split
      · next hgt =>
        have hk : k ≠ key := ne_of_before hgt
        have hl' : ∀ y ∈ l.toList, y.1 ≠ key := fun y hy =>
          ne_of_before (before_trans (hlk y hy) hgt)
        simp only [toList_balance, toList_node, List.mem_append, List.mem_cons, ihr hr]
        grind
      · next hle =>
        obtain rfl := eq_of_not_before hge hle
        have hl' : ∀ y ∈ l.toList, y.1 ≠ key := fun y hy => ne_of_before (hlk y hy)
        have hr' : ∀ y ∈ r.toList, y.1 ≠ key := fun y hy => (ne_of_before (hkr y hy)).symm
        simp only [toList_node, List.mem_append, List.mem_cons]
        grind

theorem ascending_insert {key : κ} {value : β} {t : SearchTree κ β} (h : Ascending t.toList) :
    Ascending (t.insert key value).toList := by
  induction t with
  | leaf => simp [insert, Ascending]
  | node s l k v r ihl ihr =>
    rw [toList_node, Ascending.append_cons_iff] at h
    obtain ⟨hl, hr, hlk, hkr⟩ := h
    rw [insert]
    split
    · next hlt =>
      rw [toList_balance, Ascending.append_cons_iff]
      refine ⟨ihl hl, hr, fun x hx => ?_, hkr⟩
      rcases (mem_toList_insert hl).1 hx with rfl | ⟨-, hx⟩
      · exact hlt
      · exact hlk x hx
    · next hge =>
      split
      · next hgt =>
        rw [toList_balance, Ascending.append_cons_iff]
        refine ⟨hl, ihr hr, hlk, fun x hx => ?_⟩
        rcases (mem_toList_insert hr).1 hx with rfl | ⟨-, hx⟩
        · exact hgt
        · exact hkr x hx
      · next hle =>
        obtain rfl := eq_of_not_before hge hle
        rw [toList_node, Ascending.append_cons_iff]
        exact ⟨hl, hr, hlk, hkr⟩

theorem mem_toList_erase {key : κ} {t : SearchTree κ β} (h : Ascending t.toList) {x : κ × β} :
    x ∈ (t.erase key).toList ↔ x.1 ≠ key ∧ x ∈ t.toList := by
  induction t with
  | leaf => simp [erase]
  | node s l k v r ihl ihr =>
    rw [toList_node, Ascending.append_cons_iff] at h
    obtain ⟨hl, hr, hlk, hkr⟩ := h
    rw [erase]
    split
    · next hlt =>
      have hk : k ≠ key := (ne_of_before hlt).symm
      have hr' : ∀ y ∈ r.toList, y.1 ≠ key := fun y hy =>
        (ne_of_before (before_trans hlt (hkr y hy))).symm
      simp only [toList_balance, toList_node, List.mem_append, List.mem_cons, ihl hl]
      grind
    · next hge =>
      split
      · next hgt =>
        have hk : k ≠ key := ne_of_before hgt
        have hl' : ∀ y ∈ l.toList, y.1 ≠ key := fun y hy =>
          ne_of_before (before_trans (hlk y hy) hgt)
        simp only [toList_balance, toList_node, List.mem_append, List.mem_cons, ihr hr]
        grind
      · next hle =>
        obtain rfl := eq_of_not_before hge hle
        have hl' : ∀ y ∈ l.toList, y.1 ≠ key := fun y hy => ne_of_before (hlk y hy)
        have hr' : ∀ y ∈ r.toList, y.1 ≠ key := fun y hy => (ne_of_before (hkr y hy)).symm
        simp only [toList_join, toList_node, List.mem_append, List.mem_cons]
        grind

theorem ascending_erase {key : κ} {t : SearchTree κ β} (h : Ascending t.toList) :
    Ascending (t.erase key).toList := by
  induction t with
  | leaf => exact h
  | node s l k v r ihl ihr =>
    have hnode := h
    rw [toList_node, Ascending.append_cons_iff] at h
    obtain ⟨hl, hr, hlk, hkr⟩ := h
    rw [erase]
    split
    · rw [toList_balance, Ascending.append_cons_iff]
      exact ⟨ihl hl, hr, fun x hx => hlk x ((mem_toList_erase hl).1 hx).2, hkr⟩
    · split
      · rw [toList_balance, Ascending.append_cons_iff]
        exact ⟨hl, ihr hr, hlk, fun x hx => hkr x ((mem_toList_erase hr).1 hx).2⟩
      · rw [toList_node] at hnode
        rw [toList_join]
        exact hnode.sublist (List.Sublist.append_left (List.sublist_cons_self ..) _)

theorem get?_eq_some_iff {key : κ} {t : SearchTree κ β} (h : Ascending t.toList) {value : β} :
    t.get? key = some value ↔ (key, value) ∈ t.toList := by
  induction t with
  | leaf => simp [get?]
  | node s l k v r ihl ihr =>
    rw [toList_node, Ascending.append_cons_iff] at h
    obtain ⟨hl, hr, hlk, hkr⟩ := h
    have hl' : (key, value) ∈ l.toList → Before key k := hlk (key, value)
    have hr' : (key, value) ∈ r.toList → Before k key := hkr (key, value)
    rw [get?]
    split
    · next hlt =>
      have := before_asymm hlt
      have := ne_of_before hlt
      simp only [ihl hl, toList_node, List.mem_append, List.mem_cons, Prod.mk.injEq]
      grind
    · next hge =>
      split
      · next hgt =>
        have := ne_of_before hgt
        simp only [ihr hr, toList_node, List.mem_append, List.mem_cons, Prod.mk.injEq]
        grind
      · next hle =>
        have := eq_of_not_before hge hle
        simp only [Option.some.injEq, toList_node, List.mem_append, List.mem_cons, Prod.mk.injEq]
        grind

theorem first?_eq_find? {bound : LowerBound κ} {t : SearchTree κ β} (h : Ascending t.toList) :
    t.first? bound = t.toList.find? fun e => bound.admits e.1 := by
  induction t with
  | leaf => rfl
  | node s l k v r ihl ihr =>
    rw [toList_node, Ascending.append_cons_iff] at h
    obtain ⟨hl, hr, hlk, -⟩ := h
    rw [first?, toList_node, List.find?_append]
    split
    · next hk => simp [ihl hl, hk]
    · next hk =>
      have hnone : (l.toList.find? fun e => bound.admits e.1) = none :=
        List.find?_eq_none.2 fun x hx hadm => hk (LowerBound.admits_of_before (hlk x hx) hadm)
      simp [ihr hr, hnone, hk]

end SearchTree
end OrderedStore
