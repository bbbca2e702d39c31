/-!
# Byte strings and their order

* `Bytes` : a string of bytes, ordered lexicographically by unsigned byte (a proper prefix comes
  before its extensions, so the empty string is least);
* `Bytes.isBefore` : the order as a test;
* `Bytes.decimals` : the bytes in decimal, separated by a comma and a blank;
* `ByteKey κ` : a type whose values are told apart by a byte string, and sorted by it. A byte string
  is its own key, and the key of a text is its UTF-8 encoding;
* `ByteKey.before_trans`, `ByteKey.before_irrefl`, `ByteKey.eq_of_not_before` : sorting by keys is a
  strict total order.
-/

namespace OrderedStore

abbrev Bytes := List UInt8

/-- The bytes in decimal, separated by a comma and a blank. -/
def Bytes.decimals : Bytes → String
  | [] => ""
  | b :: rest => rest.foldl (fun text c => text ++ ", " ++ c.toNat.repr) b.toNat.repr

/-- The first string comes strictly before the second: where they first differ it has the lesser
byte, or it ends. -/
def Bytes.isBefore : Bytes → Bytes → Bool
  | _, [] => false
  | [], _ :: _ => true
  | a :: as, b :: bs => if a = b then Bytes.isBefore as bs else decide (a < b)

theorem Bytes.isBefore_iff {a b : Bytes} : Bytes.isBefore a b = true ↔ a < b := by
  fun_induction Bytes.isBefore a b with
  | case1 => simp
  | case2 => simp
  | case3 as b bs ih => simp [ih]
  | case4 a as b bs h => simp [List.cons_lt_cons_iff, h]

/-- A type whose values are told apart, and sorted, by a byte string. -/
class ByteKey (κ : Type) where
  /-- The bytes that stand for a value. -/
  bytes : κ → Bytes
  /-- Distinct values have distinct bytes. -/
  bytes_inj : ∀ {a b : κ}, bytes a = bytes b → a = b

instance : ByteKey Bytes where
  bytes := id
  bytes_inj h := h

instance : ByteKey String where
  bytes s := s.toUTF8.data.toList
  bytes_inj h := String.toByteArray_inj.1 (ByteArray.ext (Array.toList_inj.1 h))

namespace ByteKey
variable {κ : Type} [ByteKey κ]

/-- `a` comes strictly before `b` in byte order. -/
def Before (a b : κ) : Prop := bytes a < bytes b

instance (a b : κ) : Decidable (Before a b) := decidable_of_iff _ Bytes.isBefore_iff

@[simp] theorem before_bytes_iff {a b : Bytes} : Before a b ↔ a < b := Iff.rfl

theorem before_irrefl (a : κ) : ¬ Before a a := List.lt_irrefl (bytes a)

theorem before_trans {a b c : κ} (hab : Before a b) (hbc : Before b c) : Before a c :=
  List.lt_trans hab hbc

theorem before_asymm {a b : κ} (hab : Before a b) : ¬ Before b a := List.lt_asymm hab

theorem ne_of_before {a b : κ} (hab : Before a b) : a ≠ b := fun h => before_irrefl b (h ▸ hab)

theorem eq_of_not_before {a b : κ} (hab : ¬ Before a b) (hba : ¬ Before b a) : a = b :=
  bytes_inj (List.le_antisymm (List.not_lt.1 hba) (List.not_lt.1 hab))

end ByteKey
end OrderedStore
