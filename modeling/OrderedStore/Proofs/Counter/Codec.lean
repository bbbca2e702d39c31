import Mathlib.Algebra.BigOperators.Fin
import OrderedStore.Merge

/-!
# Counts and their eight bytes

* `Bytes.toNatLE_eq_sum` : the number read from a string is the sum of its bytes, the one at place
  `i` times `256 ^ i`;
* `Bytes.toNatLE_lt` : `w` bytes hold a number below `256 ^ w`;
* `Bytes.toNatLE_ofNatLE`, `Bytes.ofNatLE_toNatLE` : on numbers below `256 ^ w` and strings of `w`
  bytes, writing the digits and reading them undo each other;
* `Counter.decode_of_length`, `Counter.decode_of_length_ne` : a value is read if it has eight bytes,
  and refused with its key and its length if it has not;
* `Counter.decode_eq_ok_iff` : a value holds a count exactly if it is the value written for that
  count, so that each count has one value;
* `Counter.decode_inverts_encode` : writing a count and reading it are inverse to each other,
  between the counts and the values of eight bytes, and what is read is the number whose base-256
  digits are the bytes.
-/

/-! ## Base-256 digits -/

namespace OrderedStore.Bytes

theorem toNatLE_eq_sum (v : Bytes) : toNatLE v = ∑ i : Fin v.length, (v.get i).toNat * 256 ^ i.val := by
  induction v with
  | nil => rfl
  | cons b rest ih =>
    have hplace : ∀ i : Fin rest.length,
        256 * ((rest.get i).toNat * 256 ^ i.val) = (rest.get i).toNat * 256 ^ i.succ.val := by
      intro i
      rw [Fin.val_succ, pow_succ', Nat.mul_left_comm]
    calc toNatLE (b :: rest)
        = b.toNat * 256 ^ 0 + ∑ i : Fin rest.length, (rest.get i).toNat * 256 ^ i.succ.val := by
          rw [toNatLE, ih, Finset.mul_sum, Finset.sum_congr rfl fun i _ => hplace i, pow_zero, Nat.mul_one]
      _ = ∑ i : Fin (rest.length + 1), ((b :: rest).get i).toNat * 256 ^ i.val :=
          (Fin.sum_univ_succ fun i : Fin (rest.length + 1) => ((b :: rest).get i).toNat * 256 ^ i.val).symm

theorem toNatLE_lt (v : Bytes) : toNatLE v < 256 ^ v.length := by
  induction v with
  | nil => simp [toNatLE]
  | cons b rest ih =>
    have hb := b.toNat_lt
    rw [toNatLE, List.length_cons, Nat.pow_succ]
    omega

theorem toNatLE_ofNatLE {width n : Nat} (h : n < 256 ^ width) : toNatLE (ofNatLE width n) = n := by
  induction width generalizing n with
  | zero => rw [Nat.pow_zero] at h; simp [ofNatLE, toNatLE]; omega
  | succ width ih =>
    rw [Nat.pow_succ] at h
    have hdiv : n / 256 < 256 ^ width := by omega
    rw [ofNatLE, toNatLE, ih hdiv, UInt8.toNat_ofNat']
    omega

theorem ofNatLE_toNatLE (v : Bytes) : ofNatLE v.length (toNatLE v) = v := by
  induction v with
  | nil => rfl
  | cons b rest ih =>
    have hb := b.toNat_lt
    have hdiv : (b.toNat + 256 * toNatLE rest) / 256 = toNatLE rest := by omega
    rw [List.length_cons, toNatLE, ofNatLE, hdiv, ih]
    congr 1
    apply UInt8.toNat.inj
    rw [UInt8.toNat_ofNat']
    omega

end OrderedStore.Bytes

/-! ## Counts -/

namespace OrderedStore.Counter

theorem length_encode (count : UInt64) : (encode count).length = width := Bytes.length_ofNatLE _ _

theorem decode_of_length {value : Bytes} (h : value.length = width) (key : Bytes) :
    decode key value = .ok (UInt64.ofNat (Bytes.toNatLE value)) := by
  rw [decode, if_pos h]

theorem decode_of_length_ne {value : Bytes} (h : value.length ≠ width) (key : Bytes) :
    decode key value = .error (.mergeFailure key
      ("counter value must be " ++ width.repr ++ " bytes, got " ++ value.length.repr)) := by
  rw [decode, if_neg h]

theorem toNat_ofNat_toNatLE {value : Bytes} (h : value.length = width) :
    (UInt64.ofNat (Bytes.toNatLE value)).toNat = Bytes.toNatLE value := by
  have hlt : Bytes.toNatLE value < 256 ^ width := h ▸ Bytes.toNatLE_lt value
  exact UInt64.toNat_ofNat_of_lt hlt

theorem toNatLE_encode (count : UInt64) : Bytes.toNatLE (encode count) = count.toNat := by
  have hlt : count.toNat < 256 ^ width := count.toNat_lt
  rw [encode, Bytes.toNatLE_ofNatLE hlt]

theorem decode_encode (key : Bytes) (count : UInt64) : decode key (encode count) = .ok count := by
  rw [decode_of_length (length_encode count), toNatLE_encode, UInt64.ofNat_toNat]

theorem encode_ofNat_toNatLE {value : Bytes} (h : value.length = width) :
    encode (UInt64.ofNat (Bytes.toNatLE value)) = value := by
  rw [encode, toNat_ofNat_toNatLE h, ← h, Bytes.ofNatLE_toNatLE]

/-- A value is read as a count exactly if that count is written so. -/
theorem decode_eq_ok_iff {key value : Bytes} {count : UInt64} :
    decode key value = .ok count ↔ value = encode count := by
  constructor
  · intro h
    by_cases hlength : value.length = width
    · rw [decode_of_length hlength] at h
      rw [← Except.ok.inj h, encode_ofNat_toNatLE hlength]
    · rw [decode_of_length_ne hlength] at h
      cases h
  · rintro rfl
    exact decode_encode key count

/-- Writing a count and reading it undo each other, between the counts and the values of eight
bytes. A value of any other length is refused with its key and its length. -/
theorem decode_inverts_encode (key : Bytes) :
    (∀ count, decode key (encode count) = .ok count) ∧
    ∀ value : Bytes,
      ((∃ count, decode key value = .ok count) ↔ value.length = 8) ∧
      (∀ count, decode key value = .ok count →
        count.toNat = ∑ i : Fin value.length, (value.get i).toNat * 256 ^ i.val ∧ encode count = value) ∧
      (value.length ≠ 8 → decode key value =
        .error (.mergeFailure key ("counter value must be 8 bytes, got " ++ toString value.length))) := by
  refine ⟨decode_encode key, fun value =>
    ⟨⟨?_, fun h => ⟨_, decode_of_length h key⟩⟩, fun count h => ?_, fun h => ?_⟩⟩
  · rintro ⟨count, h⟩
    rw [decode_eq_ok_iff.1 h]
    exact length_encode count
  · have hvalue := decode_eq_ok_iff.1 h
    refine ⟨?_, hvalue.symm⟩
    rw [← Bytes.toNatLE_eq_sum, hvalue, toNatLE_encode]
  · exact decode_of_length_ne h key

/-- The least significant byte stands first: `513` is `1` and twice `256`. -/
example : encode 513 = [1, 2, 0, 0, 0, 0, 0, 0] := by decide

end OrderedStore.Counter
