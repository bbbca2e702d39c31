import Mathlib.Data.List.Basic
import OrderedStore.Bytes
import OrderedStore.Fault

/-!
# The texts of faults, read back

* `Bytes.decimals_eq_intercalate` : the decimals of a string are those of its bytes, joined by a
  comma and a blank;
* `Bytes.of_mem_decimals` : only digits, commas and blanks occur in them;
* `Bytes.ofDecimals?` : the bytes that such a text lists;
* `Bytes.ofDecimals?_eq_some_iff` : a text is read as some bytes exactly if it is what is written
  for them, so that no two strings have the same decimals;
* `Fault.keyAndReason?` : the key and the reason in the text of a merge failure. The key ends at the
  first closing bracket, since none occurs in the decimals of a key; all that follows is the reason;
* `Fault.ofMessage?` : the fault that a text is shown for, if it is shown for one;
* `Fault.eq_message_of_ofMessage?`, `Fault.ofMessage?_message` : reading a text and showing a fault
  undo each other;
* `Fault.told_by_message` : so a fault is told by its text.
-/

namespace OrderedStore.Bytes

/-! ## Decimals, written -/

theorem decimals_eq_intercalate (key : Bytes) :
    decimals key = ", ".intercalate (key.map fun b => b.toNat.repr) := by
  have hjoin : ∀ (rest : Bytes) (text : String),
      rest.foldl (fun text c => text ++ ", " ++ c.toNat.repr) text =
        ", ".intercalate (text :: rest.map fun b => b.toNat.repr) := by
    intro rest
    induction rest with
    | nil => simp
    | cons c rest ih =>
      intro text
      rw [List.foldl_cons, ih, String.intercalate_cons_append, List.map_cons, String.intercalate_cons_cons]
  cases key with
  | nil => simp [decimals]
  | cons b rest => exact hjoin rest b.toNat.repr

theorem decimals_cons_cons (b c : UInt8) (rest : Bytes) :
    decimals (b :: c :: rest) = b.toNat.repr ++ ", " ++ decimals (c :: rest) := by
  simp only [decimals_eq_intercalate, List.map_cons, String.intercalate_cons_cons]

theorem decimals_eq_empty_iff {key : Bytes} : decimals key = "" ↔ key = [] := by
  rw [decimals_eq_intercalate]
  rcases key with _ | ⟨b, _ | ⟨c, rest⟩⟩ <;> simp [← String.toList_inj]

def digits (b : UInt8) : List Char := Nat.toDigits 10 b.toNat

theorem toList_repr_toNat (b : UInt8) : b.toNat.repr.toList = digits b := Nat.toList_repr

theorem isDigit_of_mem_digits {b : UInt8} {c : Char} (h : c ∈ digits b) : c.isDigit = true :=
  Nat.isDigit_of_mem_toDigits (by decide) (by decide) h

theorem of_mem_decimals {key : Bytes} {c : Char} (h : c ∈ (decimals key).toList) :
    c = ',' ∨ c = ' ' ∨ c.isDigit = true := by
  induction key with
  | nil => simp [decimals] at h
  | cons b rest ih =>
    cases rest with
    | nil => exact .inr (.inr (isDigit_of_mem_digits (toList_repr_toNat b ▸ h)))
    | cons b' rest =>
      rw [decimals_cons_cons, String.toList_append, String.toList_append, List.mem_append, List.mem_append] at h
      rcases h with (hb | hc) | hrest
      · exact .inr (.inr (isDigit_of_mem_digits (toList_repr_toNat b ▸ hb)))
      · rcases List.mem_pair.1 hc with hc | hc
        · exact .inl hc
        · exact .inr (.inl hc)
      · exact ih hrest

/-- With a blank before the first byte as well, commas alone stand between the bytes. -/
theorem cons_toList_decimals {key : Bytes} (h : key ≠ []) :
    ' ' :: (decimals key).toList = [','].intercalate (key.map fun b => ' ' :: digits b) := by
  induction key with
  | nil => exact absurd rfl h
  | cons b rest ih =>
    cases rest with
    | nil => simp [decimals, digits]
    | cons c rest =>
      have ih := ih (List.cons_ne_nil c rest)
      rw [List.map_cons] at ih
      rw [decimals_cons_cons, String.toList_append, String.toList_append, toList_repr_toNat,
        List.map_cons, List.map_cons, List.intercalate_cons_cons, ← ih]
      simp

/-! ## Decimals, read -/

/-- The byte whose digits stand in a text behind a blank. -/
def ofDigits? (text : List Char) : Option UInt8 :=
  let b := UInt8.ofNat (Nat.ofDigitChars 10 text.tail 0)
  if text = ' ' :: digits b then some b else none

/-- The bytes whose decimals a text is, if it is what is written for some. -/
def ofDecimals? (text : String) : Option Bytes :=
  if text = "" then some [] else ((' ' :: text.toList).splitOn ',').mapM ofDigits?

theorem ofDigits?_eq_some_iff {text : List Char} {b : UInt8} : ofDigits? text = some b ↔ text = ' ' :: digits b := by
  rw [ofDigits?]
  constructor
  · intro h
    split at h
    · next htext => rwa [← Option.some.inj h]
    · cases h
  · rintro rfl
    have hb : UInt8.ofNat (Nat.ofDigitChars 10 (digits b) 0) = b := by
      rw [digits, Nat.ofDigitChars_ten_toDigits, UInt8.ofNat_toNat]
    rw [List.tail_cons, hb, if_pos rfl]

theorem mapM_ofDigits?_eq_some_iff {texts : List (List Char)} {key : Bytes} :
    texts.mapM ofDigits? = some key ↔ texts = key.map fun b => ' ' :: digits b := by
  induction texts generalizing key with
  | nil => cases key <;> simp
  | cons text texts ih => cases key <;> simp [Option.bind_eq_some_iff, ofDigits?_eq_some_iff, ih]

theorem splitOn_eq_map_iff {text : String} {key : Bytes} (h : key ≠ []) :
    (' ' :: text.toList).splitOn ',' = (key.map fun b => ' ' :: digits b) ↔ text = decimals key := by
  have hcomma : ∀ l ∈ key.map fun b => ' ' :: digits b, ',' ∉ l := by
    intro l hl hc
    obtain ⟨b, -, rfl⟩ := List.mem_map.1 hl
    rcases List.mem_cons.1 hc with hc | hc
    · revert hc
      decide
    · exact absurd (isDigit_of_mem_digits hc) (by decide)
  constructor
  · intro hsplit
    have hjoin : [','].intercalate ((' ' :: text.toList).splitOn ',') = ' ' :: text.toList :=
      List.intercalate_splitOn ','
    rw [hsplit, ← cons_toList_decimals h] at hjoin
    exact String.toList_inj.1 (List.cons.inj hjoin).2.symm
  · rintro rfl
    rw [cons_toList_decimals h, List.splitOn_intercalate _ hcomma (by simpa using h)]

/-- A text is read as some bytes exactly if it is what is written for them. -/
theorem ofDecimals?_eq_some_iff {text : String} {key : Bytes} :
    ofDecimals? text = some key ↔ text = decimals key := by
  rw [ofDecimals?]
  by_cases htext : text = ""
  · subst htext
    rw [if_pos rfl, Option.some.injEq, eq_comm, ← decimals_eq_empty_iff, eq_comm]
  · rw [if_neg htext, mapM_ofDigits?_eq_some_iff]
    by_cases hkey : key = []
    · subst hkey
      exact iff_of_false (List.splitOn_ne_nil _ _) htext
    · exact splitOn_eq_map_iff hkey

end OrderedStore.Bytes

namespace OrderedStore.Fault

/-- What stands in a text behind the words with which it begins. -/
def behind? (words text : String) : Option String := (text.toList.dropPrefix? words.toList).map .ofList

/-- Reads the key and the reason of a merge failure from what stands behind the opening bracket. -/
def keyAndReason? (text : String) : Option (Bytes × String) := do
  let key ← Bytes.ofDecimals? (.ofList (text.toList.takeWhile (· ≠ ']')))
  let reason ← behind? "]: " (.ofList (text.toList.dropWhile (· ≠ ']')))
  return (key, reason)

/-- The fault that a text is shown for, if it is shown for one. -/
def ofMessage? (text : String) : Option Fault :=
  if text = emptyMap.message then some emptyMap
  else match behind? "Ordered map failure: " text with
    | some reason => some (mapFailure reason)
    | none => (behind? "Merge failed for key [" text).bind fun rest =>
        (keyAndReason? rest).map fun (key, reason) => mergeFailure key reason

/-! ## The parts of a text -/

theorem behind?_eq_some_iff {words text rest : String} : behind? words text = some rest ↔ text = words ++ rest := by
  rw [behind?, Option.map_eq_some_iff]
  constructor
  · rintro ⟨l, hl, rfl⟩
    obtain ⟨start, htext, hstart⟩ := List.dropPrefix?_eq_some_iff.1 hl
    rw [← String.toList_inj, htext, eq_of_beq hstart, String.toList_append, String.toList_ofList]
  · rintro rfl
    refine ⟨rest.toList, List.dropPrefix?_eq_some_iff.2 ⟨words.toList, ?_, beq_self_eq_true _⟩,
      String.ofList_toList⟩
    rw [String.toList_append]

theorem bracket_not_mem_decimals (key : Bytes) : ']' ∉ (Bytes.decimals key).toList := fun h => by
  rcases Bytes.of_mem_decimals h with hc | hc | hc <;> revert hc <;> decide

theorem keyAndReason?_eq_some_iff {text : String} {key : Bytes} {reason : String} :
    keyAndReason? text = some (key, reason) ↔ text = Bytes.decimals key ++ "]: " ++ reason := by
  simp only [keyAndReason?, bind, pure, Option.bind_eq_some_iff, Option.some.injEq, Prod.mk.injEq,
    Bytes.ofDecimals?_eq_some_iff, behind?_eq_some_iff]
  constructor
  · rintro ⟨_, hkey, _, hreason, rfl, rfl⟩
    rw [String.append_assoc, ← hkey, ← hreason, ← String.ofList_append, List.takeWhile_append_dropWhile,
      String.ofList_toList]
  · rintro rfl
    have hkey : ∀ c ∈ (Bytes.decimals key).toList, decide (c ≠ ']') = true := fun c hc =>
      decide_eq_true (ne_of_mem_of_not_mem hc (bracket_not_mem_decimals key))
    have hrest : ("]: " ++ reason).toList = ']' :: ':' :: ' ' :: reason.toList := by simp
    refine ⟨key, ?_, reason, ?_, rfl, rfl⟩
    · rw [String.append_assoc, String.toList_append, List.takeWhile_append_of_pos hkey, hrest]
      simp
    · rw [String.append_assoc, String.toList_append, List.dropWhile_append_of_pos hkey, ← String.toList_inj, hrest]
      simp

/-! ## The whole text -/

theorem eq_message_of_ofMessage? {text : String} {fault : Fault} (h : ofMessage? text = some fault) :
    text = fault.message := by
  rw [ofMessage?] at h
  split at h
  · next htext => rwa [← Option.some.inj h]
  · split at h
    · next reason hreason =>
      rw [← Option.some.inj h]
      exact behind?_eq_some_iff.1 hreason
    · obtain ⟨rest, hrest, hread⟩ := Option.bind_eq_some_iff.1 h
      obtain ⟨⟨key, reason⟩, hkey, rfl⟩ := Option.map_eq_some_iff.1 hread
      rw [message_mergeFailure, ← keyAndReason?_eq_some_iff.1 hkey]
      exact behind?_eq_some_iff.1 hrest

/-- The words that texts begin with tell the kinds of faults apart, whatever the reasons are. -/
theorem ofMessage?_message (fault : Fault) : ofMessage? fault.message = some fault := by
  rw [ofMessage?]
  cases fault with
  | emptyMap => rw [if_pos rfl]
  | mapFailure reason =>
    have hempty : (mapFailure reason).message ≠ emptyMap.message := by simp [← String.toList_inj]
    rw [if_neg hempty, behind?_eq_some_iff.2 (message_mapFailure reason)]
  | mergeFailure key reason =>
    have hempty : (mergeFailure key reason).message ≠ emptyMap.message := by simp [← String.toList_inj]
    have hmap : behind? "Ordered map failure: " (mergeFailure key reason).message = none :=
      Option.eq_none_iff_forall_ne_some.2 fun rest hrest => by
        have htext := behind?_eq_some_iff.1 hrest
        simp [← String.toList_inj] at htext
    have hread : keyAndReason? (Bytes.decimals key ++ "]: " ++ reason) = some (key, reason) :=
      keyAndReason?_eq_some_iff.2 rfl
    rw [if_neg hempty, hmap, behind?_eq_some_iff.2 (message_mergeFailure key reason)]
    simp only [Option.bind_some, hread, Option.map_some]

/-- A fault is told by its text, which is read back also where a reason holds brackets, commas or
the text of another fault; no other text is read. -/
theorem told_by_message (fault : Fault) :
    (∀ other : Fault, fault.message = other.message ↔ fault = other) ∧
    ∀ text, ofMessage? text = some fault ↔ text = fault.message := by
  refine ⟨fun other => ⟨fun h => ?_, congrArg message⟩, fun text => ⟨eq_message_of_ofMessage?, ?_⟩⟩
  · have hread := ofMessage?_message fault
    rw [h, ofMessage?_message other] at hread
    exact (Option.some.inj hread).symm
  · rintro rfl
    exact ofMessage?_message fault

/-- The reason goes on as the text of another fault does. -/
example : ofMessage? "Merge failed for key [1, 255]: , 3]: Merge failed for key [7]: no" =
    some (mergeFailure [1, 255] ", 3]: Merge failed for key [7]: no") := by decide +kernel

end OrderedStore.Fault
