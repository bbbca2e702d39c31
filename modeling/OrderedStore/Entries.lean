import OrderedStore.Bytes

/-!
# Entries in ascending order of their keys, and bounds on keys

* `LowerBound κ` : all keys, a key and all later ones, or all keys later than a given one;
  `LowerBound.admits` : the key is within the bound;
* `LowerBound.admits_of_before` : a key that comes after an admitted one is admitted;
* `Ascending` : each key of a list of entries comes before all later ones;
* `Ascending.eq_of_mem_iff` : two ascending lists with the same members are the same list;
* `Ascending.find?_eq_some_iff` : the first entry that passes a test is the least that does.
-/

namespace OrderedStore
open ByteKey

/-! ## Lower bounds -/

/-- Which keys are late enough. -/
inductive LowerBound (κ : Type) where
  /-- All keys. -/
  | unbounded
  /-- The given key and all later ones. -/
  | atLeast (key : κ)
  /-- All keys later than the given one. -/
  | above (key : κ)
  deriving DecidableEq, Repr

namespace LowerBound
variable {κ : Type} [ByteKey κ]

def admits : LowerBound κ → κ → Bool
  | unbounded, _ => true
  | atLeast bound, key => !decide (Before key bound)
  | above bound, key => decide (Before bound key)

@[simp] theorem admits_unbounded (key : κ) : unbounded.admits key = true := rfl

@[simp] theorem admits_atLeast {bound key : κ} :
    (atLeast bound).admits key = true ↔ ¬ Before key bound := by simp [admits]

@[simp] theorem admits_above {bound key : κ} :
    (above bound).admits key = true ↔ Before bound key := by simp [admits]

theorem admits_of_before {bound : LowerBound κ} {a b : κ} (hab : Before a b)
    (ha : bound.admits a = true) : bound.admits b = true := by
  cases bound with
  | unbounded => rfl
  | atLeast key =>
    rw [admits_atLeast] at ha ⊢
    exact fun hb => ha (before_trans hab hb)
  | above key =>
    rw [admits_above] at ha ⊢
    exact before_trans ha hab

end LowerBound

/-! ## Ascending entries -/

variable {κ β : Type} [ByteKey κ]

/-- Each key comes before all later ones. -/
def Ascending (entries : List (κ × β)) : Prop :=
  entries.Pairwise fun a b => Before a.1 b.1

namespace Ascending

theorem nil : Ascending ([] : List (κ × β)) := List.Pairwise.nil

theorem cons_iff {l : List (κ × β)} {e : κ × β} :
    Ascending (e :: l) ↔ (∀ x ∈ l, Before e.1 x.1) ∧ Ascending l := List.pairwise_cons

theorem append_cons_iff {l r : List (κ × β)} {e : κ × β} :
    Ascending (l ++ e :: r) ↔
      Ascending l ∧ Ascending r ∧ (∀ x ∈ l, Before x.1 e.1) ∧ ∀ x ∈ r, Before e.1 x.1 := by
  simp only [Ascending, List.pairwise_append, List.pairwise_cons, List.mem_cons]
  constructor
  · rintro ⟨hl, ⟨her, hr⟩, hlr⟩
    exact ⟨hl, hr, fun x hx => hlr x hx e (.inl rfl), her⟩
  · rintro ⟨hl, hr, hle, her⟩
    refine ⟨hl, ⟨her, hr⟩, fun x hx y hy => ?_⟩
    rcases hy with rfl | hy
    · exact hle x hx
    · exact before_trans (hle x hx) (her y hy)

theorem eq_of_mem_iff {l l' : List (κ × β)} (hl : Ascending l) (hl' : Ascending l')
    (h : ∀ x, x ∈ l ↔ x ∈ l') : l = l' := by
  induction l generalizing l' with
  | nil => cases l' with
    | nil => rfl
    | cons e' _ => exact absurd ((h e').2 (by simp)) (by simp)
  | cons e rest ih => cases l' with
    | nil => exact absurd ((h e).1 (by simp)) (by simp)
    | cons e' rest' =>
      obtain ⟨he, hrest⟩ := cons_iff.1 hl
      obtain ⟨he', hrest'⟩ := cons_iff.1 hl'
      have heq : e = e' := by
        rcases List.mem_cons.1 ((h e).1 (by simp)) with heq | hin
        · exact heq
        · rcases List.mem_cons.1 ((h e').2 (by simp)) with heq | hin'
          · exact heq.symm
          · exact absurd (he' e hin) (before_asymm (he e' hin'))
      subst heq
      rw [ih hrest hrest' fun x => ?_]
      have hx : x ∈ rest ∨ x ∈ rest' → x ≠ e := by
        rintro (hin | hin) rfl
        · exact before_irrefl _ (he _ hin)
        · exact before_irrefl _ (he' _ hin)
      have := h x
      grind

/-- The first entry that passes a test comes before every other entry that does. -/
theorem find?_eq_some_iff {l : List (κ × β)} (hl : Ascending l) {p : κ → Bool} {e : κ × β} :
    (l.find? fun x => p x.1) = some e ↔
      e ∈ l ∧ p e.1 = true ∧ ∀ x ∈ l, p x.1 = true → x = e ∨ Before e.1 x.1 := by
  induction l with
  | nil => simp
  | cons a rest ih =>
    obtain ⟨ha, hrest⟩ := cons_iff.1 hl
    cases hadm : p a.1 with
    | true =>
      rw [List.find?_cons_of_pos (by simpa using hadm), Option.some.injEq]
      constructor
      · rintro rfl
        refine ⟨by simp, hadm, fun x hx _ => ?_⟩
        rcases List.mem_cons.1 hx with rfl | hx
        · exact .inl rfl
        · exact .inr (ha x hx)
      · rintro ⟨he, -, hleast⟩
        rcases List.mem_cons.1 he with rfl | he
        · rfl
        · rcases hleast a (by simp) hadm with rfl | h
          · rfl
          · exact absurd h (before_asymm (ha e he))
    | false =>
      rw [List.find?_cons_of_neg (by simp [hadm]), ih hrest]
      constructor
      · rintro ⟨he, hp, hleast⟩
        refine ⟨List.mem_cons_of_mem _ he, hp, fun x hx hx' => ?_⟩
        rcases List.mem_cons.1 hx with rfl | hx
        · simp [hadm] at hx'
        · exact hleast x hx hx'
      · rintro ⟨he, hp, hleast⟩
        rcases List.mem_cons.1 he with rfl | he
        · simp [hadm] at hp
        · exact ⟨he, hp, fun x hx => hleast x (List.mem_cons_of_mem _ hx)⟩

end Ascending
end OrderedStore
