import Mathlib.Algebra.Ring.Nat
import Mathlib.Data.List.Basic
import Mathlib.Algebra.BigOperators.Group.List.Basic

/-!
# Tallies over a list

The sum of a weight over the elements of a list, and how it changes when one
element is replaced. Counters kept by hand beside a list of records are tallies
of that list, and each update of a record moves them by the difference of two
weights.
-/

namespace Enki

variable {α : Type}

/-- The sum of `f` over a list. -/
def tally (f : α → Nat) (l : List α) : Nat := (l.map f).sum

@[simp] theorem tally_nil (f : α → Nat) : tally f [] = 0 := rfl

@[simp] theorem tally_cons (f : α → Nat) (a : α) (l : List α) :
    tally f (a :: l) = f a + tally f l := by
  simp [tally]

@[simp] theorem tally_append (f : α → Nat) (l l' : List α) :
    tally f (l ++ l') = tally f l + tally f l' := by
  simp [tally]

/-- Replacing one element changes the tally by the difference of its weights. -/
theorem tally_set (f : α → Nat) {l : List α} {k : Nat} {a : α} (h : l[k]? = some a) (b : α) :
    tally f (l.set k b) + f a = tally f l + f b := by
  induction l generalizing k with
  | nil => simp at h
  | cons c l ih =>
    cases k with
    | zero =>
      obtain rfl : c = a := by simpa using h
      simp only [List.set_cons_zero, tally_cons]
      omega
    | succ k =>
      have := ih (by simpa using h)
      simp only [List.set_cons_succ, tally_cons]
      omega

theorem le_tally (f : α → Nat) {l : List α} {k : Nat} {a : α} (h : l[k]? = some a) :
    f a ≤ tally f l := by
  induction l generalizing k with
  | nil => simp at h
  | cons c l ih =>
    cases k with
    | zero =>
      obtain rfl : c = a := by simpa using h
      simp
    | succ k =>
      have := ih (by simpa using h)
      simp only [tally_cons]
      omega

theorem tally_eq_zero {f : α → Nat} {l : List α} :
    tally f l = 0 ↔ ∀ a ∈ l, f a = 0 := by
  induction l with
  | nil => simp
  | cons a l ih => simp [ih]

theorem tally_congr {f g : α → Nat} {l : List α} (h : ∀ a ∈ l, f a = g a) :
    tally f l = tally g l := by
  unfold tally
  rw [List.map_congr_left h]

/-- Only one element has a weight. -/
theorem tally_eq_single {f : α → Nat} {l : List α} {k : Nat} {a : α} (h : l[k]? = some a)
    (hz : ∀ (j : Nat) (b : α), j ≠ k → l[j]? = some b → f b = 0) : tally f l = f a := by
  induction l generalizing k with
  | nil => simp at h
  | cons c l ih =>
    rw [tally_cons]
    cases k with
    | zero =>
      obtain rfl : c = a := by simpa using h
      have hl : tally f l = 0 := tally_eq_zero.2 fun b hb => by
        obtain ⟨j, hj⟩ := List.mem_iff_getElem?.mp hb
        exact hz (j + 1) b (by simp) (by simpa using hj)
      rw [hl, Nat.add_zero]
    | succ k =>
      have hc := hz 0 c (by simp) (by simp)
      rw [hc, Nat.zero_add]
      exact ih (by simpa using h) fun j b hj hb => hz (j + 1) b (by simpa using hj) (by simpa using hb)

/-- A tally of truth values counts. -/
theorem countP_eq_tally (p : α → Bool) (l : List α) :
    l.countP p = tally (fun a => (p a).toNat) l := by
  induction l with
  | nil => rfl
  | cons a l ih =>
    rw [List.countP_cons, ih, tally_cons]
    cases p a <;> simp [Nat.add_comm]

/-- Two places of a list with positive weight make the tally at least two. -/
theorem two_le_tally (f : α → Nat) {l : List α} {j k : Nat} {a b : α} (hne : j ≠ k)
    (ha : l[j]? = some a) (hb : l[k]? = some b) (hfa : 0 < f a) (hfb : 0 < f b) :
    2 ≤ tally f l := by
  induction l generalizing j k with
  | nil => simp at ha
  | cons c l ih =>
    cases j with
    | zero =>
      cases k with
      | zero => exact absurd rfl hne
      | succ k =>
        obtain rfl : c = a := by simpa using ha
        have := le_tally f (by simpa using hb : l[k]? = some b)
        simp only [tally_cons]
        omega
    | succ j =>
      cases k with
      | zero =>
        obtain rfl : c = b := by simpa using hb
        have := le_tally f (by simpa using ha : l[j]? = some a)
        simp only [tally_cons]
        omega
      | succ k =>
        have := ih (j := j) (k := k) (by omega) (by simpa using ha) (by simpa using hb)
        simp only [tally_cons]
        omega

end Enki
