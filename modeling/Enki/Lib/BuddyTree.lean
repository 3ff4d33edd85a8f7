import Mathlib.Data.List.Perm.Basic
import Mathlib.Data.Nat.Log
import Mathlib.Tactic.Ring

/-!
# Buddy trees

A region of `2 ^ k` units is free, used as one block, or split into two halves of
order `k - 1`. `Shape k` is such a division; it is all that a buddy allocator has to
remember. `Shape.take` carves a block out of the leftmost half that has room for it,
`Shape.release` gives one back and merges halves that are both free.

An implicit tree stores for each node (the root is 1, the halves of `n` are `2 * n`
and `2 * n + 1`) the order of the largest free block below it, -1 when there is none.
`Rep t n s` says that the entries of `t` from node `n` down store `s`. Nothing is said
of the entries below a free or a used node.
-/

namespace Enki.BuddyTree

/-! ## Blocks of units -/

/-- Two blocks `(start, order)` that share no unit. -/
def Apart (x y : Nat × Nat) : Prop := x.1 + 2 ^ x.2 ≤ y.1 ∨ y.1 + 2 ^ y.2 ≤ x.1

/-- Units `o` up to `o + 2 ^ j` of a list of used blocks are in none of them. -/
def Clear (used : List (Nat × Nat)) (o j : Nat) : Prop :=
  ∀ x ∈ used, Apart (o, j) x

/-- An aligned block of `2 ^ j` units inside the region that starts at `base`. -/
def Sub (k base o j : Nat) : Prop :=
  2 ^ j ∣ o ∧ base ≤ o ∧ o + 2 ^ j ≤ base + 2 ^ k

theorem Sub.order_le {k base o j : Nat} (h : Sub k base o j) : j ≤ k :=
  (Nat.pow_le_pow_iff_right (le_refl 2)).mp (by have := h.2; omega)

/-- An aligned block smaller than its region lies in one of the halves. -/
theorem Sub.half {k base o j : Nat} (hbase : 2 ^ (k + 1) ∣ base) (h : Sub (k + 1) base o j)
    (hj : j ≤ k) : Sub k base o j ∨ Sub k (base + 2 ^ k) o j := by
  obtain ⟨halign, hlow, hhigh⟩ := h
  have hpow := Nat.two_pow_succ k
  have hhalf : 2 ^ k ∣ base := (pow_dvd_pow 2 (Nat.le_succ k)).trans hbase
  obtain ⟨m, hm⟩ : 2 ^ j ∣ base + 2 ^ k :=
    (pow_dvd_pow 2 hj).trans (Nat.dvd_add hhalf (dvd_refl _))
  obtain ⟨q, rfl⟩ := halign
  by_cases hq : q < m
  · refine .inl ⟨⟨q, rfl⟩, hlow, ?_⟩
    calc 2 ^ j * q + 2 ^ j = 2 ^ j * (q + 1) := (Nat.mul_succ _ _).symm
      _ ≤ 2 ^ j * m := Nat.mul_le_mul_left _ hq
      _ = base + 2 ^ k := hm.symm
  · refine .inr ⟨⟨q, rfl⟩, ?_, by omega⟩
    rw [hm]
    exact Nat.mul_le_mul_left _ (not_lt.mp hq)

/-- A block of the region itself is the region. -/
theorem Sub.whole {k base o : Nat} (h : Sub k base o k) : o = base := by
  have := h.2
  omega

theorem Apart.symm {x y : Nat × Nat} (h : Apart x y) : Apart y x := Or.symm h

/-- What is apart from a region is apart from every part of it. -/
theorem Sub.apart {k base o j : Nat} (h : Sub k base o j) {x : Nat × Nat}
    (hx : Apart (base, k) x) : Apart (o, j) x := by
  have := h.2
  simp only [Apart] at hx ⊢
  omega

/-- The region of order `j` at `o` is split: it is neither free nor part of a used block. -/
def IsSplit (used : List (Nat × Nat)) (o j : Nat) : Prop :=
  ¬Clear used o j ∧ ∀ x ∈ used, ¬(x.1 ≤ o ∧ o + 2 ^ j ≤ x.1 + 2 ^ x.2)

/-- Used blocks that are apart from a region do not split it. -/
theorem IsSplit.restrict {used used' : List (Nat × Nat)} {o j : Nat} (h : IsSplit used o j)
    (hsub : ∀ x ∈ used', x ∈ used) (hrest : ∀ x ∈ used, x ∈ used' ∨ Apart (o, j) x) :
    IsSplit used' o j := by
  refine ⟨fun hclear => h.1 fun x hx => ?_, fun x hx => h.2 x (hsub x hx)⟩
  rcases hrest x hx with hx | hx
  · exact hclear x hx
  · exact hx

/-- The parent of the `r`-th region at level `d` lies in the whole. -/
theorem parent_le {r d : Nat} (hd : 0 < d) (hr : r < 2 ^ d) (k : Nat) :
    r / 2 * 2 ^ (k + 1) + 2 ^ (k + 1) ≤ 2 ^ (k + d) := by
  obtain ⟨d, rfl⟩ := Nat.exists_eq_add_of_le' hd
  have hle : r / 2 + 1 ≤ 2 ^ d := by
    rw [pow_succ] at hr
    omega
  calc r / 2 * 2 ^ (k + 1) + 2 ^ (k + 1) = (r / 2 + 1) * 2 ^ (k + 1) := (Nat.succ_mul _ _).symm
    _ ≤ 2 ^ d * 2 ^ (k + 1) := Nat.mul_le_mul_right _ hle
    _ = 2 ^ (k + (d + 1)) := by rw [← pow_add]; congr 1; omega

/-! ## Divisions -/

/-- A region of `2 ^ k` units. -/
inductive Shape : Nat → Type where
  | free {k} : Shape k
  | used {k} : Shape k
  | split {k} (l r : Shape k) : Shape (k + 1)

namespace Shape

variable {k : Nat}

/-- The order of the largest free block, -1 if there is none. -/
def largest : {k : Nat} → Shape k → Int
  | k, free => k
  | _, used => -1
  | _, split l r => max l.largest r.largest

/-- The used blocks of a region that starts at `base`: where each starts, and its order. -/
def blocks : {k : Nat} → Nat → Shape k → List (Nat × Nat)
  | _, _, free => []
  | k, base, used => [(base, k)]
  | _, base, @split k l r => l.blocks base ++ r.blocks (base + 2 ^ k)
termination_by structural _ _ s => s

/-- Free halves are merged everywhere. -/
def Reduced : {k : Nat} → Shape k → Prop
  | _, free => True
  | _, used => True
  | _, split l r => ¬(l = free ∧ r = free) ∧ l.Reduced ∧ r.Reduced

/-- The two halves; those of a free region are free. -/
def halves : Shape (k + 1) → Shape k × Shape k
  | free => (free, free)
  | used => (used, used)
  | split l r => (l, r)

/-- Split, but never into two free halves. -/
def join : Shape k → Shape k → Shape (k + 1)
  | free, free => free
  | l, r => split l r

/-- Use a block of order `need`, in the left half if it has one. -/
def take (need : Nat) : {k : Nat} → Shape k → Shape k
  | 0, _ => used
  | k + 1, s =>
    if k + 1 ≤ need then used
    else if s.halves.1.largest < need then split s.halves.1 (s.halves.2.take need)
    else split (s.halves.1.take need) s.halves.2

/-- Where the block starts that `take` uses, in a region that starts at `base`. -/
def place (need : Nat) : {k : Nat} → Shape k → Nat → Nat
  | 0, _, base => base
  | k + 1, s, base =>
    if k + 1 ≤ need then base
    else if s.halves.1.largest < need then s.halves.2.place need (base + 2 ^ k)
    else s.halves.1.place need base

/-- Give the block that starts at `o` back. -/
def release (o : Nat) : {k : Nat} → Nat → Shape k → Shape k
  | _, _, free => free
  | _, _, used => free
  | _, base, @split k l r =>
    if o < base + 2 ^ k then join (l.release o base) r else join l (r.release o (base + 2 ^ k))
termination_by structural _ _ s => s

/-! ## The largest free block -/

@[simp] theorem largest_free : (free : Shape k).largest = k := rfl

@[simp] theorem largest_used : (used : Shape k).largest = -1 := rfl

@[simp] theorem largest_split (l r : Shape k) : (split l r).largest = max l.largest r.largest := rfl

theorem neg_one_le_largest (s : Shape k) : -1 ≤ s.largest := by
  induction s with
  | free => rw [largest_free]; omega
  | used => exact le_refl _
  | split l r ihl ihr => exact le_max_of_le_left ihl

theorem largest_le (s : Shape k) : s.largest ≤ k := by
  induction s with
  | free => exact le_refl _
  | used => rw [largest_used]; omega
  | split l r ihl ihr =>
    rw [largest_split]
    push_cast
    omega

theorem largest_split_lt (l r : Shape k) : (split l r).largest < (k + 1 : Nat) := by
  have hl := l.largest_le
  have hr := r.largest_le
  rw [largest_split]
  omega

/-- A region has a free block of its own order only if it is free. -/
theorem eq_free_of_largest {s : Shape k} (h : s.largest = k) : s = free := by
  cases s with
  | free => rfl
  | used => rw [largest_used] at h; omega
  | split l r => exact absurd h (ne_of_lt (largest_split_lt l r))

theorem largest_eq_iff (s : Shape k) : s.largest = k ↔ s = free := by
  refine ⟨eq_free_of_largest, ?_⟩
  rintro rfl
  rfl

theorem largest_halves {s : Shape (k + 1)} {need : Nat} (h : (need : Int) ≤ s.largest)
    (hk : need ≤ k) : (need : Int) ≤ s.halves.1.largest ∨ (need : Int) ≤ s.halves.2.largest := by
  cases s with
  | free => exact .inl (by simpa [halves] using hk)
  | used => rw [largest_used] at h; omega
  | split l r => simpa [halves] using h

theorem join_cases (l r : Shape k) : (l = free ∧ r = free ∧ join l r = free) ∨
    (¬(l = free ∧ r = free) ∧ join l r = split l r) := by
  cases l <;> cases r <;> simp [join]

/-! ## The used blocks -/

/-- A block lies in its region. -/
theorem mem_blocks_bounds {s : Shape k} {base o j : Nat} (h : (o, j) ∈ s.blocks base) :
    base ≤ o ∧ o + 2 ^ j ≤ base + 2 ^ k ∧ j ≤ k := by
  induction s generalizing base with
  | free => cases h
  | @used k =>
    obtain ⟨rfl, rfl⟩ := Prod.mk.inj (List.mem_singleton.mp h)
    exact ⟨le_refl _, le_refl _, le_refl _⟩
  | @split k l r ihl ihr =>
    have hpow := Nat.two_pow_succ k
    have hpos := Nat.two_pow_pos k
    rcases List.mem_append.mp h with h | h
    · obtain ⟨h1, h2, h3⟩ := ihl h
      exact ⟨h1, by omega, by omega⟩
    · obtain ⟨h1, h2, h3⟩ := ihr h
      exact ⟨by omega, by omega, by omega⟩

/-- A block is aligned to its size when its region is. -/
theorem mem_blocks_aligned {s : Shape k} {base o j : Nat} (hbase : 2 ^ k ∣ base)
    (h : (o, j) ∈ s.blocks base) : 2 ^ j ∣ o := by
  induction s generalizing base with
  | free => cases h
  | used =>
    obtain ⟨rfl, rfl⟩ := Prod.mk.inj (List.mem_singleton.mp h)
    exact hbase
  | @split k l r ihl ihr =>
    have hhalf : 2 ^ k ∣ base := (pow_dvd_pow 2 (Nat.le_succ k)).trans hbase
    rcases List.mem_append.mp h with h | h
    · exact ihl hhalf h
    · exact ihr (Nat.dvd_add hhalf (dvd_refl _)) h

theorem blocks_apart (s : Shape k) (base : Nat) : (s.blocks base).Pairwise Apart := by
  induction s generalizing base with
  | free => exact .nil
  | used => exact List.pairwise_singleton _ _
  | split l r ihl ihr =>
    refine List.pairwise_append.mpr ⟨ihl _, ihr _, ?_⟩
    rintro ⟨o, j⟩ hx ⟨o', j'⟩ hy
    exact .inl (le_trans (mem_blocks_bounds hx).2.1 (mem_blocks_bounds hy).1)

/-- A reduced region without used blocks is free. -/
theorem eq_free_of_blocks {s : Shape k} (hs : s.Reduced) {base : Nat}
    (h : s.blocks base = []) : s = free := by
  induction s generalizing base with
  | free => rfl
  | used => cases h
  | split l r ihl ihr =>
    obtain ⟨hl, hr⟩ := List.append_eq_nil_iff.mp h
    exact absurd ⟨ihl hs.2.1 hl, ihr hs.2.2 hr⟩ hs.1

theorem blocks_halves {s : Shape (k + 1)} (hs : s ≠ used) (base : Nat) :
    s.blocks base = s.halves.1.blocks base ++ s.halves.2.blocks (base + 2 ^ k) := by
  cases s with
  | free => rfl
  | used => exact absurd rfl hs
  | split l r => rfl

theorem reduced_halves {s : Shape (k + 1)} (hs : s.Reduced) :
    s.halves.1.Reduced ∧ s.halves.2.Reduced := by
  cases s with
  | free => exact ⟨trivial, trivial⟩
  | used => exact ⟨trivial, trivial⟩
  | split l r => exact hs.2

/-! ## Taking a block -/

theorem take_succ (need : Nat) (s : Shape (k + 1)) :
    s.take need =
      if k + 1 ≤ need then used
      else if s.halves.1.largest < need then split s.halves.1 (s.halves.2.take need)
      else split (s.halves.1.take need) s.halves.2 :=
  rfl

theorem take_ne_free (need : Nat) (s : Shape k) : s.take need ≠ free := by
  cases k with
  | zero => exact nofun
  | succ k =>
    rw [take_succ]
    split_ifs <;> simp

theorem reduced_take {need : Nat} {s : Shape k} (hs : s.Reduced) : (s.take need).Reduced := by
  induction k with
  | zero => trivial
  | succ k ih =>
    obtain ⟨hl, hr⟩ := reduced_halves hs
    rw [take_succ]
    split_ifs
    · trivial
    · exact ⟨fun h => take_ne_free need _ h.2, hl, ih hr⟩
    · exact ⟨fun h => take_ne_free need _ h.1, ih hl, hr⟩

theorem ne_used_of_largest {s : Shape k} {need : Nat} (h : (need : Int) ≤ s.largest) :
    s ≠ used := by
  rintro rfl
  rw [largest_used] at h
  omega

/-- The blocks are those from before and the one at `place`. -/
theorem blocks_take {need : Nat} {s : Shape k} (h : (need : Int) ≤ s.largest) (base : Nat) :
    ((s.take need).blocks base).Perm ((s.place need base, need) :: s.blocks base) := by
  have hle := s.largest_le
  induction k generalizing base with
  | zero =>
    obtain rfl : need = 0 := by omega
    obtain rfl : s = free := eq_free_of_largest (by simpa using le_antisymm hle h)
    exact .refl _
  | succ k ih =>
    simp only [take_succ, place]
    by_cases hneed : k + 1 ≤ need
    · obtain rfl : need = k + 1 := by omega
      obtain rfl : s = free := eq_free_of_largest (le_antisymm hle h)
      simp only [le_refl, if_true]
      exact .refl _
    · simp only [hneed, if_false, blocks_halves (ne_used_of_largest h)]
      split_ifs with hleft
      · have hright : (need : Int) ≤ s.halves.2.largest := by
          rcases largest_halves h (by omega) with h | h
          · omega
          · exact h
        exact ((ih hright _ (largest_le _)).append_left _).trans List.perm_middle
      · exact (ih (not_lt.mp hleft) base (largest_le _)).append_right _

/-! ## Giving a block back -/

theorem reduced_join {l r : Shape k} (hl : l.Reduced) (hr : r.Reduced) : (join l r).Reduced := by
  rcases join_cases l r with ⟨-, -, h⟩ | ⟨hne, h⟩ <;> rw [h]
  · trivial
  · exact ⟨hne, hl, hr⟩

theorem reduced_release {s : Shape k} (hs : s.Reduced) (o base : Nat) :
    (s.release o base).Reduced := by
  induction s generalizing base with
  | free => trivial
  | used => trivial
  | split l r ihl ihr =>
    simp only [release]
    split_ifs
    · exact reduced_join (ihl hs.2.1 _) hs.2.2
    · exact reduced_join hs.2.1 (ihr hs.2.2 _)

theorem blocks_join (l r : Shape k) (base : Nat) :
    (join l r).blocks base = l.blocks base ++ r.blocks (base + 2 ^ k) := by
  rcases join_cases l r with ⟨rfl, rfl, -⟩ | ⟨-, h⟩
  · rfl
  · rw [h]; rfl

/-- The other blocks stay. -/
theorem blocks_release {s : Shape k} {base o j : Nat} (h : (o, j) ∈ s.blocks base) :
    (s.release o base).blocks base = (s.blocks base).erase (o, j) := by
  induction s generalizing base with
  | free => cases h
  | used =>
    obtain ⟨rfl, rfl⟩ := Prod.mk.inj (List.mem_singleton.mp h)
    simp [release, blocks]
  | @split k l r ihl ihr =>
    simp only [release, blocks] at h ⊢
    rcases List.mem_append.mp h with hl | hr
    · have hlt : o < base + 2 ^ k := by
        have := mem_blocks_bounds hl
        have := Nat.two_pow_pos j
        omega
      rw [if_pos hlt, blocks_join, ihl hl, List.erase_append_left _ hl]
    · have hge := (mem_blocks_bounds hr).1
      have hl : (o, j) ∉ l.blocks base := by
        intro hl
        have := mem_blocks_bounds hl
        have := Nat.two_pow_pos j
        omega
      rw [if_neg (not_lt.mpr hge), blocks_join, ihr hr, List.erase_append_right _ hl]

/-! ## Room -/

/-- There is room for a block of order `j` exactly if the largest free block has it. -/
theorem room_iff {s : Shape k} (hs : s.Reduced) {base : Nat} (hbase : 2 ^ k ∣ base) (j : Nat) :
    (j : Int) ≤ s.largest ↔ ∃ o, Sub k base o j ∧ Clear (s.blocks base) o j := by
  induction s generalizing base with
  | @free k =>
    constructor
    · intro hj
      have hle : j ≤ k := by simpa using hj
      have hpow : 2 ^ j ≤ 2 ^ k := Nat.pow_le_pow_right (by decide) hle
      exact ⟨base, ⟨(pow_dvd_pow 2 hle).trans hbase, le_refl _, by omega⟩, by rintro x ⟨⟩⟩
    · rintro ⟨o, hsub, -⟩
      simpa using hsub.order_le
  | @used k =>
    constructor
    · intro hj
      rw [largest_used] at hj
      omega
    · rintro ⟨o, ⟨-, hlow, hhigh⟩, hclear⟩
      have := Nat.two_pow_pos j
      rcases hclear (base, k) (List.mem_singleton_self _) with h | h <;> simp only at h <;> omega
  | @split k l r ihl ihr =>
    have hhalf : 2 ^ k ∣ base := (pow_dvd_pow 2 (Nat.le_succ k)).trans hbase
    have hhalf' : 2 ^ k ∣ base + 2 ^ k := Nat.dvd_add hhalf (dvd_refl _)
    have hpow := Nat.two_pow_succ k
    simp only [largest_split, le_max_iff, ihl hs.2.1 hhalf, ihr hs.2.2 hhalf', blocks]
    constructor
    · rintro (⟨o, ⟨h1, h2, h3⟩, hclear⟩ | ⟨o, ⟨h1, h2, h3⟩, hclear⟩)
      · refine ⟨o, ⟨h1, h2, by omega⟩, fun x hx => ?_⟩
        rcases List.mem_append.mp hx with hx | hx
        · exact hclear x hx
        · exact .inl (le_trans h3 (mem_blocks_bounds (o := x.1) (j := x.2) hx).1)
      · refine ⟨o, ⟨h1, by omega, by omega⟩, fun x hx => ?_⟩
        rcases List.mem_append.mp hx with hx | hx
        · exact .inr (le_trans (mem_blocks_bounds (o := x.1) (j := x.2) hx).2.1 h2)
        · exact hclear x hx
    · rintro ⟨o, hsub, hclear⟩
      by_cases hj : j ≤ k
      · have hl : Clear (l.blocks base) o j := fun x hx => hclear x (List.mem_append_left _ hx)
        have hr : Clear (r.blocks (base + 2 ^ k)) o j :=
          fun x hx => hclear x (List.mem_append_right _ hx)
        rcases hsub.half hbase hj with h | h
        · exact .inl ⟨o, h, hl⟩
        · exact .inr ⟨o, h, hr⟩
      · -- the block would be the whole region, which has a used block
        obtain rfl : j = k + 1 := by have := hsub.order_le; omega
        obtain rfl := hsub.whole
        have hempty : (split l r).blocks o = [] := by
          refine List.eq_nil_iff_forall_not_mem.mpr ?_
          rintro ⟨o', j'⟩ hx
          have hb := mem_blocks_bounds hx
          have := Nat.two_pow_pos j'
          rcases hclear (o', j') hx with h | h <;> simp only at h <;> omega
        cases eq_free_of_blocks hs hempty

end Shape

/-! ## The implicit tree -/

/-- The entries from `n` down store a shape. -/
def Rep (t : Nat → Int) : {k : Nat} → Nat → Shape k → Prop
  | k, n, .free => t n = k
  | _, n, .used => t n = -1
  | _, n, .split l r => t n = max l.largest r.largest ∧ Rep t (2 * n) l ∧ Rep t (2 * n + 1) r
termination_by structural _ _ s => s

/-- `m` is `n` or below it. -/
def Below (n m : Nat) : Prop := ∃ d, m / 2 ^ d = n

theorem Below.refl (n : Nat) : Below n n := ⟨0, by simp⟩

theorem Below.parent {n m c : Nat} (hc : c / 2 = n) (h : Below c m) : Below n m := by
  obtain ⟨d, rfl⟩ := h
  exact ⟨d + 1, by rw [pow_succ, ← Nat.div_div_eq_div_mul, hc]⟩

theorem Below.le {n m : Nat} (h : Below n m) : n ≤ m := by
  obtain ⟨d, rfl⟩ := h
  exact Nat.div_le_self _ _

/-- Nothing is below both halves. -/
theorem Below.apart {n m : Nat} (hn : 0 < n) (hl : Below (2 * n) m) : ¬Below (2 * n + 1) m := by
  rintro ⟨e, he⟩
  obtain ⟨d, hd⟩ := hl
  rcases lt_trichotomy d e with h | rfl | h
  · obtain ⟨i, rfl⟩ := Nat.exists_eq_add_of_lt h
    rw [Nat.add_assoc, pow_add, ← Nat.div_div_eq_div_mul, hd] at he
    have := Nat.div_le_self (2 * n) (2 ^ (i + 1))
    omega
  · omega
  · obtain ⟨i, rfl⟩ := Nat.exists_eq_add_of_lt h
    rw [Nat.add_assoc, pow_add, ← Nat.div_div_eq_div_mul, he, pow_succ', ← Nat.div_div_eq_div_mul]
      at hd
    have := Nat.div_le_self ((2 * n + 1) / 2) (2 ^ i)
    omega

section

variable {t t' : Nat → Int} {k n : Nat}

/-- Only the entries below the node count. -/
theorem Rep.congr {s : Shape k} (h : Rep t n s) (heq : ∀ m, Below n m → t' m = t m) :
    Rep t' n s := by
  induction s generalizing n with
  | free => exact (heq n (.refl n)).trans h
  | used => exact (heq n (.refl n)).trans h
  | split l r ihl ihr =>
    obtain ⟨htop, hl, hr⟩ := h
    refine ⟨(heq n (.refl n)).trans htop, ihl hl fun m hm => ?_, ihr hr fun m hm => ?_⟩
    · exact heq m (hm.parent (by omega))
    · exact heq m (hm.parent (by omega))

/-- A node's entry is the order of the largest free block below it. -/
theorem Rep.entry {s : Shape k} (h : Rep t n s) : t n = s.largest := by
  cases s with
  | free => exact h
  | used => exact h
  | split l r => exact h.1

/-- What changes only the left half keeps the right one. -/
theorem Rep.keep_right {r : Shape k} (hn : 0 < n) (hr : Rep t (2 * n + 1) r)
    (hout : ∀ m, ¬Below (2 * n) m → t' m = t m) : Rep t' (2 * n + 1) r :=
  hr.congr fun m hm => hout m fun h => Below.apart hn h hm

/-- What changes only the right half keeps the left one. -/
theorem Rep.keep_left {l : Shape k} (hn : 0 < n) (hl : Rep t (2 * n) l)
    (hout : ∀ m, ¬Below (2 * n + 1) m → t' m = t m) : Rep t' (2 * n) l :=
  hl.congr fun m hm => hout m (Below.apart hn hm)

/-- The entries are right at the root and below every split region: those from the
`r`-th node down, `d` levels below `n`, store the part of the division that lies there. -/
theorem Rep.locate {s : Shape k} {base k' d r : Nat} (h : Rep t n s) (hs : s.Reduced)
    (hk : k = k' + d) (hr : r < 2 ^ d)
    (hsplit : d = 0 ∨ IsSplit (s.blocks base) (base + r / 2 * 2 ^ (k' + 1)) (k' + 1)) :
    ∃ s' : Shape k', Rep t (n * 2 ^ d + r) s' ∧ s'.Reduced ∧
      (∀ x ∈ s'.blocks (base + r * 2 ^ k'), x ∈ s.blocks base) ∧
      ∀ x ∈ s.blocks base, x ∈ s'.blocks (base + r * 2 ^ k') ∨ Apart (base + r * 2 ^ k', k') x := by
  induction s generalizing n base d r with
  | @free k =>
    rcases Nat.eq_zero_or_pos d with rfl | hd
    · obtain rfl : k = k' := hk
      obtain rfl : r = 0 := by simpa using hr
      exact ⟨.free, by simpa using h, trivial, by simp [Shape.blocks], by simp [Shape.blocks]⟩
    · have hpar := hsplit.resolve_left (by omega)
      exact absurd (by rintro x ⟨⟩) hpar.1
  | @used k =>
    rcases Nat.eq_zero_or_pos d with rfl | hd
    · obtain rfl : k = k' := hk
      obtain rfl : r = 0 := by simpa using hr
      exact ⟨.used, by simpa using h, trivial, by simp [Shape.blocks], by simp [Shape.blocks]⟩
    · have hpar := hsplit.resolve_left (by omega)
      refine absurd ⟨by simp, ?_⟩ (hpar.2 (base, k) (List.mem_singleton_self _))
      have := parent_le hd hr k'
      simp only [hk]
      omega
  | @split k a c iha ihc =>
    rcases Nat.eq_zero_or_pos d with rfl | hd
    · obtain rfl : k + 1 = k' := hk
      obtain rfl : r = 0 := by simpa using hr
      exact ⟨.split a c, by simpa using h, hs, by simp, fun x hx => .inl (by simpa using hx)⟩
    · have hpar := hsplit.resolve_left (by omega)
      obtain ⟨d, rfl⟩ := Nat.exists_eq_add_of_le' hd
      obtain ⟨-, ha, hc⟩ := h
      have hk : k = k' + d := by omega
      have hsize : 2 ^ k = 2 ^ d * 2 ^ k' := by rw [← pow_add, hk, Nat.add_comm]
      by_cases hside : r < 2 ^ d
      · have hin : ∀ x ∈ c.blocks (base + 2 ^ k), ∀ o j, o + 2 ^ j ≤ base + 2 ^ k →
            Apart (o, j) x := fun x hx o j hle =>
          .inl (hle.trans (Shape.mem_blocks_bounds (o := x.1) (j := x.2) hx).1)
        have hsplit' : d = 0 ∨ IsSplit (a.blocks base) (base + r / 2 * 2 ^ (k' + 1)) (k' + 1) := by
          refine (Nat.eq_zero_or_pos d).imp_right fun hd => hpar.restrict
            (fun x hx => List.mem_append_left _ hx) fun x hx => ?_
          refine (List.mem_append.mp hx).imp_right fun hx => hin x hx _ _ ?_
          have := parent_le hd hside k'
          rw [hk]
          omega
        obtain ⟨s', hrep, hred, hsub, hrest⟩ := iha ha hs.2.1 hk hside hsplit'
        refine ⟨s', ?_, hred, fun x hx => List.mem_append_left _ (hsub x hx), fun x hx => ?_⟩
        · rwa [show n * 2 ^ (d + 1) + r = 2 * n * 2 ^ d + r by rw [pow_succ]; ring]
        · rcases List.mem_append.mp hx with hx | hx
          · exact hrest x hx
          · refine .inr (hin x hx _ _ ?_)
            have := Nat.mul_le_mul_right (2 ^ k') hside
            rw [Nat.succ_mul, ← hsize] at this
            omega
      · obtain ⟨q, rfl⟩ := Nat.exists_eq_add_of_le (not_lt.mp hside)
        have hq : q < 2 ^ d := by
          rw [pow_succ] at hr
          omega
        have hin : ∀ x ∈ a.blocks base, ∀ o j, base + 2 ^ k ≤ o → Apart (o, j) x :=
          fun x hx o j hle => .inr
            ((Shape.mem_blocks_bounds (o := x.1) (j := x.2) hx).2.1.trans hle)
        have hstart : base + (2 ^ d + q) * 2 ^ k' = base + 2 ^ k + q * 2 ^ k' := by
          rw [hsize]; ring
        have hsplit' : d = 0 ∨ IsSplit (c.blocks (base + 2 ^ k))
            (base + 2 ^ k + q / 2 * 2 ^ (k' + 1)) (k' + 1) := by
          refine (Nat.eq_zero_or_pos d).imp_right fun hd => ?_
          obtain ⟨d, rfl⟩ := Nat.exists_eq_add_of_le' hd
          have hparent : base + (2 ^ (d + 1) + q) / 2 * 2 ^ (k' + 1) =
              base + 2 ^ k + q / 2 * 2 ^ (k' + 1) := by
            rw [show (2 ^ (d + 1) + q) / 2 = 2 ^ d + q / 2 by rw [pow_succ]; omega, hsize]
            ring
          rw [hparent] at hpar
          exact hpar.restrict (fun x hx => List.mem_append_right _ hx) fun x hx =>
            (List.mem_append.mp hx).symm.imp_right fun hx => hin x hx _ _ (by omega)
        obtain ⟨s', hrep, hred, hsub, hrest⟩ := ihc hc hs.2.2 hk hq hsplit'
        rw [hstart]
        refine ⟨s', ?_, hred, fun x hx => List.mem_append_right _ (hsub x hx), fun x hx => ?_⟩
        · rwa [show n * 2 ^ (d + 1) + (2 ^ d + q) = (2 * n + 1) * 2 ^ d + q by rw [pow_succ]; ring]
        · rcases List.mem_append.mp hx with hx | hx
          · exact .inr (hin x hx _ _ (by omega))
          · exact hrest x hx

/-- Two stored halves and their maximum store a split region. -/
theorem Rep.split {l r : Shape k} (hn : 0 < n) (hl : Rep t (2 * n) l) (hr : Rep t (2 * n + 1) r) :
    Rep (Function.update t n (max l.largest r.largest)) n (.split l r) := by
  refine ⟨by simp, hl.congr fun m hm => ?_, hr.congr fun m hm => ?_⟩
  all_goals
    have := hm.le
    exact Function.update_of_ne (by omega) _ _

/-- The same where free halves are merged. -/
theorem Rep.join {l r : Shape k} (hn : 0 < n) (hl : Rep t (2 * n) l) (hr : Rep t (2 * n + 1) r) :
    Rep (Function.update t n (l.join r).largest) n (l.join r) := by
  rcases l.join_cases r with ⟨-, -, h⟩ | ⟨-, h⟩ <;> rw [h]
  · exact Function.update_self n _ t
  · exact Rep.split hn hl hr

end

end Enki.BuddyTree
