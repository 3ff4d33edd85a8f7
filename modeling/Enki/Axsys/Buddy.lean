import Mathlib.Logic.Function.Basic
import Mathlib.Tactic.Ring
import Enki.Axsys.Fd
import Enki.Lib.BuddyTree

/-!
# The buddy allocator

`axsys/src/buddy.c`. The tree is an implicit one, with its root at 1; the entries of
`calloc`ed nodes are 0. Sizes are natural numbers here: none of the sums passes twice
the capacity, which is a power of two that a `size_t` holds.

`alloc` and `free` are shown to be `Shape.take` and `Shape.release` on the division
of the capacity that the tree stores (`alloc_rep`, `free_rep`).
-/

namespace Enki.Axsys

open BuddyTree

/-- The conversion to `int8_t`. -/
def int8 (n : Nat) : Int := (n : Int).bmod 256

theorem int8_of_le {n : Nat} (h : n ≤ 63) : int8 n = n := by
  exact Int.bmod_eq_of_le (by omega) (by omega)

/-- The entries of `tree`. -/
abbrev Tree := Nat → Int

/-- `ax_buddy`. -/
structure Buddy where
  capacity : Nat
  minimum : Nat
  order : Nat
  tree : Tree

namespace Buddy

/-- `ax_buddy_init`; `calloc` is whether there is memory for the tree. -/
def init (capacity minimum : Nat) (calloc : Bool) : Option Buddy :=
  if minimum = 0 ∨ minimum &&& (minimum - 1) ≠ 0 ∨ capacity < minimum ∨
      capacity &&& (capacity - 1) ≠ 0 then none
  else
    let leaves := capacity / minimum
    if leaves > sizeMax / 2 then none
    else if !calloc then none
    else
      some
        { capacity
          minimum
          order := Nat.log2 leaves
          tree := Function.update (fun _ => 0) 1 (int8 (Nat.log2 leaves)) }

/-- The loop that doubles the size until it holds the request. -/
def fit (bytes : Nat) : Nat → Nat → Nat → Nat × Nat
  | 0, size, need => (size, need)
  | fuel + 1, size, need =>
    if size < bytes then fit bytes fuel (size <<< 1) (need + 1) else (size, need)

/-- The entries of the halves of a free node are written when it is split. -/
def splitAt (t : Tree) (node order : Nat) : Tree :=
  if t node = (order + 1 : Nat) then
    Function.update (Function.update t (node * 2) (int8 order)) (node * 2 + 1) (int8 order)
  else t

/-- The way down to a block of order `need`. -/
def descend (minimum need : Nat) : Nat → Tree → Nat → Nat → Tree × Nat × Nat
  | 0, t, node, offset => (t, node, offset)
  | order + 1, t, node, offset =>
    if order + 1 > need then
      let t := splitAt t node order
      if t (node * 2) < need then
        descend minimum need order t (node * 2 + 1) (offset + minimum <<< order)
      else descend minimum need order t (node * 2) offset
    else (t, node, offset)

/-- The way back to the root; `join` computes an entry from the two below it, which
are of order `order`. -/
def ascend (join : Nat → Int → Int → Int) : Nat → Nat → Tree → Nat → Tree
  | 0, _, t, _ => t
  | fuel + 1, order, t, node =>
    if node > 1 then
      let node := node / 2
      ascend join fuel (order + 1)
        (Function.update t node (join order (t (node * 2)) (t (node * 2 + 1)))) node
    else t

/-- What `ax_buddy_alloc` writes on the way up. -/
def larger (_ : Nat) (a c : Int) : Int := if a > c then a else c

/-- What `ax_buddy_free` writes on the way up. -/
def merged (order : Nat) (a c : Int) : Int :=
  if a = order ∧ c = order then int8 (order + 1) else if a > c then a else c

/-- `ax_buddy_alloc`: the offset and `*actual`; `none` is `SIZE_MAX`. -/
def alloc (b : Buddy) (bytes : Nat) : Option (Buddy × Nat × Nat) :=
  if bytes = 0 ∨ bytes > b.capacity then none
  else
    let (size, need) := fit bytes 64 b.minimum 0
    if b.tree 1 < need then none
    else
      let (t, node, offset) := descend b.minimum need b.order b.tree 1 0
      some ({ b with tree := ascend larger 64 need (Function.update t node (-1)) node },
        offset, size)

/-- `ax_buddy_free`; `none` is a failed assumption. -/
def free (b : Buddy) (offset actual : Nat) : Option Buddy :=
  if b.minimum ≤ actual ∧ actual ≤ b.capacity ∧ actual &&& (actual - 1) = 0 ∧
      offset % actual = 0 ∧ offset ≤ b.capacity - actual then
    let order := Nat.log2 (actual / b.minimum)
    let node := (b.capacity + offset) / actual
    if b.tree node = -1 then
      some { b with tree := ascend merged 64 order (Function.update b.tree node (int8 order)) node }
    else none
  else none

/-! ## The way up -/

/-- `d` steps up, whether or not the root is among them. -/
def lift (join : Nat → Int → Int → Int) : Nat → Nat → Tree → Nat → Tree
  | 0, _, t, _ => t
  | d + 1, order, t, node =>
    lift join d (order + 1)
      (Function.update t (node / 2)
        (join order (t (node / 2 * 2)) (t (node / 2 * 2 + 1)))) (node / 2)

/-- The last of the steps. -/
theorem lift_succ (join : Nat → Int → Int → Int) (d order : Nat) (t : Tree) (node : Nat) :
    lift join (d + 1) order t node =
      Function.update (lift join d order t node) (node / 2 ^ (d + 1))
        (join (order + d) (lift join d order t node (node / 2 ^ (d + 1) * 2))
          (lift join d order t node (node / 2 ^ (d + 1) * 2 + 1))) := by
  induction d generalizing order t node with
  | zero => simp [lift]
  | succ d ih =>
    rw [lift, ih]
    have hdiv : node / 2 / 2 ^ (d + 1) = node / 2 ^ (d + 1 + 1) := by
      rw [Nat.div_div_eq_div_mul, ← pow_succ']
    simp only [hdiv, lift, show order + 1 + d = order + (d + 1) by omega]

/-- A way up that passes `c` goes on to the node above it. -/
theorem lift_above (join : Nat → Int → Int → Int) {d node c n : Nat} (hup : node / 2 ^ d = c)
    (hc : c / 2 = n) (order : Nat) (t : Tree) :
    lift join (d + 1) order t node =
      Function.update (lift join d order t node) n
        (join (order + d) (lift join d order t node (n * 2))
          (lift join d order t node (n * 2 + 1))) := by
  have hn : node / 2 ^ (d + 1) = n := by rw [pow_succ, ← Nat.div_div_eq_div_mul, hup, hc]
  rw [lift_succ, hn]

/-- The loop stops at the root. -/
theorem ascend_eq (join : Nat → Int → Int → Int) {d fuel node : Nat} (hnode : node / 2 ^ d = 1)
    (hfuel : d ≤ fuel) (order : Nat) (t : Tree) :
    ascend join fuel order t node = lift join d order t node := by
  induction d generalizing fuel order t node with
  | zero =>
    obtain rfl : node = 1 := by simpa using hnode
    cases fuel <;> rfl
  | succ d ih =>
    obtain ⟨fuel, rfl⟩ := Nat.exists_eq_add_of_le' (show 1 ≤ fuel by omega)
    have hup : node / 2 / 2 ^ d = 1 := by rw [Nat.div_div_eq_div_mul, ← pow_succ', hnode]
    have hgt : node > 1 := by
      by_contra h
      rw [Nat.div_eq_of_lt (lt_of_lt_of_le (by omega) (Nat.pow_le_pow_right (by decide)
        (show 1 ≤ d + 1 by omega)))] at hnode
      omega
    simp only [ascend, hgt, if_true, lift]
    exact ih hup (by omega) _ _

theorem larger_eq (order : Nat) (a c : Int) : larger order a c = max a c := by
  unfold larger
  omega

section

variable {t : Tree} {k n : Nat} {l r : Shape k}

theorem rep_larger (hn : 0 < n) (hl : Rep t (2 * n) l) (hr : Rep t (2 * n + 1) r) (order : Nat) :
    Rep (Function.update t n (larger order (t (n * 2)) (t (n * 2 + 1)))) n (.split l r) := by
  rw [larger_eq, Nat.mul_comm n 2, hl.entry, hr.entry]
  exact Rep.split hn hl hr

theorem merged_eq (hk : k ≤ 62) : merged k l.largest r.largest = (l.join r).largest := by
  rcases l.join_cases r with ⟨rfl, rfl, h⟩ | ⟨hne, h⟩
  · simp [merged, h, Shape.largest, int8_of_le (show k + 1 ≤ 63 by omega)]
  · have hcond : ¬(l.largest = k ∧ r.largest = k) := by
      rwa [Shape.largest_eq_iff, Shape.largest_eq_iff]
    rw [merged, if_neg hcond, h, Shape.largest]
    omega

theorem rep_merged (hk : k ≤ 62) (hn : 0 < n) (hl : Rep t (2 * n) l) (hr : Rep t (2 * n + 1) r) :
    Rep (Function.update t n (merged k (t (n * 2)) (t (n * 2 + 1)))) n (l.join r) := by
  rw [Nat.mul_comm n 2, hl.entry, hr.entry, merged_eq hk]
  exact Rep.join hn hl hr

end

/-! ## Taking a block -/

theorem splitAt_spec {t : Tree} {k node : Nat} {s : Shape (k + 1)} (hk : k ≤ 62)
    (h : Rep t node s) (hs : s ≠ .used) :
    Rep (splitAt t node k) (2 * node) s.halves.1 ∧
      Rep (splitAt t node k) (2 * node + 1) s.halves.2 ∧
      ∀ m, ¬Below node m → splitAt t node k m = t m := by
  cases s with
  | free =>
    have htop : t node = (k + 1 : Nat) := h
    have hint : int8 k = k := int8_of_le (by omega)
    rw [splitAt, if_pos htop, hint, Nat.mul_comm node 2]
    refine ⟨?_, ?_, fun m hm => ?_⟩
    · exact (Function.update_of_ne (by omega) _ _).trans (Function.update_self _ _ _)
    · exact Function.update_self _ _ _
    · have hleft : m ≠ 2 * node := by
        rintro rfl
        exact hm (Below.parent (by omega) (Below.refl _))
      have hright : m ≠ 2 * node + 1 := by
        rintro rfl
        exact hm (Below.parent (by omega) (Below.refl _))
      rw [Function.update_of_ne hright, Function.update_of_ne hleft]
  | used => exact absurd rfl hs
  | split l r =>
    have htop : t node ≠ (k + 1 : Nat) := by
      rw [h.entry]
      exact ne_of_lt (Shape.largest_split_lt l r)
    rw [splitAt, if_neg htop]
    exact ⟨h.2.1, h.2.2, fun _ _ => rfl⟩

/-- The way up through a node leaves the rest as it was. -/
theorem update_frame {t t₁ L : Tree} {n c : Nat} (hc : c / 2 = n)
    (hin : ∀ m, ¬Below c m → L m = t₁ m) (hout : ∀ m, ¬Below n m → t₁ m = t m) (v : Int) :
    ∀ m, ¬Below n m → Function.update L n v m = t m := by
  intro m hm
  have hne : m ≠ n := by
    rintro rfl
    exact hm (Below.refl _)
  rw [Function.update_of_ne hne, hin m fun h => hm (h.parent hc), hout m hm]

/-- Where a way down ends, and what the way up from there makes of the tree: the region
of `node` has its block of order `need` used. -/
structure Carved (minimum need : Nat) {k : Nat} (s : Shape k) (t : Tree) (node base : Nat)
    (at_ : Tree × Nat × Nat) : Prop where
  offset : at_.2.2 = minimum * s.place need base
  up : at_.2.1 / 2 ^ (k - need) = node
  rep : Rep (lift larger (k - need) need (Function.update at_.1 at_.2.1 (-1)) at_.2.1) node
    (s.take need)
  frame : ∀ m, ¬Below node m →
    lift larger (k - need) need (Function.update at_.1 at_.2.1 (-1)) at_.2.1 m = t m

section

variable {minimum need k node base : Nat} {s : Shape (k + 1)} {t t₁ : Tree} {p : Tree × Nat × Nat}

/-- A block of the left half is one of the region. -/
theorem Carved.of_left (hn : 0 < node) (hneed : need ≤ k)
    (hleft : ¬s.halves.1.largest < need) (hr : Rep t₁ (2 * node + 1) s.halves.2)
    (hout : ∀ m, ¬Below node m → t₁ m = t m)
    (h : Carved minimum need s.halves.1 t₁ (2 * node) base p) :
    Carved minimum need s t node base p := by
  have hlen : k + 1 - need = k - need + 1 := by omega
  have htake : s.take need = .split (s.halves.1.take need) s.halves.2 := by
    rw [Shape.take, if_neg (by omega), if_neg hleft]
  have hplace : s.place need base = s.halves.1.place need base := by
    rw [Shape.place, if_neg (by omega), if_neg hleft]
  refine ⟨?_, ?_, ?_, ?_⟩
  · rw [h.offset, hplace]
  · rw [hlen, pow_succ, ← Nat.div_div_eq_div_mul, h.up]
    omega
  · rw [htake, hlen, lift_above larger h.up (n := node) (by omega)]
    exact rep_larger hn h.rep (hr.keep_right hn h.frame) _
  · rw [hlen, lift_above larger h.up (n := node) (by omega)]
    exact update_frame (by omega) h.frame hout _

/-- A block of the right half is one of the region. -/
theorem Carved.of_right (hn : 0 < node) (hneed : need ≤ k)
    (hleft : s.halves.1.largest < need) (hl : Rep t₁ (2 * node) s.halves.1)
    (hout : ∀ m, ¬Below node m → t₁ m = t m)
    (h : Carved minimum need s.halves.2 t₁ (2 * node + 1) (base + 2 ^ k) p) :
    Carved minimum need s t node base p := by
  have hlen : k + 1 - need = k - need + 1 := by omega
  have htake : s.take need = .split s.halves.1 (s.halves.2.take need) := by
    rw [Shape.take, if_neg (by omega), if_pos hleft]
  have hplace : s.place need base = s.halves.2.place need (base + 2 ^ k) := by
    rw [Shape.place, if_neg (by omega), if_pos hleft]
  refine ⟨?_, ?_, ?_, ?_⟩
  · rw [h.offset, hplace]
  · rw [hlen, pow_succ, ← Nat.div_div_eq_div_mul, h.up]
    omega
  · rw [htake, hlen, lift_above larger h.up (n := node) (by omega)]
    exact rep_larger hn (hl.keep_left hn h.frame) h.rep _
  · rw [hlen, lift_above larger h.up (n := node) (by omega)]
    exact update_frame (by omega) h.frame hout _

end

/-- A block of the region's own order is the region. -/
theorem carved_whole (minimum : Nat) {k : Nat} (s : Shape k) (t : Tree) (node base : Nat) :
    Carved minimum k s t node base (t, node, minimum * base) := by
  have htake : s.take k = .used := by cases k <;> simp [Shape.take]
  have hplace : s.place k base = base := by cases k <;> simp [Shape.place]
  refine ⟨by rw [hplace], by simp, ?_, fun m hm => ?_⟩
  · rw [htake]
    simp [lift, BuddyTree.Rep]
  · have hne : m ≠ node := by
      rintro rfl
      exact hm (Below.refl _)
    simp [lift, hne]

/-- From a node whose region has room for it, the loop finds the block of `Shape.take`,
and the way up from there stores the region with that block used. -/
theorem descend_spec {minimum need k : Nat} {s : Shape k} {t : Tree} {node base : Nat}
    (hk : k ≤ 62) (hn : 0 < node) (h : Rep t node s) (hneed : (need : Int) ≤ s.largest) :
    Carved minimum need s t node base (descend minimum need k t node (minimum * base)) := by
  have hle := s.largest_le
  induction k generalizing t node base with
  | zero =>
    obtain rfl : need = 0 := by omega
    exact carved_whole minimum s t node base
  | succ k ih =>
    by_cases heq : k + 1 ≤ need
    · obtain rfl : need = k + 1 := by omega
      rw [descend, if_neg (by omega)]
      exact carved_whole minimum s t node base
    · have hgt : k + 1 > need := by omega
      obtain ⟨hl, hr, hout⟩ := splitAt_spec (by omega) h (Shape.ne_used_of_largest hneed)
      have hleft : splitAt t node k (node * 2) = s.halves.1.largest := by
        rw [Nat.mul_comm]
        exact hl.entry
      have hlen : k + 1 - need = k - need + 1 := by omega
      simp only [descend, if_pos hgt, hleft]
      split_ifs with hlt
      · -- the left half is too small
        have hroom : (need : Int) ≤ s.halves.2.largest := by
          rcases Shape.largest_halves hneed (by omega) with h | h
          · omega
          · exact h
        have hoff : minimum * base + minimum <<< k = minimum * (base + 2 ^ k) := by
          rw [Nat.shiftLeft_eq, Nat.mul_add]
        rw [hoff, Nat.mul_comm node 2]
        exact (ih (by omega) (by omega) hr hroom (Shape.largest_le _)).of_right hn (by omega) hlt
          hl hout
      · rw [Nat.mul_comm node 2]
        exact (ih (by omega) (by omega) hl (not_lt.mp hlt) (Shape.largest_le _)).of_left hn
          (by omega) hlt hr hout

/-! ## Giving a block back -/

/-- From the node of a used block, the way up stores the region without it. -/
theorem release_spec {k : Nat} {s : Shape k} {t : Tree} {node base o j : Nat} (hk : k ≤ 62)
    (hn : 0 < node) (h : Rep t node s) (hmem : (o, j) ∈ s.blocks base) {at_ : Nat}
    (hat : at_ = node * 2 ^ (k - j) + (o - base) / 2 ^ j) :
    t at_ = -1 ∧ at_ / 2 ^ (k - j) = node ∧
      Rep (lift merged (k - j) j (Function.update t at_ j) at_) node (s.release o base) ∧
      ∀ m, ¬Below node m → lift merged (k - j) j (Function.update t at_ j) at_ m = t m := by
  induction s generalizing node base with
  | free => cases hmem
  | @used k =>
    obtain ⟨rfl, rfl⟩ := Prod.mk.inj (List.mem_singleton.mp hmem)
    obtain rfl : at_ = node := by simpa using hat
    refine ⟨h, by simp, ?_, fun m hm => ?_⟩
    · simp [lift, BuddyTree.Rep, Shape.release]
    · have hne : m ≠ at_ := by
        rintro rfl
        exact hm (Below.refl _)
      simp [lift, hne]
  | @split k l r ihl ihr =>
    obtain ⟨-, hl, hr⟩ := h
    rcases List.mem_append.mp hmem with hmem | hmem
    · obtain ⟨hlow, hhigh, hle⟩ := Shape.mem_blocks_bounds hmem
      have hlt : o < base + 2 ^ k := by
        have := Nat.two_pow_pos j
        omega
      have hlen : k + 1 - j = k - j + 1 := by omega
      obtain ⟨hused, hup, hrep, hframe⟩ := ihl (by omega) (by omega) hl hmem (by
        rw [hat, hlen, pow_succ]
        ring)
      have habove := lift_above merged hup (n := node) (by omega) j (Function.update t at_ j)
      rw [Nat.add_sub_cancel' hle] at habove
      rw [hlen, habove, Shape.release, if_pos hlt]
      refine ⟨hused, ?_, rep_merged (by omega) hn hrep (hr.keep_right hn hframe),
        update_frame (by omega) hframe (fun _ _ => rfl) _⟩
      rw [pow_succ, ← Nat.div_div_eq_div_mul, hup]
      omega
    · obtain ⟨hlow, hhigh, hle⟩ := Shape.mem_blocks_bounds hmem
      have hlen : k + 1 - j = k - j + 1 := by omega
      have hpow : 2 ^ k = 2 ^ j * 2 ^ (k - j) := by rw [← pow_add, Nat.add_sub_cancel' hle]
      obtain ⟨hused, hup, hrep, hframe⟩ := ihr (by omega) (by omega) hr hmem (by
        have hsub : o - base = o - (base + 2 ^ k) + 2 ^ j * 2 ^ (k - j) := by omega
        rw [hat, hlen, pow_succ, hsub, Nat.add_mul_div_left _ _ (Nat.two_pow_pos j)]
        ring)
      have habove := lift_above merged hup (n := node) (by omega) j (Function.update t at_ j)
      rw [Nat.add_sub_cancel' hle] at habove
      rw [hlen, habove, Shape.release, if_neg (not_lt.mpr hlow)]
      refine ⟨hused, ?_, rep_merged (by omega) hn (hl.keep_left hn hframe) hrep,
        update_frame (by omega) hframe (fun _ _ => rfl) _⟩
      rw [pow_succ, ← Nat.div_div_eq_div_mul, hup]
      omega

end Buddy

end Enki.Axsys
