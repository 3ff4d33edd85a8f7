import Enki.Axsys.Buddy

/-!
# The blocks of the buddy allocator

Runs of `ax_buddy_alloc` and `ax_buddy_free` in any order, where each free passes the
offset and the actual size of a block that is allocated. `World` keeps the allocated
blocks beside the allocator, which does not store them.

The invariant is that the tree stores a division of the capacity whose used blocks
are the allocated ones (`Stores`). From it: what a call returns, when `alloc` fails,
and what the entries of the tree are. An entry below a free or an allocated block is
left over from before; it is written again when that block is split (`Current`).
-/

namespace Enki.Axsys.Buddy

open BuddyTree Runs

/-- An allocated block, and the size that was asked for. -/
structure Block where
  offset : Nat
  size : Nat
  request : Nat
  deriving DecidableEq

/-- The allocator and its callers. -/
structure World where
  buddy : Buddy
  live : List Block := []

/-- The calls. -/
inductive Call where
  | alloc (bytes : Nat)
  | free (offset actual : Nat)

namespace World

/-- A call; a free that names no allocated block is not made. -/
def step : Call → World → Option World
  | .alloc bytes, w =>
    match w.buddy.alloc bytes with
    | none => some w
    | some (b, offset, actual) => some { buddy := b, live := ⟨offset, actual, bytes⟩ :: w.live }
  | .free offset actual, w =>
    match w.live.find? fun x => x.offset = offset ∧ x.size = actual with
    | none => none
    | some x => (w.buddy.free offset actual).map fun b => { buddy := b, live := w.live.erase x }

end World

/-! ## What is promised -/

/-- The least power of two that holds the request and is at least the minimum. -/
structure IsBlockSize (minimum request size : Nat) : Prop where
  pow2 : ∃ i, size = 2 ^ i
  holds : request ≤ size
  least_size : minimum ≤ size
  least : ∀ i, request ≤ 2 ^ i → minimum ≤ 2 ^ i → size ≤ 2 ^ i

/-- Bytes `offset` up to `offset + size` are in no allocated block. -/
def IsFree (live : List Block) (offset size : Nat) : Prop :=
  ∀ x ∈ live, offset + size ≤ x.offset ∨ x.offset + x.size ≤ offset

/-- There is a free block of `size` bytes, aligned to its size, in a region. -/
def HasFree (live : List Block) (base bytes size : Nat) : Prop :=
  ∃ offset, size ∣ offset ∧ base ≤ offset ∧ offset + size ≤ base + bytes ∧
    IsFree live offset size

/-- The size of the region of a node. -/
def nodeSize (capacity node : Nat) : Nat := capacity / 2 ^ Nat.log2 node

/-- Where it starts. -/
def nodeOffset (capacity node : Nat) : Nat :=
  (node - 2 ^ Nat.log2 node) * nodeSize capacity node

/-- The region of a node is split: it is not free, and not part of an allocated block. -/
def IsSplitNode (capacity : Nat) (live : List Block) (node : Nat) : Prop :=
  ¬IsFree live (nodeOffset capacity node) (nodeSize capacity node) ∧
    ∀ x ∈ live, ¬(x.offset ≤ nodeOffset capacity node ∧
      nodeOffset capacity node + nodeSize capacity node ≤ x.offset + x.size)

/-- The nodes whose entries are up to date. -/
def Current (capacity : Nat) (live : List Block) (node : Nat) : Prop :=
  node = 1 ∨ IsSplitNode capacity live (node / 2)

/-- The order of the largest free block in the region of a node, -1 if there is none. -/
def IsLargestFree (capacity minimum : Nat) (live : List Block) (node : Nat) (v : Int) : Prop :=
  -1 ≤ v ∧ ∀ j : Nat, (j : Int) ≤ v ↔
    HasFree live (nodeOffset capacity node) (nodeSize capacity node) (minimum * 2 ^ j)

/-- What holds after every call. -/
structure Sound (capacity minimum : Nat) (w : World) : Prop where
  apart : w.live.Pairwise fun x y => x.offset + x.size ≤ y.offset ∨ y.offset + y.size ≤ x.offset
  inside : ∀ x ∈ w.live, x.offset + x.size ≤ capacity
  size : ∀ x ∈ w.live, IsBlockSize minimum x.request x.size
  aligned : ∀ x ∈ w.live, x.size ∣ x.offset
  /-- A free of an allocated block meets its assumptions. -/
  freed : ∀ x ∈ w.live, (w.buddy.free x.offset x.size).isSome
  zero : w.buddy.alloc 0 = none
  fails : ∀ bytes, 0 < bytes → (w.buddy.alloc bytes = none ↔
    ¬∃ size, IsBlockSize minimum bytes size ∧ HasFree w.live 0 capacity size)
  tree : ∀ node, 0 < node → node < 2 * (capacity / minimum) → Current capacity w.live node →
    IsLargestFree capacity minimum w.live node (w.buddy.tree node)
  restored : w.live = [] → w.buddy.tree 1 = Nat.log2 (capacity / minimum)

/-! ## The arithmetic of sizes -/

/-- The sizes `ax_buddy_init` lets through. -/
structure Sized (b : Buddy) : Prop where
  minimum : ∃ p, b.minimum = 2 ^ p
  capacity : b.capacity = b.minimum * 2 ^ b.order
  order : b.order ≤ 62

theorem Sized.minimum_pos {b : Buddy} (hb : b.Sized) : 0 < b.minimum := by
  obtain ⟨p, hp⟩ := hb.minimum
  rw [hp]
  exact Nat.two_pow_pos p

/-- `n & (n - 1)` is zero exactly for the powers of two. -/
theorem and_pred_eq_zero {n : Nat} (hn : n ≠ 0) : n &&& (n - 1) = 0 ↔ ∃ i, n = 2 ^ i :=
  Nat.and_sub_one_eq_zero_iff_isPowerOfTwo hn

/-- A fresh allocator: one free block. -/
theorem init_spec {capacity minimum : Nat} {calloc : Bool} {b : Buddy}
    (h : init capacity minimum calloc = some b) :
    b.Sized ∧ b.capacity = capacity ∧ b.minimum = minimum ∧ Rep b.tree 1 (.free : Shape b.order) := by
  simp only [init] at h
  split_ifs at h with hbad hlarge
  obtain rfl := Option.some.inj h
  simp only [not_or, not_not, not_lt] at hbad
  obtain ⟨hzero, hmin, hle, hcap⟩ := hbad
  obtain ⟨p, rfl⟩ := (and_pred_eq_zero hzero).mp hmin
  have hcapacity : capacity ≠ 0 := by
    have := Nat.two_pow_pos p
    omega
  obtain ⟨c, rfl⟩ := (and_pred_eq_zero hcapacity).mp hcap
  have hpc : p ≤ c := (Nat.pow_le_pow_iff_right (le_refl 2)).mp hle
  have hleaves : 2 ^ c / 2 ^ p = 2 ^ (c - p) := Nat.pow_div hpc (by decide)
  have horder : c - p ≤ 62 := by
    by_contra hgt
    have : 2 ^ 63 ≤ 2 ^ (c - p) := Nat.pow_le_pow_right (by decide) (by omega)
    rw [hleaves] at hlarge
    simp only [sizeMax] at hlarge
    omega
  have hlog : Nat.log2 (2 ^ c / 2 ^ p) = c - p := by rw [hleaves, Nat.log2_two_pow]
  refine ⟨⟨⟨p, rfl⟩, ?_, hlog ▸ horder⟩, rfl, rfl, ?_⟩
  · simp only [hlog, ← pow_add]
    congr 1
    omega
  · simp only [BuddyTree.Rep, Function.update_self]
    exact int8_of_le (by omega)

/-- The loop finds the least order whose size holds the request. -/
theorem fit_spec {bytes fuel size need : Nat} (h : bytes ≤ size * 2 ^ fuel) :
    ∃ i, fit bytes fuel size need = (size * 2 ^ i, need + i) ∧ bytes ≤ size * 2 ^ i ∧
      ∀ i', bytes ≤ size * 2 ^ i' → i ≤ i' := by
  induction fuel generalizing size need with
  | zero => exact ⟨0, by simp [fit], h, fun _ _ => Nat.zero_le _⟩
  | succ fuel ih =>
    simp only [fit]
    split_ifs with hlt
    · have hshift : ∀ i, (size <<< 1) * 2 ^ i = size * 2 ^ (i + 1) := by
        intro i
        rw [Nat.shiftLeft_eq, pow_succ]
        ring
      obtain ⟨i, hfit, hle, hmin⟩ := ih (by rwa [hshift])
      refine ⟨i + 1, ?_, by rwa [← hshift], fun i' hi' => ?_⟩
      · rw [hfit, hshift]
        congr 1
        omega
      · cases i' with
        | zero => simp at hi'; omega
        | succ i' => exact Nat.succ_le_succ (hmin i' (by rwa [hshift]))
    · exact ⟨0, by simp, by simpa using hlt, fun _ _ => Nat.zero_le _⟩

/-- A block of the least order has the least size. -/
theorem Sized.isBlockSize {b : Buddy} (hb : b.Sized) {bytes need : Nat}
    (hholds : bytes ≤ b.minimum * 2 ^ need)
    (hleast : ∀ i, bytes ≤ b.minimum * 2 ^ i → need ≤ i) :
    IsBlockSize b.minimum bytes (b.minimum * 2 ^ need) := by
  obtain ⟨p, hp⟩ := hb.minimum
  rw [hp] at hholds hleast ⊢
  refine ⟨⟨p + need, (pow_add 2 p need).symm⟩, hholds, ?_, fun i hi hmin => ?_⟩
  · exact Nat.le_mul_of_pos_right _ (Nat.two_pow_pos need)
  · have hpi : p ≤ i := (Nat.pow_le_pow_iff_right (le_refl 2)).mp hmin
    obtain ⟨q, rfl⟩ := Nat.exists_eq_add_of_le hpi
    rw [pow_add] at hi ⊢
    exact Nat.mul_le_mul_left _ (Nat.pow_le_pow_right (by decide) (hleast q hi))

theorem IsBlockSize.unique {minimum request a c : Nat} (ha : IsBlockSize minimum request a)
    (hc : IsBlockSize minimum request c) : a = c := by
  obtain ⟨i, hi⟩ := ha.pow2
  obtain ⟨j, hj⟩ := hc.pow2
  have h₁ : a ≤ c := hj ▸ ha.least j (hj ▸ hc.holds) (hj ▸ hc.least_size)
  have h₂ : c ≤ a := hi ▸ hc.least i (hi ▸ ha.holds) (hi ▸ ha.least_size)
  exact le_antisymm h₁ h₂

/-! ## The calls refine the division -/

/-- `ax_buddy_alloc` either finds no room or uses the block of `Shape.take`. -/
theorem alloc_rep {b : Buddy} (hb : b.Sized) {s : Shape b.order} (h : Rep b.tree 1 s) {bytes : Nat}
    (hpos : 0 < bytes) (hle : bytes ≤ b.capacity) :
    ∃ need : Nat, IsBlockSize b.minimum bytes (b.minimum * 2 ^ need) ∧
      (s.largest < need ∧ b.alloc bytes = none ∨
        (need : Int) ≤ s.largest ∧ ∃ t, Rep t 1 (s.take need) ∧
          b.alloc bytes = some ({ b with tree := t }, b.minimum * s.place need 0,
            b.minimum * 2 ^ need)) := by
  have hfuel : bytes ≤ b.minimum * 2 ^ 64 := by
    refine hle.trans ?_
    rw [hb.capacity]
    exact Nat.mul_le_mul_left _ (Nat.pow_le_pow_right (by decide) (hb.order.trans (by decide)))
  obtain ⟨need, hfit, hholds, hleast⟩ := @fit_spec _ _ _ 0 hfuel
  rw [Nat.zero_add] at hfit
  refine ⟨need, hb.isBlockSize hholds hleast, ?_⟩
  have hguard : ¬(bytes = 0 ∨ bytes > b.capacity) := by omega
  simp only [alloc, if_neg hguard, hfit, h.entry]
  rcases lt_or_ge s.largest need with hlt | hge
  · exact .inl ⟨hlt, if_pos hlt⟩
  · refine .inr ⟨hge, ?_⟩
    rw [if_neg (not_lt.mpr hge)]
    have hc := @descend_spec b.minimum _ _ _ _ _ 0 hb.order Nat.one_pos h hge
    rw [Nat.mul_zero] at hc
    refine ⟨_, ?_, by rw [hc.offset]⟩
    rw [ascend_eq larger hc.up (by have := hb.order; omega)]
    exact hc.rep

/-- `ax_buddy_free` gives a used block back. -/
theorem free_rep {b : Buddy} (hb : b.Sized) {s : Shape b.order} (h : Rep b.tree 1 s) {o j : Nat}
    (hmem : (o, j) ∈ s.blocks 0) :
    ∃ t, Rep t 1 (s.release o 0) ∧
      b.free (b.minimum * o) (b.minimum * 2 ^ j) = some { b with tree := t } := by
  obtain ⟨-, hhigh, hj⟩ := Shape.mem_blocks_bounds hmem
  obtain ⟨q, rfl⟩ := Shape.mem_blocks_aligned (dvd_zero _) hmem
  obtain ⟨p, hp⟩ := hb.minimum
  have hmin := hb.minimum_pos
  have hpow : 2 ^ b.order = 2 ^ j * 2 ^ (b.order - j) := by rw [← pow_add, Nat.add_sub_cancel' hj]
  have hsize : 0 < b.minimum * 2 ^ j := Nat.mul_pos hmin (Nat.two_pow_pos j)
  have hnode : (b.capacity + b.minimum * (2 ^ j * q)) / (b.minimum * 2 ^ j) =
      1 * 2 ^ (b.order - j) + (2 ^ j * q - 0) / 2 ^ j := by
    rw [hb.capacity, hpow, Nat.sub_zero, Nat.mul_div_cancel_left _ (Nat.two_pow_pos j)]
    rw [← Nat.mul_assoc, ← Nat.mul_assoc, ← Nat.mul_add, Nat.mul_div_cancel_left _ hsize, one_mul]
  have hlog : Nat.log2 (b.minimum * 2 ^ j / b.minimum) = j := by
    rw [Nat.mul_div_cancel_left _ hmin, Nat.log2_two_pow]
  have hguard : b.minimum ≤ b.minimum * 2 ^ j ∧ b.minimum * 2 ^ j ≤ b.capacity ∧
      (b.minimum * 2 ^ j) &&& (b.minimum * 2 ^ j - 1) = 0 ∧
      b.minimum * (2 ^ j * q) % (b.minimum * 2 ^ j) = 0 ∧
      b.minimum * (2 ^ j * q) ≤ b.capacity - b.minimum * 2 ^ j := by
    have hin := Nat.mul_le_mul_left b.minimum hhigh
    rw [Nat.mul_add, Nat.zero_add, ← hb.capacity] at hin
    refine ⟨Nat.le_mul_of_pos_right _ (Nat.two_pow_pos j), by omega, ?_, ?_, by omega⟩
    · exact (and_pred_eq_zero hsize.ne').mpr ⟨p + j, by rw [hp, pow_add]⟩
    · rw [← Nat.mul_assoc]
      exact Nat.mul_mod_right _ _
  obtain ⟨hused, hup, hrep, -⟩ := release_spec hb.order Nat.one_pos h hmem rfl
  simp only [free, if_pos hguard, hlog, hnode, if_pos hused]
  refine ⟨_, ?_, rfl⟩
  rw [ascend_eq merged hup (by have := hb.order; omega), int8_of_le (by have := hb.order; omega)]
  exact hrep

/-! ## Bytes and units -/

/-- The allocated blocks are the used blocks of a division, in units of the minimum. -/
def Matches (minimum : Nat) (live : List Block) (used : List (Nat × Nat)) : Prop :=
  (live.map fun x => (x.offset, x.size)).Perm
    (used.map fun x => (minimum * x.1, minimum * 2 ^ x.2))

section

variable {minimum : Nat} {live : List Block} {used : List (Nat × Nat)}

theorem Matches.mem (h : Matches minimum live used) {x : Block} (hx : x ∈ live) :
    ∃ o j, (o, j) ∈ used ∧ x.offset = minimum * o ∧ x.size = minimum * 2 ^ j := by
  have hmem : (x.offset, x.size) ∈ live.map fun x => (x.offset, x.size) := List.mem_map_of_mem hx
  obtain ⟨⟨o, j⟩, hused, heq⟩ := List.mem_map.mp (h.mem_iff.mp hmem)
  exact ⟨o, j, hused, (congrArg Prod.fst heq).symm, (congrArg Prod.snd heq).symm⟩

theorem Matches.exists (h : Matches minimum live used) {o j : Nat} (hx : (o, j) ∈ used) :
    ∃ x ∈ live, x.offset = minimum * o ∧ x.size = minimum * 2 ^ j := by
  have hmem : (minimum * o, minimum * 2 ^ j) ∈
      used.map fun x => (minimum * x.1, minimum * 2 ^ x.2) := List.mem_map_of_mem hx
  obtain ⟨x, hlive, heq⟩ := List.mem_map.mp (h.mem_iff.mpr hmem)
  exact ⟨x, hlive, congrArg Prod.fst heq, congrArg Prod.snd heq⟩

/-- An order of units is one of bytes. -/
theorem scale_le (hmin : 0 < minimum) (a c l : Nat) :
    minimum * a + minimum * c ≤ minimum * l ↔ a + c ≤ l := by
  rw [← Nat.mul_add]
  exact Nat.mul_le_mul_left_iff hmin

theorem Matches.isFree_iff (h : Matches minimum live used) (hmin : 0 < minimum) (o j : Nat) :
    IsFree live (minimum * o) (minimum * 2 ^ j) ↔ Clear used o j := by
  constructor
  · rintro hfree ⟨o', j'⟩ hx
    obtain ⟨x, hx, hoff, hsize⟩ := h.exists hx
    have := hfree x hx
    rwa [hoff, hsize, scale_le hmin, scale_le hmin] at this
  · intro hclear x hx
    obtain ⟨o', j', hx, hoff, hsize⟩ := h.mem hx
    rw [hoff, hsize, scale_le hmin, scale_le hmin]
    exact hclear (o', j') hx

theorem Matches.hasFree_iff (h : Matches minimum live used) (hmin : 0 < minimum)
    (base k j : Nat) : HasFree live (minimum * base) (minimum * 2 ^ k) (minimum * 2 ^ j) ↔
      ∃ o, Sub k base o j ∧ Clear used o j := by
  constructor
  · rintro ⟨offset, ⟨q, rfl⟩, hlow, hhigh, hfree⟩
    rw [Nat.mul_assoc] at hlow hhigh hfree
    refine ⟨2 ^ j * q, ⟨Nat.dvd_mul_right _ _, ?_, ?_⟩, (h.isFree_iff hmin _ _).mp hfree⟩
    · exact (Nat.mul_le_mul_left_iff hmin).mp hlow
    · rwa [← Nat.mul_add minimum base, scale_le hmin] at hhigh
  · rintro ⟨o, ⟨⟨q, rfl⟩, hlow, hhigh⟩, hclear⟩
    refine ⟨minimum * (2 ^ j * q), ⟨q, (Nat.mul_assoc _ _ _).symm⟩, Nat.mul_le_mul_left _ hlow, ?_,
      (h.isFree_iff hmin _ _).mpr hclear⟩
    rwa [← Nat.mul_add minimum base, scale_le hmin]

theorem Matches.isSplit (h : Matches minimum live used) (hmin : 0 < minimum) {capacity node o j : Nat}
    (hoff : nodeOffset capacity node = minimum * o) (hsize : nodeSize capacity node = minimum * 2 ^ j)
    (hsplit : IsSplitNode capacity live node) : IsSplit used o j := by
  obtain ⟨hfree, hpart⟩ := hsplit
  rw [hoff, hsize] at hfree hpart
  refine ⟨fun hclear => hfree ((h.isFree_iff hmin _ _).mpr hclear), ?_⟩
  rintro ⟨o', j'⟩ hx ⟨hlow, hhigh⟩
  obtain ⟨x, hx, hxo, hxs⟩ := h.exists hx
  refine hpart x hx ⟨?_, ?_⟩
  · rw [hxo]
    exact Nat.mul_le_mul_left _ hlow
  · rw [hxo, hxs, ← Nat.mul_add minimum o', scale_le hmin]
    exact hhigh

end

/-- The region of the `r`-th node of a level, in units. -/
theorem node_region {minimum k d r : Nat} (hr : r < 2 ^ d) :
    nodeSize (minimum * 2 ^ (k + d)) (2 ^ d + r) = minimum * 2 ^ k ∧
      nodeOffset (minimum * 2 ^ (k + d)) (2 ^ d + r) = minimum * (r * 2 ^ k) := by
  have hlog : Nat.log2 (2 ^ d + r) = d := by
    rw [Nat.log2_eq_iff (by have := Nat.two_pow_pos d; omega), pow_succ]
    omega
  have hsize : nodeSize (minimum * 2 ^ (k + d)) (2 ^ d + r) = minimum * 2 ^ k := by
    rw [nodeSize, hlog, pow_add, ← Nat.mul_assoc, Nat.mul_div_cancel _ (Nat.two_pow_pos d)]
  refine ⟨hsize, ?_⟩
  rw [nodeOffset, hsize, hlog, Nat.add_sub_cancel_left]
  ring

/-- Every node is the `r`-th of some level. -/
theorem node_level {node : Nat} (hnode : 0 < node) :
    ∃ d r, r < 2 ^ d ∧ node = 2 ^ d + r := by
  have hlow := Nat.log2_self_le hnode.ne'
  have hhigh := (Nat.log2_lt hnode.ne').mp (Nat.lt_succ_self (Nat.log2 node))
  rw [pow_succ] at hhigh
  exact ⟨Nat.log2 node, node - 2 ^ Nat.log2 node, by omega, by omega⟩

/-! ## The invariant -/

/-- The tree stores a division of the capacity into the allocated blocks and free ones. -/
structure Stores (w : World) (s : Shape w.buddy.order) : Prop where
  sized : w.buddy.Sized
  rep : Rep w.buddy.tree 1 s
  reduced : s.Reduced
  blocks : Matches w.buddy.minimum w.live (s.blocks 0)
  size : ∀ x ∈ w.live, IsBlockSize w.buddy.minimum x.request x.size

/-- A fresh allocator. -/
theorem Stores.initial {capacity minimum : Nat} {calloc : Bool} {b : Buddy}
    (h : init capacity minimum calloc = some b) : Stores { buddy := b } .free := by
  obtain ⟨hsized, -, -, hrep⟩ := init_spec h
  exact ⟨hsized, hrep, trivial, .refl _, by rintro x ⟨⟩⟩

/-- `ax_buddy_alloc` keeps the invariant. -/
theorem Stores.alloc {w w' : World} {s : Shape w.buddy.order} (h : Stores w s) {bytes : Nat}
    (hstep : w.step (.alloc bytes) = some w') :
    w'.buddy.capacity = w.buddy.capacity ∧ w'.buddy.minimum = w.buddy.minimum ∧
      ∃ s', Stores w' s' := by
  simp only [World.step] at hstep
  cases halloc : w.buddy.alloc bytes with
  | none =>
    rw [halloc] at hstep
    obtain rfl := Option.some.inj hstep
    exact ⟨rfl, rfl, s, h⟩
  | some p =>
    have hguard : ¬(bytes = 0 ∨ bytes > w.buddy.capacity) := by
      intro hbad
      simp [Buddy.alloc, hbad] at halloc
    obtain ⟨need, hsize, ⟨-, hnone⟩ | ⟨hroom, t, hrep, hsome⟩⟩ :=
      @alloc_rep _ h.sized _ h.rep bytes (by omega) (by omega)
    · simp [hnone] at halloc
    · rw [hsome] at hstep
      obtain rfl := Option.some.inj hstep
      refine ⟨rfl, rfl, s.take need, ⟨h.sized.minimum, h.sized.capacity, h.sized.order⟩, hrep,
        Shape.reduced_take h.reduced, ?_, ?_⟩
      · have hused := (Shape.blocks_take hroom 0).symm.map
          fun x : Nat × Nat => (w.buddy.minimum * x.1, w.buddy.minimum * 2 ^ x.2)
        exact (List.Perm.cons _ h.blocks).trans hused
      · rintro x (_ | ⟨_, hx⟩)
        · exact hsize
        · exact h.size x hx

/-- A block that is allocated can be given back. -/
theorem Stores.freed {w : World} {s : Shape w.buddy.order} (h : Stores w s) {x : Block}
    (hx : x ∈ w.live) : ∃ o j t, (o, j) ∈ s.blocks 0 ∧ x.offset = w.buddy.minimum * o ∧
      x.size = w.buddy.minimum * 2 ^ j ∧ Rep t 1 (s.release o 0) ∧
      w.buddy.free x.offset x.size = some { w.buddy with tree := t } := by
  obtain ⟨o, j, hmem, hoff, hsize⟩ := h.blocks.mem hx
  obtain ⟨t, hrep, hfree⟩ := free_rep h.sized h.rep hmem
  exact ⟨o, j, t, hmem, hoff, hsize, hrep, by rw [hoff, hsize, hfree]⟩

/-- `ax_buddy_free` keeps the invariant. -/
theorem Stores.free {w w' : World} {s : Shape w.buddy.order} (h : Stores w s) {offset actual : Nat}
    (hstep : w.step (.free offset actual) = some w') :
    w'.buddy.capacity = w.buddy.capacity ∧ w'.buddy.minimum = w.buddy.minimum ∧
      ∃ s', Stores w' s' := by
  simp only [World.step] at hstep
  cases hfind : w.live.find? fun x => x.offset = offset ∧ x.size = actual with
  | none =>
    rw [hfind] at hstep
    cases hstep
  | some x =>
    have hx := List.mem_of_find?_eq_some hfind
    obtain ⟨rfl, rfl⟩ : x.offset = offset ∧ x.size = actual := by
      simpa using List.find?_some hfind
    obtain ⟨o, j, t, hmem, hoff, hsize, hrep, hfree⟩ := h.freed hx
    rw [hfind] at hstep
    simp only [hfree, Option.map_some] at hstep
    obtain rfl := Option.some.inj hstep
    refine ⟨rfl, rfl, s.release o 0, ⟨h.sized.minimum, h.sized.capacity, h.sized.order⟩, hrep,
      Shape.reduced_release h.reduced o 0, ?_, fun y hy => h.size y (List.mem_of_mem_erase hy)⟩
    rw [Matches, Shape.blocks_release hmem]
    refine List.Perm.cons_inv (a := (x.offset, x.size)) ?_
    have hlive := ((List.perm_cons_erase hx).map fun x => (x.offset, x.size)).symm
    have hused := (List.perm_cons_erase hmem).map
      fun x => (w.buddy.minimum * x.1, w.buddy.minimum * 2 ^ x.2)
    rw [List.map_cons, ← hoff, ← hsize] at hused
    exact hlive.trans (h.blocks.trans hused)

/-- The entries of the current nodes. -/
theorem Stores.tree {w : World} {s : Shape w.buddy.order} (h : Stores w s) {node : Nat}
    (hnode : 0 < node) (hlt : node < 2 * 2 ^ w.buddy.order)
    (hcur : Current w.buddy.capacity w.live node) :
    IsLargestFree w.buddy.capacity w.buddy.minimum w.live node (w.buddy.tree node) := by
  have hmin := h.sized.minimum_pos
  obtain ⟨d, r, hr, rfl⟩ := node_level hnode
  have hd : d ≤ w.buddy.order := by
    rw [← pow_succ'] at hlt
    have := (Nat.pow_lt_pow_iff_right (le_refl 2)).mp (lt_of_le_of_lt (Nat.le_add_right _ _) hlt)
    omega
  obtain ⟨k, hk⟩ := Nat.exists_eq_add_of_le' hd
  have hcap : w.buddy.capacity = w.buddy.minimum * 2 ^ (k + d) := by rw [h.sized.capacity, hk]
  have hsplit : d = 0 ∨ IsSplit (s.blocks 0) (0 + r / 2 * 2 ^ (k + 1)) (k + 1) := by
    refine (Nat.eq_zero_or_pos d).imp_right fun hd => ?_
    obtain ⟨d, rfl⟩ := Nat.exists_eq_add_of_le' hd
    have hup : (2 ^ (d + 1) + r) / 2 = 2 ^ d + r / 2 := by
      rw [pow_succ]
      omega
    have hpos := Nat.two_pow_pos d
    rcases hcur with heq | hcur
    · rw [pow_succ] at heq
      omega
    · obtain ⟨hsize, hoff⟩ := @node_region w.buddy.minimum (k + 1) d (r / 2)
        (by rw [pow_succ] at hr; omega)
      rw [hup, hcap, show k + (d + 1) = k + 1 + d by omega] at hcur
      rw [Nat.zero_add]
      exact h.blocks.isSplit hmin hoff hsize hcur
  obtain ⟨s', hrep, hred, hsub, hrest⟩ := h.rep.locate h.reduced hk hr hsplit
  rw [Nat.zero_add] at hsub hrest
  rw [one_mul] at hrep
  have hbase : 2 ^ k ∣ r * 2 ^ k := Nat.dvd_mul_left _ _
  obtain ⟨hsize, hoff⟩ := @node_region w.buddy.minimum k _ _ hr
  refine ⟨hrep.entry ▸ s'.neg_one_le_largest, fun j => ?_⟩
  rw [hrep.entry, hcap, hsize, hoff, h.blocks.hasFree_iff hmin, Shape.room_iff hred hbase]
  -- the blocks elsewhere are apart from the region
  refine exists_congr fun o => and_congr_right fun hin => ⟨fun hclear x hx => ?_, fun hclear x hx =>
    hclear x (hsub x hx)⟩
  rcases hrest x hx with hx | hx
  · exact hclear x hx
  · exact hin.apart hx

/-- When `ax_buddy_alloc` finds no room. -/
theorem Stores.alloc_none_iff {w : World} {s : Shape w.buddy.order} (h : Stores w s) {bytes : Nat}
    (hpos : 0 < bytes) : w.buddy.alloc bytes = none ↔
      ¬∃ size, IsBlockSize w.buddy.minimum bytes size ∧
        HasFree w.live 0 w.buddy.capacity size := by
  by_cases hle : bytes ≤ w.buddy.capacity
  · obtain ⟨need, hsize, hcases⟩ := alloc_rep h.sized h.rep hpos hle
    have hroom : HasFree w.live 0 w.buddy.capacity (w.buddy.minimum * 2 ^ need) ↔
        (need : Int) ≤ s.largest := by
      rw [Shape.room_iff h.reduced (dvd_zero _), h.sized.capacity,
        ← h.blocks.hasFree_iff h.sized.minimum_pos, Nat.mul_zero]
    have hiff : (∃ size, IsBlockSize w.buddy.minimum bytes size ∧
        HasFree w.live 0 w.buddy.capacity size) ↔ (need : Int) ≤ s.largest := by
      rw [← hroom]
      constructor
      · rintro ⟨size, hsize', hfree⟩
        rwa [hsize.unique hsize']
      · exact fun hfree => ⟨_, hsize, hfree⟩
    rw [hiff]
    rcases hcases with ⟨hlt, hnone⟩ | ⟨hge, t, -, hsome⟩
    · simp [hnone, hlt]
    · simp [hsome, hge]
  · have hnone : w.buddy.alloc bytes = none := by simp [Buddy.alloc, not_le.mp hle]
    refine iff_of_true hnone ?_
    rintro ⟨size, hsize, offset, -, -, hin, -⟩
    have := hsize.holds
    omega

/-- The invariant gives all that is promised. -/
theorem Stores.sound {w : World} {s : Shape w.buddy.order} (h : Stores w s) :
    Sound w.buddy.capacity w.buddy.minimum w := by
  have hmin := h.sized.minimum_pos
  have hleaves : w.buddy.capacity / w.buddy.minimum = 2 ^ w.buddy.order := by
    rw [h.sized.capacity, Nat.mul_div_cancel_left _ hmin]
  refine
    { apart := ?_
      inside := fun x hx => ?_
      size := h.size
      aligned := fun x hx => ?_
      freed := fun x hx => ?_
      zero := by simp [Buddy.alloc]
      fails := fun bytes hpos => h.alloc_none_iff hpos
      tree := fun node hnode hlt => h.tree hnode (hleaves ▸ hlt)
      restored := fun hlive => ?_ }
  · have hpairs : ((s.blocks 0).map fun x =>
        (w.buddy.minimum * x.1, w.buddy.minimum * 2 ^ x.2)).Pairwise
          fun x y => x.1 + x.2 ≤ y.1 ∨ y.1 + y.2 ≤ x.1 := by
      refine List.pairwise_map.mpr ((s.blocks_apart 0).imp fun {x y} hxy => ?_)
      simpa only [scale_le hmin, Apart] using hxy
    exact List.pairwise_map.mp (h.blocks.symm.pairwise hpairs fun hxy => hxy.symm)
  · obtain ⟨o, j, hmem, hoff, hsize⟩ := h.blocks.mem hx
    have := (Shape.mem_blocks_bounds hmem).2.1
    rw [hoff, hsize, h.sized.capacity, scale_le hmin]
    omega
  · obtain ⟨o, j, hmem, hoff, hsize⟩ := h.blocks.mem hx
    rw [hoff, hsize]
    exact Nat.mul_dvd_mul_left _ (Shape.mem_blocks_aligned (dvd_zero _) hmem)
  · obtain ⟨o, j, t, -, -, -, -, hfree⟩ := h.freed hx
    simp [hfree]
  · have hused : s.blocks 0 = [] := by
      have := h.blocks.length_eq
      rw [hlive] at this
      simpa using this.symm
    obtain rfl := Shape.eq_free_of_blocks h.reduced hused
    rw [hleaves, Nat.log2_two_pow]
    exact h.rep

/-- **The buddy allocator.** In every run of a fresh allocator, whatever the sizes and
the order of the calls. -/
theorem buddy_sound {capacity minimum : Nat} {calloc : Bool} {b : Buddy}
    (hinit : init capacity minimum calloc = some b) {tr w}
    (h : Trace World.step Any { buddy := b } tr w) : Sound capacity minimum w := by
  obtain ⟨-, hcap, hmin, -⟩ := init_spec hinit
  have hrun : w.buddy.capacity = capacity ∧ w.buddy.minimum = minimum ∧ ∃ s, Stores w s := by
    refine h.invariant (P := fun w => w.buddy.capacity = capacity ∧ w.buddy.minimum = minimum ∧
      ∃ s, Stores w s) ⟨hcap, hmin, _, Stores.initial hinit⟩ ?_
    rintro (bytes | ⟨offset, actual⟩) w w' ⟨rfl, rfl, s, hs⟩ - hstep
    · exact hs.alloc hstep
    · exact hs.free hstep
  obtain ⟨rfl, rfl, s, hs⟩ := hrun
  exact hs.sound

/-- A small block, a larger one, the first given back, and a request there is no room for. -/
theorem buddy_sound_mixed : ∃ b tr w, init 4096 64 true = some b ∧
    Trace World.step Any { buddy := b } tr w ∧ w.live = [⟨128, 128, 100⟩] ∧ Sound 4096 64 w := by
  let b : Buddy := (init 4096 64 true).get rfl
  obtain ⟨tr, htr⟩ := Trace.played World.step [.alloc 33, .alloc 100, .free 0 64, .alloc 4000]
    { buddy := b } { buddy := b } (by decide +kernel)
  exact ⟨b, tr, _, rfl, htr, by decide +kernel, @buddy_sound _ _ true _ rfl _ _ htr⟩

/-- A request of no bytes fails though there is room, and the entry of a node below
the free root says nothing. -/
theorem fresh_zero_and_stale : ∃ b, init 4096 64 true = some b ∧
    (b.alloc 0 = none ∧ IsBlockSize 64 0 64 ∧ HasFree [] 0 4096 64) ∧
    b.tree 2 = 0 ∧ HasFree [] (nodeOffset 4096 2) (nodeSize 4096 2) (64 * 2 ^ 5) := by
  refine ⟨_, rfl, ⟨rfl, ⟨⟨6, rfl⟩, by decide, le_refl _, fun i _ hi => hi⟩, ?_⟩, by decide, ?_⟩
  · exact ⟨0, dvd_zero _, le_refl _, by decide, by rintro x ⟨⟩⟩
  · exact ⟨0, dvd_zero _, by decide, by decide, by rintro x ⟨⟩⟩

end Enki.Axsys.Buddy
