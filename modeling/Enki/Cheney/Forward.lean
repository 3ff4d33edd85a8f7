import Enki.Cheney.Graph
import Mathlib.Algebra.Order.Group.Nat

/-!
# Forwarding

The state of a collection is described by the objects copied so far, in order: each has
its place in the new space, and every cell of the new space below the scan is as it has
to be at the end. Forwarding a value keeps this, and appends at most the object that
the value stands for.
-/

namespace Enki.Cheney

/-! ## Words -/

theorem hdrKind_fwd (cells : Nat) : hdrKind (hdrMake .fwd 0 0 cells) = some .fwd := by
  have h : hdrMake .fwd 0 0 cells % 2 ^ 8 = 9 := by
    simp only [hdrMake, Kind.code]
    omega
  rw [hdrKind, h]
  rfl

theorem ptr_make {t p : Nat} (hp : p < 2 ^ 53) : ptr (make t p) = p := by
  unfold ptr make
  omega

theorem tagForKind_ge (k : Option Kind) : 0x80 ≤ tagForKind k := by
  unfold tagForKind
  split <;> omega

theorem isNat63_make (k : Option Kind) (p : Nat) : isNat63 (make (tagForKind k) p) = false := by
  have := tagForKind_ge k
  rw [isNat63, decide_eq_false_iff_not, make]
  omega

/-! ## Where the objects go -/

/-- The cells that a list of objects takes. -/
def size (mem : Mem) (l : List Nat) : Nat := (l.map (cellsAt mem)).sum

@[simp] theorem size_nil (mem : Mem) : size mem [] = 0 := rfl

@[simp] theorem size_cons (mem : Mem) (p : Nat) (l : List Nat) :
    size mem (p :: l) = cellsAt mem p + size mem l := rfl

@[simp] theorem size_append (mem : Mem) (l r : List Nat) :
    size mem (l ++ r) = size mem l + size mem r := by
  simp [size]

/-- The address of an object when a list of objects is copied in order. -/
def place (mem : Mem) : Nat → List Nat → Nat → Nat
  | start, [], _ => start
  | start, x :: l, p => if x = p then start else place mem (start + cellsAt mem x) l p

theorem place_cons (mem : Mem) (start x : Nat) (l : List Nat) (p : Nat) :
    place mem start (x :: l) p = if x = p then start else place mem (start + cellsAt mem x) l p :=
  rfl

theorem place_append {mem : Mem} {start p : Nat} {l r : List Nat} (h : p ∈ l) :
    place mem start (l ++ r) p = place mem start l p := by
  induction l generalizing start with
  | nil => cases h
  | cons x l ih =>
    simp only [List.cons_append, place_cons]
    split
    · rfl
    · rename_i hne
      exact ih ((List.mem_cons.mp h).resolve_left (Ne.symm hne))

theorem place_next {mem : Mem} {start p : Nat} {l r : List Nat} (h : p ∉ l) :
    place mem start (l ++ p :: r) p = start + size mem l := by
  induction l generalizing start with
  | nil => exact if_pos rfl
  | cons x l ih =>
    rw [List.mem_cons, not_or] at h
    simp only [List.cons_append, place_cons, if_neg (Ne.symm h.1), ih h.2, size_cons]
    omega

theorem place_bounds (mem : Mem) (start : Nat) {p : Nat} {l : List Nat} (h : p ∈ l) :
    start ≤ place mem start l p ∧
      place mem start l p + cellsAt mem p ≤ start + size mem l := by
  induction l generalizing start with
  | nil => cases h
  | cons x l ih =>
    simp only [place_cons, size_cons]
    split
    · rename_i heq
      subst heq
      omega
    · rename_i hne
      have := ih (start + cellsAt mem x) ((List.mem_cons.mp h).resolve_left (Ne.symm hne))
      omega

/-- The places of two objects do not overlap. -/
theorem place_apart (mem : Mem) (start : Nat) {p q : Nat} {l : List Nat} (hp : p ∈ l) (hq : q ∈ l)
    (hne : p ≠ q) : place mem start l p + cellsAt mem p ≤ place mem start l q ∨
      place mem start l q + cellsAt mem q ≤ place mem start l p := by
  induction l generalizing start with
  | nil => cases hp
  | cons x l ih =>
    simp only [place_cons]
    split
    · rename_i heq
      subst heq
      rw [if_neg hne]
      have := (place_bounds mem (start + cellsAt mem x)
        ((List.mem_cons.mp hq).resolve_left (Ne.symm hne))).1
      omega
    · rename_i hxp
      have hp' := (List.mem_cons.mp hp).resolve_left (Ne.symm hxp)
      split
      · rename_i heq
        subst heq
        have := (place_bounds mem (start + cellsAt mem x) hp').1
        omega
      · rename_i hxq
        exact ih _ hp' ((List.mem_cons.mp hq).resolve_left (Ne.symm hxq))

/-! ## Tiles -/

theorem Tiles.size_eq {mem : Mem} {a b : Nat} {l : List Nat} (h : Tiles mem a l b) :
    b = a + size mem l := by
  induction h with
  | nil => rfl
  | cons _ ih =>
    rw [size_cons]
    omega

theorem Tiles.bounds {mem : Mem} {a b p : Nat} {l : List Nat} (h : Tiles mem a l b) (hp : p ∈ l) :
    a ≤ p ∧ p + cellsAt mem p ≤ b := by
  induction h with
  | nil => cases hp
  | cons ht ih =>
    have hsize := ht.size_eq
    rcases List.mem_cons.mp hp with rfl | hp
    · omega
    · have := ih hp
      omega

theorem Tiles.apart {mem : Mem} {a b p q : Nat} {l : List Nat} (h : Tiles mem a l b) (hp : p ∈ l)
    (hq : q ∈ l) (hne : p ≠ q) : p + cellsAt mem p ≤ q ∨ q + cellsAt mem q ≤ p := by
  induction h with
  | nil => cases hp
  | cons ht ih =>
    rcases List.mem_cons.mp hp with rfl | hp'
    · rcases List.mem_cons.mp hq with rfl | hq'
      · exact absurd rfl hne
      · have := ht.bounds hq'
        omega
    · rcases List.mem_cons.mp hq with rfl | hq'
      · have := ht.bounds hp'
        omega
      · exact ih hp' hq'

/-- Objects without repetition take no more than all of them. -/
theorem size_le (mem : Mem) {l objs : List Nat} (hnodup : l.Nodup) (hsub : ∀ p ∈ l, p ∈ objs) :
    size mem l ≤ size mem objs := by
  obtain ⟨l', hperm, hsubl⟩ := hnodup.subperm hsub
  calc size mem l = size mem l' := (hperm.map _).sum_eq.symm
    _ ≤ size mem objs := (hsubl.map _).sum_le_sum fun _ _ => Nat.zero_le _

/-! ## The state of a collection -/

/-- The spaces of a collection: the heap from `start` to `free`, and room for as much from
`target` on. -/
structure Setup (owns : Nat → Bool) (mem : Mem) (start : Nat) (objs : List Nat)
    (free target : Nat) : Prop where
  wf : WF owns mem start objs free
  apart : target + (free - start) ≤ start ∨ free ≤ target
  bound : target + (free - start) ≤ 2 ^ 53
  notOwned : ∀ a, target ≤ a → a < target + (free - start) → owns a = false

section Collection

variable {owns : Nat → Bool} {mem : Mem} {start free target : Nat} {objs : List Nat}

/-- The value that stands for the same, if the object is among those that were copied. -/
def SameIn (owns : Nat → Bool) (mem : Mem) (target : Nat) (l : List Nat) (v w : Nat) : Prop :=
  ∃ t, Resolves owns mem v t ∧ w = t.value mem (place mem target l) ∧ ∀ p, t = .obj p → p ∈ l

/-- What has to stand in a cell of a copy in the end. -/
def DoneCell (owns : Nat → Bool) (mem : Mem) (target : Nat) (l : List Nat) (p i w : Nat) : Prop :=
  match field mem p i with
  | .raw => w = mem (p + i)
  | .traced => SameIn owns mem target l (mem (p + i)) w
  | .dropped => w = 0

/-- The objects of `l` have been copied, and the cells below `scan` have been scanned. -/
structure Inv (owns : Nat → Bool) (mem : Mem) (start : Nat) (objs : List Nat) (free target : Nat)
    (R : Nat → Prop) (l : List Nat) (scan : Nat) (c : Ctx) : Prop where
  nodup : l.Nodup
  mem_objs : ∀ p ∈ l, p ∈ objs
  notInd : ∀ p ∈ l, hdrKind (mem p) ≠ some .ind
  reach : ∀ p ∈ l, R p
  free_eq : c.free = target + size mem l
  scan_le : scan ≤ c.free
  moved : ∀ p ∈ l, hdrKind (c.mem p) = some .fwd ∧
    c.mem (p + 1) = make (tagForKind (hdrKind (mem p))) (place mem target l p)
  unmoved : ∀ p ∈ objs, p ∉ l → ∀ i < cellsAt mem p, c.mem (p + i) = mem (p + i)
  done : ∀ p ∈ l, ∀ i < cellsAt mem p, place mem target l p + i < scan →
    DoneCell owns mem target l p i (c.mem (place mem target l p + i))
  todo : ∀ p ∈ l, ∀ i < cellsAt mem p, scan ≤ place mem target l p + i →
    c.mem (place mem target l p + i) = mem (p + i)
  frame : ∀ a, ¬(start ≤ a ∧ a < free) → ¬(target ≤ a ∧ a < target + size mem l) →
    c.mem a = mem a

theorem SameIn.append {l r : List Nat} {v w : Nat} (h : SameIn owns mem target l v w) :
    SameIn owns mem target (l ++ r) v w := by
  obtain ⟨t, ht, hw, hin⟩ := h
  refine ⟨t, ht, ?_, fun p hp => List.mem_append_left r (hin p hp)⟩
  cases t with
  | imm u => exact hw
  | obj p =>
    rw [hw]
    simp only [Target.value, place_append (hin p rfl)]

theorem DoneCell.append {l r : List Nat} {p i w : Nat} (h : DoneCell owns mem target l p i w) :
    DoneCell owns mem target (l ++ r) p i w := by
  unfold DoneCell at h ⊢
  split
  · rename_i hf
    rwa [hf] at h
  · rename_i hf
    rw [hf] at h
    exact SameIn.append h
  · rename_i hf
    rwa [hf] at h

variable {R : Nat → Prop} {l : List Nat} {scan : Nat} {c : Ctx}

theorem Inv.size_le (hs : Setup owns mem start objs free target)
    (h : Inv owns mem start objs free target R l scan c) : size mem l ≤ free - start := by
  have hle := Cheney.size_le mem h.nodup h.mem_objs
  have := hs.wf.tiles.size_eq
  omega

/-- The cells of two objects are different. -/
theorem WF.cell_ne (h : WF owns mem start objs free) {p q i j : Nat} (hp : p ∈ objs) (hq : q ∈ objs)
    (hne : p ≠ q) (hi : i < cellsAt mem p) (hj : j < cellsAt mem q) : p + i ≠ q + j := by
  have := h.tiles.apart hp hq hne
  omega

/-- A cell of the heap is not in the new space. -/
theorem Setup.cell_outside (hs : Setup owns mem start objs free target) {p i n : Nat}
    (hp : p ∈ objs) (hi : i < cellsAt mem p) (hn : n ≤ free - start) :
    ¬(target ≤ p + i ∧ p + i < target + n) := by
  have := hs.wf.tiles.bounds hp
  have := hs.apart
  omega

theorem evacuate_free (c : Ctx) (p : Nat) :
    (evacuate c p).1.free = c.free + cellsAt c.mem p := rfl

theorem evacuate_header (c : Ctx) (p : Nat) :
    hdrKind ((evacuate c p).1.mem p) = some .fwd := by
  have : (evacuate c p).1.mem p = hdrMake .fwd 0 0 (cellsAt c.mem p) := by
    simp [evacuate, Ctx.write, cellsAt]
  rw [this, hdrKind_fwd]

theorem evacuate_address (c : Ctx) (p : Nat) :
    (evacuate c p).1.mem (p + 1) = make (tagForKind (hdrKind (c.mem p))) c.free := by
  simp [evacuate, Ctx.write]

theorem evacuate_other (c : Ctx) {p a : Nat} (h : a ≠ p) (h1 : a ≠ p + 1) :
    (evacuate c p).1.mem a = copyCells c.mem p c.free (cellsAt c.mem p) a := by
  simp [evacuate, Ctx.write, h, h1, cellsAt]

theorem copyCells_inside {m : Mem} {src dst cells i : Nat} (hi : i < cells) :
    copyCells m src dst cells (dst + i) = m (src + i) := by
  rw [copyCells, if_pos (by omega)]
  congr 1
  omega

theorem copyCells_outside {m : Mem} {src dst cells a : Nat} (h : ¬(dst ≤ a ∧ a < dst + cells)) :
    copyCells m src dst cells a = m a := by
  rw [copyCells, if_neg h]

/-- Copying one more object. -/
theorem Inv.evacuate (hs : Setup owns mem start objs free target)
    (h : Inv owns mem start objs free target R l scan c) {p : Nat} (hp : p ∈ objs) (hl : p ∉ l)
    (hind : hdrKind (mem p) ≠ some .ind) (hR : R p) :
    Inv owns mem start objs free target R (l ++ [p]) scan (evacuate c p).1 := by
  have hok := hs.wf.ok p hp
  have hcells := hok.cells
  have hhdr : c.mem p = mem p := h.unmoved p hp hl 0 (by omega)
  have hsame : cellsAt c.mem p = cellsAt mem p := congrArg hdrCells hhdr
  have hnodup : (l ++ [p]).Nodup := by
    rw [List.nodup_append]
    refine ⟨h.nodup, by simp, fun x hx y hy => ?_⟩
    rw [List.mem_singleton] at hy
    rintro rfl
    exact hl (hy ▸ hx)
  have hsub : ∀ x ∈ l ++ [p], x ∈ objs := by
    intro x hx
    rcases List.mem_append.mp hx with hx | hx
    · exact h.mem_objs x hx
    · exact List.mem_singleton.mp hx ▸ hp
  have hroom : size mem (l ++ [p]) ≤ free - start := by
    have hle := Cheney.size_le mem hnodup hsub
    have := hs.wf.tiles.size_eq
    omega
  rw [size_append, size_cons, size_nil] at hroom
  have hfree := h.free_eq
  -- cells of other objects and of earlier copies stay as they are
  have hobj : ∀ x ∈ objs, x ≠ p → ∀ i < cellsAt mem x,
      (Cheney.evacuate c p).1.mem (x + i) = c.mem (x + i) := by
    intro x hx hne i hi
    have h0 := hs.wf.cell_ne hx hp hne hi (j := 0) (by omega)
    have h1 := hs.wf.cell_ne hx hp hne hi (j := 1) (by omega)
    have hout := hs.cell_outside hx hi (n := size mem l + cellsAt mem p) (by omega)
    rw [evacuate_other c (by omega) h1, copyCells_outside (by omega)]
  have hcopy : ∀ x ∈ l, ∀ i < cellsAt mem x,
      (Cheney.evacuate c p).1.mem (place mem target l x + i) = c.mem (place mem target l x + i) := by
    intro x hx i hi
    have hb := place_bounds mem target hx
    have h0 := hs.cell_outside hp (i := 0) (n := size mem l) (by omega) (by omega)
    have h1 := hs.cell_outside hp (i := 1) (n := size mem l) (by omega) (by omega)
    rw [evacuate_other c (by omega) (by omega), copyCells_outside (by omega)]
  -- the new copy
  have hnew : ∀ i < cellsAt mem p,
      (Cheney.evacuate c p).1.mem (c.free + i) = mem (p + i) := by
    intro i hi
    have h0 := hs.cell_outside hp (i := 0) (n := size mem l + cellsAt mem p) (by omega) (by omega)
    have h1 := hs.cell_outside hp (i := 1) (n := size mem l + cellsAt mem p) (by omega) (by omega)
    rw [evacuate_other c (by omega) (by omega), copyCells_inside (by omega)]
    exact h.unmoved p hp hl i hi
  have hplace : place mem target (l ++ [p]) p = c.free := by rw [place_next hl, hfree]
  constructor
  · exact hnodup
  · exact hsub
  · intro x hx
    rcases List.mem_append.mp hx with hx | hx
    · exact h.notInd x hx
    · exact List.mem_singleton.mp hx ▸ hind
  · intro x hx
    rcases List.mem_append.mp hx with hx | hx
    · exact h.reach x hx
    · exact List.mem_singleton.mp hx ▸ hR
  · rw [evacuate_free, hsame, hfree, size_append, size_cons, size_nil]
    omega
  · rw [evacuate_free]
    have := h.scan_le
    omega
  · intro x hx
    rcases List.mem_append.mp hx with hx | hx
    · have hne : x ≠ p := fun heq => hl (heq ▸ hx)
      have hx2 := (hs.wf.ok x (h.mem_objs x hx)).cells
      have h0 := hobj x (h.mem_objs x hx) hne 0 (by omega)
      rw [Nat.add_zero] at h0
      rw [h0, hobj x (h.mem_objs x hx) hne 1 (by omega), place_append hx]
      exact h.moved x hx
    · rw [List.mem_singleton.mp hx]
      exact ⟨evacuate_header c p, by rw [evacuate_address, hhdr, hplace]⟩
  · intro x hx hxl i hi
    rw [List.mem_append, not_or, List.mem_singleton] at hxl
    rw [hobj x hx hxl.2 i hi]
    exact h.unmoved x hx hxl.1 i hi
  · intro x hx i hi hlt
    rcases List.mem_append.mp hx with hx | hx
    · rw [place_append hx] at hlt ⊢
      rw [hcopy x hx i hi]
      exact (h.done x hx i hi hlt).append
    · rw [List.mem_singleton.mp hx, hplace] at hlt
      have := h.scan_le
      omega
  · intro x hx i hi hle
    rcases List.mem_append.mp hx with hx | hx
    · rw [place_append hx] at hle ⊢
      rw [hcopy x hx i hi]
      exact h.todo x hx i hi hle
    · rw [List.mem_singleton.mp hx] at hi ⊢
      rw [hplace]
      exact hnew i hi
  · intro a hheap hto
    have hb := hs.wf.tiles.bounds hp
    rw [size_append, size_cons, size_nil] at hto
    rw [evacuate_other c (by omega) (by omega), copyCells_outside (by omega)]
    exact h.frame a hheap (by omega)

theorem Valid.ptr_mem (hwf : WF owns mem start objs free) {v : Nat} (hv : Valid owns mem objs v)
    (himm : ¬(isNat63 v = true ∨ owns (ptr v) = true)) :
    ptr v ∈ objs := by
  rcases hv with hv | hv | ⟨p, hp, rfl⟩
  · exact absurd (.inl hv) himm
  · exact absurd (.inr hv) himm
  · have := hwf.tiles.bounds hp
    have := hwf.bound
    have := (hwf.ok p hp).cells
    rwa [ptr_make (by omega)]

/-- `pl_forward`: the result stands for the same as the value. -/
theorem forward_spec (hs : Setup owns mem start objs free target) {n fuel v : Nat} {t : Target}
    (hfuel : n ≤ fuel) (h : Inv owns mem start objs free target R l scan c)
    (hv : Valid owns mem objs v) (ht : resolve owns mem n v = some t)
    (hR : ∀ p, t = .obj p → R p) :
    ∃ c' r, forward owns fuel c v = some (c', t.value mem (place mem target (l ++ r))) ∧
      Inv owns mem start objs free target R (l ++ r) scan c' ∧ ∀ p, t = .obj p → p ∈ l ++ r := by
  induction n generalizing fuel v with
  | zero => cases ht
  | succ n ih =>
    obtain ⟨fuel, rfl⟩ : ∃ k, fuel = k + 1 := ⟨fuel - 1, by omega⟩
    unfold resolve at ht
    split at ht
    · -- a small natural, or of the store
      rename_i himm
      cases ht
      refine ⟨c, [], ?_, by rwa [List.append_nil], nofun⟩
      unfold forward
      split
      · rfl
      · rename_i hnat
        rw [if_pos (himm.resolve_left hnat)]
        rfl
    · rename_i himm
      have hp := hv.ptr_mem hs.wf himm
      have hok := hs.wf.ok _ hp
      have hcells := hok.cells
      rw [not_or] at himm
      unfold forward
      rw [if_neg himm.1, if_neg himm.2]
      split at ht
      · -- an indirection is never copied
        rename_i hind
        have hl : ptr v ∉ l := fun hm => h.notInd _ hm hind
        have hhdr : c.mem (ptr v) = mem (ptr v) := h.unmoved _ hp hl 0 (by omega)
        rw [hhdr, hind]
        have hnext := h.unmoved _ hp hl 1 (by omega)
        rw [← hnext] at ht
        have hvalid := hok.values 1 (by omega) (by simp [field, hind])
        rw [← hnext] at hvalid
        exact ih (by omega) hvalid ht
      · rename_i hind
        cases ht
        by_cases hl : ptr v ∈ l
        · obtain ⟨hfwd, haddr⟩ := h.moved _ hl
          rw [hfwd]
          refine ⟨c, [], ?_, by rwa [List.append_nil], ?_⟩
          · rw [List.append_nil, haddr]
            rfl
          · rintro p heq
            cases heq
            exact List.mem_append_left _ hl
        · have hhdr : c.mem (ptr v) = mem (ptr v) := h.unmoved _ hp hl 0 (by omega)
          obtain ⟨k, hk, hfwd⟩ := hok.kind
          refine ⟨(evacuate c (ptr v)).1, [ptr v], ?_, h.evacuate hs hp hl hind (hR _ rfl), ?_⟩
          · have hval : (evacuate c (ptr v)).2 =
                Target.value mem (place mem target (l ++ [ptr v])) (.obj (ptr v)) := by
              simp only [Target.value, place_next hl, ← h.free_eq]
              simp only [evacuate, hhdr]
            rw [← hval, hhdr, hk]
            cases k with
            | fwd => exact absurd rfl hfwd
            | ind => exact absurd hk hind
            | _ => rfl
          · rintro p heq
            cases heq
            exact List.mem_append_right _ (List.mem_singleton_self _)

end Collection

end Enki.Cheney
