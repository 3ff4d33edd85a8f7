import Enki.Cheney.Forward

/-!
# Scanning

The scan goes over the copies in order. Cells that hold data are already as they have to
be; a traced cell is forwarded in place. The copies it appends are scanned in turn, and
since no object is copied twice there are at most as many rounds as objects.
-/

namespace Enki.Cheney

section Scan

variable {owns : Nat → Bool} {mem : Mem} {start free target : Nat} {objs : List Nat}
  {R : Nat → Prop} {l : List Nat} {scan : Nat} {c : Ctx}

/-- The next cell gets what it has to hold. -/
theorem Inv.writeDone (hs : Setup owns mem start objs free target)
    (h : Inv owns mem start objs free target R l scan c) {p i w : Nat} (hp : p ∈ l)
    (hi : i < cellsAt mem p) (hscan : place mem target l p + i = scan)
    (hw : DoneCell owns mem target l p i w) :
    Inv owns mem start objs free target R l (scan + 1) (c.write scan w) := by
  have hroom := h.size_le hs
  have hb := place_bounds mem target hp
  have hother : ∀ a, a ≠ scan → (c.write scan w).mem a = c.mem a :=
    fun a ha => by simp [Ctx.write, ha]
  have hheap : ∀ x ∈ objs, ∀ j < cellsAt mem x, x + j ≠ scan := by
    intro x hx j hj
    have := hs.cell_outside hx hj hroom
    omega
  have huniq : ∀ x ∈ l, ∀ j < cellsAt mem x, place mem target l x + j = scan → x = p ∧ j = i := by
    intro x hx j hj heq
    by_cases hne : x = p
    · subst hne
      exact ⟨rfl, by omega⟩
    · have := place_apart mem target hx hp hne
      omega
  constructor
  · exact h.nodup
  · exact h.mem_objs
  · exact h.notInd
  · exact h.reach
  · exact h.free_eq
  · change scan + 1 ≤ c.free
    rw [h.free_eq]
    omega
  · intro x hx
    have hcells := (hs.wf.ok x (h.mem_objs x hx)).cells
    rw [hother x (hheap x (h.mem_objs x hx) 0 (by omega)),
      hother (x + 1) (hheap x (h.mem_objs x hx) 1 (by omega))]
    exact h.moved x hx
  · intro x hx hxl j hj
    rw [hother _ (hheap x hx j hj)]
    exact h.unmoved x hx hxl j hj
  · intro x hx j hj hlt
    by_cases heq : place mem target l x + j = scan
    · obtain ⟨rfl, rfl⟩ := huniq x hx j hj heq
      rw [heq]
      simpa [Ctx.write] using hw
    · rw [hother _ heq]
      exact h.done x hx j hj (by omega)
  · intro x hx j hj hle
    rw [hother _ (by omega)]
    exact h.todo x hx j hj (by omega)
  · intro a ha hto
    rw [hother a (by omega)]
    exact h.frame a ha hto

/-- Cells that hold data are passed over. -/
theorem Inv.skip (hs : Setup owns mem start objs free target)
    (h : Inv owns mem start objs free target R l scan c) {p i : Nat} (hp : p ∈ l) (n : Nat)
    (hi : i + n ≤ cellsAt mem p) (hscan : place mem target l p + i = scan)
    (hraw : ∀ j, i ≤ j → j < i + n → field mem p j = .raw) :
    Inv owns mem start objs free target R l (scan + n) c := by
  induction n generalizing i scan with
  | zero => exact h
  | succ n ih =>
    have hval : c.mem scan = mem (p + i) := by
      have := h.todo p hp i (by omega) (by omega)
      rwa [hscan] at this
    have hstep := h.writeDone hs (w := c.mem scan) hp (by omega) hscan (by
      rw [DoneCell, hraw i (Nat.le_refl _) (by omega)]
      exact hval)
    have hnop : c.write scan (c.mem scan) = c := by
      simp [Ctx.write]
    rw [hnop] at hstep
    have := ih hstep (i := i + 1) (by omega) (by omega) fun j hj hlt => hraw j (by omega) (by omega)
    rwa [Nat.add_assoc, Nat.add_comm 1 n] at this

/-- The set of objects is closed under the fields that are traced. -/
def ClosedUnder (owns : Nat → Bool) (mem : Mem) (R : Nat → Prop) : Prop :=
  ∀ p i q, R p → i < cellsAt mem p → field mem p i = .traced →
    Resolves owns mem (mem (p + i)) (.obj q) → R q

/-- The fuel is enough for every chain of indirections. -/
def Enough (owns : Nat → Bool) (mem : Mem) (objs : List Nat) (fuel : Nat) : Prop :=
  ∀ v, Valid owns mem objs v → ∃ t, resolve owns mem fuel v = some t

/-- Forwarding the next cell. -/
theorem forwardCell_spec (hs : Setup owns mem start objs free target)
    (hR : ClosedUnder owns mem R) {fuel : Nat} (hfuel : Enough owns mem objs fuel)
    (h : Inv owns mem start objs free target R l scan c) {p i : Nat} (hp : p ∈ l)
    (hi : i < cellsAt mem p) (hscan : place mem target l p + i = scan)
    (htraced : field mem p i = .traced) :
    ∃ c' r, forwardCell owns fuel c scan = some c' ∧
      Inv owns mem start objs free target R (l ++ r) (scan + 1) c' := by
  have hval : c.mem scan = mem (p + i) := by
    have := h.todo p hp i hi (by omega)
    rwa [hscan] at this
  have hvalid := (hs.wf.ok p (h.mem_objs p hp)).values i hi htraced
  obtain ⟨t, ht⟩ := hfuel _ hvalid
  obtain ⟨c', r, hfwd, hinv, hin⟩ := forward_spec hs (Nat.le_refl fuel) h hvalid ht
    fun q heq => hR p i q (h.reach p hp) hi htraced (heq ▸ ⟨fuel, ht⟩)
  have hplace : place mem target (l ++ r) p + i = scan := by rwa [place_append hp]
  refine ⟨c'.write scan (t.value mem (place mem target (l ++ r))), r, ?_, hinv.writeDone hs (List.mem_append_left r hp) hi hplace ?_⟩
  · rw [forwardCell, hval, hfwd]
    rfl
  · rw [DoneCell, htraced]
    exact ⟨t, ⟨fuel, ht⟩, rfl, hin⟩

/-- Forwarding some cells that are all traced. -/
theorem forwardCells_spec (hs : Setup owns mem start objs free target)
    (hR : ClosedUnder owns mem R) {fuel : Nat} (hfuel : Enough owns mem objs fuel)
    (h : Inv owns mem start objs free target R l scan c) {p i : Nat} (hp : p ∈ l) (n : Nat)
    (hi : i + n ≤ cellsAt mem p) (hscan : place mem target l p + i = scan)
    (htraced : ∀ j, i ≤ j → j < i + n → field mem p j = .traced) :
    ∃ c' r, (List.range' scan n).foldlM (forwardCell owns fuel) c = some c' ∧
      Inv owns mem start objs free target R (l ++ r) (scan + n) c' := by
  induction n generalizing i scan c l with
  | zero => exact ⟨c, [], rfl, by rwa [List.append_nil]⟩
  | succ n ih =>
    obtain ⟨c₁, r₁, h₁, hinv₁⟩ := forwardCell_spec hs hR hfuel h hp (by omega) hscan
      (htraced i (Nat.le_refl _) (by omega))
    obtain ⟨c₂, r₂, h₂, hinv₂⟩ := ih hinv₁ (i := i + 1) (List.mem_append_left r₁ hp) (by omega)
      (by rw [place_append hp]; omega) fun j hj hlt => htraced j (by omega) (by omega)
    refine ⟨c₂, r₁ ++ r₂, ?_, ?_⟩
    · rw [List.range'_succ, List.foldlM_cons, h₁]
      exact h₂
    · rwa [← List.append_assoc, Nat.add_comm n 1, ← Nat.add_assoc]

/-- The traced cells of an object, other than a PIN, are those that are scanned. -/
theorem fields_spec {p : Nat} {k : Kind} (hok : ObjOK owns mem objs p)
    (hk : hdrKind (mem p) = some k) (hpin : k ≠ .pin) :
    ∃ first count, fields (cellsAt mem p) k = some (first, count) ∧
      first + count ≤ cellsAt mem p ∧
      ∀ j < cellsAt mem p,
        field mem p j = if first ≤ j ∧ j < first + count then .traced else .raw := by
  have hcells := hok.cells
  unfold field
  rw [hk]
  cases k with
  | nat => exact ⟨0, 0, rfl, by omega, fun j _ => by simp⟩
  | app =>
    refine ⟨1, cellsAt mem p - 1, rfl, by omega, fun j hj => ?_⟩
    simp only [show 1 + (cellsAt mem p - 1) = cellsAt mem p by omega, hj, and_true]
  | env =>
    refine ⟨1, cellsAt mem p - 1, rfl, by omega, fun j hj => ?_⟩
    simp only [show 1 + (cellsAt mem p - 1) = cellsAt mem p by omega, hj, and_true]
  | law =>
    refine ⟨2, 2, rfl, hok.law hk, fun j _ => ?_⟩
    simp only [show (j = 2 ∨ j = 3) ↔ (2 ≤ j ∧ j < 2 + 2) by omega]
  | thunk =>
    refine ⟨1, 2, rfl, hok.thunk hk, fun j _ => ?_⟩
    simp only [show (j = 1 ∨ j = 2) ↔ (1 ≤ j ∧ j < 1 + 2) by omega]
  | thke =>
    refine ⟨2, cellsAt mem p - 2, rfl, by omega, fun j hj => ?_⟩
    simp only [show 2 + (cellsAt mem p - 2) = cellsAt mem p by omega, hj, and_true]
  | ind =>
    refine ⟨1, 1, rfl, hcells, fun j _ => ?_⟩
    simp only [show j = 1 ↔ (1 ≤ j ∧ j < 1 + 1) by omega]
  | bh =>
    refine ⟨1, 1, rfl, hcells, fun j _ => ?_⟩
    simp only [show j = 1 ↔ (1 ≤ j ∧ j < 1 + 1) by omega]
  | pin => exact absurd rfl hpin
  | fwd =>
    obtain ⟨k, hk', hne⟩ := hok.kind
    rw [hk] at hk'
    cases hk'
    exact absurd rfl hne

/-- The store is not touched. -/
theorem Inv.owned (hs : Setup owns mem start objs free target)
    (h : Inv owns mem start objs free target R l scan c) {a : Nat} (ha : owns a = true) :
    c.mem a = mem a := by
  have hroom := h.size_le hs
  refine h.frame a (fun hin => ?_) fun hin => ?_
  · rw [hs.wf.notOwned a hin.1 hin.2] at ha
    cases ha
  · rw [hs.notOwned a hin.1 (by omega)] at ha
    cases ha

theorem Enough.pos {fuel : Nat} (h : Enough owns mem objs fuel) : 0 < fuel := by
  obtain ⟨t, ht⟩ := h 0 (.inl rfl)
  cases fuel with
  | zero => cases ht
  | succ n => exact Nat.succ_pos n

theorem forward_owned {fuel v : Nat} (hfuel : 0 < fuel) (ho : owns (ptr v) = true) :
    forward owns fuel c v = some (c, v) := by
  obtain ⟨fuel, rfl⟩ : ∃ k, fuel = k + 1 := ⟨fuel - 1, by omega⟩
  rw [forward, if_pos ho, ite_self]

/-- Scanning a proxy: its body is forwarded, or dropped once it has a target. -/
theorem scanProxy_spec (hs : Setup owns mem start objs free target)
    (hR : ClosedUnder owns mem R) {fuel : Nat} (hfuel : Enough owns mem objs fuel)
    (h : Inv owns mem start objs free target R l scan c) {p : Nat} (hp : p ∈ l)
    (hscan : place mem target l p = scan) (hk : hdrKind (mem p) = some .pin) :
    ∃ c' r, scanProxy owns fuel c scan = some c' ∧
      Inv owns mem start objs free target R (l ++ r) (scan + cellsAt mem p) c' := by
  obtain ⟨hproxy, hmeta, hcells, htarget⟩ := (hs.wf.ok p (h.mem_objs p hp)).pin hk
  have hcells7 : cellsAt mem p = 7 := hcells
  have hcell : ∀ i < cellsAt mem p, c.mem (scan + i) = mem (p + i) := by
    intro i hi
    have := h.todo p hp i hi (by omega)
    rwa [hscan] at this
  have hhdr : c.mem scan = mem p := hcell 0 (by omega)
  have h6 := hcell 6 (by omega)
  have hraw : ∀ j, j ≠ 5 → field mem p j = .raw := fun j hj => by simp [field, hk, hj]
  have hfive := h.skip hs hp (i := 0) 5 (by omega) hscan fun j _ hj => hraw j (by omega)
  rw [scanProxy, if_neg (by rw [hhdr]; exact not_not.mpr ⟨hproxy, hmeta, hcells⟩), h6]
  by_cases hzero : mem (p + 6) = 0
  · rw [if_pos hzero]
    obtain ⟨c', r, hfwd, hinv⟩ := forwardCell_spec hs hR hfuel hfive hp (i := 5) (by omega)
      (by omega) (by simp [field, hk, hzero])
    refine ⟨c', r, hfwd, ?_⟩
    rw [hcells7]
    exact hinv.skip hs (List.mem_append_left r hp) (i := 6) 1 (by omega)
      (by rw [place_append hp]; omega) fun j _ _ => hraw j (by omega)
  · obtain ⟨howned, hcanon⟩ := htarget.resolve_left hzero
    have htag : tag (mem (p + 6)) = pinTag := by
      simp only [canonical, decide_eq_true_eq] at hcanon
      exact hcanon.1
    have hcanon' : canonical c.mem (mem (p + 6)) = true := by
      rw [canonical, h.owned hs howned]
      exact hcanon
    rw [if_neg hzero, if_neg (not_not.mpr ⟨htag, howned⟩), forward_owned hfuel.pos howned,
      Option.bind_some, if_neg (by simp [hcanon'])]
    refine ⟨_, [], rfl, ?_⟩
    rw [List.append_nil, hcells7]
    have hdrop := hfive.writeDone hs (w := 0) hp (i := 5) (by omega) (by omega) (by
      simp [DoneCell, field, hk, hzero])
    exact hdrop.writeDone hs (w := mem (p + 6)) hp (i := 6) (by omega) (by omega) (by
      rw [DoneCell, hraw 6 (by omega)])

/-- Scanning one object. -/
theorem scanObject_spec (hs : Setup owns mem start objs free target)
    (hR : ClosedUnder owns mem R) {fuel : Nat} (hfuel : Enough owns mem objs fuel)
    (h : Inv owns mem start objs free target R l scan c) {p : Nat} (hp : p ∈ l)
    (hscan : place mem target l p = scan) :
    ∃ c' r, scanObject owns fuel c scan = some c' ∧
      Inv owns mem start objs free target R (l ++ r) (scan + cellsAt mem p) c' := by
  have hok := hs.wf.ok p (h.mem_objs p hp)
  have hcells := hok.cells
  have hhdr : c.mem scan = mem p := by
    have := h.todo p hp 0 (by omega) (by omega)
    rwa [Nat.add_zero, hscan] at this
  obtain ⟨k, hk, -⟩ := hok.kind
  unfold scanObject
  rw [hhdr, hk]
  by_cases hpin : k = .pin
  · subst hpin
    exact scanProxy_spec hs hR hfuel h hp hscan hk
  · obtain ⟨first, count, hf, hle, hfield⟩ := fields_spec hok hk hpin
    have hskip := h.skip hs hp (i := 0) first (by omega) hscan fun j _ hj => by
      rw [hfield j (by omega), if_neg (by omega)]
    obtain ⟨c', r, hfwd, hinv⟩ := forwardCells_spec hs hR hfuel hskip hp (i := first) count hle
      (by omega) fun j hj hlt => by rw [hfield j (by omega), if_pos ⟨hj, hlt⟩]
    refine ⟨c', r, ?_, ?_⟩
    · cases k with
      | pin => exact absurd rfl hpin
      | _ =>
        simp only [show hdrCells (mem p) = cellsAt mem p from rfl, hf]
        exact hfwd
    · have hlast := hinv.skip hs (List.mem_append_left r hp) (i := first + count)
        (cellsAt mem p - (first + count)) (by omega) (by rw [place_append hp]; omega)
        fun j hj hlt => by rw [hfield j (by omega), if_neg (by omega)]
      rwa [show scan + first + count + (cellsAt mem p - (first + count)) =
        scan + cellsAt mem p by omega] at hlast

/-- The whole scan: `l₁` has been scanned, and in the end everything has. -/
theorem cheneyScan_spec (hs : Setup owns mem start objs free target)
    (hR : ClosedUnder owns mem R) {fuel n : Nat} (hfuel : Enough owns mem objs fuel)
    (l₁ : List Nat) {l₂ : List Nat} (hn : objs.length ≤ l₁.length + n)
    (h : Inv owns mem start objs free target R (l₁ ++ l₂) (target + size mem l₁) c) :
    ∃ c' r, cheneyScan owns fuel n c (target + size mem l₁) = some c' ∧
      Inv owns mem start objs free target R (l₁ ++ l₂ ++ r) c'.free c' := by
  induction n generalizing l₁ l₂ c with
  | zero =>
    -- every object has been copied and scanned
    have hlen := (h.nodup.subperm fun p hp => h.mem_objs p hp).length_le
    rw [List.length_append] at hlen
    obtain rfl : l₂ = [] := List.eq_nil_of_length_eq_zero (by omega)
    have hfree := h.free_eq
    rw [List.append_nil] at hfree
    refine ⟨c, [], ?_, ?_⟩
    · rw [cheneyScan, if_neg (by omega)]
    · rwa [List.append_nil, hfree]
  | succ n ih =>
    have hfree := h.free_eq
    cases l₂ with
    | nil =>
      rw [List.append_nil] at hfree
      refine ⟨c, [], ?_, ?_⟩
      · rw [cheneyScan, if_neg (by omega)]
      · rwa [List.append_nil, hfree]
    | cons p l₂ =>
      have hp : p ∈ l₁ ++ p :: l₂ := List.mem_append_right _ (List.mem_cons_self ..)
      have hcells := (hs.wf.ok p (h.mem_objs p hp)).cells
      have hnot : p ∉ l₁ := fun hm =>
        (List.nodup_append.mp h.nodup).2.2 p hm p (List.mem_cons_self ..) rfl
      have hplace : place mem target (l₁ ++ p :: l₂) p = target + size mem l₁ := place_next hnot
      have hhdr : c.mem (target + size mem l₁) = mem p := by
        have := h.todo p hp 0 (by omega) (by omega)
        rwa [hplace] at this
      obtain ⟨c₁, r₁, h₁, hinv₁⟩ := scanObject_spec hs hR hfuel h hp hplace
      have hassoc : l₁ ++ p :: l₂ ++ r₁ = (l₁ ++ [p]) ++ (l₂ ++ r₁) := by simp
      have hsize : target + size mem l₁ + cellsAt mem p = target + size mem (l₁ ++ [p]) := by
        simp [Nat.add_assoc]
      rw [hassoc, hsize] at hinv₁
      obtain ⟨c₂, r₂, h₂, hinv₂⟩ := ih (l₁ ++ [p]) (by simp; omega) hinv₁
      refine ⟨c₂, r₁ ++ r₂, ?_, ?_⟩
      · rw [size_append, size_cons] at hfree
        rw [cheneyScan, if_pos (by omega), h₁, Option.bind_some, hhdr,
          show target + size mem l₁ + hdrCells (mem p) = target + size mem (l₁ ++ [p]) from hsize]
        exact h₂
      · rwa [← hassoc, List.append_assoc] at hinv₂

end Scan

end Enki.Cheney
