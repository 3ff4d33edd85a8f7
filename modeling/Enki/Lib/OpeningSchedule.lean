import Mathlib.Algebra.Ring.Nat
import Mathlib.Data.List.Basic

/-!
# Opening an interval tree one node per leaf

A verifier consumes the leaves `0, 1, …` of an interval tree from left to
right; an interval of more than one leaf splits into two by a fixed rule `sp`.
What it knows at any moment is a *forest*: adjacent intervals tiling the leaves
still to come. After each consumed leaf the leftmost interval that is not a
leaf is opened, i.e. replaced by its two halves.

`Ready d F` is the credit argument that this never starves: walking `F` in
preorder, a leaf earns one opening and an inner interval spends one. One round,
consuming the front leaf and opening one interval, keeps `Ready 0`
(`Ready.round`); the forest known at the start, the left spine of the whole
tree, has it whenever the two halves of an interval have left spines of about
the same length (`ready_spine`).

The second part is about sorted lists: a verifier that keeps the known leaves
and the unopened intervals in two lists sorted by position sees an opening as
two insertions (`insertBy_between`).
-/

namespace OpeningSchedule

/-- `(start, count)`: the leaves `start, …, start + count - 1`. -/
abbrev Interval := Nat × Nat

/-- A splitting rule: both halves of an interval of two or more leaves are
nonempty. -/
structure Split where
  left : Nat → Nat
  pos : ∀ {c}, 1 < c → 0 < left c
  lt : ∀ {c}, 1 < c → left c < c

variable (sp : Split)

/-- The halves of an interval. -/
def Split.halves (i : Interval) : List Interval :=
  [(i.1, sp.left i.2), (i.1 + sp.left i.2, i.2 - sp.left i.2)]

/-- Adjacent nonempty intervals from `s` on. -/
def Tiles : Nat → List Interval → Prop
  | _, [] => True
  | s, (a, c) :: F => a = s ∧ 0 < c ∧ Tiles (s + c) F

/-- The leftmost inner interval, and the forest after it is opened. -/
def openFirst : List Interval → Option (Interval × List Interval)
  | [] => none
  | i :: F =>
    if 1 < i.2 then some (i, sp.halves i ++ F)
    else (openFirst F).map fun r => (r.1, i :: r.2)

/-- The forest after one opening; unchanged when nothing is left to open. -/
def opened (F : List Interval) : List Interval :=
  ((openFirst sp F).map Prod.snd).getD F

/-- The inner intervals of a forest. -/
def inners (F : List Interval) : List Interval := F.filter fun i => 1 < i.2

/-- The leaves of a forest. -/
def leaves (F : List Interval) : List Interval := F.filter fun i => ¬ 1 < i.2

/-- An opening replaces the leftmost inner interval, which only leaves precede. -/
theorem openFirst_some {F G : List Interval} {i : Interval}
    (h : openFirst sp F = some (i, G)) :
    ∃ A B, F = A ++ i :: B ∧ G = A ++ sp.halves i ++ B ∧ 1 < i.2 ∧ inners A = [] := by
  induction F generalizing G with
  | nil => simp [openFirst] at h
  | cons j F ih =>
    unfold openFirst at h
    split at h
    · next hj =>
      cases h
      exact ⟨[], F, rfl, rfl, hj, rfl⟩
    · next hj =>
      obtain ⟨⟨i', G'⟩, hF, heq⟩ := Option.map_eq_some_iff.mp h
      cases heq
      obtain ⟨A, B, hFA, hGA, hi, hA⟩ := ih hF
      refine ⟨j :: A, B, by rw [hFA]; rfl, by rw [hGA]; rfl, hi, ?_⟩
      simpa [inners, hj] using hA

/-- The interval behind a prefix of leaves is the one that opens. -/
theorem openFirst_append {A B : List Interval} {i : Interval} (hA : ∀ a ∈ A, ¬ 1 < a.2)
    (hi : 1 < i.2) : openFirst sp (A ++ i :: B) = some (i, A ++ sp.halves i ++ B) := by
  induction A with
  | nil => simp [openFirst, hi]
  | cons a A ih =>
    have ha := hA a (by simp)
    rw [List.cons_append, openFirst, if_neg ha, ih fun b hb => hA b (by simp [hb])]
    rfl

theorem openFirst_none {F : List Interval} (h : openFirst sp F = none) : inners F = [] := by
  induction F with
  | nil => rfl
  | cons j F ih =>
    unfold openFirst at h
    split at h
    · cases h
    · next hj =>
      have hF := ih (Option.map_eq_none_iff.mp h)
      simpa [inners, hj] using hF

/-! ## Tilings -/

theorem tiles_append {s : Nat} {A B : List Interval} :
    Tiles s (A ++ B) ↔ Tiles s A ∧ Tiles (s + (A.map Prod.snd).sum) B := by
  induction A generalizing s with
  | nil => simp [Tiles]
  | cons i A ih =>
    simp only [List.cons_append, Tiles, ih, List.map_cons, List.sum_cons, Nat.add_assoc]
    tauto

theorem tiles_halves {s : Nat} {i : Interval} (hi : 1 < i.2) (h : i.1 = s) :
    Tiles s (sp.halves i) := by
  have hpos := sp.pos hi
  have hlt := sp.lt hi
  exact ⟨h, hpos, by simp [h], by omega, trivial⟩

theorem sum_opened (F : List Interval) :
    ((opened sp F).map Prod.snd).sum = (F.map Prod.snd).sum := by
  unfold opened
  cases hF : openFirst sp F with
  | none => rfl
  | some r =>
    obtain ⟨A, B, rfl, hG, hi, -⟩ := openFirst_some sp hF
    have hlt := sp.lt hi
    simp [hG, Split.halves]
    omega

/-- Opening an interval tiles the same leaves. -/
theorem tiles_opened {s : Nat} {F : List Interval} (h : Tiles s F) : Tiles s (opened sp F) := by
  unfold opened
  cases hF : openFirst sp F with
  | none => exact h
  | some r =>
    obtain ⟨A, B, rfl, hG, hi, -⟩ := openFirst_some sp hF
    have hlt := sp.lt hi
    simp only [Option.map_some, Option.getD_some, hG]
    obtain ⟨hA, hr, -, hB⟩ := tiles_append.1 h
    rw [List.append_assoc]
    refine tiles_append.2 ⟨hA, tiles_append.2 ⟨tiles_halves sp hi hr, ?_⟩⟩
    have hsum : ((sp.halves r.1).map Prod.snd).sum = r.1.2 := by
      simp [Split.halves]
      omega
    rw [hsum]
    exact hB

theorem Tiles.start_le {s : Nat} {F : List Interval} (h : Tiles s F) :
    ∀ i ∈ F, s ≤ i.1 := by
  induction F generalizing s with
  | nil => simp
  | cons j F ih =>
    obtain ⟨hj, hpos, hF⟩ := h
    intro i hi
    rcases List.mem_cons.mp hi with rfl | hi
    · omega
    · have := ih hF i hi
      omega

/-- Everything before a point of a tiling starts before it. -/
theorem Tiles.start_lt {s : Nat} {A B : List Interval} {i : Interval}
    (h : Tiles s (A ++ i :: B)) : ∀ a ∈ A, a.1 < i.1 := by
  induction A generalizing s with
  | nil => simp
  | cons j A ih =>
    obtain ⟨hj, hpos, hF⟩ := h
    intro a ha
    have hi := hF.start_le i (by simp)
    rcases List.mem_cons.mp ha with rfl | ha
    · omega
    · exact ih hF a ha

/-- Everything after a point of a tiling starts past it. -/
theorem Tiles.end_le {s : Nat} {A B : List Interval} {i : Interval}
    (h : Tiles s (A ++ i :: B)) : ∀ b ∈ B, i.1 + i.2 ≤ b.1 := by
  obtain ⟨-, hi, -, hB⟩ := tiles_append.1 h
  intro b hb
  have := hB.start_le b hb
  omega

/-! ## Credit -/

/-- Preorder credit: a leaf earns one, an inner interval spends one. -/
inductive Ready : Nat → List Interval → Prop
  | nil (d) : Ready d []
  | leaf {d i F} (hi : ¬ 1 < i.2) (h : Ready (d + 1) F) : Ready d (i :: F)
  | node {d i F} (hi : 1 < i.2) (h : Ready d (sp.halves i ++ F)) : Ready (d + 1) (i :: F)

variable {sp}

/-- With no credit the front interval is a leaf. -/
theorem Ready.front {i : Interval} {F : List Interval} (h : Ready sp 0 (i :: F)) :
    ¬ 1 < i.2 ∧ Ready sp 1 F := by
  cases h with
  | leaf hi h => exact ⟨hi, h⟩

theorem Ready.opened {d : Nat} {F : List Interval} (h : Ready sp (d + 1) F) :
    Ready sp d (opened sp F) := by
  induction F generalizing d with
  | nil => exact .nil d
  | cons i F ih =>
    cases h with
    | leaf hi h =>
      have hopen : OpeningSchedule.opened sp (i :: F) = i :: OpeningSchedule.opened sp F := by
        simp only [OpeningSchedule.opened, openFirst, if_neg hi]
        cases openFirst sp F <;> rfl
      rw [hopen]
      exact .leaf hi (ih h)
    | node hi h =>
      simpa [OpeningSchedule.opened, openFirst, if_pos hi] using h

/-- **One round**: consume the front leaf, open one interval. -/
theorem Ready.round {i : Interval} {F : List Interval} (h : Ready sp 0 (i :: F)) :
    ¬ 1 < i.2 ∧ Ready sp 0 (OpeningSchedule.opened sp F) :=
  ⟨h.front.1, h.front.2.opened⟩

variable (sp)

/-- Inner intervals on the left spine of an interval of `c` leaves. -/
def spineLen (c : Nat) : Nat :=
  if _h : 1 < c then spineLen (sp.left c) + 1 else 0
termination_by c
decreasing_by exact sp.lt _h

/-- The leftmost leaf of an interval followed by the right halves along its
left spine, deepest first. -/
def spine (s c : Nat) : List Interval :=
  if _h : 1 < c then spine s (sp.left c) ++ [(s + sp.left c, c - sp.left c)] else [(s, c)]
termination_by c
decreasing_by exact sp.lt _h

/-- Right halves have left spines at most one longer than left halves. -/
def Split.Balanced : Prop :=
  ∀ c, 1 < c → spineLen sp (c - sp.left c) ≤ spineLen sp (sp.left c) + 1

variable {sp}

/-- Passing a whole interval of a balanced tree needs its spine length in
credit and earns one. -/
theorem Ready.cons (hb : sp.Balanced) :
    ∀ (c : Nat) {d s : Nat} {F : List Interval}, spineLen sp c ≤ d → Ready sp (d + 1) F →
      Ready sp d ((s, c) :: F) := by
  intro c
  induction c using Nat.strongRecOn with
  | _ c ih =>
    intro d s F hd hF
    by_cases hc : 1 < c
    · have hspine : spineLen sp c = spineLen sp (sp.left c) + 1 := by
        rw [spineLen, dif_pos hc]
      obtain ⟨d, rfl⟩ : ∃ d', d = d' + 1 := ⟨d - 1, by omega⟩
      have hpos := sp.pos hc
      have hlt := sp.lt hc
      have hright := hb c hc
      refine .node hc ?_
      show Ready sp d ((s, sp.left c) :: (s + sp.left c, c - sp.left c) :: F)
      exact ih _ hlt (by omega) (ih _ (by omega) (by omega) hF)
    · exact .leaf hc hF

theorem Ready.spine_append {c : Nat} :
    ∀ {d s : Nat} {F : List Interval}, Ready sp (spineLen sp c + d) ((s, c) :: F) →
      Ready sp d (spine sp s c ++ F) := by
  induction c using Nat.strongRecOn with
  | _ c ih =>
    intro d s F h
    by_cases hc : 1 < c
    · rw [spineLen, dif_pos hc, show spineLen sp (sp.left c) + 1 + d
        = (spineLen sp (sp.left c) + d) + 1 from by omega] at h
      rw [spine, dif_pos hc, List.append_assoc]
      cases h with
      | leaf hi _ => exact absurd hc hi
      | node _ h => exact ih _ (sp.lt hc) h
    · rw [spineLen, dif_neg hc, Nat.zero_add] at h
      rw [spine, dif_neg hc]
      exact h

/-- **The starting forest never starves.** -/
theorem ready_spine (hb : sp.Balanced) (s c : Nat) : Ready sp 0 (spine sp s c) := by
  have h : Ready sp (spineLen sp c + 0) [(s, c)] :=
    .cons hb c (Nat.le_refl _) (.nil _)
  simpa using Ready.spine_append h

theorem sum_spine {s c : Nat} (hc : 0 < c) : ((spine sp s c).map Prod.snd).sum = c := by
  induction c using Nat.strongRecOn with
  | _ c ih =>
    rw [spine]
    split
    · next h =>
      have hlt := sp.lt h
      simp [ih _ hlt (sp.pos h)]
      omega
    · simp

theorem tiles_spine {s c : Nat} (hc : 0 < c) : Tiles s (spine sp s c) := by
  induction c using Nat.strongRecOn with
  | _ c ih =>
    rw [spine]
    split
    · next h =>
      have hlt := sp.lt h
      refine tiles_append.2 ⟨ih _ hlt (sp.pos h), ?_⟩
      rw [sum_spine (sp.pos h)]
      exact ⟨rfl, by show 0 < c - sp.left c; omega, trivial⟩
    · exact ⟨rfl, hc, trivial⟩

/-! ## Runs -/

/-- The forest before leaf `i` of `n`: it tiles the leaves `i, …, n - 1` and
has the credit to go on. -/
structure Forest (sp : Split) (n i : Nat) (F : List Interval) : Prop where
  tiles : Tiles i F
  total : i + (F.map Prod.snd).sum = n
  ready : Ready sp 0 F

theorem forest_spine (hb : sp.Balanced) {n : Nat} (hn : 0 < n) : Forest sp n 0 (spine sp 0 n) where
  tiles := tiles_spine hn
  total := by rw [sum_spine hn, Nat.zero_add]
  ready := ready_spine hb 0 n

/-- **One leaf**: the front of the forest is the leaf to come, and the forest
after the opening is again one. -/
theorem Forest.step {n i : Nat} {F : List Interval} (h : Forest sp n i F) (hi : i < n) :
    ∃ G, F = (i, 1) :: G ∧ Forest sp n (i + 1) (OpeningSchedule.opened sp G) := by
  obtain ⟨htiles, htotal, hready⟩ := h
  cases F with
  | nil =>
    simp at htotal
    omega
  | cons j G =>
    obtain ⟨hstart, hpos, hG⟩ := htiles
    obtain ⟨hleaf, hround⟩ := hready.round
    obtain ⟨a, c⟩ := j
    have hc : c = 1 := by
      simp only at hpos hleaf
      omega
    subst hc hstart
    refine ⟨G, rfl, tiles_opened sp hG, ?_, hround⟩
    rw [sum_opened]
    simp only [List.map_cons, List.sum_cons] at htotal
    omega

/-- Past the last leaf nothing is left. -/
theorem Forest.eq_nil {n : Nat} {F : List Interval} (h : Forest sp n n F) : F = [] := by
  cases F with
  | nil => rfl
  | cons j G =>
    have hpos := h.tiles.2.1
    have htotal := h.total
    simp only [List.map_cons, List.sum_cons] at htotal
    omega

/-- The forest after `m` more leaves. -/
def afterLeaves (sp : Split) : Nat → List Interval → List Interval
  | 0, F => F
  | m + 1, F => afterLeaves sp m (OpeningSchedule.opened sp F.tail)

theorem Forest.afterLeaves {n : Nat} (m : Nat) {i : Nat} {F : List Interval}
    (h : Forest sp n i F) (hm : i + m ≤ n) :
    Forest sp n (i + m) (OpeningSchedule.afterLeaves sp m F) := by
  induction m generalizing i F with
  | zero => exact h
  | succ m ih =>
    obtain ⟨G, rfl, hG⟩ := h.step (by omega)
    have := ih hG (by omega)
    rwa [show i + 1 + m = i + (m + 1) by omega] at this

/-! ## Sorted insertion -/

/-- Insert into a list sorted by `key`; `none` when the key is taken. -/
def insertBy {α : Type} (key : α → Nat) (x : α) : List α → Option (List α)
  | [] => some [x]
  | y :: ys =>
    if key y < key x then (insertBy key x ys).map (y :: ·)
    else if key y = key x then none
    else some (x :: y :: ys)

theorem insertBy_between {α : Type} {key : α → Nat} {x : α} {A B : List α}
    (hA : ∀ a ∈ A, key a < key x) (hB : ∀ b ∈ B, key x < key b) :
    insertBy key x (A ++ B) = some (A ++ x :: B) := by
  induction A with
  | nil =>
    cases B with
    | nil => rfl
    | cons b B =>
      have hb := hB b (by simp)
      simp only [List.nil_append, insertBy]
      rw [if_neg (by omega), if_neg (by omega)]
  | cons a A ih =>
    have ha := hA a (by simp)
    simp only [List.cons_append, insertBy, if_pos ha]
    rw [ih fun a' h' => hA a' (List.mem_cons_of_mem _ h')]
    rfl

end OpeningSchedule
