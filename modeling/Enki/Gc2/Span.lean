import Mathlib.Algebra.Ring.Nat
import Mathlib.Data.List.Basic
import Mathlib.Data.List.Nodup
import Mathlib.Order.Nat

/-!
# Spans

A span is a buddy extent cut into slots of one size. A free slot has serial 0 and
is linked into the free list of its span; an allocated one has the serial it got
from `pl_gc2_alloc`. The `birth` of a slot is the time of its allocation: unlike the
serial, it is never handed out twice.
-/

namespace Enki.Gc2

/-- `gc2_slot` -/
structure Slot where
  serial : Nat
  next : Option Nat
  marked : Bool
  birth : Nat

/-- `gc2_span` -/
structure Span where
  bytes : Nat
  stride : Nat
  klass : Nat
  used : Nat
  freeHead : Option Nat
  available : Bool
  slots : List Slot

/-- `slot_free` -/
def Span.slotFree (sp : Span) (i : Nat) : Span :=
  { sp with
    slots := sp.slots.modify i fun s => { s with serial := 0, marked := false, next := sp.freeHead }
    freeHead := some i
    used := sp.used - 1 }

/-- Free every slot that satisfies a condition, in order. -/
def Span.freeWhere (sp : Span) (p : Slot → Bool) : Span :=
  (List.range sp.slots.length).foldl
    (fun sp i => if (sp.slots[i]?).any p then sp.slotFree i else sp) sp

/-- The slots a sweep frees. -/
def Slot.garbage (s : Slot) : Bool := s.serial != 0 && !s.marked

/-- The slots a rollback frees. -/
def Slot.after (checkpoint : Nat) (s : Slot) : Bool := decide (checkpoint < s.serial)

/-- Take the first free slot. -/
def Span.takeSlot (sp : Span) (i serial birth : Nat) : Span :=
  { sp with
    freeHead := (sp.slots[i]?).bind (·.next)
    slots := sp.slots.modify i fun s => { s with serial := serial, marked := false, birth := birth }
    used := sp.used + 1 }

/-- A new span: every slot is free and linked to the next. -/
def Span.new (bytes stride klass : Nat) : Span where
  bytes := bytes
  stride := stride
  klass := klass
  used := 0
  freeHead := some 0
  available := false
  slots := (List.range (bytes / stride)).map fun i =>
    ⟨0, if i + 1 < bytes / stride then some (i + 1) else none, false, 0⟩

/-! ## Free lists -/

/-- The free list from a head on. -/
inductive FreeList (slots : List Slot) : Option Nat → List Nat → Prop where
  | nil : FreeList slots none []
  | cons {i s l} : slots[i]? = some s → s.serial = 0 → FreeList slots s.next l →
      FreeList slots (some i) (i :: l)

/-- Counts and the free list of a span agree with its slots. -/
structure SpanOK (sp : Span) : Prop where
  free : ∃ l, FreeList sp.slots sp.freeHead l ∧ l.Nodup ∧
    ∀ i s, sp.slots[i]? = some s → s.serial = 0 → i ∈ l
  used : sp.used = sp.slots.countP (·.serial != 0)
  stride : 0 < sp.stride
  bytes : 0 < sp.bytes
  fits : sp.slots.length * sp.stride ≤ sp.bytes

/-- A free list only depends on its own slots. -/
theorem FreeList.congr {slots slots' : List Slot} {head : Option Nat} {l : List Nat}
    (h : FreeList slots head l) (hs : ∀ i ∈ l, slots'[i]? = slots[i]?) :
    FreeList slots' head l := by
  induction h with
  | nil => exact .nil
  | cons hi h0 _ ih =>
    refine .cons ((hs _ (List.mem_cons_self ..)).trans hi) h0 (ih fun j hj => ?_)
    exact hs j (List.mem_cons_of_mem _ hj)

theorem FreeList.mem {slots : List Slot} {head : Option Nat} {l : List Nat}
    (h : FreeList slots head l) : ∀ i ∈ l, ∃ s, slots[i]? = some s ∧ s.serial = 0 := by
  induction h with
  | nil => simp
  | cons hi h0 _ ih =>
    intro j hj
    rcases List.mem_cons.mp hj with rfl | hj
    · exact ⟨_, hi, h0⟩
    · exact ih j hj

theorem getElem?_modify_self {slots : List Slot} {i : Nat} {s : Slot} (f : Slot → Slot)
    (h : slots[i]? = some s) : (slots.modify i f)[i]? = some (f s) := by
  simp [h]

theorem getElem?_modify_other {slots : List Slot} {i j : Nat} (f : Slot → Slot) (h : j ≠ i) :
    (slots.modify i f)[j]? = slots[j]? := by
  rw [List.getElem?_modify_ne _ _ (Ne.symm h)]

/-- Counting after one slot changed. -/
theorem countP_modify {slots : List Slot} {i : Nat} {s : Slot} (f : Slot → Slot)
    (p : Slot → Bool) (h : slots[i]? = some s) :
    (slots.modify i f).countP p + (if p s then 1 else 0) =
      slots.countP p + (if p (f s) then 1 else 0) := by
  induction slots generalizing i with
  | nil => simp at h
  | cons a rest ih =>
    cases i with
    | zero =>
      simp only [List.getElem?_cons_zero, Option.some.injEq] at h
      subst h
      simp only [List.modify_zero_cons, List.countP_cons]
      omega
    | succ i =>
      simp only [List.getElem?_cons_succ] at h
      have := ih h
      simp only [List.modify_succ_cons, List.countP_cons]
      omega

/-- Freeing an allocated slot puts it on the free list. -/
theorem SpanOK.slotFree {sp : Span} (h : SpanOK sp) {i : Nat} {s : Slot}
    (hi : sp.slots[i]? = some s) (hs : s.serial ≠ 0) : SpanOK (sp.slotFree i) := by
  obtain ⟨l, hl, hnodup, hall⟩ := h.free
  have hnot : i ∉ l := by
    intro hm
    obtain ⟨s', hi', h0⟩ := hl.mem i hm
    rw [hi] at hi'
    cases hi'
    exact hs h0
  refine ⟨⟨i :: l, ?_, List.nodup_cons.mpr ⟨hnot, hnodup⟩, ?_⟩, ?_, h.stride, h.bytes, ?_⟩
  · refine .cons (getElem?_modify_self _ hi) rfl (hl.congr fun j hj => ?_)
    apply getElem?_modify_other
    rintro rfl
    exact hnot hj
  · intro j s' hj h0
    by_cases hji : j = i
    · exact hji ▸ List.mem_cons_self ..
    · refine List.mem_cons_of_mem _ (hall j s' ?_ h0)
      rwa [Span.slotFree, getElem?_modify_other _ hji] at hj
  · have hcount := countP_modify (fun s => { s with serial := 0, marked := false, next := sp.freeHead })
      (·.serial != 0) hi
    have hu := h.used
    simp only [Span.slotFree]
    simp [hs] at hcount
    omega
  · simpa [Span.slotFree] using h.fits

/-- Taking the head of the free list. -/
theorem SpanOK.takeSlot {sp : Span} (h : SpanOK sp) {i serial birth : Nat}
    (hi : sp.freeHead = some i) (hserial : serial ≠ 0) : SpanOK (sp.takeSlot i serial birth) := by
  obtain ⟨l, hl, hnodup, hall⟩ := h.free
  rw [hi] at hl
  cases hl with
  | @cons _ s l hs h0 hl =>
    obtain ⟨hnot, hnodup⟩ := List.nodup_cons.mp hnodup
    refine ⟨⟨l, ?_, hnodup, ?_⟩, ?_, h.stride, h.bytes, ?_⟩
    · have hhead : (sp.takeSlot i serial birth).freeHead = s.next := by
        simp [Span.takeSlot, hs]
      rw [hhead]
      refine hl.congr fun j hj => ?_
      apply getElem?_modify_other
      rintro rfl
      exact hnot hj
    · intro j s' hj h0'
      by_cases hji : j = i
      · subst hji
        rw [Span.takeSlot, getElem?_modify_self _ hs] at hj
        cases hj
        exact absurd h0' hserial
      · rw [Span.takeSlot, getElem?_modify_other _ hji] at hj
        rcases List.mem_cons.mp (hall j s' hj h0') with rfl | hm
        · exact absurd rfl hji
        · exact hm
    · have hcount := countP_modify
        (fun s => { s with serial := serial, marked := false, birth := birth })
        (·.serial != 0) hs
      have hu := h.used
      simp only [Span.takeSlot]
      simp [h0, hserial] at hcount
      omega
    · simpa [Span.takeSlot] using h.fits

/-- A span after some of its slots were freed: nothing else changed. -/
structure Freed (p : Nat → Slot → Prop) (sp sp' : Span) : Prop where
  bytes : sp'.bytes = sp.bytes
  stride : sp'.stride = sp.stride
  klass : sp'.klass = sp.klass
  available : sp'.available = sp.available
  length : sp'.slots.length = sp.slots.length
  kept : ∀ i s, sp.slots[i]? = some s → ¬ p i s → sp'.slots[i]? = some s
  freed : ∀ i s, sp.slots[i]? = some s → p i s → ∃ s', sp'.slots[i]? = some s' ∧ s'.serial = 0

theorem Freed.refl {p : Nat → Slot → Prop} {sp : Span} (h : ∀ i s, ¬ p i s) : Freed p sp sp :=
  ⟨rfl, rfl, rfl, rfl, rfl, fun _ _ hs _ => hs, fun i s _ hp => absurd hp (h i s)⟩

/-- The loop of `freeWhere`, over any indices without repetition. -/
theorem freeLoop_spec {p : Slot → Bool} (hp : ∀ s, p s = true → s.serial ≠ 0) {is : List Nat}
    (hnodup : is.Nodup) {sp : Span} (h : SpanOK sp) :
    SpanOK (is.foldl (fun sp i => if (sp.slots[i]?).any p then sp.slotFree i else sp) sp) ∧
    Freed (fun i s => i ∈ is ∧ p s = true) sp
      (is.foldl (fun sp i => if (sp.slots[i]?).any p then sp.slotFree i else sp) sp) := by
  induction is generalizing sp with
  | nil => exact ⟨h, .refl fun i s => by simp⟩
  | cons i is ih =>
    obtain ⟨hnot, hnodup⟩ := List.nodup_cons.mp hnodup
    simp only [List.foldl_cons]
    by_cases hany : (sp.slots[i]?).any p = true
    · rw [if_pos hany]
      obtain ⟨s, hs, hps⟩ : ∃ s, sp.slots[i]? = some s ∧ p s = true := by
        cases hs : sp.slots[i]? with
        | none => simp [hs] at hany
        | some s => exact ⟨s, rfl, by simpa [hs] using hany⟩
      obtain ⟨hok, hfreed⟩ := ih hnodup (h.slotFree hs (hp s hps))
      refine ⟨hok, hfreed.bytes, hfreed.stride, hfreed.klass, hfreed.available, ?_, ?_, ?_⟩
      · simpa [Span.slotFree] using hfreed.length
      · intro j s' hj hnp
        have hji : j ≠ i := by
          rintro rfl
          rw [hs] at hj
          cases hj
          exact hnp ⟨List.mem_cons_self .., hps⟩
        refine hfreed.kept j s' ?_ fun ⟨hm, hq⟩ => hnp ⟨List.mem_cons_of_mem _ hm, hq⟩
        rwa [Span.slotFree, getElem?_modify_other _ hji]
      · rintro j s' hj ⟨hm, hq⟩
        by_cases hji : j = i
        · subst hji
          refine ⟨{ s with serial := 0, marked := false, next := sp.freeHead }, ?_, rfl⟩
          exact hfreed.kept j _ (getElem?_modify_self _ hs) fun ⟨hm', _⟩ => hnot hm'
        · refine hfreed.freed j s' ?_ ⟨(List.mem_cons.mp hm).resolve_left hji, hq⟩
          rwa [Span.slotFree, getElem?_modify_other _ hji]
    · rw [if_neg hany]
      obtain ⟨hok, hfreed⟩ := ih hnodup h
      refine ⟨hok, hfreed.bytes, hfreed.stride, hfreed.klass, hfreed.available, hfreed.length,
        ?_, ?_⟩
      · intro j s' hj hnp
        exact hfreed.kept j s' hj fun ⟨hm, hq⟩ => hnp ⟨List.mem_cons_of_mem _ hm, hq⟩
      · rintro j s' hj ⟨hm, hq⟩
        refine hfreed.freed j s' hj ⟨(List.mem_cons.mp hm).resolve_left ?_, hq⟩
        rintro rfl
        exact hany (by simp [hj, hq])

theorem SpanOK.freeWhere {sp : Span} (h : SpanOK sp) {p : Slot → Bool}
    (hp : ∀ s, p s = true → s.serial ≠ 0) :
    SpanOK (sp.freeWhere p) ∧ Freed (fun _ s => p s = true) sp (sp.freeWhere p) := by
  obtain ⟨hok, hfreed⟩ := freeLoop_spec hp List.nodup_range h
  have hmem : ∀ i s, sp.slots[i]? = some s → i ∈ List.range sp.slots.length := fun i s hs =>
    List.mem_range.mpr (List.getElem?_eq_some_iff.mp hs).1
  exact ⟨hok, hfreed.bytes, hfreed.stride, hfreed.klass, hfreed.available, hfreed.length,
    fun i s hs hnp => hfreed.kept i s hs fun hm => hnp hm.2,
    fun i s hs hps => hfreed.freed i s hs ⟨hmem i s hs, hps⟩⟩

theorem garbage_serial (s : Slot) (h : s.garbage = true) : s.serial ≠ 0 := by
  simp only [Slot.garbage, Bool.and_eq_true, bne_iff_ne] at h
  exact h.1

theorem after_serial {checkpoint : Nat} (s : Slot) (h : s.after checkpoint = true) :
    s.serial ≠ 0 := by
  simp only [Slot.after, decide_eq_true_eq] at h
  omega

/-! ## New spans -/

theorem new_slot {bytes stride klass i : Nat} (hi : i < bytes / stride) :
    (Span.new bytes stride klass).slots[i]? =
      some ⟨0, if i + 1 < bytes / stride then some (i + 1) else none, false, 0⟩ := by
  simp [Span.new, hi]

theorem new_freeList {bytes stride klass : Nat} (n i : Nat) (hn : i + n + 1 = bytes / stride) :
    FreeList (Span.new bytes stride klass).slots (some i) (List.range' i (n + 1)) := by
  induction n generalizing i with
  | zero =>
    refine .cons (new_slot (by omega)) rfl ?_
    rw [if_neg (by omega)]
    exact .nil
  | succ n ih =>
    rw [List.range'_succ]
    refine .cons (new_slot (by omega)) rfl ?_
    rw [if_pos (by omega)]
    exact ih (i + 1) (by omega)

theorem SpanOK.new {bytes stride klass : Nat} (hstride : 0 < stride) (hle : stride ≤ bytes) :
    SpanOK (Span.new bytes stride klass) := by
  have hpos : 0 < bytes / stride := Nat.div_pos hle hstride
  refine ⟨⟨List.range' 0 (bytes / stride), ?_, List.nodup_range', ?_⟩, ?_, hstride,
    hstride.trans_le hle, ?_⟩
  · obtain ⟨n, hn⟩ : ∃ n, bytes / stride = n + 1 := ⟨bytes / stride - 1, by omega⟩
    rw [hn]
    exact new_freeList n 0 (by omega)
  · intro i s hs _
    have hi := (List.getElem?_eq_some_iff.mp hs).1
    simp only [Span.new, List.length_map, List.length_range] at hi
    simpa using hi
  · symm
    simp [Span.new, List.countP_eq_zero]
  · simpa [Span.new] using Nat.div_mul_le_self bytes stride

end Enki.Gc2
