import Enki.Gc2.Mark
import Mathlib.Logic.Relation

/-!
# Nothing live is reclaimed

What holds in every world that can be reached by allocations, sweeps, marks, checkpoints
and rollbacks in any order. A slot on the sweep queue that must be kept is marked, and
is older than any open checkpoint: the sweep frees only unmarked slots, and a rollback
frees only slots younger than its checkpoint, which are in spans that are not queued.
-/

namespace Enki.Gc2

/-- The object that was allocated at a time is still at its address. -/
def Collector.Allocated (g : Collector) (a t : Nat) : Prop :=
  ∃ off i s, g.Holds a off i s ∧ s.birth = t

theorem Survives.holds {p : Nat → Slot → Prop} {g g' : Collector} (h : Survives p g g')
    {a off i : Nat} {s : Slot} (hs : g.Holds a off i s) (hp : p off s) : g'.Holds a off i s := by
  obtain ⟨sp, hsp, hi, h0, ha⟩ := hs
  obtain ⟨sp', hsp', hstride, hi'⟩ := h off sp i s hsp hi h0 hp
  exact ⟨sp', hsp', hi', h0, by rw [hstride]; exact ha⟩

theorem Collector.Holds.at {g : Collector} {a off i : Nat} {s : Slot} (h : g.Holds a off i s) :
    g.At off i s ∧ s.serial ≠ 0 := by
  obtain ⟨sp, hsp, hi, h0, -⟩ := h
  exact ⟨⟨sp, hsp, hi⟩, h0⟩

/-- The invariant of the system. -/
structure World.OK (w : World) : Prop where
  consistent : Consistent w.gc
  kept : ∀ a t, (a, t) ∈ w.kept → ∃ off i s, w.gc.Holds a off i s ∧ s.birth = t ∧ Safe w.gc off s
  births : ∀ off i s, w.gc.At off i s → s.serial ≠ 0 → s.birth ≤ w.time
  times : ∀ c ∈ w.checkpoints, c.time ≤ w.time
  older : ∀ c ∈ w.checkpoints, ∀ off i s, w.gc.At off i s → s.serial ≠ 0 → s.birth ≤ c.time →
    s.serial ≤ c.serial
  queue : ∀ c ∈ w.checkpoints, QueueOlder w.gc c.serial

theorem World.OK.init : World.init.OK where
  consistent := by
    refine ⟨?_, List.nodup_nil, nofun, nofun, ?_, fun _ => List.nodup_nil, nofun, nofun,
      List.nodup_nil, ?_⟩
    · simp [World.init]
    · simp [World.init]
    · rintro off i s ⟨sp, hsp, -⟩
      cases hsp
  kept _ _ := False.elim
  births := by
    rintro off i s ⟨sp, hsp, -⟩
    cases hsp
  times := nofun
  older := nofun
  queue := nofun

/-- The times of what must be kept are not in the future. -/
theorem World.OK.kept_time {w : World} (h : w.OK) {a t : Nat} (hm : (a, t) ∈ w.kept) :
    t ≤ w.time := by
  obtain ⟨off, i, s, hs, rfl, -⟩ := h.kept a t hm
  exact h.births off i s hs.at.1 hs.at.2

/-- A sweep, by the sweeper or by an allocation that then fails. -/
theorem World.OK.frees {w : World} (h : w.OK) {g' : Collector} (hfree : Frees (Safe w.gc) w.gc g') :
    World.OK { w with gc := g' } where
  consistent := hfree.consistent
  kept a t hm := by
    obtain ⟨off, i, s, hs, hb, hsafe⟩ := h.kept a t hm
    exact ⟨off, i, s, hfree.survives.holds hs hsafe, hb, fun hw => hsafe (hfree.work hw)⟩
  births off i s hs h0 := h.births off i s (hfree.origin off i s hs h0) h0
  times := h.times
  older c hc off i s hs h0 := h.older c hc off i s (hfree.origin off i s hs h0) h0
  queue c hc := (h.queue c hc).frees hfree

theorem World.OK.alloc {w : World} (h : w.OK) {a : Nat} {g' : Collector}
    (htake : Takes (Safe w.gc) w.gc g' a (w.time + 1)) :
    World.OK { w with
      gc := g'
      time := w.time + 1
      kept := insert (a, w.time + 1) w.kept } := by
  obtain ⟨off, sp, i, s, hsp, hs, h0, hb, ha, hw, hof⟩ := htake.slot
  constructor
  · exact htake.consistent
  · rintro b t (heq | hm)
    · cases heq
      exact ⟨off, i, s, ⟨sp, hsp, hs, h0, ha⟩, hb, fun hm => absurd hm hw⟩
    · obtain ⟨off', i', s', hs', hb', hsafe⟩ := h.kept b t hm
      exact ⟨off', i', s', htake.survives.holds hs' hsafe, hb', fun hm => hsafe (htake.work hm)⟩
  · intro off' i' s' hs' h0'
    rcases hof off' i' s' hs' h0' with ⟨rfl, -⟩ | hs'
    · exact hb.le
    · exact (h.births off' i' s' hs' h0').trans (Nat.le_succ _)
  · exact fun c hc => (h.times c hc).trans (Nat.le_succ _)
  · -- the new slot is younger than any checkpoint
    intro c hc off' i' s' hs' h0' hle
    rcases hof off' i' s' hs' h0' with ⟨rfl, -⟩ | hs'
    · have := h.times c hc
      omega
    · exact h.older c hc off' i' s' hs' h0' hle
  · -- and its span is not queued
    intro c hc off' hm i' s' hs'
    by_cases h0' : s'.serial = 0
    · omega
    · rcases hof off' i' s' hs' h0' with ⟨-, rfl⟩ | hs'
      · exact absurd hm hw
      · exact h.queue c hc off' (htake.work hm) i' s' hs'

theorem World.OK.checkpoint {w : World} (h : w.OK) :
    World.OK { w with checkpoints := ⟨w.gc.serial, w.time⟩ :: w.checkpoints } where
  consistent := h.consistent
  kept := h.kept
  births := h.births
  times c hc := by
    rcases List.mem_cons.mp hc with rfl | hc
    · exact Nat.le_refl _
    · exact h.times c hc
  older c hc off i s hs h0 hle := by
    rcases List.mem_cons.mp hc with rfl | hc
    · exact h.consistent.serial off i s hs
    · exact h.older c hc off i s hs h0 hle
  queue c hc off hm i s hs := by
    rcases List.mem_cons.mp hc with rfl | hc
    · exact h.consistent.serial off i s hs
    · exact h.queue c hc off hm i s hs

theorem World.OK.rollback {w : World} (h : w.OK) {c : Checkpoint} (hc : c ∈ w.checkpoints) :
    World.OK { w with
      gc := w.gc.rollback c.serial
      kept := fun x => w.kept x ∧ x.2 ≤ c.time } := by
  obtain ⟨hcons, hsurvives, horigin, hwork⟩ := h.consistent.rollback (h.queue c hc)
  constructor
  · exact hcons
  · rintro a t ⟨hm, hle⟩
    obtain ⟨off, i, s, hs, rfl, hsafe⟩ := h.kept a t hm
    refine ⟨off, i, s, hsurvives.holds hs ?_, rfl, fun hm => hsafe (hwork hm)⟩
    exact h.older c hc off i s hs.at.1 hs.at.2 hle
  · exact fun off i s hs h0 => h.births off i s (horigin off i s hs h0) h0
  · exact h.times
  · exact fun c' hc' off i s hs h0 => h.older c' hc' off i s (horigin off i s hs h0) h0
  · intro c' hc' off hm
    exact Collector.Older.origin (h.queue c' hc' off (hwork hm)) horigin

/-- A slot before and after marking. -/
theorem at_of_clearMarks {g g' : Collector} (h : g'.clearMarks = g.clearMarks) {off i : Nat}
    {s' : Slot} (hs : g'.At off i s') :
    ∃ s, g.At off i s ∧ s.serial = s'.serial ∧ s.birth = s'.birth := by
  obtain ⟨sp', hsp', hi'⟩ := hs
  have hspan := span_clearMarks hsp'
  rw [h] at hspan
  obtain ⟨sp, hsp, heq⟩ := Option.map_eq_some_iff.mp hspan
  have hi := unmarked_slot hi'
  rw [← show Span.unmarked sp = sp'.unmarked from heq] at hi
  obtain ⟨s, hs, heq⟩ := slot_unmarked hi
  exact ⟨s, ⟨sp, hsp, hs⟩, (congrArg Slot.serial heq).symm, (congrArg Slot.birth heq).symm⟩

theorem World.OK.mark {w : World} (h : w.OK) {m : Memory} {g' : Collector}
    (hcheck : w.checkpoints = []) (hmarks : Marks m w.gc g') :
    World.OK { w with
      gc := g'.queueAll
      kept := fun x => m.Reach x.1 ∧ m.inHeap x.1 = false ∧
        ∃ off i s, g'.findSlot x.1 = some (off, i, s) ∧ s.birth = x.2 } := by
  obtain ⟨hclear, hreach⟩ := marks_spec h.consistent hmarks
  have hcons : Consistent g' := consistent_clearMarks.1 (hclear ▸ consistent_clearMarks.2 h.consistent)
  obtain ⟨hqueue, hrel⟩ := hcons.queueAll
  constructor
  · exact hqueue
  · rintro a t ⟨hr, hheap, off, i, s, hfind, hb⟩
    have hs := hcons.findSlot_iff.mp hfind
    obtain ⟨off', i', s', hs', hm⟩ := hreach a hr hheap
    obtain ⟨-, -, rfl⟩ := hcons.holds_unique hs hs'
    exact ⟨off, i, s', (hrel.survives fun _ _ => True).holds hs trivial, hb, fun _ => hm⟩
  · intro off i s hs h0
    obtain ⟨s', hs', hser, hb⟩ := at_of_clearMarks hclear (hrel.origin off i s hs h0)
    rw [← hb]
    exact h.births off i s' hs' (by rwa [hser])
  · exact fun c hc => h.times c hc
  · intro c hc
    rw [show w.checkpoints = [] from hcheck] at hc
    cases hc
  · intro c hc
    rw [show w.checkpoints = [] from hcheck] at hc
    cases hc

theorem World.OK.step {w w' : World} (h : w.OK) (hstep : Step w w') : w'.OK := by
  cases hstep with
  | alloc cells block hbuddy heq => exact h.alloc (h.consistent.alloc hbuddy heq)
  | allocFails cells block hbuddy heq => exact h.frees (h.consistent.allocFails hbuddy heq)
  | sweep => exact h.frees (.sweepNext h.consistent)
  | mark m _ hcheck hmarks => exact h.mark hcheck hmarks
  | checkpoint => exact h.checkpoint
  | release c =>
    have hsub : ∀ c' ∈ w.checkpoints.filter fun c' => c'.serial ≠ c.serial ∨ c'.time ≠ c.time,
        c' ∈ w.checkpoints := fun c' hm => List.mem_of_mem_filter hm
    exact ⟨h.consistent, h.kept, h.births, fun c' hc => h.times c' (hsub c' hc),
      fun c' hc => h.older c' (hsub c' hc), fun c' hc => h.queue c' (hsub c' hc)⟩
  | rollback c hc _ => exact h.rollback hc

theorem World.OK.run {w : World} (h : Relation.ReflTransGen Step World.init w) : w.OK := by
  induction h with
  | refl => exact .init
  | tail _ hstep ih => exact ih.step hstep

/-- In every world that can be reached, what was reachable at the last mark or allocated
since, and not rolled back, is still allocated; its slot is not handed out again; a mark
finds everything that can be reached; and the lists agree with the spans. -/
theorem never_reclaimed {w : World} (h : Relation.ReflTransGen Step World.init w) :
    (∀ a t, (a, t) ∈ w.kept → w.gc.Allocated a t) ∧
    (∀ cells block a g', BuddyOK w.gc cells block →
      w.gc.alloc cells (w.time + 1) block = (some a, g') → ∀ t, (a, t) ∉ w.kept) ∧
    (∀ (m : Memory) g', Marks m w.gc g' → ∀ a, m.Reach a → m.inHeap a = false →
      ∃ t, g'.queueAll.Allocated a t) ∧
    Consistent w.gc ∧
    (∀ off ∈ w.gc.work, ∀ klass, off ∉ w.gc.available klass) := by
  have hok := World.OK.run h
  refine ⟨?_, ?_, ?_, hok.consistent, ?_⟩
  · intro a t hm
    obtain ⟨off, i, s, hs, hb, -⟩ := hok.kept a t hm
    exact ⟨off, i, s, hs, hb⟩
  · -- the new object is the only one born now, and no two objects share an address
    intro cells block a g' hbuddy heq t hm
    have htake := hok.consistent.alloc hbuddy heq
    obtain ⟨off, sp, i, s, hsp, hi, h0, hb, ha, -⟩ := htake.slot
    obtain ⟨off', i', s', hs', hb', hsafe⟩ := hok.kept a t hm
    obtain ⟨-, -, rfl⟩ := htake.consistent.holds_unique ⟨sp, hsp, hi, h0, ha⟩
      (htake.survives.holds hs' hsafe)
    have := hok.kept_time hm
    omega
  · intro m g' hmarks a hr hheap
    obtain ⟨hclear, hreach⟩ := marks_spec hok.consistent hmarks
    have hcons : Consistent g' :=
      consistent_clearMarks.1 (hclear ▸ consistent_clearMarks.2 hok.consistent)
    obtain ⟨off, i, s, hs, -⟩ := hreach a hr hheap
    exact ⟨s.birth, off, i, s, (hcons.queueAll.2.survives fun _ _ => True).holds hs trivial, rfl⟩
  · intro off hm klass hl
    obtain ⟨sp, hsp, ha, -⟩ := (hok.consistent.listed klass off).mp hl
    obtain ⟨sp', hsp', ha'⟩ := hok.consistent.queued off hm
    rw [hsp] at hsp'
    cases hsp'
    rw [ha] at ha'
    cases ha'

/-- An actor whose only root is an APP at 0 that refers to the object at 4096. -/
def linked : Memory where
  obj a := if a = 0 then ⟨.app, [.atom, .ptr 4096], 0, false, none, none⟩
    else ⟨.nat, [], 0, false, none, none⟩
  inHeap _ := false
  roots := [.val (.ptr 0)]
  codeVals _ := []

/-- The collector after three allocations of 4096 bytes, from one page. -/
def three : Collector :=
  (((World.init.gc.alloc 512 1 (some (0, page))).2.alloc 512 2 none).2.alloc 512 3 none).2

/-- The trace of the mark of the first two. -/
def linkedTrace : Trace := ⟨(three.clearMarks.setMark 0 0).setMark 0 1, [], [], []⟩

theorem linked_marks : Marks linked three linkedTrace.gc := by
  refine ⟨⟨three.clearMarks.setMark 0 0, [0], [], []⟩, linkedTrace, rfl, ?_, rfl, rfl⟩
  have hroot : Trace.drainStep linked ⟨three.clearMarks.setMark 0 0, [0], [], []⟩ =
      some { linkedTrace with todo := [4096] } := rfl
  exact .step (.step .refl nofun hroot) nofun rfl

/-- Three objects are allocated, the first refers to the second and nothing to the third.
The sweep after a mark takes the third, and a rollback what was allocated in its place. -/
theorem linked_kept : ∃ w, Relation.ReflTransGen Step World.init w ∧
    (0, 1) ∈ w.kept ∧ (4096, 2) ∈ w.kept ∧ w.gc.Allocated 0 1 ∧ w.gc.Allocated 4096 2 ∧
    w.gc.findSlot 8192 = none := by
  have hreach : linked.Reach 0 := .root (List.mem_cons_self ..)
  have hreach' : linked.Reach 4096 := .succ hreach (by decide)
  have h₁ : Step World.init ⟨_, [], 1, _⟩ := .alloc 512 (some (0, page))
    ⟨by decide, by decide, nofun⟩ rfl
  have h₂ := Step.alloc (w := ⟨(World.init.gc.alloc 512 1 (some (0, page))).2, [], 1,
    insert (0, 1) ∅⟩) (a := 4096) 512 none trivial rfl
  have hrun := (Relation.ReflTransGen.single h₁).tail h₂
  have h₃ := hrun.tail (.alloc (a := 8192) 512 none trivial rfl)
  have h₄ := (h₃.tail (.mark linked rfl rfl linked_marks)).tail .checkpoint
  have h₅ := (h₄.tail .sweep).tail (.alloc (a := 8192) 512 none trivial rfl)
  have h₆ := h₅.tail (.rollback ⟨3, 3⟩ (List.mem_cons_self ..) (by decide))
  have hkept := (never_reclaimed h₆).1
  refine ⟨_, h₆, ?first, ?second, hkept 0 1 ?first, hkept 4096 2 ?second, rfl⟩
  case first => exact ⟨.inr ⟨hreach, rfl, 0, 0, _, rfl, rfl⟩, by decide⟩
  case second => exact ⟨.inr ⟨hreach', rfl, 0, 1, _, rfl, rfl⟩, by decide⟩

end Enki.Gc2
