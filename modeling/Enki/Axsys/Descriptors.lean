import Enki.Axsys.Fd

/-!
# The descriptor table: every descriptor is closed once, by the last to leave

A slot that was ever used goes through five phases (`Phase`): its descriptor is
live; the close was requested while references are out; one thread is about to
call `close(2)`; that thread has called it; the slot is free. Every step moves at
most one slot, from a phase to the next (`Inv.step`).
-/

namespace Enki.Axsys

open Enki.Runs

/-- Where slot `h` stands with descriptor `d`. -/
inductive Phase (w : World) (h d : Nat) : Prop where
  | live (slot : w.table.slots h = ⟨true, false, w.number d, w.held h + 1⟩)
      (requested : d ∉ w.requested) (closed : d ∉ w.closed)
      (quiet : ∀ t, (w.pc t).slot ≠ some h)
  | draining (slot : w.table.slots h = ⟨false, false, w.number d, w.held h⟩)
      (held : 0 < w.held h) (requested : d ∈ w.requested) (closed : d ∉ w.closed)
      (quiet : ∀ t, (w.pc t).slot ≠ some h)
  | closing (t : Nat) (pc : w.pc t = .closing h (w.number d) d)
      (slot : w.table.slots h = ⟨false, true, w.number d, 0⟩) (held : w.held h = 0)
      (requested : d ∈ w.requested) (closed : d ∉ w.closed)
      (only : ∀ t', (w.pc t').slot = some h → t' = t)
  | closed (t : Nat) (pc : w.pc t = .closed h)
      (slot : w.table.slots h = ⟨false, true, w.number d, 0⟩) (held : w.held h = 0)
      (requested : d ∈ w.requested) (closed : d ∈ w.closed)
      (only : ∀ t', (w.pc t').slot = some h → t' = t)
  | free (slot : w.table.slots h = ⟨false, false, -1, 0⟩) (held : w.held h = 0)
      (requested : d ∈ w.requested) (closed : d ∈ w.closed)
      (quiet : ∀ t, (w.pc t).slot ≠ some h)

/-- The invariant. -/
structure Inv (w : World) : Prop where
  aborted : w.aborted = false
  next : w.table.next ≤ fdMax
  used : ∀ h, h < w.table.next → ∃ d, w.holds h = some d ∧ Phase w h d
  unused : ∀ h, w.table.next ≤ h → w.table.slots h = {} ∧ w.held h = 0 ∧ w.holds h = none ∧
    ∀ t, (w.pc t).slot ≠ some h
  distinct : ∀ h h' d, w.holds h = some d → w.holds h' = some d → h = h'
  known : ∀ h d, w.holds h = some d → d < w.added
  /-- A descriptor that lost its slot was closed. -/
  evicted : ∀ d, d < w.added → d ∈ w.closed ∨ ∃ h, w.holds h = some d
  requested : ∀ d ∈ w.requested, d < w.added
  once : w.closed.Nodup
  asked : ∀ d ∈ w.closed, d ∈ w.requested

variable {w w' : World}

/-- A slot's phase depends on the slot, its descriptor, and the threads at it. -/
theorem Phase.congr {h d : Nat} (hp : Phase w h d) (hslot : w'.table.slots h = w.table.slots h)
    (hheld : w'.held h = w.held h) (hnum : w'.number d = w.number d)
    (hreq : d ∈ w'.requested ↔ d ∈ w.requested) (hclosed : d ∈ w'.closed ↔ d ∈ w.closed)
    (hpc : ∀ t, (w.pc t).slot = some h ∨ (w'.pc t).slot = some h → w'.pc t = w.pc t) :
    Phase w' h d := by
  have hslot' : ∀ t, (w'.pc t).slot = some h → (w.pc t).slot = some h := fun t ht => by
    rw [← hpc t (.inr ht)]
    exact ht
  cases hp with
  | live slot requested closed quiet =>
    refine .live ?_ (mt hreq.mp requested) (mt hclosed.mp closed) fun t ht => quiet t (hslot' t ht)
    rw [hslot, slot, hnum, hheld]
  | draining slot held requested closed quiet =>
    refine .draining ?_ (hheld.symm ▸ held) (hreq.mpr requested) (mt hclosed.mp closed)
      fun t ht => quiet t (hslot' t ht)
    rw [hslot, slot, hnum, hheld]
  | closing t pc slot held requested closed only =>
    refine .closing t ?_ ?_ (hheld.trans held) (hreq.mpr requested) (mt hclosed.mp closed)
      fun t' ht => only t' (hslot' t' ht)
    · rw [hpc t (.inl (by simp [pc, Pc.slot])), pc, hnum]
    · rw [hslot, slot, hnum]
  | closed t pc slot held requested closed only =>
    refine .closed t ?_ ?_ (hheld.trans held) (hreq.mpr requested) (hclosed.mpr closed)
      fun t' ht => only t' (hslot' t' ht)
    · rw [hpc t (.inl (by simp [pc, Pc.slot])), pc]
    · rw [hslot, slot, hnum]
  | free slot held requested closed quiet =>
    exact .free (hslot.trans slot) (hheld.trans held) (hreq.mpr requested) (hclosed.mpr closed)
      fun t ht => quiet t (hslot' t ht)

theorem Inv.init : Inv {} := by
  constructor
  case used =>
    intro h hh
    have hlt : h < 3 := hh
    refine ⟨h, by simp [hlt], .live ?_ (by simp) (by simp) (by simp [Pc.slot])⟩
    simp [Table.initial, hlt]
  case unused =>
    intro h hh
    have hge : ¬ h < 3 := Nat.not_lt.mpr hh
    simp [Table.initial, hge, Pc.slot]
  case distinct =>
    intro h h' d hd hd'
    simp only [Option.ite_none_right_eq_some, Option.some.injEq] at hd hd'
    exact hd.2.trans hd'.2.symm
  case known =>
    intro h d hd
    simp only [Option.ite_none_right_eq_some, Option.some.injEq] at hd
    exact hd.2 ▸ hd.1
  case evicted =>
    intro d hd
    exact .inr ⟨d, by simpa using hd⟩
  all_goals simp [Table.initial, fdMax]

/-- Only slot `h`, its descriptor `d` and the thread at it changed. -/
structure Moves (h d : Nat) (w w' : World) : Prop where
  next : w'.table.next = w.table.next
  holds : w'.holds = w.holds
  added : w'.added = w.added
  number : w'.number = w.number
  slot : ∀ j, j ≠ h → w'.table.slots j = w.table.slots j
  held : ∀ j, j ≠ h → w'.held j = w.held j
  requested : ∀ e, e ≠ d → (e ∈ w'.requested ↔ e ∈ w.requested)
  closed : ∀ e, e ≠ d → (e ∈ w'.closed ↔ e ∈ w.closed)
  kept : d ∈ w.closed → d ∈ w'.closed
  pc : ∀ j t, j ≠ h → (w.pc t).slot = some j ∨ (w'.pc t).slot = some j → w'.pc t = w.pc t

/-- One slot moves; the descriptors stay where they are. -/
theorem Inv.move (hi : Inv w) {h d : Nat} (hh : h < w.table.next) (hd : w.holds h = some d)
    (hm : Moves h d w w') (hph : Phase w' h d) (hab : w'.aborted = false)
    (honce : w'.closed.Nodup) (hasked : d ∈ w'.closed → d ∈ w'.requested) : Inv w' := by
  refine ⟨hab, hm.next.symm ▸ hi.next, fun j hj => ?_, fun j hj => ?_, ?_, ?_, fun e he => ?_,
    fun e he => ?_, honce, fun e he => ?_⟩
  · rw [hm.holds]
    obtain ⟨e, he, hp⟩ := hi.used j (hm.next ▸ hj)
    refine ⟨e, he, ?_⟩
    by_cases hjh : j = h
    · subst hjh
      obtain rfl := Option.some.inj (hd.symm.trans he)
      exact hph
    · have hed : e ≠ d := fun heq => hjh (hi.distinct j h d (heq ▸ he) hd)
      exact hp.congr (hm.slot j hjh) (hm.held j hjh) (by rw [hm.number]) (hm.requested e hed)
        (hm.closed e hed) fun t => hm.pc j t hjh
  · have hjh : j ≠ h := by
      rintro rfl
      exact absurd hh (Nat.not_lt.mpr (hm.next ▸ hj))
    obtain ⟨hs, hb, hn, hq⟩ := hi.unused j (hm.next ▸ hj)
    refine ⟨(hm.slot j hjh).trans hs, (hm.held j hjh).trans hb, by rw [hm.holds, hn], fun t ht => ?_⟩
    rw [hm.pc j t hjh (.inr ht)] at ht
    exact hq t ht
  · rw [hm.holds]
    exact hi.distinct
  · rw [hm.holds, hm.added]
    exact hi.known
  · rw [hm.holds]
    rcases hi.evicted e (hm.added ▸ he) with hc | hx
    · by_cases hed : e = d
      · exact .inl (hed ▸ hm.kept (hed ▸ hc))
      · exact .inl ((hm.closed e hed).mpr hc)
    · exact .inr hx
  · rw [hm.added]
    by_cases hed : e = d
    · exact hed ▸ hi.known h d hd
    · exact hi.requested e ((hm.requested e hed).mp he)
  · by_cases hed : e = d
    · exact hed ▸ hasked (hed ▸ he)
    · exact (hm.requested e hed).mpr (hi.asked e ((hm.closed e hed).mp he))

theorem slots_set_ne (T : Table) (h : Nat) (s : Slot) {j : Nat} (hj : j ≠ h) :
    (T.set h s).slots j = T.slots j := Function.update_of_ne hj _ _

@[simp] theorem slots_set_self (T : Table) (h : Nat) (s : Slot) : (T.set h s).slots h = s :=
  Function.update_self _ _ _

/-- A thread in no call changes its place. -/
theorem pc_update {t : Nat} {pc : Pc} {h : Nat} (ht : w.pc t = .idle) (hpc : pc.slot = some h)
    (j t' : Nat) (hj : j ≠ h)
    (hs : (w.pc t').slot = some j ∨ (Function.update w.pc t pc t').slot = some j) :
    Function.update w.pc t pc t' = w.pc t' := by
  by_cases htt : t' = t
  · subst htt
    rw [Function.update_self, ht, hpc] at hs
    simp [Pc.slot, Ne.symm hj] at hs
  · exact Function.update_of_ne htt _ _

theorem only_update {t h : Nat} {pc : Pc} (hq : ∀ t, (w.pc t).slot ≠ some h) (t' : Nat)
    (hs : (Function.update w.pc t pc t').slot = some h) : t' = t := by
  by_contra hne
  rw [Function.update_of_ne hne] at hs
  exact hq t' hs

/-! ## What each call does -/

/-- A slot that is live, referenced or being closed is in use. -/
theorem Inv.lt_next (hi : Inv w) {h : Nat}
    (hu : (w.table.slots h).live = true ∨ 0 < w.held h ∨ ∃ t, (w.pc t).slot = some h) :
    h < w.table.next := by
  by_contra hge
  obtain ⟨hs, hb, -, hq⟩ := hi.unused h (Nat.not_lt.mp hge)
  rcases hu with hu | hu | ⟨t, ht⟩
  · simp [hs] at hu
  · omega
  · exact hq t ht

theorem Inv.phase_live (hi : Inv w) {h : Nat} (hl : (w.table.slots h).live = true) :
    ∃ d, w.holds h = some d ∧ w.table.slots h = ⟨true, false, w.number d, w.held h + 1⟩ ∧
      d ∉ w.requested ∧ d ∉ w.closed ∧ ∀ t, (w.pc t).slot ≠ some h := by
  obtain ⟨d, hd, hp⟩ := hi.used h (hi.lt_next (.inl hl))
  cases hp with
  | live slot requested closed quiet => exact ⟨d, hd, slot, requested, closed, quiet⟩
  | draining slot | closing _ _ slot | closed _ _ slot | free slot => simp [slot] at hl

/-- `ax_fd_acquire` and `ax_fd_retain` that succeed. -/
theorem Inv.take (hi : Inv w) {h : Nat} (hl : (w.table.slots h).live = true) :
    Inv (w.take h (w.table.set h { w.table.slots h with refs := (w.table.slots h).refs + 1 }, true)) := by
  obtain ⟨d, hd, hslot, hreq, hclosed, hq⟩ := hi.phase_live hl
  refine hi.move (hi.lt_next (.inl hl)) hd ⟨rfl, rfl, rfl, rfl, fun j hj => slots_set_ne _ _ _ hj,
    fun j hj => Function.update_of_ne hj _ _, fun e _ => Iff.rfl, fun e _ => Iff.rfl, id,
    fun _ _ _ _ => rfl⟩ (.live ?_ hreq hclosed hq) hi.aborted hi.once (hi.asked d)
  simp [World.take, hslot]

theorem World.take_false (w : World) (h : Nat) : w.take h (w.table, false) = w := by
  simp [World.take]

theorem Inv.retain (hi : Inv w) (h : Nat) : Inv (w.take h (w.table.retain h)) := by
  unfold Table.retain
  dsimp only
  split
  · exact (w.take_false h).symm ▸ hi
  split
  · exact (w.take_false h).symm ▸ hi
  next hl =>
    simp only [Bool.not_eq_true', not_or, Bool.not_eq_false] at hl
    exact hi.take hl.1

theorem Inv.acquire (hi : Inv w) (h : Nat) (out : Bool) :
    Inv (w.take h ((w.table.acquire h out).1, (w.table.acquire h out).2.isSome)) := by
  unfold Table.acquire
  dsimp only
  split
  · exact (w.take_false h).symm ▸ hi
  split
  · exact (w.take_false h).symm ▸ hi
  next hl =>
    simp only [Bool.not_eq_true', not_or, Bool.not_eq_false] at hl
    exact hi.take hl.1

/-- `ax_fd_close`: the handle is dead at once; without references the thread goes
on to close the descriptor. -/
theorem Inv.close (hi : Inv w) {t : Nat} (ht : w.pc t = .idle) (h : Nat) :
    Inv ((w.request h).leave t h (w.table.close h)) := by
  unfold World.request Table.close
  dsimp only
  by_cases hmax : fdMax ≤ h
  · rw [if_neg (by omega), if_pos hmax]
    exact hi
  rw [if_neg hmax]
  cases hl : (w.table.slots h).live with
  | false =>
    rw [if_neg (by simp), if_pos (by simp)]
    exact hi
  | true =>
    obtain ⟨d, hd, hslot, hreq, hclosed, hq⟩ := hi.phase_live hl
    rw [if_pos ⟨Nat.lt_of_not_le hmax, rfl⟩, if_neg (by simp), if_neg (by simp [hslot])]
    have hlt := hi.lt_next (.inl hl)
    have hreq' : ∀ e, e ≠ d → (e ∈ d :: w.requested ↔ e ∈ w.requested) := fun e he => by
      simp [he]
    split
    next hr =>
      -- References are out.
      refine hi.move hlt hd ⟨rfl, rfl, rfl, rfl, fun j hj => slots_set_ne _ _ _ hj, fun _ _ => rfl,
        fun e he => ?_, fun e _ => Iff.rfl, id, fun _ _ _ _ => rfl⟩
        (.draining ?_ ?_ ?_ hclosed hq) hi.aborted hi.once fun hc => absurd hc hclosed
      · simpa [World.leave, hd] using hreq' e he
      · simp [World.leave, hslot]
      · simpa [World.leave, hslot, Nat.pos_iff_ne_zero] using hr
      · simp [World.leave, hd]
    next hr =>
      have hheld : w.held h = 0 := by simpa [hslot] using hr
      refine hi.move hlt hd ⟨rfl, rfl, rfl, rfl, fun j hj => slots_set_ne _ _ _ hj, fun _ _ => rfl,
        fun e he => ?_, fun e _ => Iff.rfl, id, pc_update ht rfl⟩
        (.closing t ?_ ?_ hheld ?_ hclosed (only_update hq)) hi.aborted hi.once
        fun hc => absurd hc hclosed
      · simpa [World.leave, World.setPc, hd] using hreq' e he
      · simp [World.leave, World.setPc, hd, hslot]
      · simp [World.leave, World.setPc, hslot, hheld]
      · simp [World.leave, World.setPc, hd]

/-- `ax_fd_release`: the last one to leave after a request closes the descriptor. -/
theorem Inv.release (hi : Inv w) {t : Nat} (ht : w.pc t = .idle) {h : Nat} (hheld : 0 < w.held h) :
    Inv (World.leave { w with held := Function.update w.held h (w.held h - 1) } t h
      (w.table.release h)) := by
  have hlt := hi.lt_next (.inr (.inl hheld))
  have hmax : ¬ fdMax ≤ h := by
    have := hi.next
    omega
  obtain ⟨d, hd, hp⟩ := hi.used h hlt
  unfold Table.release
  dsimp only
  rw [if_neg hmax]
  have hold : ∀ j, j ≠ h → Function.update w.held h (w.held h - 1) j = w.held j := fun j hj =>
    Function.update_of_ne hj _ _
  cases hp with
  | live slot requested closed quiet =>
    -- The owner's reference remains.
    rw [if_neg (by simp [slot]), if_pos (by simp [slot]; omega)]
    refine hi.move hlt hd ⟨rfl, rfl, rfl, rfl, fun j hj => slots_set_ne _ _ _ hj, hold,
      fun e _ => Iff.rfl, fun e _ => Iff.rfl, id, fun _ _ _ _ => rfl⟩ (.live ?_ requested closed quiet)
      hi.aborted hi.once (hi.asked d)
    simp only [World.leave, slot, slots_set_self, Function.update_self, Slot.mk.injEq, true_and]
    omega
  | draining slot held requested closed quiet =>
    rw [if_neg (by simp [slot]; omega)]
    split
    next hr =>
      refine hi.move hlt hd ⟨rfl, rfl, rfl, rfl, fun j hj => slots_set_ne _ _ _ hj, hold,
        fun e _ => Iff.rfl, fun e _ => Iff.rfl, id, fun _ _ _ _ => rfl⟩
        (.draining ?_ ?_ requested closed quiet) hi.aborted hi.once (hi.asked d)
      · simp [World.leave, slot]
      · have hmore : w.held h - 1 ≠ 0 := by simpa [slot] using hr
        simpa [World.leave, slot] using Nat.pos_of_ne_zero hmore
    next hr =>
      have hone : w.held h - 1 = 0 := by simpa [slot] using hr
      refine hi.move hlt hd ⟨rfl, rfl, rfl, rfl, fun j hj => slots_set_ne _ _ _ hj, hold,
        fun e _ => Iff.rfl, fun e _ => Iff.rfl, id, pc_update ht rfl⟩
        (.closing t ?_ ?_ ?_ requested closed (only_update quiet)) hi.aborted hi.once (hi.asked d)
      · simp [World.leave, World.setPc, hd, slot]
      · simp [World.leave, World.setPc, slot, hone]
      · simp [World.leave, World.setPc, hone]
  | closing _ _ _ held | closed _ _ _ held | free _ held => omega

/-- Who is about to call `close(2)`, and for what. -/
theorem Inv.phase_closing (hi : Inv w) {t h d : Nat} {fd : Int} (ht : w.pc t = .closing h fd d) :
    h < w.table.next ∧ w.holds h = some d ∧ fd = w.number d ∧
      w.table.slots h = ⟨false, true, w.number d, 0⟩ ∧ w.held h = 0 ∧ d ∈ w.requested ∧
      d ∉ w.closed ∧ ∀ t', (w.pc t').slot = some h → t' = t := by
  have hs : (w.pc t).slot = some h := by simp [ht, Pc.slot]
  have hlt := hi.lt_next (.inr (.inr ⟨t, hs⟩))
  obtain ⟨d', hd, hp⟩ := hi.used h hlt
  cases hp with
  | live _ _ _ quiet | draining _ _ _ _ quiet | free _ _ _ _ quiet => exact absurd hs (quiet t)
  | closing t' pc slot held requested closed only =>
    obtain rfl := only t hs
    rw [ht] at pc
    cases pc
    exact ⟨hlt, hd, rfl, slot, held, requested, closed, only⟩
  | closed t' pc _ _ _ _ only =>
    obtain rfl := only t hs
    rw [ht] at pc
    cases pc

theorem Inv.osClose (hi : Inv w) {t h d : Nat} {fd : Int} (ht : w.pc t = .closing h fd d) :
    Inv { w.setPc t (.closed h) with closed := d :: w.closed } := by
  obtain ⟨hlt, hd, -, slot, held, requested, closed, only⟩ := hi.phase_closing ht
  refine hi.move hlt hd ⟨rfl, rfl, rfl, rfl, fun _ _ => rfl, fun _ _ => rfl, fun e _ => Iff.rfl,
    fun e he => by simp [he], fun _ => List.mem_cons_self, fun j t' hj hs => ?_⟩
    (.closed t ?_ slot held requested List.mem_cons_self fun t' hs => ?_) hi.aborted
    (List.nodup_cons.mpr ⟨closed, hi.once⟩) fun _ => requested
  · by_cases htt : t' = t
    · subst htt
      simp [World.setPc, ht, Pc.slot, Ne.symm hj] at hs
    · exact Function.update_of_ne htt _ _
  · exact Function.update_self _ _ _
  · by_contra hne
    simp only [World.setPc, Function.update_of_ne hne] at hs
    exact hne (only t' hs)

theorem Inv.finish (hi : Inv w) {t h : Nat} (ht : w.pc t = .closed h) :
    Inv (World.setPc { w with table := w.table.finishClose h } t .idle) := by
  have hs : (w.pc t).slot = some h := by simp [ht, Pc.slot]
  have hlt := hi.lt_next (.inr (.inr ⟨t, hs⟩))
  obtain ⟨d, hd, hp⟩ := hi.used h hlt
  cases hp with
  | live _ _ _ quiet | draining _ _ _ _ quiet | free _ _ _ _ quiet => exact absurd hs (quiet t)
  | closing t' pc _ _ _ _ only =>
    obtain rfl := only t hs
    rw [ht] at pc
    cases pc
  | closed t' pc slot held requested closed only =>
    obtain rfl := only t hs
    refine hi.move hlt hd ⟨rfl, rfl, rfl, rfl, fun j hj => slots_set_ne _ _ _ hj, fun _ _ => rfl,
      fun e _ => Iff.rfl, fun e _ => Iff.rfl, id, fun j t' hj hs' => ?_⟩
      (.free ?_ held requested closed fun t' hs' => ?_) hi.aborted hi.once (hi.asked d)
    · by_cases htt : t' = t
      · subst htt
        simp [World.setPc, ht, Pc.slot, Ne.symm hj] at hs'
      · exact Function.update_of_ne htt _ _
    · simp [World.setPc, Table.finishClose, slot]
    · by_cases htt : t' = t
      · subst htt
        simp [World.setPc, Pc.slot] at hs'
      · simp only [World.setPc, Function.update_of_ne htt] at hs'
        exact htt (only t' hs')

/-- A new descriptor comes to a slot that nothing uses. -/
theorem Inv.place (hi : Inv w) {h n : Nat} {fd : Int} (hheld : w.held h = 0)
    (hq : ∀ t, (w.pc t).slot ≠ some h) (hold : ∀ d, w.holds h = some d → d ∈ w.closed)
    (hn : n ≤ fdMax) (hin : ∀ j, j < n ↔ j < w.table.next ∨ j = h) :
    Inv { w with
      table := { w.table.set h ⟨true, false, fd, 1⟩ with next := n }
      holds := Function.update w.holds h (some w.added)
      number := Function.update w.number w.added fd
      added := w.added + 1 } := by
  have hnew : w.added ∉ w.requested := fun hr => Nat.lt_irrefl _ (hi.requested _ hr)
  have hnew' : w.added ∉ w.closed := fun hc => hnew (hi.asked _ hc)
  have hpl : ∀ {j d}, Function.update w.holds h (some w.added) j = some d →
      j = h ∧ d = w.added ∨ j ≠ h ∧ w.holds j = some d := fun {j d} hd => by
    by_cases hj : j = h
    · subst hj
      rw [Function.update_self] at hd
      exact .inl ⟨rfl, (Option.some.inj hd).symm⟩
    · rw [Function.update_of_ne hj] at hd
      exact .inr ⟨hj, hd⟩
  refine ⟨hi.aborted, hn, fun j hj => ?_, fun j hj => ?_, fun j j' d hd hd' => ?_, fun j d hd => ?_,
    fun d hd => ?_, fun d hd => Nat.lt_succ_of_lt (hi.requested d hd), hi.once, hi.asked⟩
  · by_cases hjh : j = h
    · subst hjh
      refine ⟨w.added, Function.update_self _ _ _, .live ?_ hnew hnew' hq⟩
      simp [hheld]
    · obtain ⟨d, hd, hp⟩ := hi.used j (((hin j).mp hj).resolve_right hjh)
      have hne : d ≠ w.added := Nat.ne_of_lt (hi.known j d hd)
      refine ⟨d, (Function.update_of_ne hjh _ _).trans hd, hp.congr (slots_set_ne _ _ _ hjh) rfl
        (Function.update_of_ne hne _ _) Iff.rfl Iff.rfl fun _ _ => rfl⟩
  · have hj' : ¬ (j < w.table.next ∨ j = h) := fun hc => Nat.not_lt.mpr hj ((hin j).mpr hc)
    have hjh : j ≠ h := fun hc => hj' (.inr hc)
    obtain ⟨hs, hb, hno, hqj⟩ := hi.unused j (Nat.not_lt.mp fun hc => hj' (.inl hc))
    exact ⟨(slots_set_ne _ _ _ hjh).trans hs, hb, (Function.update_of_ne hjh _ _).trans hno, hqj⟩
  · have hlt : ∀ {j}, w.holds j ≠ some w.added := fun hc => Nat.lt_irrefl _ (hi.known _ _ hc)
    rcases hpl hd with ⟨hj, he⟩ | ⟨-, hj⟩ <;> rcases hpl hd' with ⟨hj', he'⟩ | ⟨-, hj'⟩
    · exact hj.trans hj'.symm
    · exact absurd (he ▸ hj') hlt
    · exact absurd (he' ▸ hj) hlt
    · exact hi.distinct j j' d hj hj'
  · rcases hpl hd with ⟨-, rfl⟩ | ⟨-, hj⟩
    · exact Nat.lt_succ_self _
    · exact Nat.lt_succ_of_lt (hi.known j d hj)
  · rcases Nat.lt_succ_iff_lt_or_eq.mp hd with hd | rfl
    · rcases hi.evicted d hd with hc | ⟨j, hj⟩
      · exact .inl hc
      · by_cases hjh : j = h
        · exact .inl (hold d (hjh ▸ hj))
        · exact .inr ⟨j, (Function.update_of_ne hjh _ _).trans hj⟩
    · exact .inr ⟨h, Function.update_self _ _ _⟩

/-- A slot that looks unused is. -/
theorem Inv.phase_free (hi : Inv w) {h : Nat} (hlt : h < w.table.next)
    (hl : (w.table.slots h).live = false) (hc : (w.table.slots h).closing = false)
    (hr : (w.table.slots h).refs = 0) : w.held h = 0 ∧ (∀ t, (w.pc t).slot ≠ some h) ∧
      ∀ d, w.holds h = some d → d ∈ w.closed := by
  obtain ⟨d, hd, hp⟩ := hi.used h hlt
  cases hp with
  | live slot => simp [slot] at hl
  | closing _ _ slot | closed _ _ slot => simp [slot] at hc
  | draining slot held =>
    simp [slot] at hr
    omega
  | free slot held requested closed quiet =>
    refine ⟨held, quiet, fun d' hd' => ?_⟩
    obtain rfl := Option.some.inj (hd.symm.trans hd')
    exact closed

/-- The handle `ax_fd_add` returns. -/
theorem Inv.add_unused (hi : Inv w) {fd : Int} {T : Table} {h : Nat}
    (ha : w.table.add fd = (T, some h)) :
    (w.table.slots h).live = false ∧ (w.table.slots h).closing = false ∧
      (w.table.slots h).refs = 0 ∧ w.held h = 0 ∧ (∀ t, (w.pc t).slot ≠ some h) ∧
      ∀ d, w.holds h = some d → d ∈ w.closed := by
  unfold Table.add at ha
  split at ha
  · cases ha
    obtain ⟨hs, hb, hn, hq⟩ := hi.unused w.table.next (Nat.le_refl _)
    simp [hs, hb, hn, hq]
  next hfull =>
    split at ha
    next k hk =>
      cases ha
      have hmem := List.mem_of_find?_eq_some hk
      have hfree := List.find?_some hk
      simp only [Bool.and_eq_true, Bool.not_eq_true', beq_iff_eq] at hfree
      have hlt : h < w.table.next := Nat.lt_of_lt_of_le (List.mem_range.mp hmem) (Nat.not_lt.mp hfull)
      exact ⟨hfree.1.1, hfree.1.2, hfree.2, hi.phase_free hlt hfree.1.1 hfree.1.2 hfree.2⟩
    next => cases ha

theorem Inv.add (hi : Inv w) (fd : Int) : Inv (w.add fd) := by
  unfold World.add
  split
  next T ha =>
    unfold Table.add at ha
    split at ha
    · cases ha
    · split at ha
      · cases ha
      · cases ha
        exact hi
  next T h ha =>
    obtain ⟨hl, hc, hr, hheld, hq, hold⟩ := hi.add_unused ha
    unfold Table.add at ha
    split at ha
    next hlt =>
      cases ha
      exact hi.place hheld hq hold hlt fun j => by omega
    next hfull =>
      split at ha
      next k hk =>
        cases ha
        have hlt : h < w.table.next :=
          Nat.lt_of_lt_of_le (List.mem_range.mp (List.mem_of_find?_eq_some hk)) (Nat.not_lt.mp hfull)
        have hp := @Inv.place _ hi _ _ fd hheld hq hold hi.next fun j => by omega
        rw [show (⟨true, false, fd, 1⟩ : Slot) =
          { w.table.slots h with fd, refs := 1, live := true } by simp [hc]] at hp
        exact hp
      next => cases ha

theorem Inv.step {e : Event} (hi : Inv w) (hw : World.step e w = some w') : Inv w' := by
  cases e with
  | add t fd =>
    obtain ⟨-, hw⟩ := Option.ite_none_right_eq_some.mp hw
    cases hw
    exact hi.add fd
  | get t h =>
    obtain ⟨-, hw⟩ := Option.ite_none_right_eq_some.mp hw
    cases hw
    exact hi
  | acquire t h out =>
    obtain ⟨-, hw⟩ := Option.ite_none_right_eq_some.mp hw
    cases hw
    exact hi.acquire h out
  | retain t h =>
    obtain ⟨-, hw⟩ := Option.ite_none_right_eq_some.mp hw
    cases hw
    exact hi.retain h
  | close t h =>
    obtain ⟨ht, hw⟩ := Option.ite_none_right_eq_some.mp hw
    cases hw
    exact hi.close ht h
  | release t h =>
    obtain ⟨ht, hw⟩ := Option.ite_none_right_eq_some.mp hw
    cases hw
    exact hi.release ht.1 ht.2
  | osClose t =>
    simp only [World.step] at hw
    split at hw
    next hpc =>
      cases hw
      exact hi.osClose hpc
    next => cases hw
  | finish t =>
    simp only [World.step] at hw
    split at hw
    next hpc =>
      cases hw
      exact hi.finish hpc
    next => cases hw

/-! ## Runs -/

/-- The handle a step returns from `ax_fd_add`. -/
def World.adds (w : World) : Event → Option Nat
  | .add _ fd => (w.table.add fd).2
  | _ => none

/-- The handle on which a step is an acquire, a retain or a get that succeeds. -/
def World.reaches (w : World) : Event → Option Nat
  | .acquire _ h out => if (w.table.acquire h out).2.isSome then some h else none
  | .retain _ h => if (w.table.retain h).2 then some h else none
  | .get _ h => if w.table.get h ≠ -1 then some h else none
  | _ => none

/-- Only a live handle can be reached. -/
theorem reaches_live {e : Event} {h : Nat} (hr : w.reaches e = some h) :
    (w.table.slots h).live = true := by
  cases e <;> simp only [World.reaches] at hr <;> try cases hr
  case get t h' =>
    split at hr
    next hg =>
      cases hr
      unfold Table.get at hg
      split at hg
      · exact absurd rfl hg
      split at hg
      next hl => exact hl
      next => exact absurd rfl hg
    next => cases hr
  case acquire t h' out =>
    split at hr
    next ha =>
      cases hr
      unfold Table.acquire at ha
      dsimp only at ha
      split at ha
      · cases ha
      split at ha
      · cases ha
      next hl =>
        simp only [Bool.not_eq_true', not_or, Bool.not_eq_false] at hl
        exact hl.1
    next => cases hr
  case retain t h' =>
    split at hr
    next ha =>
      cases hr
      unfold Table.retain at ha
      dsimp only at ha
      split at ha
      · cases ha
      split at ha
      · cases ha
      next hl =>
        simp only [Bool.not_eq_true', not_or, Bool.not_eq_false] at hl
        exact hl.1
    next => cases hr

/-- The slots of a table are live in another if they are live. -/
def Table.Dies (T T' : Table) : Prop := ∀ h, (T'.slots h).live = true → (T.slots h).live = true

theorem Table.Dies.set (T : Table) {h : Nat} {s : Slot}
    (hs : s.live = true → (T.slots h).live = true) : T.Dies (T.set h s) := by
  intro j hj
  by_cases hjh : j = h
  · subst hjh
    rw [slots_set_self] at hj
    exact hs hj
  · rwa [slots_set_ne _ _ _ hjh] at hj

theorem Table.Dies.refl (T : Table) : T.Dies T := fun _ => id

theorem dies_retain (T : Table) (h : Nat) : T.Dies (T.retain h).1 := by
  unfold Table.retain
  dsimp only
  split
  · exact .refl T
  split
  · exact .refl T
  · exact .set T id

theorem dies_acquire (T : Table) (h : Nat) (out : Bool) : T.Dies (T.acquire h out).1 := by
  unfold Table.acquire
  dsimp only
  split
  · exact .refl T
  split
  · exact .refl T
  · exact .set T id

/-- After `ax_fd_close` its handle is dead. -/
theorem dies_close (T : Table) (h : Nat) :
    T.Dies (T.close h).1 ∧ (h < fdMax → ((T.close h).1.slots h).live = false) := by
  unfold Table.close
  dsimp only
  split
  next hmax => exact ⟨.refl T, fun hlt => absurd hlt (Nat.not_lt.mpr hmax)⟩
  split
  next hl => exact ⟨.refl T, fun _ => by simpa using hl⟩
  split
  · exact ⟨.set T (by simp), fun _ => by simp⟩
  split
  · exact ⟨.set T (by simp), fun _ => by simp⟩
  · exact ⟨.set T (by simp), fun _ => by simp⟩

theorem dies_release (T : Table) (h : Nat) : T.Dies (T.release h).1 := by
  unfold Table.release
  dsimp only
  split
  · exact .refl T
  split
  · exact .refl T
  split
  · exact .set T id
  · exact .set T (by simp)

theorem leave_table (t h : Nat) (r : Table × Release) : (w.leave t h r).table = r.1 := by
  unfold World.leave
  split <;> rfl

/-- A dead handle lives again only when `ax_fd_add` returns it. -/
theorem stays_dead {e : Event} {h : Nat} (hw : World.step e w = some w')
    (hl : (w.table.slots h).live = false) (ha : w.adds e ≠ some h) :
    (w'.table.slots h).live = false := by
  have hdies : w.table.Dies w'.table → (w'.table.slots h).live = false := fun hd => by
    by_contra hc
    simp [hd h (by simpa using hc)] at hl
  cases e with
  | add t fd =>
    obtain ⟨-, hw⟩ := Option.ite_none_right_eq_some.mp hw
    cases hw
    simp only [World.adds] at ha
    unfold World.add
    unfold Table.add at ha ⊢
    split
    next T heq =>
      split at heq
      · cases heq
      · split at heq
        · cases heq
        · cases heq
          exact hl
    next T k heq =>
      split at heq
      next hlt =>
        cases heq
        rw [if_pos hlt] at ha
        exact (congrArg Slot.live (slots_set_ne _ _ _ fun hc => ha (by rw [hc]))).trans hl
      next hlt =>
        rw [if_neg hlt] at ha
        split at heq
        next k' hk =>
          cases heq
          rw [hk] at ha
          exact (congrArg Slot.live (slots_set_ne _ _ _ fun hc => ha (by rw [hc]))).trans hl
        next => cases heq
  | get t h' =>
    obtain ⟨-, hw⟩ := Option.ite_none_right_eq_some.mp hw
    cases hw
    exact hl
  | acquire t h' out =>
    obtain ⟨-, hw⟩ := Option.ite_none_right_eq_some.mp hw
    cases hw
    exact hdies (dies_acquire _ _ _)
  | retain t h' =>
    obtain ⟨-, hw⟩ := Option.ite_none_right_eq_some.mp hw
    cases hw
    exact hdies (dies_retain _ _)
  | close t h' =>
    obtain ⟨-, hw⟩ := Option.ite_none_right_eq_some.mp hw
    cases hw
    rw [leave_table] at hdies ⊢
    exact hdies (dies_close _ _).1
  | release t h' =>
    obtain ⟨-, hw⟩ := Option.ite_none_right_eq_some.mp hw
    cases hw
    rw [leave_table] at hdies ⊢
    exact hdies (dies_release _ _)
  | osClose t =>
    simp only [World.step] at hw
    split at hw
    · cases hw
      exact hl
    · cases hw
  | finish t =>
    simp only [World.step] at hw
    split at hw
    · cases hw
      exact hdies (.set _ id)
    · cases hw

variable {tr : List (Taken World Event)}

/-- Every run from the initial table. -/
abbrev Run (tr : List (Taken World Event)) (w : World) : Prop := Trace World.step Any {} tr w

theorem inv_of_run (h : Run tr w) : Inv w := h.invariant Inv.init fun hi _ hw => hi.step hw

/-- Along a run a dead handle stays dead while `ax_fd_add` does not return it. -/
theorem dead_along {u : World} {h : Nat} (ht : Trace World.step Any u tr w)
    (hl : (u.table.slots h).live = false) (ha : ∀ z ∈ tr, z.pre.adds z.event ≠ some h) :
    (w.table.slots h).live = false := by
  induction ht with
  | nil => exact hl
  | snoc _ _ hw ih =>
    refine stays_dead hw (ih fun z hz => ha z (List.mem_append_left _ hz)) ?_
    exact ha _ (List.mem_append_right _ (List.mem_singleton_self _))

/-- Handles that are out of range are never live. -/
theorem Inv.dead_of_ge (hi : Inv w) {h : Nat} (hh : fdMax ≤ h) :
    (w.table.slots h).live = false := by
  rw [(hi.unused h (Nat.le_trans hi.next hh)).1]

/-- What a step does to the list of `close(2)` calls: nothing, or it calls it for a
descriptor of which the close was requested and nobody holds a reference, under
the number it was added with. -/
theorem closes_step {e : Event} (hi : Inv w) (hw : World.step e w = some w') :
    w'.closed = w.closed ∨ ∃ t h d, e = .osClose t ∧ w.pc t = .closing h (w.number d) d ∧
      w'.closed = d :: w.closed ∧ w.holds h = some d ∧ w.held h = 0 ∧ d ∈ w.requested ∧
      d ∉ w.closed := by
  cases e with
  | add t fd =>
    obtain ⟨-, hw⟩ := Option.ite_none_right_eq_some.mp hw
    cases hw
    unfold World.add
    split <;> exact .inl rfl
  | get t h =>
    obtain ⟨-, hw⟩ := Option.ite_none_right_eq_some.mp hw
    cases hw
    exact .inl rfl
  | acquire t h out | retain t h =>
    obtain ⟨-, hw⟩ := Option.ite_none_right_eq_some.mp hw
    cases hw
    exact .inl rfl
  | close t h =>
    obtain ⟨-, hw⟩ := Option.ite_none_right_eq_some.mp hw
    cases hw
    refine .inl ?_
    unfold World.leave World.request
    split <;> split <;> rfl
  | release t h =>
    obtain ⟨-, hw⟩ := Option.ite_none_right_eq_some.mp hw
    cases hw
    refine .inl ?_
    unfold World.leave
    split <;> rfl
  | osClose t =>
    simp only [World.step] at hw
    split at hw
    next h fd d hpc =>
      cases hw
      obtain ⟨-, hd, rfl, -, held, requested, closed, -⟩ := hi.phase_closing hpc
      exact .inr ⟨t, h, d, rfl, hpc, rfl, hd, held, requested, closed⟩
    next => cases hw
  | finish t =>
    simp only [World.step] at hw
    split at hw
    · cases hw
      exact .inl rfl
    · cases hw

/-- A requested close is done, about to be done, or waits for a reference. -/
theorem Inv.closes (hi : Inv w) {d : Nat} (hd : d ∈ w.requested) :
    d ∈ w.closed ∨ (∃ t h, w.pc t = .closing h (w.number d) d) ∨
      ∃ h, w.holds h = some d ∧ 0 < w.held h := by
  rcases hi.evicted d (hi.requested d hd) with hc | ⟨h, hh⟩
  · exact .inl hc
  have hlt : h < w.table.next := by
    by_contra hge
    simp [(hi.unused h (Nat.not_lt.mp hge)).2.2.1] at hh
  obtain ⟨d', hd', hp⟩ := hi.used h hlt
  obtain rfl := Option.some.inj (hh.symm.trans hd')
  cases hp with
  | live _ requested => exact absurd hd requested
  | draining _ held => exact .inr (.inr ⟨h, hh, held⟩)
  | closing t pc => exact .inr (.inl ⟨t, h, pc⟩)
  | closed _ _ _ _ _ closed | free _ _ _ closed => exact .inl closed

/-- Descriptor handles. In every run: a descriptor is closed at most once, under its
own number, after its close was requested and with no reference out; once requested
and unreferenced it is closed or a thread is about to close it; a closed handle
cannot be reached until `ax_fd_add` returns it; what `ax_fd_add` returns is neither
live, referenced nor closing; and no assertion fails. -/
theorem descriptors_closed_once (h : Run tr w) :
    w.closed.Nodup ∧
    (∀ x ∈ tr, x.post.closed = x.pre.closed ∨ ∃ t h d, x.event = .osClose t ∧
      x.pre.pc t = .closing h (x.pre.number d) d ∧ x.post.closed = d :: x.pre.closed ∧
      x.pre.holds h = some d ∧ x.pre.held h = 0 ∧ d ∈ x.pre.requested ∧ d ∉ x.pre.closed) ∧
    (∀ d ∈ w.requested, d ∈ w.closed ∨ (∃ t h, w.pc t = .closing h (w.number d) d) ∨
      ∃ h, w.holds h = some d ∧ 0 < w.held h) ∧
    (∀ front x mid y back t k, tr = front ++ x :: (mid ++ y :: back) → x.event = .close t k →
      y.pre.reaches y.event = some k → ∃ z ∈ mid, z.pre.adds z.event = some k) ∧
    (∀ x ∈ tr, ∀ k, x.pre.adds x.event = some k → (x.pre.table.slots k).live = false ∧
      (x.pre.table.slots k).closing = false ∧ (x.pre.table.slots k).refs = 0 ∧ x.pre.held k = 0 ∧
      ∀ t, (x.pre.pc t).slot ≠ some k) ∧
    w.aborted = false := by
  have hi := inv_of_run h
  refine ⟨hi.once, fun x hx => ?_, fun d hd => hi.closes hd, ?_, fun x hx k hk => ?_, hi.aborted⟩
  · obtain ⟨tr', ht, -, hw⟩ := h.before hx
    exact closes_step (inv_of_run ht) hw
  · intro front x mid y back t k htr hx hy
    by_contra hno
    push Not at hno
    obtain ⟨ht, -, hw, hrest⟩ := h.split htr
    obtain ⟨hmid, -, -, -⟩ := hrest.split rfl
    have hdead : (x.post.table.slots k).live = false := by
      by_cases hk : k < fdMax
      · rw [hx] at hw
        obtain ⟨-, hw⟩ := Option.ite_none_right_eq_some.mp hw
        rw [← Option.some.inj hw, leave_table]
        exact (dies_close _ _).2 hk
      · exact ((inv_of_run ht).step hw).dead_of_ge (Nat.not_lt.mp hk)
    have := dead_along hmid hdead hno
    simp [reaches_live hy] at this
  · obtain ⟨tr', ht, -, -⟩ := h.before hx
    obtain ⟨pre, e, post⟩ := x
    cases e with
    | add t fd =>
      have hk : (pre.table.add fd).2 = some k := hk
      have hadd : pre.table.add fd = ((pre.table.add fd).1, some k) := by rw [← hk]
      obtain ⟨hl, hc, hr, hheld, hq, -⟩ := (inv_of_run ht).add_unused hadd
      exact ⟨hl, hc, hr, hheld, hq⟩
    | _ => simp [World.adds] at hk

/-- A thread borrows a descriptor, another closes the handle, and the borrower, who
is the last to leave, closes the descriptor. -/
def borrowAndClose : List Event :=
  [.add 0 7, .acquire 0 3 true, .close 1 3, .release 0 3, .osClose 0, .finish 0]

theorem descriptors_borrowAndClose : ∃ tr w, Run tr w ∧ w.closed = [3] ∧ w.number 3 = 7 ∧
    w.closed.Nodup ∧ w.aborted = false := by
  obtain ⟨tr, htr⟩ := Trace.played World.step borrowAndClose {} {} (by decide +kernel)
  have hclosed : ((play World.step borrowAndClose {}).getD {}).closed = [3] := by decide +kernel
  have hnum : ((play World.step borrowAndClose {}).getD {}).number 3 = 7 := by decide +kernel
  obtain ⟨hnodup, -, -, -, -, hab⟩ := descriptors_closed_once htr
  exact ⟨tr, _, htr, hclosed, hnum, hnodup, hab⟩

end Enki.Axsys
