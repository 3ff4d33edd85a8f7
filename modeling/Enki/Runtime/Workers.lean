import Enki.Runtime.Services

/-!
# The actor runtime: steps of the workers

Every step of a pool worker keeps the invariant. What is needed beyond the
operations of `Enki.Runtime.Blocks` is that a worker in a slice or a service of an
actor is the only one (`held_once`), and that a bound actor is held by its own
worker or by nobody (`held_by_owner`).
-/

namespace Enki.Runtime

variable {w : World} {hd hd' : Hands}

/-- A worker is in a slice or a service of `i`. -/
def Worker.holds (x : Worker) (i : Nat) : Prop := x.pc.slicing = some i ∨ x.pc.serves = some i

/-! ## Who holds an actor -/

/-- A busy worker is there only while the multithreaded executor runs. -/
theorem Inv.busy {k : Nat} {x : Worker} (h : Inv hd w) (hx : w.pool[k]? = some x)
    (hb : x.pc.busy = true) : 0 < w.busyN ∧ w.mode = .live ∧ w.shutdown = false := by
  have hle := le_tally (fun x : Worker => one (x.pc.busy = true)) hx
  rw [one_true hb, ← h.pool.busyN] at hle
  have hctl := h.ctl
  unfold World.ctlOk at hctl
  revert hctl
  cases w.ctl <;> intro hctl <;> refine ⟨hle, ?_⟩ <;> grind

/-- No worker is there without an executor. -/
theorem Inv.attached {k : Nat} {x : Worker} (h : Inv hd w) (hx : w.pool[k]? = some x) :
    w.attached = true := by
  by_contra hf
  rw [h.pool.attached (by simpa using hf)] at hx
  cases hx

theorem Inv.readyFor_le {k i : Nat} {x : Worker} (h : Inv hd w) (hx : w.pool[k]? = some x) :
    w.queue.count i + x.readyFor i + one (w.ctl.slicing = some i) + one (hd.loose = some i) ≤
      one ((w.actor i).scheduled w.ctl i ∧ (w.actor i).thread.status = .yielded ∧
        w.ctl.polls ≠ some i) := by
  have hr := (h.actor i).ready
  have hle := le_tally (Worker.readyFor i) hx
  unfold World.readyTokens at hr
  omega

/-- The actor of a slice is scheduled, its thread may run, and it is in no other
place. -/
theorem Inv.slicing {k i : Nat} {x : Worker} (h : Inv hd w) (hx : w.pool[k]? = some x)
    (hi : x.pc.slicing = some i) : (w.actor i).scheduled w.ctl i ∧
      (w.actor i).thread.status = .yielded ∧ w.ctl.polls ≠ some i ∧ i ∉ w.queue := by
  have hle := h.readyFor_le (i := i) hx
  have hx' : x.readyFor i = one (x.ready ∧ x.actor = some i) + one (x.pc.slicing = some i) := rfl
  rw [one_true hi] at hx'
  have hle' := @one_le_one ((w.actor i).scheduled w.ctl i ∧
    (w.actor i).thread.status = .yielded ∧ w.ctl.polls ≠ some i)
  have hc := one_eq_one.1 (by omega : one ((w.actor i).scheduled w.ctl i ∧
    (w.actor i).thread.status = .yielded ∧ w.ctl.polls ≠ some i) = 1)
  exact ⟨hc.1, hc.2.1, hc.2.2, List.count_eq_zero.mp (by omega)⟩

/-- The caller of a service is scheduled, and its thread waits. -/
theorem Inv.serves {k i : Nat} {x : Worker} (h : Inv hd w) (hx : w.pool[k]? = some x)
    (hi : x.pc.serves = some i) : (w.actor i).scheduled w.ctl i ∧
      (w.actor i).thread.status = .blocked := by
  have hs := (h.actor i).serving
  have hle := le_tally (Worker.servingFor i) hx
  have hx' : x.servingFor i = one (x.pc.serves = some i) := rfl
  rw [one_true hi] at hx'
  unfold World.servingTokens at hs
  have hle' := @one_le_one ((w.actor i).scheduled w.ctl i ∧ (w.actor i).thread.status = .blocked)
  exact one_eq_one.1 (by omega)

theorem Inv.holds {k i : Nat} {x : Worker} (h : Inv hd w) (hx : w.pool[k]? = some x)
    (hi : x.holds i) : (w.actor i).scheduled w.ctl i ∧ i ∉ w.queue := by
  rcases hi with hi | hi
  · obtain ⟨hs, -, -, hq⟩ := h.slicing hx hi
    exact ⟨hs, hq⟩
  · obtain ⟨hs, hb⟩ := h.serves hx hi
    have hr := ((h.actor i).not_ready (by simp [hb])).1
    unfold World.readyTokens at hr
    exact ⟨hs, List.count_eq_zero.mp (by omega)⟩

/-- Only one worker is in a slice or a service of an actor. -/
theorem Inv.held_once {j k i : Nat} {x z : Worker} (h : Inv hd w) (hx : w.pool[k]? = some x)
    (hz : w.pool[j]? = some z) (hi : x.holds i) (hi' : z.holds i) : j = k := by
  by_contra hne
  rcases hi with hi | hi <;> rcases hi' with hi' | hi'
  · have htwo := two_le_tally (Worker.readyFor i) hne hz hx
      (by simp [Worker.readyFor, one_true hi']) (by simp [Worker.readyFor, one_true hi])
    have hr := (h.actor i).ready
    have hle := @one_le_one ((w.actor i).scheduled w.ctl i ∧
      (w.actor i).thread.status = .yielded ∧ w.ctl.polls ≠ some i)
    unfold World.readyTokens at hr
    omega
  · have := (h.slicing hx hi).2.1
    simp [(h.serves hz hi').2] at this
  · have := (h.slicing hz hi').2.1
    simp [(h.serves hx hi).2] at this
  · have htwo := two_le_tally (Worker.servingFor i) hne hz hx
      (by simp [Worker.servingFor, one_true hi']) (by simp [Worker.servingFor, one_true hi])
    have hr := (h.actor i).serving
    have hle := @one_le_one ((w.actor i).scheduled w.ctl i ∧ (w.actor i).thread.status = .blocked)
    unfold World.servingTokens at hr
    omega

theorem Worker.holds.busy {x : Worker} {i : Nat} (h : x.holds i) : x.pc.busy = true := by
  rcases h with h | h
  · cases hp : x.pc <;> simp_all [Pc.slicing, Pc.busy]
  · cases hp : x.pc <;> simp_all [Pc.serves, Pc.busy]

/-- A bound actor is held by its own worker. -/
theorem Inv.held_by_owner {j k i : Nat} {z : Worker} (h : Inv hd w)
    (ho : (w.actor i).owner = some k) (hz : w.pool[j]? = some z)
    (hi : z.holds i ∨ z.actor = some i) : j = k := by
  have hzok := h.pool.ok j z hz
  have hact : z.actor = some i := by
    rcases hi with hi | hi
    · obtain ⟨-, hbound, hgeneral⟩ := hzok.slice i hi
      cases hrole : z.role with
      | bound => exact hbound hrole
      | general =>
        have := hgeneral hrole
        simp [ho] at this
      | spare =>
        have := hzok.spare hrole
        simp [hi.busy] at this
    · exact hi
  exact Option.some.inj ((hzok.actor i hact).symm.trans ho)

/-- A worker that holds an actor without an owner is a general one. -/
theorem Worker.Ok.general {k i : Nat} {x : Worker} (h : x.Ok w k) (hi : x.holds i)
    (ho : (w.actor i).owner = none) : x.role = .general := by
  cases hrole : x.role with
  | general => rfl
  | bound =>
    have := h.actor i ((h.slice i hi).2.1 hrole)
    simp [ho] at this
  | spare =>
    have := h.spare hrole
    simp [hi.busy] at this

/-! ## Taking up an actor -/

/-- The controller looks after roots only. -/
theorem Inv.not_polled {i : Nat} (h : Inv hd w) (ha : (w.actor i).adopted = false) :
    w.ctl.driven ≠ some i ∧ w.ctl.polls ≠ some i := by
  have hdr : w.ctl.driven ≠ some i := fun hd => by
    have := h.driven i (.inl hd)
    simp [ha] at this
  exact ⟨hdr, fun hp => hdr (Ctl.driven_of_polls hp)⟩

/-- While there is an executor, only roots are in slices of the controller. -/
theorem Inv.not_ctl {i : Nat} (h : Inv hd w) (hatt : w.attached = true)
    (ha : (w.actor i).adopted = false) : w.ctl.slicing ≠ some i ∧ w.ctl.serves ≠ some i := by
  have hctl := h.ctl
  have hdr := (h.not_polled ha).1
  unfold World.ctlOk at hctl
  revert hctl hdr
  cases w.ctl <;> simp_all [Ctl.driven, Ctl.slicing, Ctl.serves]

/-- The actor of a bound worker at the head of its loop is on the worker's private
queue as soon as it is runnable. -/
theorem Inv.bound_ready {k i : Nat} {x : Worker} (h : Inv {} w) (hx : w.pool[k]? = some x)
    (hact : x.actor = some i) (hpc : ¬ x.holds i) (hrun : (w.actor i).status = .runnable) :
    x.ready = true ∧ (w.actor i).thread.status = .yielded := by
  have ho := (h.pool.ok k x hx).actor i hact
  obtain ⟨had, hst⟩ := (h.actor i).owned (by simp [ho])
  have hsch : (w.actor i).scheduled w.ctl i := ⟨hrun, by simp [had, hst]⟩
  obtain ⟨-, hpo⟩ := h.not_polled had
  obtain ⟨hsl, hsv⟩ := h.not_ctl (h.attached hx) had
  -- Every other worker is out of the question, because it would own the actor.
  have hother : ∀ (j : Nat) (z : Worker), j ≠ k → w.pool[j]? = some z →
      z.readyFor i = 0 ∧ z.servingFor i = 0 := by
    intro j z hj hz
    have hno : ¬ (z.holds i ∨ z.actor = some i) := fun hi => hj (h.held_by_owner ho hz hi)
    simp only [Worker.holds, not_or] at hno
    simp [Worker.readyFor, Worker.servingFor, one_false, hno]
  have hq : w.queue.count i = 0 := List.count_eq_zero.mpr fun hq => by
    have := h.queue i hq
    simp [ho] at this
  simp only [Worker.holds, not_or] at hpc
  have hy : (w.actor i).thread.status = .yielded := by
    rcases (h.actor i).armed hsch with hy | hb
    · exact hy
    · have hs := (h.actor i).serving.trans (one_true ⟨hsch, hb⟩)
      rw [World.servingTokens, tally_eq_single hx fun j z hj hz => (hother j z hj hz).2] at hs
      simp [Worker.servingFor, one_false, hpc, hsv] at hs
  refine ⟨?_, hy⟩
  have hr := (h.actor i).ready.trans (one_true ⟨hsch, hy, hpo⟩)
  rw [World.readyTokens, tally_eq_single hx fun j z hj hz => (hother j z hj hz).1, hq] at hr
  by_contra hne
  simp [Worker.readyFor, one_false, hpc, hsl, hne] at hr

/-- A bound worker takes its actor off its private queue. -/
theorem Inv.takeReady {k i : Nat} {x : Worker} (h : Inv {} w) (hx : w.pool[k]? = some x)
    (hact : x.actor = some i) (hready : x.ready = true) :
    Inv ⟨none, none, some i⟩ { w.setWorker k { x with ready := false } with
      readyBound := w.readyBound - 1 } := by
  have hok := h.pool.ok k x hx
  have hpos : 0 < w.readyBound := by
    have := le_tally (fun x : Worker => one (x.ready = true)) hx
    rw [one_true hready, ← h.pool.readyBound] at this
    omega
  refine ⟨h.aborted, fun j => ?_, h.queue, h.inflightN, h.parkedN, h.curlm, h.replay, ?_, h.width,
    h.ctl, h.driven, h.fresh⟩
  · have hj := h.actor j
    refine ⟨?_, ?_, hj.armed, hj.parked, hj.woken, hj.transfers, hj.http, hj.mail, hj.adopted,
      hj.started, hj.owned⟩
    · refine Eq.trans ?_ hj.ready
      have hset := readyTokens_setWorker hx (y := { x with ready := false }) j
      have hx₁ : x.readyFor j = one (some i = some j) + one (x.pc.slicing = some j) := by
        simp [Worker.readyFor, hready, hact]
      have hx₂ : ({ x with ready := false } : Worker).readyFor j = one (x.pc.slicing = some j) := by
        simp [Worker.readyFor]
      change (w.setWorker k { x with ready := false }).readyTokens j + one (some i = some j) =
        w.readyTokens j + one (none = some j)
      rw [one_none]
      omega
    · refine Eq.trans ?_ hj.serving
      exact congrArg (· + _) (Nat.add_right_cancel
        (servingTokens_setWorker hx (y := { x with ready := false }) j))
  · refine h.pool.set hx rfl ⟨hok.actor, hok.bound, hok.working, by simp, hok.slice, hok.spare, hok.pump,
      hok.exited⟩ rfl rfl rfl rfl ?_ rfl rfl rfl rfl
    simp only [hready, one_True, Bool.false_eq_true, one_False]
    omega

/-- An actor is taken off the run queue. -/
theorem Inv.takeQueued {i : Nat} (h : Inv {} w) (hi : i ∈ w.queue) :
    Inv ⟨none, none, some i⟩ { w with queue := w.queue.erase i } := by
  have hpos := List.count_pos_iff.mpr hi
  refine ⟨h.aborted, fun j => ?_, fun j hj => h.queue j (List.mem_of_mem_erase hj), h.inflightN,
    h.parkedN, h.curlm, h.replay,
    h.pool.congr (fun _ => rfl) (fun _ _ => rfl) id rfl rfl rfl rfl rfl rfl, h.width, h.ctl, h.driven,
    h.fresh⟩
  have hj := h.actor j
  refine ⟨?_, hj.serving, hj.armed, hj.parked, hj.woken, hj.transfers, hj.http, hj.mail, hj.adopted,
    hj.started, hj.owned⟩
  refine Eq.trans ?_ hj.ready
  simp only [World.readyTokens, one_none]
  by_cases he : j = i
  · subst he
    rw [List.count_erase_self, one_true rfl]
    omega
  · have hne : ¬ some i = some j := by simp [Ne.symm he]
    rw [List.count_erase_of_ne he, one_false hne]

/-- `er_dequeue` and `er_dequeue_spawned` take an actor that is there. -/
theorem World.dequeue_eq {i : Nat} {w' : World} (h : w.dequeue = some (i, w')) :
    i ∈ w.queue ∧ w' = { w with queue := w.queue.erase i } := by
  unfold World.dequeue at h
  split at h
  · cases h
  next i' q hq =>
    cases h
    simp [hq]

theorem World.dequeueSpawned_eq {i : Nat} {w' : World} (h : w.dequeueSpawned = some (i, w')) :
    i ∈ w.queue ∧ (w.actor i).adopted = false ∧ w' = { w with queue := w.queue.erase i } := by
  unfold World.dequeueSpawned at h
  split at h
  · cases h
  next i' hf =>
    cases h
    exact ⟨List.mem_of_find?_eq_some hf, by simpa using List.find?_some hf, rfl⟩

/-- A worker at the head of its loop starts a slice. -/
theorem Inv.enterSlice {k i : Nat} {x : Worker} (h : Inv ⟨none, none, some i⟩ w)
    (hx : w.pool[k]? = some x) (hpc : x.pc = .top) (hrun : w.running = true)
    (had : (w.actor i).adopted = false) (hspare : x.role ≠ .spare)
    (hbound : x.role = .bound → x.actor = some i)
    (hgeneral : x.role = .general → (w.actor i).owner = none) : Inv {} (w.enterSlice k i) := by
  have hok := h.pool.ok k x hx
  have hy := (h.loose rfl).2.1
  have hset : Inv {} { w.setPc k (.slice i) with busyN := w.busyN + 1, pumping := w.pumping } :=
      h.setPc hx (.slice i) (w.busyN + 1) w.pumping (fun j => ?_) (fun j => ?_) rfl ?_ ?_
    ⟨hok.actor, hok.bound, fun hr _ => by simp [hbound hr], hok.ready, fun j hj => ?_,
      fun hr => absurd hr hspare, ?_, ?_⟩
    (h.ctl.busy (.inr hrun))
  · unfold World.enterSlice World.runThread
    rw [World.assume_pos (decide_eq_true hy)]
    exact hset
  · simp [hpc, Pc.slicing]
  · simp [hpc, Pc.serves]
  · simp [hpc, Pc.busy]
  · simp [hpc]
  · obtain rfl : i = j := by simpa [Pc.slicing, Pc.serves] using hj
    exact ⟨had, hbound, hgeneral⟩
  · simp
  · simp

/-- `er_mt_maybe_complete_locked`. -/
theorem Inv.maybeComplete (h : Inv hd w) : Inv hd w.maybeComplete := by
  unfold World.maybeComplete
  split
  · exact h
  next hc =>
    simp only [Bool.not_eq_true', ne_eq, not_or, Decidable.not_not, Bool.not_eq_false] at hc
    refine h.setCtl w.ctl w.root w.entered false w.answer w.runReason rfl rfl rfl rfl ?_
      fun r hr => h.driven r (.inr hr)
    have hctl := h.ctl
    unfold World.ctlOk at hctl ⊢
    dsimp only
    cases hw : w.ctl <;> simp only [hw] at hctl ⊢ <;> grind

/-! ## The worker loop -/

/-- A worker goes to a place where it has no actor. -/
theorem Inv.goIdle {k : Nat} {x : Worker} (h : Inv {} w) (hx : w.pool[k]? = some x) (pc : Pc)
    (b : Nat) (p : Bool) (hpc : x.pc ≠ .exited) (hold : ∀ i, ¬ x.holds i)
    (hnew : pc.slicing = none ∧ pc.serves = none)
    (hspare : x.role = .spare → pc.busy = false)
    (hpump : pc = .idle ∨ pc = .pumping ∨ pc = .pumped → x.role = .general)
    (hexit : pc = .exited → w.shutdown = true)
    (hb : b + one (x.pc.busy = true) = w.busyN + one (pc.busy = true))
    (hp : one (p = true) + one (x.pc = .pumping) = one (w.pumping = true) + one (pc = .pumping))
    (hctl : b ≤ w.busyN ∨ w.running = true) :
    Inv {} { w.setPc k pc with busyN := b, pumping := p } := by
  have hok := h.pool.ok k x hx
  refine h.setPc hx pc b p (fun j => ?_) (fun j => ?_) rfl hb hp
    ⟨hok.actor, hok.bound, fun hr _ => hok.working hr hpc, hok.ready, fun j hj => ?_, hspare, hpump,
      hexit⟩ (h.ctl.busy hctl)
  · rw [hnew.1, one_none, one_false fun hj => hold j (.inl hj)]
  · rw [hnew.2, one_none, one_false fun hj => hold j (.inr hj)]
  · simp [hnew.1, hnew.2] at hj

/-- A general worker takes an actor off the run queue. -/
theorem Inv.takeUp {k i : Nat} {x : Worker} (h : Inv {} w) (hx : w.pool[k]? = some x)
    (hpc : x.pc = .top) (hrole : x.role = .general) (hrun : w.running = true) (hi : i ∈ w.queue)
    (had : (w.actor i).adopted = false) :
    Inv {} (World.enterSlice (if (w.actor i).effectful then
      World.bind { w with queue := w.queue.erase i } k i else
      { w with queue := w.queue.erase i }) k i) := by
  have ht := h.takeQueued hi
  have ho := h.queue i hi
  split
  · obtain ⟨hsch, hy, -, hr⟩ := ht.loose rfl
    have hv := ((ht.actor i).not_serving fun hc => by cases hy.symm.trans hc.2).1
    have hq : i ∉ w.queue.erase i := by
      have : (w.queue.erase i).count i = 0 := by
        unfold World.readyTokens at hr
        exact (Nat.add_eq_zero_iff.mp (Nat.add_eq_zero_iff.mp hr).1).1
      exact List.count_eq_zero.mp this
    obtain ⟨hbind, hx', p, heq⟩ := ht.bind hx hrole ho had (hsch.started had) (ht.lt_next (.inl rfl))
      hq (by simp [hpc, Pc.slicing, Pc.serves]) (by simp [hpc]) fun j z _ hz => by
        rw [← not_or]
        intro hj
        have := held_pos hz hj
        omega
    refine hbind.enterSlice hx' hpc ?_ ?_ (by simp) (fun _ => rfl) (by simp)
    · rw [heq]
      exact hrun
    · rw [heq]
      simpa using had
  · exact ht.enterSlice hx hpc hrun had (by simp [hrole]) (by simp [hrole]) fun _ => ho

/-- The head of the worker's loop. -/
theorem Inv.workerTop {k : Nat} {x : Worker} {w' : World} (h : Inv {} w)
    (hx : w.pool[k]? = some x) (hpc : x.pc = .top) (hw : w.workerTop k = some w') : Inv {} w' := by
  have hok := h.pool.ok k x hx
  have hold : ∀ i, ¬ x.holds i := by simp [Worker.holds, hpc, Pc.slicing, Pc.serves]
  unfold World.workerTop at hw
  dsimp only at hw
  rw [World.worker_eq hx] at hw
  split at hw
  next hsd =>
    cases hw
    exact h.goIdle hx .exited w.busyN w.pumping (by simp [hpc]) hold ⟨rfl, rfl⟩ (fun _ => rfl) (by simp)
      (fun _ => hsd) (by simp [hpc, Pc.busy]) (by simp [hpc]) (.inl (Nat.le_refl _))
  split at hw
  · cases hw
  next hrun =>
  have hrun : w.running = true := by simpa using hrun
  split at hw
  next hrole =>
    split at hw
    next hact => exact absurd hact (hok.working hrole (by simp [hpc]))
    next i hact =>
      split at hw
      next hterm =>
        cases hw
        exact h.release hx hact hterm hpc
      split at hw
      · cases hw
        exact h.maybeComplete
      next hst =>
        cases hw
        have had := ((h.actor i).owned (by simp [hok.actor i hact])).1
        obtain ⟨hready, -⟩ := h.bound_ready hx hact (hold i) (by simpa using hst)
        have hpos : 0 < w.readyBound := by
          have := le_tally (fun x : Worker => one (x.ready = true)) hx
          rw [one_true hready, ← h.pool.readyBound] at this
          omega
        rw [World.assume_pos (by simp [hready, hpos])]
        refine (h.takeReady hx hact hready).enterSlice (x := { x with ready := false }) ?_ hpc hrun
          had ?_ (fun _ => hact) ?_
        · simp [World.setWorker, World.pool_set hx]
        · simp [hrole]
        · simp [hrole]
  · cases hw
  next hrole =>
    split at hw
    · cases hw
      exact h.goIdle hx .idle (w.busyN + 1) w.pumping (by simp [hpc]) hold ⟨rfl, rfl⟩ (by simp [hrole])
        (fun _ => hrole) (by simp) (by simp [hpc, Pc.busy]) (by simp [hpc]) (.inr hrun)
    next i u hu =>
      cases hw
      have hq : i ∈ w.queue ∧ (w.actor i).adopted = false ∧
          u = { w with queue := w.queue.erase i } := by
        split at hu
        next hroot =>
          obtain ⟨hi, rfl⟩ := World.dequeue_eq hu
          refine ⟨hi, ?_, rfl⟩
          -- Without a driven root, what is queued was spawned.
          by_contra had
          obtain ⟨hsch, -⟩ := (h.takeQueued hi).loose rfl
          have hdr := hsch.driven (by simpa using had)
          have hctl := h.ctl
          unfold World.ctlOk at hctl
          revert hctl hdr
          cases hc : w.ctl <;> simp_all [Ctl.driven]
        next => exact World.dequeueSpawned_eq hu
      obtain ⟨hi, had, rfl⟩ := hq
      rw [World.assume_pos (by simpa using ⟨had, h.queue i hi⟩)]
      exact h.takeUp hx hpc hrole hrun hi had

/-- An effect in a slice or a service binds the actor to the worker. -/
theorem Inv.workerEffect {k i : Nat} {x : Worker} (h : Inv {} w) (hx : w.pool[k]? = some x)
    (hi : x.holds i) : Inv {} (w.workerEffect k i) := by
  have hok := h.pool.ok k x hx
  obtain ⟨had, -, -⟩ := hok.slice i hi
  obtain ⟨hsch, hq⟩ := h.holds hx hi
  have hnext : i < w.next := by
    by_contra hlt
    have := hsch.2
    simp [h.fresh i (Nat.le_of_not_lt hlt)] at this
  have hm : Inv {} (w.modify i fun a => { a with effectful := true }) :=
    h.modify_quiet hnext rfl rfl rfl rfl rfl rfl (.inl rfl)
  unfold World.workerEffect
  dsimp only
  split
  · exact hm
  next hne =>
    have hne' : (w.actor i).owner ≠ some k := by simpa [had] using hne
    have ho : (w.actor i).owner = none := by
      cases ho : (w.actor i).owner with
      | none => rfl
      | some k' => exact absurd (h.held_by_owner ho hx (.inl hi) ▸ ho) hne'
    refine (hm.bind hx (hok.general hi ho) ?_ ?_ ?_ hnext hq (fun j hj => ?_) ?_
      fun j z hj hz => ?_).1
    · simpa using ho
    · simpa using had
    · simpa using hsch.started had
    · rcases hi with hi | hi <;> rcases hj with hj | hj
      · exact Option.some.inj (hj.symm.trans hi)
      · cases hp : x.pc <;> simp_all [Pc.slicing, Pc.serves]
      · cases hp : x.pc <;> simp_all [Pc.slicing, Pc.serves]
      · exact Option.some.inj (hj.symm.trans hi)
    · rcases hi with hi | hi <;> cases hp : x.pc <;> simp_all [Pc.slicing, Pc.serves]
    · rw [← not_or]
      exact fun hz' => hj (h.held_once hx hz hi hz')

/-! ## Slices and services of a worker -/

/-- A service that leaves its caller crashed or served keeps the invariant, when
the caller was spawned. -/
theorem Served.inv {i : Nat} {w' : World} (hs : Served w i w') (h : Inv ⟨some i, none, none⟩ w)
    (had : (w.actor i).adopted = false) : Inv {} w' := by
  rcases hs with rfl | hs
  · exact h.crash had
  · exact hs.1

/-- A worker gives its actor into the hands of the step that ends the slice or
the service. -/
theorem Inv.letGo {k i : Nat} {x : Worker} (h : Inv {} w) (hx : w.pool[k]? = some x)
    (hi : x.holds i) : Inv ⟨if x.pc.serves = some i then some i else none, none,
      if x.pc.slicing = some i then some i else none⟩ (w.setPc k (.after i)) := by
  have hok := h.pool.ok k x hx
  have hbusy := hi.busy
  refine h.setPc hx (.after i) w.busyN w.pumping (fun j => ?_) (fun j => ?_) rfl ?_ ?_
    ⟨hok.actor, hok.bound, fun hr _ => by simp [(hok.slice i hi).2.1 hr], hok.ready,
      by simp [Pc.slicing, Pc.serves], fun hr => ?_, by simp,
      by simp⟩ h.ctl
  · rw [show (Pc.after i).slicing = none from rfl]
    rcases hi with hi | hi
    · simp [hi]
    · cases hp : x.pc <;> simp_all [Pc.slicing, Pc.serves]
  · rw [show (Pc.after i).serves = none from rfl]
    rcases hi with hi | hi
    · cases hp : x.pc <;> simp_all [Pc.slicing, Pc.serves]
    · simp [hi]
  · rw [hbusy, show (Pc.after i).busy = true from rfl]
  · have : x.pc ≠ .pumping := by
      rcases hi with hi | hi <;> rintro hp <;> simp [hp, Pc.slicing, Pc.serves] at hi
    simp [this]
  · have := hok.spare hr
    simp [hbusy] at this

/-- A worker goes into the unlocked middle of a service. -/
theorem Inv.goServe {k i : Nat} {x : Worker} (h : Inv ⟨some i, none, none⟩ w)
    (hx : w.pool[k]? = some x) (hpc : x.pc = .after i) (had : (w.actor i).adopted = false)
    (hbound : x.role = .bound → x.actor = some i)
    (hgeneral : x.role = .general → (w.actor i).owner = none) (p : Pending) :
    Inv {} (w.setPc k (.serving i p)) := by
  have hok := h.pool.ok k x hx
  refine h.setPc hx (.serving i p) w.busyN w.pumping (fun j => ?_) (fun j => ?_) rfl ?_ ?_
    ⟨hok.actor, hok.bound, fun hr _ => by simp [hbound hr], hok.ready, fun j hj => ?_, fun hr => ?_,
      by simp, by simp⟩ h.ctl
  · simp [hpc, Pc.slicing]
  · simp [hpc, Pc.serves]
  · simp [hpc, Pc.busy]
  · simp [hpc]
  · obtain rfl : i = j := by simpa [Pc.slicing, Pc.serves] using hj
    exact ⟨had, hbound, hgeneral⟩
  · have := hok.spare hr
    simp [hpc, Pc.busy] at this

/-- `er_step` on a worker, up to the first hold of the lock in a service. -/
theorem Inv.workerSliceEnd {k i : Nat} {x : Worker} (h : Inv {} w) (hx : w.pool[k]? = some x)
    (hpc : x.pc = .slice i) (o : Outcome) : Inv {} (w.workerSliceEnd k i o) := by
  have hok := h.pool.ok k x hx
  have hi : x.pc.slicing = some i := by simp [hpc, Pc.slicing]
  obtain ⟨had, hbound, hgeneral⟩ := hok.slice i (.inl hi)
  have hgo := h.letGo hx (.inl hi)
  rw [if_pos hi, if_neg (by simp [hpc, Pc.serves])] at hgo
  obtain ⟨hsch, hy, hpo, -⟩ := hgo.loose rfl
  have hnext := hgo.lt_next (.inl rfl)
  -- The thread stops and the worker moves; the order does not matter.
  have hcomm : ∀ rs, (w.stopThread i rs).setPc k (.after i) =
    (w.setPc k (.after i)).stopThread i rs := fun _ => rfl
  have hpool : (w.setPc k (.after i)).pool[k]? = some { x with pc := .after i } := by
    simp [World.setPc, World.setWorker, World.pool_set hx, World.worker_eq hx]
  unfold World.workerSliceEnd
  dsimp only
  rw [hcomm]
  cases o with
  | yielded =>
    refine Inv.enqueue (hgo.modify_quiet hnext rfl rfl rfl ?_ rfl rfl (.inl rfl))
    exact hy.symm
  | done =>
    have hfin := hgo.finish .halted had (.inl rfl) .done
    unfold World.endSlice World.stopThread
    dsimp only
    rw [World.modify_modify]
    exact hfin
  | exn =>
    have hfin := hgo.finish .crashed had (.inr rfl) .exn
    unfold World.endSlice World.stopThread World.crash
    dsimp only
    rw [World.modify_modify]
    exact hfin.crashes _
  | blocked req =>
    have hbl : Inv ⟨some i, none, none⟩ ((w.setPc k (.after i)).stopThread i .blocked) := by
      refine Inv.block ?_ hsch hy hnext
      rw [looseHand, if_neg hpo]
      exact hgo
    have had' : (((w.setPc k (.after i)).stopThread i .blocked).actor i).adopted = false := by
      simp only [World.stopThread, World.modify_actor, if_true]
      exact had
    obtain ⟨hnone, hsome⟩ := hbl.beginService req
    dsimp only [Outcome.status]
    split
    next u hu => exact (hnone u hu).inv hbl had'
    next u p hu =>
      obtain ⟨rfl, -⟩ := hsome u p hu
      refine hbl.goServe (x := { x with pc := .after i }) hpool rfl had' hbound (fun hr => ?_) p
      simp only [World.stopThread, World.modify_actor, if_true]
      exact hgeneral hr

/-- The rest of a service on a worker. -/
theorem Inv.workerServed {k i : Nat} {x : Worker} {p : Pending} (h : Inv {} w)
    (hx : w.pool[k]? = some x) (hpc : x.pc = .serving i p)
    (hdest : ∀ d, p.dest = some d → d < w.next) (v : Val) :
    Inv {} ((w.setPc k (.after i)).finishService i v p) := by
  have hi : x.pc.serves = some i := by simp [hpc, Pc.serves]
  obtain ⟨had, -⟩ := (h.pool.ok k x hx).slice i (.inr hi)
  have hlive := (h.busy hx (Worker.holds.busy (.inr hi))).2.1
  have hgo := h.letGo hx (.inr hi)
  rw [if_pos hi, if_neg (by simp [hpc, Pc.slicing])] at hgo
  have hmode : (w.setPc k (.after i)).mode ≠ .replay := by
    change w.mode ≠ .replay
    simp [hlive]
  exact (hgo.finishService v p hdest fun _ => hmode).inv hgo had

/-- A worker stops being busy with its actor. -/
theorem Inv.workerAfter {k i : Nat} {x : Worker} (h : Inv {} w) (hx : w.pool[k]? = some x)
    (hpc : x.pc = .after i) : Inv {} (w.workerAfter k i) := by
  have hpos := (h.busy hx (by simp [hpc, Pc.busy])).1
  have hgo := h.goIdle hx .top (w.busyN - 1) w.pumping (by simp [hpc])
    (by simp [Worker.holds, hpc, Pc.slicing, Pc.serves]) ⟨rfl, rfl⟩ (fun _ => rfl) (by simp) (by simp)
    (by simp only [hpc, Pc.busy, one_True, Bool.false_eq_true, one_False]; omega) (by simp [hpc])
    (.inl (Nat.sub_le _ _))
  have hpool : (w.setPc k .top).pool[k]? = some { x with pc := .top } := by
    simp [World.setPc, World.setWorker, World.pool_set hx, World.worker_eq hx]
  unfold World.workerAfter
  dsimp only
  refine Inv.maybeComplete ?_
  split
  next hc =>
    have hact : ((w.setPc k .top).worker k).actor = some i := hc.2.1
    rw [World.worker_eq hpool] at hact
    exact hgo.release (x := { x with pc := .top }) hpool hact hc.2.2 rfl
  · exact hgo

/-! ## The pump on a worker -/

theorem Inv.pumpTry {k : Nat} {x : Worker} (h : Inv {} w) (hx : w.pool[k]? = some x)
    (hpc : x.pc = .idle) : Inv {} (w.pumpTry k) := by
  have hrole := (h.pool.ok k x hx).pump (.inl hpc)
  have hold : ∀ i, ¬ x.holds i := by simp [Worker.holds, hpc, Pc.slicing, Pc.serves]
  unfold World.pumpTry
  split
  · exact h.goIdle hx .pumped w.busyN w.pumping (by simp [hpc]) hold ⟨rfl, rfl⟩ (by simp [hrole])
      (fun _ => hrole) (by simp) (by simp [hpc, Pc.busy]) (by simp [hpc]) (.inl (Nat.le_refl _))
  next hc =>
    have hp : w.pumping = false := by
      simp only [Bool.not_eq_true', not_or] at hc
      simpa using hc.2.1
    exact h.goIdle hx .pumping w.busyN true (by simp [hpc]) hold ⟨rfl, rfl⟩ (by simp [hrole])
      (fun _ => hrole) (by simp) (by simp [hpc, Pc.busy]) (by simp [hpc, hp, one_true]) (.inl (Nat.le_refl _))

theorem Inv.pumpEnd {k : Nat} {x : Worker} {w' : World} {hs : List (Nat × Val)} (h : Inv {} w)
    (hx : w.pool[k]? = some x) (hpc : x.pc = .pumping) (hw : w.pumpEnd k hs = some w') :
    Inv {} w' := by
  have hrole := (h.pool.ok k x hx).pump (.inr (.inl hpc))
  have hlive := (h.busy hx (by simp [hpc, Pc.busy])).2.1
  have hflag : w.pumping = true := by
    have := le_tally (fun x : Worker => one (x.pc = .pumping)) hx
    rw [h.pool.pumping, one_true hpc] at this
    exact one_pos.1 this
  have hgo := h.goIdle hx .pumped w.busyN false (by simp [hpc])
    (by simp [Worker.holds, hpc, Pc.slicing, Pc.serves]) ⟨rfl, rfl⟩ (by simp [hrole])
    (fun _ => hrole) (by simp) (by simp [hpc, Pc.busy]) (by simp [hpc, hflag]) (.inl (Nat.le_refl _))
  obtain ⟨u, hu, rfl⟩ := Option.map_eq_some_iff.mp hw
  refine (Inv.depositAll (hgo.harvest hu ?_).1).1
  change w.mode ≠ .replay
  simp [hlive]

theorem Inv.workerPumped {k : Nat} {x : Worker} (h : Inv {} w) (hx : w.pool[k]? = some x)
    (hpc : x.pc = .pumped) : Inv {} (w.workerPumped k) := by
  have hpos := (h.busy hx (by simp [hpc, Pc.busy])).1
  refine Inv.maybeComplete ?_
  exact h.goIdle hx .top (w.busyN - 1) w.pumping (by simp [hpc])
    (by simp [Worker.holds, hpc, Pc.slicing, Pc.serves]) ⟨rfl, rfl⟩ (fun _ => rfl) (by simp) (by simp)
    (by simp only [hpc, Pc.busy, one_True, Bool.false_eq_true, one_False]; omega) (by simp [hpc])
    (.inl (Nat.sub_le _ _))

/-- Steps of the workers keep the invariant. -/
theorem Inv.workerStep {e : Event} {w' : World} (h : Inv {} w)
    (hdest : ∀ i p d, w.Pends i p → p.dest = some d → d < w.next)
    (hw : w.workerStep e = some w') : Inv {} w' := by
  cases e <;> simp only [World.workerStep] at hw <;> try cases hw
  case top k =>
    split at hw
    next hx => exact h.workerTop hx rfl hw
    · cases hw
  case effect k =>
    split at hw
    next i hx =>
      cases hw
      exact h.workerEffect hx (.inl rfl)
    next i p hx =>
      cases hw
      exact h.workerEffect hx (.inr rfl)
    · cases hw
  case sliceEnd k o =>
    split at hw
    next hx =>
      cases hw
      exact h.workerSliceEnd hx rfl o
    · cases hw
  case served k v =>
    split at hw
    next i p hx =>
      split at hw
      · cases hw
        refine h.workerServed hx rfl (fun d hd => hdest i p d ?_ hd) v
        exact .inl (List.mem_map.mpr ⟨_, List.mem_of_getElem? hx, rfl⟩)
      · cases hw
    · cases hw
  case after k =>
    split at hw
    next hx =>
      cases hw
      exact h.workerAfter hx rfl
    · cases hw
  case pumpTry k =>
    split at hw
    next hx =>
      cases hw
      exact h.pumpTry hx rfl
    · cases hw
  case pumpEnd k hs =>
    split at hw
    next hx => exact h.pumpEnd hx rfl hw
    · cases hw
  case pumped k =>
    split at hw
    next hx =>
      cases hw
      exact h.workerPumped hx rfl
    · cases hw

end Enki.Runtime
