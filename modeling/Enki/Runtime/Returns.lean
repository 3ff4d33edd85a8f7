import Enki.Runtime.Schedule

/-!
# The actor runtime: what the executors return

`er_mt_executor_run` may return once a worker has found that nothing is left to
do; `er_scheduler_drive` and `er_mt_executor_drive` give a root up when nothing
can wake it. Both decisions are taken under the lock. The drive looks again before
it acts; the run does not, and an injection that comes between the decision and
the return makes its answer wrong.
-/

namespace Enki.Runtime

open Enki.Runs

variable {w w' : World}

/-! ## Nothing left to do -/

/-- What `er_mt_maybe_complete_locked` and the drive look at. -/
def World.drained (w : World) : Bool :=
  w.busyN = 0 ∧ !w.hasRunnableSpawned ∧ !w.outstanding

theorem World.drained_iff : w.drained = true ↔ w.busyN = 0 ∧ w.queue = [] ∧ w.readyBound = 0 ∧
    w.outstanding = false := by
  simp [World.drained, World.hasRunnableSpawned, and_assoc]

/-- A worker that is not counted as busy. -/
theorem Inv.not_busy (h : Inv {} w) (hb : w.busyN = 0) {k : Nat} {x : Worker}
    (hx : w.pool[k]? = some x) : x.pc.busy = false := by
  have htally := h.pool.busyN.symm.trans hb
  have := tally_eq_zero.1 htally x (List.mem_iff_getElem?.mpr ⟨k, hx⟩)
  simpa using this

theorem Inv.not_ready (h : Inv {} w) (hr : w.readyBound = 0) {k : Nat} {x : Worker}
    (hx : w.pool[k]? = some x) : x.ready = false := by
  have htally := h.pool.readyBound.symm.trans hr
  have := tally_eq_zero.1 htally x (List.mem_iff_getElem?.mpr ⟨k, hx⟩)
  simpa using this

/-- With the queues empty and the workers waiting, only the controller can run an
actor. -/
theorem Inv.unscheduled (h : Inv {} w) (hq : w.queue = []) (hr : w.readyBound = 0)
    (hb : w.busyN = 0) {i : Nat} (hctl : ¬ w.At i .controller) :
    ¬ (w.actor i).scheduled w.ctl i := by
  intro hsch
  obtain ⟨p, hp, hi⟩ := h.exists_runs hsch
  cases p with
  | queued =>
    have hmem : i ∈ w.queue := hi
    simp [hq] at hmem
  | ready k =>
    obtain ⟨x, hx, hready, -⟩ := hi
    simp [h.not_ready hr hx] at hready
  | worker k =>
    obtain ⟨x, hx, hh⟩ := hi
    have := h.not_busy hb hx
    simp [hh.busy] at this
  | controller => exact hctl hi
  | unstarted | recv | inflight | completed | halted | crashed | undriven => cases hp

/-- Without transfers no actor waits for one. -/
theorem Inv.no_transfer (h : Inv {} w) (ho : w.outstanding = false) :
    w.inflight = [] ∧ w.done = [] ∧ ∀ i, (w.actor i).http = false := by
  simp only [World.outstanding, decide_eq_false_iff_not, not_or] at ho
  have hin : w.inflight = [] := List.length_eq_zero_iff.mp (h.inflightN.symm.trans (Nat.eq_zero_of_not_pos ho.1))
  have hdone : w.done = [] := by simpa using ho.2.1
  refine ⟨hin, hdone, fun i => ?_⟩
  have ht := (h.actor i).transfers
  simp only [World.transfers, hin, hdone, List.map_nil, List.count_nil] at ht
  simpa using one_eq_zero.1 ht.symm

/-! ## `er_mt_executor_run` -/

/-- A completed run that has not returned yet: nothing is left to do, and the
answer is right. -/
def World.Settled (w : World) : Prop :=
  w.ctl = .mtRun → w.running = false → w.drained = true ∧ w.reason = w.runReason

theorem maybeComplete_settled (hr : w.running = true) : w.maybeComplete.Settled := by
  intro _ hrun
  unfold World.maybeComplete at hrun ⊢
  split at hrun
  · simp [hr] at hrun
  next hc =>
    rw [if_neg hc]
    simp only [not_or, Bool.not_eq_true] at hc
    obtain ⟨-, -, hbusy, hrunnable, hout⟩ := hc
    refine ⟨?_, rfl⟩
    have hd : w.drained = true := by
      simp [World.drained, hrunnable, hout, not_not.mp hbusy]
    exact hd

/-- Between a run's completion and its return the workers wait. -/
theorem Inv.workers_wait {e : Event} (h : Inv {} w) (hs : w.shutdown = false)
    (hr : w.running = false) (hb : w.busyN = 0) : w.workerStep e = none := by
  cases e with
  | top k =>
    simp only [World.workerStep]
    split
    · simp [World.workerTop, hs, hr]
    · rfl
  | effect k | sliceEnd k o | served k v | after k | pumpTry k | pumpEnd k hs | pumped k =>
    simp only [World.workerStep]
    split
    all_goals first
      | rfl
      | (next hx => exact absurd (h.not_busy hb hx) (by simp [Pc.busy]))
  | _ => rfl

theorem settled_worker {e : Event} (h : Inv {} w) (hw : w.workerStep e = some w') :
    w'.Settled := by
  have hcall := World.worker_call hw
  intro hc hrun
  rw [hcall.ctl] at hc
  cases hr : w.running with
  | true =>
    rcases hcall with hcall | ⟨u, hu, rfl⟩
    · have : w'.running = w.running := congrArg Call.running hcall
      rw [this, hr] at hrun
      cases hrun
    · have hur : u.running = true := (congrArg Call.running hu).trans hr
      have huc : u.ctl = .mtRun := (congrArg Call.ctl hu).trans hc
      exact maybeComplete_settled hur (World.maybeComplete_ctl.trans huc) hrun
  | false =>
    have hctl := h.ctl
    unfold World.ctlOk at hctl
    simp only [hc] at hctl
    obtain ⟨-, -, -, hshut, hbusy⟩ := hctl
    rw [h.workers_wait hshut hr (hbusy hr)] at hw
    cases hw

/-- Injections that wake nobody after a run is complete. -/
def OnTime (w : World) (e : Event) : Prop :=
  ∀ i v, e = .inject i v → w.ctl = .mtRun → w.running = false → ¬ w.receiving i

/-- A message for an actor that is not parked on `Recv` waits in its mailbox. -/
theorem inject_eq {i : Nat} {v : Val} (hi : ¬ w.receiving i) : ∃ (m : List Msg) (acc : List Sent),
    w.inject i v = { w.modify i fun a => { a with mbox := m } with accepted := acc } := by
  unfold World.inject
  split
  · refine ⟨(w.actor i).mbox, w.accepted, ?_⟩
    simp [World.modify]
  · refine ⟨(w.actor i).mbox ++ [⟨v, []⟩], w.accepted ++ [⟨none, i, ⟨v, []⟩⟩], ?_⟩
    unfold World.accept World.deliver
    dsimp only
    rw [if_neg (by simpa [World.modify, World.receiving] using hi)]
    rfl

theorem settled_inject {i : Nat} {v : Val} (h : w.Settled)
    (hi : w.ctl = .mtRun → w.running = false → ¬ w.receiving i) : (w.inject i v).Settled := by
  intro hc hrun
  have hcall : (w.inject i v).call = w.call := by
    unfold World.inject
    split
    · rfl
    · exact World.accept_call _ _ _
  have hc' : w.ctl = .mtRun := (congrArg Call.ctl hcall).symm.trans hc
  have hrun' : w.running = false := (congrArg Call.running hcall).symm.trans hrun
  obtain ⟨hd, hreason⟩ := h hc' hrun'
  obtain ⟨m, acc, heq⟩ := inject_eq (v := v) (hi hc' hrun')
  rw [heq]
  refine ⟨hd, hreason.trans ?_⟩
  unfold World.runReason
  congr 1
  refine congrArg (· = true) (congrArg (List.any _) (funext fun j => ?_))
  rw [World.modify_actor]
  split
  next hj => rw [hj]
  next => rfl

/-- Of the calls only `er_mt_executor_run` can be complete at once. -/
theorem settled_host {e : Event} (hc : w.ctl = .out) (hw : w.hostStep e = some w') :
    w'.Settled := by
  have hout : ∀ u : World, u.ctl = .out → u.Settled := fun u hu hc' _ =>
    absurd (hu.symm.trans hc') (by simp)
  cases e <;> simp only [World.hostStep] at hw <;> try cases hw
  case newActor | adopt => exact hout _ hc
  case start i fn =>
    split at hw
    · cases hw
      exact hout _ ((World.start_ctl i fn).trans hc)
    · cases hw
  case arm i v | setMode m | newExecutor n =>
    split at hw
    · cases hw
      exact hout _ hc
    · cases hw
  case beginFree | callRun | callMtDrive r =>
    split at hw
    · cases hw
      intro hc'
      cases hc'
    · cases hw
  case callDrive r =>
    split at hw
    · cases hw
      intro hc'
      exact absurd ((World.enqueue_ctl r).symm.trans hc') (by simp [World.modify])
    · cases hw
  case callMtRun =>
    split at hw
    · cases hw
      exact maybeComplete_settled rfl
    · cases hw

theorem Settled.step {e : Event} (h : Inv {} w) (hset : w.Settled) (hon : OnTime w e)
    (hw : World.step e w = some w') : w'.Settled := by
  unfold World.step at hw
  split at hw
  case h_1 i v =>
    split at hw
    · cases hw
      exact settled_inject hset (hon i v rfl)
    · cases hw
  all_goals first
    | exact settled_worker h hw
    | (split at hw
       next hc => exact settled_host hc hw
       next => cases hw)
    | (intro hc' _
       have hnext := World.ctlStep_next hw
       rw [hc'] at hnext
       generalize w.ctl = c at hnext
       cases hnext)

/-! ## A root that nothing can wake -/

/-- The root is parked on `Recv`, nobody runs or is about to, and no transfer is
outstanding. -/
structure World.Still (r : Nat) (w : World) : Prop where
  parked : w.receiving r
  unscheduled : ∀ i, ¬ (w.actor i).scheduled w.ctl i
  outstanding : w.outstanding = false
  pumping : w.pumping = false
  ctl : w.ctl = .mtTop r ∨ w.ctl = .mtCheck r ∨ w.ctl = .detIdle (some r)

/-- Steps other than an injection and the report of a deadlock. -/
def Unreported (r : Nat) (w : World) (e : Event) : Prop :=
  (∀ i v, e ≠ .inject i v) ∧ (∀ hs, e ≠ .detIdle hs) ∧ (e = .mtCheck → w.deadlocked r = false)

/-- Nothing of what `Still` looks at has changed. -/
structure Stirs (w w' : World) : Prop where
  actor : ∀ i, (w'.actor i).status = (w.actor i).status ∧ (w'.actor i).http = (w.actor i).http ∧
    (w'.actor i).adopted = (w.actor i).adopted ∧ (w'.actor i).started = (w.actor i).started
  outstanding : w'.outstanding = w.outstanding
  pumping : w'.pumping = w.pumping
  ctl : w'.ctl = w.ctl

theorem World.Still.congr {r : Nat} (h : w.Still r) (hs : Stirs w w') : w'.Still r := by
  refine ⟨?_, fun i hi => h.unscheduled i ?_, hs.outstanding.trans h.outstanding,
    hs.pumping.trans h.pumping, ?_⟩
  · obtain ⟨hst, hh, -, -⟩ := hs.actor r
    exact ⟨hst.trans h.parked.1, hh.trans h.parked.2⟩
  · obtain ⟨hst, -, had, hstart⟩ := hs.actor i
    simpa only [Actor.scheduled, hst, had, hstart, hs.ctl] using hi
  · rw [hs.ctl]
    exact h.ctl

theorem Stirs.of_eq (ha : w'.actor = w.actor) (ho : w'.outstanding = w.outstanding)
    (hp : w'.pumping = w.pumping) (hc : w'.ctl = w.ctl) : Stirs w w' :=
  ⟨fun i => by simp [ha], ho, hp, hc⟩

theorem Stirs.trans {u : World} (h : Stirs w w') (h' : Stirs w' u) : Stirs w u := by
  refine ⟨fun i => ?_, h'.outstanding.trans h.outstanding, h'.pumping.trans h.pumping,
    h'.ctl.trans h.ctl⟩
  obtain ⟨h₁, h₂, h₃, h₄⟩ := h.actor i
  obtain ⟨h₁', h₂', h₃', h₄'⟩ := h'.actor i
  exact ⟨h₁'.trans h₁, h₂'.trans h₂, h₃'.trans h₃, h₄'.trans h₄⟩

theorem stirs_assume (c : Bool) : Stirs w (w.assume c) := by
  unfold World.assume
  split <;> exact .of_eq rfl rfl rfl rfl

theorem stirs_setPc (k : Nat) (pc : Pc) : Stirs w (w.setPc k pc) := .of_eq rfl rfl rfl rfl

/-- A worker that gives its actor up changes only the owner. -/
theorem stirs_release (k : Nat) : Stirs w (w.release k) := by
  unfold World.release
  dsimp only
  split
  · exact stirs_assume _
  next i _ =>
    refine (stirs_assume ((w.worker k).role = .bound ∧ (w.actor i).owner = some k ∧
      !(w.worker k).ready ∧ w.terminated i)).trans ⟨fun j => ?_, rfl, rfl, rfl⟩
    simp only [World.setWorker, World.modify_actor]
    split
    next hj => simp [hj]
    next => simp

/-- A drive is not completed by a worker. -/
theorem Stirs.maybeComplete {r : Nat} (h : Stirs w w') (hr : w'.root = some r) :
    Stirs w w'.maybeComplete := by
  unfold World.maybeComplete
  rw [if_pos (by simp [hr])]
  exact h

section

variable {r k : Nat} (h : Inv {} w) (hs : w.Still r) (hr : w.root = some r)

include h hs

/-- No worker is in a slice or a service. -/
theorem World.Still.no_holds {x : Worker} {i : Nat} (hx : w.pool[k]? = some x) : ¬ x.holds i :=
  fun hh => hs.unscheduled i (h.holds hx hh).1

include hr

theorem World.Still.top {x : Worker} (hx : w.pool[k]? = some x) (hpc : x.pc = .top)
    (hw : w.workerTop k = some w') : Stirs w w' := by
  have hxk := World.worker_eq hx
  have hok := h.pool.ok k x hx
  unfold World.workerTop at hw
  simp only [hxk] at hw
  split at hw
  · cases hw
    exact stirs_setPc k _
  split at hw
  · cases hw
  split at hw
  next hrole =>
    split at hw
    next hact => exact absurd hact (hok.working hrole (by simp [hpc]))
    next i hact =>
      split at hw
      · cases hw
        exact stirs_release k
      split at hw
      · cases hw
        exact (Stirs.of_eq rfl rfl rfl rfl).maybeComplete hr
      · -- A runnable bound actor would be scheduled.
        next hrun =>
        have hown := (h.actor i).owned (by simp [hok.actor i hact])
        exact absurd ⟨not_not.mp hrun, by simp [hown.1, hown.2]⟩ (hs.unscheduled i)
  next => cases hw
  next =>
    rw [if_neg (by simp [hr])] at hw
    split at hw
    · cases hw
      exact .of_eq rfl rfl rfl rfl
    next i u hu =>
      obtain ⟨hmem, -, -⟩ := World.dequeueSpawned_eq hu
      exact absurd (h.scheduled_of_runs (p := .queued) rfl hmem) (hs.unscheduled i)

/-- What the workers do beside a parked root changes nothing. -/
theorem World.Still.worker {e : Event} (hw : w.workerStep e = some w') : Stirs w w' := by
  cases e <;> simp only [World.workerStep] at hw <;> try cases hw
  case top k =>
    split at hw
    next hx => exact World.Still.top h hs hr hx rfl hw
    next => cases hw
  case effect k =>
    split at hw
    next i hx => exact absurd (.inl rfl) (hs.no_holds h (i := i) hx)
    next i p hx => exact absurd (.inr rfl) (hs.no_holds h (i := i) hx)
    next => cases hw
  case sliceEnd k o =>
    split at hw
    next i hx => exact absurd (.inl rfl) (hs.no_holds h (i := i) hx)
    next => cases hw
  case served k v =>
    split at hw
    next i p hx => exact absurd (.inr rfl) (hs.no_holds h (i := i) hx)
    next => cases hw
  case after k =>
    split at hw
    next i hx =>
      cases hw
      unfold World.workerAfter
      dsimp only
      have htop : Stirs w { w.setPc k .top with busyN := w.busyN - 1 } := .of_eq rfl rfl rfl rfl
      split
      · have hroot : (World.release { w.setPc k .top with busyN := w.busyN - 1 } k).root = some r :=
          (congrArg Call.root (World.release_call k)).trans hr
        exact (htop.trans (stirs_release k)).maybeComplete hroot
      · exact htop.maybeComplete hr
    next => cases hw
  case pumpTry k =>
    split at hw
    · cases hw
      unfold World.pumpTry
      rw [if_pos (by simp [hs.outstanding])]
      exact stirs_setPc k _
    · cases hw
  case pumpEnd k hs' =>
    split at hw
    next hx =>
      -- The worker in the curl wait is the one that set `pumping`.
      have hle := le_tally (fun x : Worker => one (x.pc = .pumping)) hx
      rw [h.pool.pumping, hs.pumping] at hle
      simp [one_true] at hle
    next => cases hw
  case pumped k =>
    split at hw
    · cases hw
      have htop : Stirs w { w.setPc k .top with busyN := w.busyN - 1 } := .of_eq rfl rfl rfl rfl
      exact htop.maybeComplete hr
    · cases hw

end

/-- The controller moves on without a report. -/
theorem World.Still.move {r : Nat} (h : w.Still r) {c : Ctl} (hd : w.ctl.driven = some r)
    (hc : c = .mtTop r ∨ c = .mtCheck r) : World.Still r { w with ctl := c } := by
  refine ⟨h.parked, fun i hi => h.unscheduled i ?_, h.outstanding, h.pumping, ?_⟩
  · have hd' : c.driven = w.ctl.driven := by
      rcases hc with rfl | rfl <;> exact hd.symm
    simpa only [Actor.scheduled, hd'] using hi
  · rcases hc with hc | hc
    · exact .inl hc
    · exact .inr (.inl hc)

theorem World.Still.ctlStep {r : Nat} {e : Event} (h : w.Still r) (hq : Unreported r w e)
    (hw : w.ctlStep e = some w') : w'.Still r := by
  obtain ⟨-, hidle, hcheck⟩ := hq
  rcases h.ctl with hc | hc | hc
  · have hd : w.ctl.driven = some r := by simp [hc, Ctl.driven]
    cases e <;> simp [World.ctlStep, hc] at hw
    unfold World.mtTop at hw
    rw [if_neg (by simp [h.parked.1])] at hw
    split at hw
    · cases hw
      exact h.move hd (.inr rfl)
    · cases hw
  · have hd : w.ctl.driven = some r := by simp [hc, Ctl.driven]
    cases e <;> simp [World.ctlStep, hc] at hw
    subst hw
    unfold World.mtCheck
    rw [if_neg (by simp [hcheck rfl])]
    exact h.move hd (.inl rfl)
  · cases e <;> simp [World.ctlStep, hc] at hw
    exact absurd rfl (hidle _)

/-- A parked root stays parked until an injection. -/
theorem World.Still.step {r : Nat} {e : Event} (h : Inv {} w) (hs : w.Still r)
    (hq : Unreported r w e) (hw : World.step e w = some w') : w'.Still r := by
  have hout : w.ctl ≠ .out := by
    rcases hs.ctl with hc | hc | hc <;> simp [hc]
  have hworker : ∀ {e : Event}, w.workerStep e = some w' → w'.Still r := by
    intro e hw
    have hctl := h.ctl
    unfold World.ctlOk at hctl
    rcases hs.ctl with hc | hc | hc <;> simp only [hc] at hctl
    · exact hs.congr (World.Still.worker h hs hctl.2.2.1 hw)
    · exact hs.congr (World.Still.worker h hs hctl.2.2.1 hw)
    · have hpool := h.pool.attached hctl.1
      cases e <;> simp [World.workerStep, hpool] at hw
  unfold World.step at hw
  split at hw
  case h_1 i v => exact absurd rfl (hq.1 i v)
  all_goals first
    | exact hworker hw
    | (rw [if_neg hout] at hw
       cases hw)
    | exact hs.ctlStep hq hw

/-! ## Where a deadlock is found -/

/-- The root is parked on `Recv` with no mail, nobody else runs, waits to run or
waits for a transfer, and nothing but an injection can change that. -/
structure World.Stuck (r : Nat) (w : World) : Prop where
  parked : w.receiving r
  mail : (w.actor r).mbox = []
  unscheduled : ∀ i, ¬ (w.actor i).scheduled w.ctl i
  transfers : w.inflight = [] ∧ w.done = [] ∧ ∀ i, (w.actor i).http = false
  stays : ∀ tr' w', Trace World.step (Unreported r) w tr' w' → w'.receiving r ∧
    (w'.actor r).mbox = []

theorem World.Still.stuck {r : Nat} (h : Reached w) (hs : w.Still r) : w.Stuck r := by
  have hmail : ∀ {u : World}, Reached u → u.Still r → (u.actor r).mbox = [] := fun hu hs =>
    (hu.inv.actor r).mail (by simp) hs.parked.1 hs.parked.2
  refine ⟨hs.parked, hmail h hs, hs.unscheduled, h.inv.no_transfer hs.outstanding,
    fun tr' w' htr => ?_⟩
  have hinv : Reached w' ∧ w'.Still r := htr.invariant (P := fun u => Reached u ∧ u.Still r) ⟨h, hs⟩
    fun hu hq hw => ⟨hu.1.step hw, hu.2.step hu.1.inv hq hw⟩
  exact ⟨hinv.2.parked, hmail hinv.1 hinv.2⟩

theorem Inv.not_pumping (h : Inv {} w) (hb : w.busyN = 0) : w.pumping = false := by
  have hz : tally (fun x : Worker => one (x.pc = .pumping)) w.pool = 0 := by
    refine tally_eq_zero.2 fun x hx => one_false fun hp => ?_
    obtain ⟨k, hk⟩ := List.mem_iff_getElem?.mp hx
    have := h.not_busy hb hk
    simp [hp, Pc.busy] at this
  rw [h.pool.pumping] at hz
  simpa using one_eq_zero.1 hz

/-- The condition of `er_mt_executor_drive`. -/
theorem Inv.still_of_deadlocked {r : Nat} (h : Inv {} w) (hc : w.ctl = .mtCheck r)
    (hd : w.deadlocked r = true) : w.Still r := by
  simp only [World.deadlocked, decide_eq_true_eq] at hd
  obtain ⟨hb, hbusy, hrun, hout⟩ := hd
  have hdr : w.drained = true := by simp [World.drained, hbusy, hrun, hout]
  obtain ⟨-, hq, hr, ho⟩ := World.drained_iff.1 hdr
  refine ⟨⟨hb, (h.no_transfer ho).2.2 r⟩, fun i => h.unscheduled hq hr hbusy ?_, ho,
    h.not_pumping hbusy, .inr (.inl hc)⟩
  rintro (hi | hi | ⟨hi, hrunnable⟩)
  · simp [hc, Ctl.slicing] at hi
  · simp [hc, Ctl.serves] at hi
  · obtain rfl : r = i := by simpa [hc, Ctl.polls] using hi
    simp [hb] at hrunnable

/-- The condition of `er_scheduler_drive`. -/
theorem Reached.still_of_idle {r : Nat} (h : Reached w) (hc : w.ctl = .detIdle (some r))
    (ho : w.outstanding = false) : w.Still r := by
  have hctl := h.inv.ctl
  unfold World.ctlOk at hctl
  simp only [hc] at hctl
  obtain ⟨hatt, -, -, -, hbusy, -⟩ := hctl
  have hpool := h.inv.pool.attached hatt
  have hr : w.readyBound = 0 := h.inv.pool.readyBound.trans (by simp [hpool])
  have hun : ∀ i, ¬ (w.actor i).scheduled w.ctl i := fun i => by
    refine h.inv.unscheduled (h.idle _ hc) hr hbusy ?_
    rintro (hi | hi | ⟨hi, -⟩)
    · simp [hc, Ctl.slicing] at hi
    · simp [hc, Ctl.serves] at hi
    · simp [hc, Ctl.polls] at hi
  have hdr : w.ctl.driven = some r := by simp [hc, Ctl.driven]
  have had := h.inv.driven r (.inl hdr)
  have hb : (w.actor r).status = .blocked := by
    rcases (h.inv.actor r).adopted had with hrun | hb
    · exact absurd ⟨hrun, by simp [had, hdr]⟩ (hun r)
    · exact hb.1
  exact ⟨⟨hb, (h.inv.no_transfer ho).2.2 r⟩, hun, ho, h.inv.not_pumping hbusy, .inr (.inr hc)⟩

/-- The drive has found a deadlock and is about to return. -/
def Ctl.reporting (r : Nat) (c : Ctl) : Prop := c = .mtDone r .deadlock ∨ c = .mtLeave r .deadlock

theorem World.ctlStep_report {r : Nat} {e : Event} (hpre : w.ctl = .mtCheck r)
    (hw : w.ctlStep e = some w') (hc : w'.ctl = .mtDone r .deadlock) : w.deadlocked r = true := by
  cases e <;> simp [World.ctlStep, hpre] at hw
  subst hw
  unfold World.mtCheck at hc
  split at hc
  next hd => exact hd
  next => cases hc

/-- A deadlock is reported after the second look only. -/
theorem World.enters_report {r : Nat} {e : Event} (hw : World.step e w = some w')
    (hc : w'.ctl.reporting r) : w.ctl.reporting r ∨ w.ctl = .mtCheck r ∧ w.deadlocked r = true := by
  unfold World.step at hw
  split at hw
  case h_1 i v =>
    split at hw
    · cases hw
      unfold World.inject at hc
      split at hc
      · exact .inl hc
      · rw [World.accept_ctl] at hc
        exact .inl hc
    · cases hw
  all_goals first
    | (rw [(World.worker_call hw).ctl] at hc
       exact .inl hc)
    | (split at hw
       next ho =>
         rcases World.hostStep_ctl ho hw with h | h | ⟨root, h⟩ | h | ⟨r', h⟩ <;>
           simp [Ctl.reporting, h] at hc
       next => cases hw)
    | skip
  have hnext := World.ctlStep_next hw
  rcases hc with hc | hc <;> rw [hc] at hnext <;> generalize hpre : w.ctl = c at hnext
  · cases hnext with
    | mtHalt r out ho => simp at ho
    | mtDeadlock => exact .inr ⟨rfl, World.ctlStep_report hpre hw hc⟩
  · cases hnext
    exact .inl (.inl rfl)

/-- The root of the drive in progress, until the drive returns. -/
def Ctl.drivenRoot : Ctl → Option Nat
  | .detTop r | .detIdle r | .detSlice r _ => r
  | .mtTop r | .mtSlice r | .mtServing r _ | .mtCheck r | .mtDone r _ | .mtLeave r _ => some r
  | _ => none

theorem detSliceEnd_answer {r i : Nat} {o : Outcome} {v : Val}
    (hc : (w.detSliceEnd (some r) i o v).ctl = .out) :
    (w.detSliceEnd (some r) i o v).answer ≠ some .deadlock := by
  unfold World.detSliceEnd at hc ⊢
  dsimp only at hc ⊢
  cases o with
  | blocked req =>
    dsimp only at hc ⊢
    split
    · simp
    next hn =>
      rw [if_neg hn, World.ctl_of_call (World.service_call i req v)] at hc
      cases hc
  | yielded =>
    dsimp only at hc
    rw [World.enqueue_ctl] at hc
    cases hc
  | done | exn =>
    dsimp only at hc ⊢
    split
    · simp
    next hn =>
      rw [if_neg hn] at hc
      cases hc

/-- The deterministic executor gives a root up when no transfer is left. -/
theorem detIdle_out {r : Nat} {hs : List (Nat × Val)} (h : Inv {} w)
    (hw : w.detIdle (some r) hs = some w') (hc : w'.ctl = .out) : w.outstanding = false := by
  have hin := h.inflightN
  have hpn := h.parkedN
  unfold World.detIdle at hw
  split at hw
  · split at hw
    next hp =>
      -- Without a parked actor both lists are empty.
      rw [hp] at hpn
      have hin' : w.inflight.length = 0 := by omega
      have hdone : w.done = [] := List.length_eq_zero_iff.mp (by omega)
      simp [World.outstanding, hin.trans hin', hdone, hp]
    next =>
      split at hw
      · split at hw
        · cases hw
          cases hc
        · cases hw
      · cases hw
  · split at hw
    next hp =>
      rw [hp.2, ← hin, hp.1] at hpn
      simp [World.outstanding, hp.1, hp.2, hpn]
    next =>
      obtain ⟨u, -, hw⟩ := Option.bind_eq_some_iff.mp hw
      split at hw
      · cases hw
      · cases hw
        cases hc

/-- A drive that returns a deadlock has just found it, or is reporting it. -/
theorem drive_returns {r : Nat} {e : Event} (h : Reached w) (hw : World.step e w = some w')
    (hd : w.ctl.drivenRoot = some r) (hc : w'.ctl = .out) (ha : w'.answer = some .deadlock) :
    w.Stuck r ∨ w.ctl = .mtLeave r .deadlock := by
  have hin : w.ctl ≠ .out := fun ho => by simp [ho, Ctl.drivenRoot] at hd
  unfold World.step at hw
  split at hw
  case h_1 i v =>
    split at hw
    · cases hw
      unfold World.inject at hc
      split at hc
      · exact absurd hc hin
      · exact absurd ((World.accept_ctl _ _ _).symm.trans hc) hin
    · cases hw
  all_goals first
    | exact absurd ((World.worker_call hw).ctl.symm.trans hc) hin
    | (rw [if_neg hin] at hw
       cases hw)
    | skip
  have hnext := World.ctlStep_next hw
  rw [hc] at hnext
  generalize hpre : w.ctl = c at hnext hd
  cases hnext with
  | detLeft root i =>
    obtain rfl : root = some r := hd
    cases e <;> simp [World.ctlStep, hpre] at hw
    · subst hw
      exact absurd (hpre.symm.trans hc) (by simp)
    · subst hw
      exact absurd ha (detSliceEnd_answer hc)
  | detReturn root =>
    obtain rfl : root = some r := hd
    cases e <;> simp [World.ctlStep, hpre] at hw
    exact .inl ((h.still_of_idle hpre (detIdle_out h.inv hw hc)).stuck h)
  | mtLeave r' out =>
    obtain rfl : r' = r := Option.some.inj hd
    cases e <;> simp [World.ctlStep, hpre] at hw
    obtain ⟨-, rfl⟩ := hw
    obtain rfl : out = .deadlock := Option.some.inj ha
    exact .inr rfl
  | mtRunReturn | freed => cases hd

variable {tr : List (Taken World Event)}

/-- A run that is reporting a deadlock has found it, and has done nothing else
since. -/
theorem found_before {allowed : World → Event → Prop} {r : Nat} (h : Run allowed tr w)
    (hc : w.ctl.reporting r) : ∃ front y mid, tr = front ++ y :: mid ∧ y.pre.Stuck r ∧
      ∀ z ∈ mid, z.pre.ctl.reporting r := by
  induction h with
  | nil => rcases hc with hc | hc <;> cases hc
  | @snoc tr w e w' ht _ hw ih =>
    rcases World.enters_report hw hc with hr | ⟨hcheck, hd⟩
    · obtain ⟨front, y, mid, rfl, hy, hmid⟩ := ih hr
      refine ⟨front, y, mid ++ [⟨w, e, w'⟩], by simp, hy, fun z hz => ?_⟩
      rcases List.mem_append.mp hz with hz | hz
      · exact hmid z hz
      · obtain rfl := List.mem_singleton.mp hz
        exact hr
    · have hre := reached_of_run ht
      exact ⟨tr, ⟨w, e, w'⟩, [], rfl, (hre.inv.still_of_deadlocked hcheck hd).stuck hre, by simp⟩

/-- In the state in which `er_mt_executor_run` returns: nobody spawned runs or is
about to, no transfer is outstanding, and the answer says whether an actor is
parked on `Recv`. -/
structure RunReturned (w : World) : Prop where
  unscheduled : ∀ i, ¬ (w.actor i).scheduled w.ctl i
  transfers : w.inflight = [] ∧ w.done = []
  answer : w.answer = some .quiescent ∨ w.answer = some .idle
  quiescent : w.answer = some .quiescent ↔
    ∃ i, (w.actor i).adopted = false ∧ (w.actor i).started = true ∧ w.receiving i

theorem Inv.runReason_quiescent (h : Inv {} w) (ho : w.outstanding = false) :
    w.runReason = .quiescent ↔
      ∃ i, (w.actor i).adopted = false ∧ (w.actor i).started = true ∧ w.receiving i := by
  unfold World.runReason
  split
  next hany =>
    simp only [List.any_eq_true, List.mem_range, decide_eq_true_eq, Bool.not_eq_true'] at hany
    obtain ⟨i, -, had, hst, hb⟩ := hany
    exact ⟨fun _ => ⟨i, had, hst, hb, (h.no_transfer ho).2.2 i⟩, fun _ => rfl⟩
  next hany =>
    refine ⟨fun hc => absurd hc (by simp), ?_⟩
    rintro ⟨i, had, hst, hb, -⟩
    refine absurd ?_ hany
    have hi : i < w.next := by
      by_contra hge
      simp [h.fresh i (Nat.le_of_not_lt hge)] at hb
    simp only [List.any_eq_true, List.mem_range, decide_eq_true_eq, Bool.not_eq_true']
    exact ⟨i, hi, had, hst, hb⟩

theorem runReason_answer (w : World) : w.runReason = .quiescent ∨ w.runReason = .idle := by
  unfold World.runReason
  split
  · exact .inl rfl
  · exact .inr rfl

theorem World.Settled.returned (h : Inv {} w) (hs : w.Settled)
    (hw : World.step .mtRunReturn w = some w') : RunReturned w' := by
  simp only [World.step, World.ctlStep] at hw
  split at hw
  next hc =>
    cases hw
    simp only [Bool.not_eq_true'] at hc
    obtain ⟨hd, hreason⟩ := hs hc.1 hc.2
    obtain ⟨hbusy, hq, hr, ho⟩ := World.drained_iff.1 hd
    have hun : ∀ i, ¬ (w.actor i).scheduled w.ctl i := fun i => by
      refine h.unscheduled hq hr hbusy ?_
      rintro (hi | hi | ⟨hi, -⟩)
      · simp [hc.1, Ctl.slicing] at hi
      · simp [hc.1, Ctl.serves] at hi
      · simp [hc.1, Ctl.polls] at hi
    refine ⟨fun i hi => hun i ?_, ⟨(h.no_transfer ho).1, (h.no_transfer ho).2.1⟩, ?_, ?_⟩
    · simpa [Actor.scheduled, Ctl.driven, hc.1] using hi
    · simpa [hreason] using runReason_answer w
    · have hq := h.runReason_quiescent ho
      rw [← hreason] at hq
      exact ⟨fun ha => hq.mp (Option.some.inj ha), fun hi => congrArg some (hq.mpr hi)⟩
  next => cases hw

/-- What the executors return. If no injection wakes an actor between the
completion of a run and its return, `er_mt_executor_run` returns only when nothing
is left to do, with the right answer. In every run a drive returns a deadlock only if it
found its root stuck, since when it has only been returning. -/
theorem executor_returns (tr : List (Taken World Event)) (w : World) :
    (Run OnTime tr w → ∀ x ∈ tr, x.event = .mtRunReturn → RunReturned x.post) ∧
    (Run Any tr w → ∀ front x back r, tr = front ++ x :: back →
      x.pre.ctl.drivenRoot = some r → x.post.ctl = .out → x.post.answer = some .deadlock →
      ∃ front' y mid, front ++ [x] = front' ++ y :: mid ∧
        y.pre.Stuck r ∧ ∀ z ∈ mid, z.pre.ctl.reporting r) := by
  refine ⟨fun h x hx he => ?_, fun h front x back r htr hd hc ha => ?_⟩
  · obtain ⟨tr', ht, -, hw⟩ := h.before hx
    have hinv : Reached x.pre ∧ x.pre.Settled :=
      ht.invariant (P := fun u => Reached u ∧ u.Settled) ⟨Reached.init, fun hc => by cases hc⟩
        fun hu hon hs => ⟨hu.1.step hs, Settled.step hu.1.inv hu.2 hon hs⟩
    rw [he] at hw
    exact hinv.2.returned hinv.1.inv hw
  · obtain ⟨ht, -, hw, -⟩ := h.split htr
    rcases drive_returns (reached_of_run ht) hw hd hc ha with hs | hl
    · exact ⟨front, x, [], rfl, hs, by simp⟩
    · obtain ⟨front', y, mid, rfl, hy, hmid⟩ := found_before ht (.inr hl)
      refine ⟨front', y, mid ++ [x], by simp, hy, fun z hz => ?_⟩
      rcases List.mem_append.mp hz with hz | hz
      · exact hmid z hz
      · obtain rfl := List.mem_singleton.mp hz
        exact .inr hl

/-- A run that completes with an actor parked on `Recv`. -/
def parkOne : List Event :=
  [.newActor, .start 0 (.nat 0), .newExecutor 1, .callMtRun, .top 0, .sliceEnd 0 (.blocked .recv),
    .after 0]

/-- `er_mt_executor_run` returns after the events. -/
def returned (es : List Event) : World :=
  ((play World.step (es ++ [.mtRunReturn]) {}).getD {})

theorem played_return (es : List Event)
    (h : (play World.step (es ++ [.mtRunReturn]) {}).isSome = true) :
    ∃ u, play World.step es {} = some u ∧ World.step .mtRunReturn u = some (returned es) := by
  obtain ⟨w, hw⟩ := Option.isSome_iff_exists.mp h
  have hr : returned es = w := by simp [returned, hw]
  rw [hr]
  exact play_snoc hw

theorem returns_parkOne : ∃ tr w, Run OnTime tr w ∧ RunReturned w ∧ w.answer = some .quiescent := by
  obtain ⟨u, hplay, hret⟩ := played_return parkOne (by decide +kernel)
  have hon : ∀ s, ∀ e ∈ parkOne, OnTime s e := by
    intro s e he i v hi
    subst hi
    simp [parkOne] at he
  obtain ⟨tr, htr⟩ := Trace.of_play parkOne hon hplay
  have hrun := htr.snoc (fun i v hi => by cases hi) hret
  have hret := (executor_returns _ _).1 hrun _ (List.mem_append_right _ (List.mem_singleton_self _)) rfl
  exact ⟨_, _, hrun, hret, by decide +kernel⟩

/-- Once the run is complete, a message is injected. -/
def lateInjection : List Event := parkOne ++ [.inject 0 (.nat 7)]

/-- `er_mt_executor_run` then returns although the actor has been woken. -/
theorem returns_with_work : ¬ ∀ tr w, Run Any tr w → ∀ x ∈ tr, x.event = .mtRunReturn →
    ∀ i, (x.post.actor i).adopted = false → (x.post.actor i).started = true →
      (x.post.actor i).status ≠ .runnable := by
  intro h
  obtain ⟨u, hplay, hret⟩ := played_return lateInjection (by decide +kernel)
  obtain ⟨tr, htr⟩ := Trace.of_play lateInjection (fun _ _ _ => trivial) hplay
  have hrun : Run Any _ _ := htr.snoc trivial hret
  have hwoken : ((returned lateInjection).actor 0).adopted = false ∧
      ((returned lateInjection).actor 0).started = true ∧
      ((returned lateInjection).actor 0).status = .runnable := by
    decide +kernel
  exact h _ _ hrun ⟨u, .mtRunReturn, returned lateInjection⟩
    (List.mem_append_right _ (List.mem_singleton_self _)) rfl 0 hwoken.1 hwoken.2.1 hwoken.2.2

end Enki.Runtime
