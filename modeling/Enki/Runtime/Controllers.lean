import Enki.Runtime.Workers

/-!
# The actor runtime: steps of the controllers and of the embedder

The thread that calls into an executor drives the deterministic executor by
itself, or waits for the workers of the multithreaded one and runs the slices of
its root. Between calls it makes actors, attaches and frees the executor. With
these steps and those of the workers, every step keeps the invariant.
-/

namespace Enki.Runtime

variable {w : World} {hd hd' : Hands}

/-! ## Moves that take or leave an actor -/

/-- The controller moves; the counts of the actors it names move with it. -/
theorem Inv.moveCtl (h : Inv hd w) (c : Ctl) (ro : Option Nat) (e ru : Bool) (an : Option Answer)
    (re : Answer) (hdr : c.driven = w.ctl.driven)
    (hr : ∀ i, one (c.slicing = some i) + one (hd'.loose = some i) +
        one ((w.actor i).scheduled w.ctl i ∧ (w.actor i).thread.status = .yielded ∧
          w.ctl.polls ≠ some i) =
      one (w.ctl.slicing = some i) + one (hd.loose = some i) +
        one ((w.actor i).scheduled w.ctl i ∧ (w.actor i).thread.status = .yielded ∧
          c.polls ≠ some i))
    (hs : ∀ i, one (c.serves = some i) + one (hd'.serving = some i) =
      one (w.ctl.serves = some i) + one (hd.serving = some i))
    (hw : hd'.woken = hd.woken)
    (hctl : ({ w with ctl := c, root := ro, entered := e, running := ru } : World).ctlOk)
    (hro : ∀ r, ro = some r → (w.actor r).adopted) :
    Inv hd' { w with ctl := c, root := ro, entered := e, running := ru, answer := an, reason := re } := by
  refine h.setCtl' c ro e ru an re (fun i => ?_) hctl fun r hr' => ?_
  · have hok := h.actor i
    have hsch : (w.actor i).scheduled c i ↔ (w.actor i).scheduled w.ctl i := by
      unfold Actor.scheduled
      rw [hdr]
    refine ⟨?_, ?_, fun hi => hok.armed (hsch.mp hi), hok.parked, ?_, hok.transfers, hok.http, ?_, ?_,
      hok.started, hok.owned⟩
    · have hready := hok.ready
      have hri := hr i
      unfold World.readyTokens at hready
      rw [one_congr (and_congr_left fun _ => hsch)]
      omega
    · have hserving := hok.serving
      have hsi := hs i
      unfold World.servingTokens at hserving
      rw [one_congr (and_congr_left fun _ => hsch)]
      omega
    · rw [hw]
      exact hok.woken
    · rw [hw]
      exact hok.mail
    · rw [hdr]
      exact hok.adopted
  · rcases hr' with hr' | hr'
    · exact h.driven r (.inl (hdr ▸ hr'))
    · exact hro r hr'

/-- No worker has a root in a slice or a service, and no queue is private to one. -/
theorem Inv.root_unheld {r : Nat} (h : Inv hd w) (had : (w.actor r).adopted = true) :
    tally (Worker.readyFor r) w.pool = 0 ∧ tally (Worker.servingFor r) w.pool = 0 := by
  have hx : ∀ x ∈ w.pool, ¬ x.holds r ∧ x.actor ≠ some r := by
    intro x hx
    obtain ⟨k, hk⟩ := List.mem_iff_getElem?.mp hx
    have hok := h.pool.ok k x hk
    refine ⟨fun hi => ?_, fun hi => ?_⟩
    · have := (hok.slice r hi).1
      simp [had] at this
    · have := ((h.actor r).owned (by simp [hok.actor r hi])).1
      simp [had] at this
  refine ⟨tally_eq_zero.2 fun x hxm => ?_, tally_eq_zero.2 fun x hxm => ?_⟩
  · obtain ⟨hh, ha⟩ := hx x hxm
    simp only [Worker.holds, not_or] at hh
    simp [Worker.readyFor, one_false, hh, ha]
  · obtain ⟨hh, -⟩ := hx x hxm
    simp only [Worker.holds, not_or] at hh
    simp [Worker.servingFor, one_false, hh]

/-! ## The deterministic executor -/

/-- Where the controller of the deterministic executor may be. -/
def Ctl.det (root : Option Nat) (c : Ctl) : Prop :=
  c = .detTop root ∨ c = .detIdle root ∨ ∃ i, c = .detSlice root i

/-- The controller of the deterministic executor goes on to another place. -/
theorem Inv.detMove {root : Option Nat} {c : Ctl} (h : Inv {} w) (hdet : w.ctl.det root)
    (hsl : w.ctl.slicing = none) (hc : c = .detTop root ∨ c = .detIdle root) :
    Inv {} { w with ctl := c } := by
  have hctl := h.ctl
  refine h.setCtl c w.root w.entered w.running w.answer w.reason ?_ ?_ ?_ ?_ ?_
    fun r hr => h.driven r (.inr hr)
  · rcases hdet with hw | hw | ⟨i, hw⟩ <;> rcases hc with rfl | rfl <;> rw [hw] <;> rfl
  · rcases hdet with hw | hw | ⟨i, hw⟩ <;> rcases hc with rfl | rfl <;> rw [hw] <;> rfl
  · rw [hsl]
    rcases hc with rfl | rfl <;> rfl
  · rcases hdet with hw | hw | ⟨i, hw⟩ <;> rcases hc with rfl | rfl <;> rw [hw] <;> rfl
  · unfold World.ctlOk at hctl ⊢
    rcases hdet with hw | hw | ⟨i, hw⟩ <;> rcases hc with rfl | rfl <;> simpa only [hw] using hctl

/-- `er_http_pump`. -/
theorem Inv.httpPump {w' : World} {hs : List (Nat × Val)} (h : Inv {} w)
    (hw : w.httpPump hs = some w') : Inv {} w' ∧ w'.ctl = w.ctl := by
  unfold World.httpPump at hw
  split at hw
  next hc =>
    obtain ⟨u, hu, rfl⟩ := Option.map_eq_some_iff.mp hw
    have hmode : w.mode ≠ .replay := fun hm => by
      have := (h.replay hm).1
      simp [hc] at this
    obtain ⟨hinv, -, hctl⟩ := h.harvest hu hmode
    split
    · obtain ⟨hinv', -, hctl'⟩ := hinv.depositAll
      exact ⟨hinv', hctl'.trans hctl⟩
    · exact ⟨hinv, hctl⟩
  · cases hw
    exact ⟨h, rfl⟩

/-- The head of the loop of the deterministic executor. -/
theorem Inv.detTop {root : Option Nat} {hs : List (Nat × Val)} {w' : World} (h : Inv {} w)
    (hc : w.ctl = .detTop root) (hw : w.detTop root hs = some w') : Inv {} w' := by
  obtain ⟨u, hu, rfl⟩ := Option.map_eq_some_iff.mp hw
  obtain ⟨hinv, hctl⟩ := h.httpPump hu
  rw [hc] at hctl
  split
  · exact hinv.detMove (.inl hctl) (by rw [hctl]; rfl) (.inr rfl)
  next i u' hd =>
    obtain ⟨hi, rfl⟩ := World.dequeue_eq hd
    have ht := hinv.takeQueued hi
    obtain ⟨hsch, hy, hpo, -⟩ := ht.loose rfl
    -- Without a root, what is queued was spawned.
    have hassume : (if root = none then
        World.assume { u with queue := u.queue.erase i } (!(u.actor i).adopted)
        else { u with queue := u.queue.erase i }) = { u with queue := u.queue.erase i } := by
      split
      next hroot =>
        refine World.assume_pos ?_
        by_contra hne
        have hdr := hsch.driven (by simpa using hne)
        simp [hctl, hroot, Ctl.driven] at hdr
      next => rfl
    simp only [hassume]
    unfold World.runThread
    rw [World.assume_pos (decide_eq_true hy)]
    refine ht.moveCtl (.detSlice root i) u.root u.entered u.running u.answer u.reason ?_ (fun j => ?_)
      (fun j => ?_) rfl ?_ fun r hr => hinv.driven r (.inr hr)
    · simp [hctl, Ctl.driven]
    · simp only [hctl, Ctl.slicing, Ctl.polls, one_none]
      omega
    · simp [hctl, Ctl.serves]
    · have hok := hinv.ctl
      unfold World.ctlOk at hok ⊢
      simpa only [hctl] using hok

theorem World.modify_congr {i : Nat} {f g : Actor → Actor} (h : f (w.actor i) = g (w.actor i)) :
    w.modify i f = w.modify i g := by
  unfold World.modify
  rw [h]

/-- A root that waits for nothing the executor could do waits for mail. -/
theorem Inv.root_blocked {r : Nat} (h : Inv {} w) (hdr : w.ctl.driven = some r)
    (hc : w.ctl.slicing ≠ some r ∧ w.ctl.serves ≠ some r ∧ w.ctl.polls ≠ some r)
    (hq : r ∉ w.queue) : (w.actor r).status = .blocked := by
  have had := h.driven r (.inl hdr)
  obtain ⟨hr, hs⟩ := h.root_unheld had
  have hok := h.actor r
  rcases hok.adopted had with hrun | hb
  · have hsch : (w.actor r).scheduled w.ctl r := ⟨hrun, by simp [had, hdr]⟩
    rcases hok.armed hsch with hy | hb
    · have := hok.ready.trans (one_true ⟨hsch, hy, hc.2.2⟩)
      simp [World.readyTokens, hr, one_false, hc.1, List.count_eq_zero.mpr hq] at this
    · have := hok.serving.trans (one_true ⟨hsch, hb⟩)
      simp [World.servingTokens, hs, one_false, hc.2.1] at this
  · exact hb.1

/-- The executor gives up a root that is parked on `Recv`. -/
theorem Inv.unwind {r : Nat} {c : Ctl} (h : Inv {} w) (hb : (w.actor r).status = .blocked)
    (hhttp : (w.actor r).http = false) (had : (w.actor r).adopted = true)
    (hother : ∀ i, i ≠ r → w.ctl.driven ≠ some i ∧ w.ctl.polls ≠ some i ∧
      w.ctl.slicing ≠ some i ∧ w.ctl.serves ≠ some i)
    (hc : c.driven = none ∧ c.polls = none ∧ c.slicing = none ∧ c.serves = none)
    (an : Option Answer) (hctl : ({ w with ctl := c } : World).ctlOk) :
    Inv {} { w.unwind r with ctl := c, answer := an } := by
  have hok := h.actor r
  have hns : ¬ (w.actor r).scheduled w.ctl r := by simp [Actor.scheduled, hb]
  have hz := (hok.not_ready fun hc => hns hc.1).1
  have hl := h.leave had (by simp) hother (Nat.add_eq_zero_iff.mp hz).1 (h.root_unheld had).2 hhttp c hc
    (fun a => a.thread) an hctl
  unfold World.unwind
  rw [World.assume_pos (decide_eq_true (hok.parked hb))]
  exact hl

/-- No transfer is there for an actor. -/
theorem Inv.http_eq_false {i : Nat} (h : Inv hd w) (ht : w.inflight = [] ∧ w.done = []) :
    (w.actor i).http = false := by
  have := (h.actor i).transfers.symm
  simpa [World.transfers, ht] using this

/-- Nothing is outstanding when there are no transfers. -/
theorem Inv.no_transfers (h : Inv hd w) (ho : w.outstanding = false) :
    w.inflight = [] ∧ w.done = [] := by
  have hn := h.inflightN
  have ho' := of_decide_eq_false ho
  simp only [not_or, Nat.not_lt, Nat.le_zero, ne_eq, Decidable.not_not] at ho'
  rw [ho'.1] at hn
  exact ⟨List.length_eq_zero_iff.mp hn.symm, ho'.2.1⟩

/-- The deterministic executor returns when nothing is left to run. -/
theorem Inv.detReturn {root : Option Nat} (h : Inv {} w) (hc : w.ctl = .detIdle root)
    (hq : w.queue = []) (ht : w.inflight = [] ∧ w.done = []) : Inv {} (w.detReturn root) := by
  have hctl := h.ctl
  unfold World.ctlOk at hctl
  simp only [hc] at hctl
  cases root with
  | none =>
    refine h.setCtl .out w.root w.entered w.running _ w.reason ?_ ?_ ?_ ?_ hctl.2
      fun r hr => h.driven r (.inr hr)
    all_goals
      rw [hc]
      rfl
  | some r =>
    have hdr : w.ctl.driven = some r := by simp [hc, Ctl.driven]
    have hb := h.root_blocked hdr (by simp [hc, Ctl.slicing, Ctl.serves, Ctl.polls]) (by simp [hq])
    refine h.unwind hb (h.http_eq_false ht) (h.driven r (.inl hdr)) (fun i hi => ?_)
      ⟨rfl, rfl, rfl, rfl⟩ _ hctl.2
    simp [hc, Ctl.driven, Ctl.polls, Ctl.slicing, Ctl.serves, Ne.symm hi]

/-- `er_http_idle`. -/
theorem Inv.detIdle {root : Option Nat} {hs : List (Nat × Val)} {w' : World} (h : Inv {} w)
    (hc : w.ctl = .detIdle root) (hq : w.queue = []) (hw : w.detIdle root hs = some w') :
    Inv {} w' := by
  unfold World.detIdle at hw
  split at hw
  next hm =>
    split at hw
    next hp =>
      cases hw
      have hn := h.parkedN
      rw [hp] at hn
      exact h.detReturn hc hq ⟨List.length_eq_zero_iff.mp (by omega),
        List.length_eq_zero_iff.mp (by omega)⟩
    split at hw
    next i v =>
      split at hw
      next hhttp =>
        cases hw
        have hc' : ((w.httpResume i v).unlinkInflight i).ctl = .detIdle root := by
          simpa [World.unlinkInflight, World.httpResume_ctl] using hc
        exact (h.replayDeposit hm hhttp v).detMove (.inr (.inl hc')) (by rw [hc']; rfl) (.inl rfl)
      · cases hw
    · cases hw
  next hm =>
    split at hw
    next ht =>
      cases hw
      have hn := h.inflightN
      rw [ht.1] at hn
      exact h.detReturn hc hq ⟨List.length_eq_zero_iff.mp hn.symm, ht.2⟩
    obtain ⟨u, hu, hw⟩ := Option.bind_eq_some_iff.mp hw
    obtain ⟨hinv, -, hctl⟩ := h.harvest hu hm
    rw [hc] at hctl
    split at hw
    · cases hw
    next hne =>
      cases hw
      split
      · obtain ⟨hinv', -, hctl'⟩ := hinv.depositAll
        rw [hctl] at hctl'
        exact hinv'.detMove (.inr (.inl hctl')) (by rw [hctl']; rfl) (.inl rfl)
      · have hctl' := u.depositHead_frame.2.2
        rw [hctl] at hctl'
        exact (hinv.depositHead hne).detMove (.inr (.inl hctl')) (by rw [hctl']; rfl) (.inl rfl)

/-- A slice of the deterministic executor is over: its actor is in hand. -/
theorem Inv.detSliceOver {root : Option Nat} {i : Nat} (h : Inv {} w)
    (hc : w.ctl = .detSlice root i) : Inv ⟨none, none, some i⟩ { w with ctl := .detTop root } := by
  have hctl := h.ctl
  unfold World.ctlOk at hctl
  simp only [hc] at hctl
  refine h.moveCtl (.detTop root) w.root w.entered w.running w.answer w.reason ?_ (fun j => ?_)
    (fun j => ?_) rfl hctl fun r hr => h.driven r (.inr hr)
  · simp [hc, Ctl.driven]
  · simp only [hc, Ctl.slicing, Ctl.polls, one_none]
    omega
  · simp [hc, Ctl.serves]

/-- The executor leaves a root whose slice ended the drive. -/
theorem Inv.leaveSlice {r : Nat} {c : Ctl} (h : Inv {} w) (hsl : w.ctl.slicing = some r)
    (hdr : w.ctl.driven = some r) (hpo : w.ctl.polls = none) (hsv : w.ctl.serves = none)
    (hc : c.driven = none ∧ c.polls = none ∧ c.slicing = none ∧ c.serves = none) (rs : RunStatus)
    (an : Option Answer) (hctl : ({ w with ctl := c } : World).ctlOk) :
    Inv {} { w.stopThread r rs with ctl := c, answer := an } := by
  have had := h.driven r (.inl hdr)
  have hok := h.actor r
  obtain ⟨hr, hs⟩ := h.root_unheld had
  have hready := hok.ready
  have hle := @one_le_one ((w.actor r).scheduled w.ctl r ∧ (w.actor r).thread.status = .yielded ∧
    w.ctl.polls ≠ some r)
  unfold World.readyTokens at hready
  rw [one_true hsl] at hready
  have hsch := (one_eq_one.1 (by omega : one ((w.actor r).scheduled w.ctl r ∧
    (w.actor r).thread.status = .yielded ∧ w.ctl.polls ≠ some r) = 1)).1
  have hhttp : (w.actor r).http = false := by
    by_contra hh
    have := hok.http (by simpa using hh)
    simp [hsch.1] at this
  have hl := h.leave had (by simp) (fun i hi => ?_) (by omega) hs hhttp c hc
    (fun a => { a.thread with status := rs }) an hctl
  · have heq : w.stopThread r rs = w.modify r fun a =>
        { a with status := .runnable, thread := { a.thread with status := rs } } :=
      World.modify_congr (by rw [← hsch.1])
    rw [heq]
    exact hl
  · simp [hsl, hdr, hpo, hsv, Ne.symm hi]

/-- A root whose service crashed it is given up. -/
theorem Inv.crashRoot {r : Nat} {c : Ctl} (h : Inv ⟨some r, none, none⟩ w)
    (had : (w.actor r).adopted = true) (hsl : w.ctl.slicing = none) (hsv : w.ctl.serves = none)
    (hpo : w.ctl.polls = none ∨ w.ctl.polls = some r)
    (hc : c.driven = none ∧ c.polls = none ∧ c.slicing = none ∧ c.serves = none)
    (an : Option Answer) (hctl : ({ w with ctl := c } : World).ctlOk) :
    Inv {} { (w.crash r).unwind r with ctl := c, answer := an } := by
  have hi := h.inService
  have hdr := hi.scheduled.driven had
  have hl := h.leave had (fun i hi => by simp [Ne.symm hi]) (fun i hi => ?_)
    (Nat.add_eq_zero_iff.mp hi.ready).1 (h.root_unheld had).2 hi.http c hc (fun a => a.thread) an hctl
  · have heq : (w.crash r).unwind r =
        { w.modify r fun a => { a with status := .runnable, thread := a.thread } with
          crashes := r :: w.crashes } := by
      unfold World.unwind World.crash
      rw [World.assume_pos (by simp [hi.thread])]
      simp [World.modify]
    rw [heq]
    exact hl.crashes _
  · rw [hdr, hsl, hsv]
    rcases hpo with hpo | hpo <;> simp [hpo, Ne.symm hi]

/-- `er_service` in one go. -/
theorem Inv.service {i : Nat} (h : Inv ⟨some i, none, none⟩ w)
    (hhandles : ∀ j t, some t ∈ (w.actor j).handles → t < w.next) (req : Request) (v : Val) :
    Served w i (w.service i req v) := by
  obtain ⟨hnone, hsome⟩ := h.beginService req
  have hdest := (World.beginService_change (w := w) i req fun _ _ => True).2.2
  unfold World.service
  split
  next u hu => exact hnone u hu
  next u p hu =>
    obtain ⟨rfl, hf⟩ := hsome u p hu
    refine h.finishService v p (fun d hd => ?_) hf
    exact hhandles i d (hdest p d (by rw [hu]) hd)

/-- A slice of the deterministic executor is over. -/
theorem Inv.detSliceEnd {root : Option Nat} {i : Nat} (h : Inv {} w)
    (hhandles : ∀ j t, some t ∈ (w.actor j).handles → t < w.next)
    (hc : w.ctl = .detSlice root i) (o : Outcome) (v : Val) : Inv {} (w.detSliceEnd root i o v) := by
  have hctl := h.ctl
  unfold World.ctlOk at hctl
  simp only [hc] at hctl
  have hgo := h.detSliceOver hc
  obtain ⟨hsch, hy, hpo, -⟩ := hgo.loose rfl
  have hnext := hgo.lt_next (.inl rfl)
  -- The thread stops and the controller moves; the order does not matter.
  have hcomm : ∀ rs, { w.stopThread i rs with ctl := .detTop root } =
    World.stopThread { w with ctl := .detTop root } i rs := fun _ => rfl
  have hspawned : root ≠ some i → (w.actor i).adopted = false := by
    intro hne
    by_contra had
    exact hne (hsch.driven (by simpa using had))
  have hleave : root = some i → ∀ rs an,
      Inv {} { w.stopThread i rs with ctl := .out, answer := an } := by
    rintro rfl rs an
    exact h.leaveSlice (by simp [hc, Ctl.slicing]) (by simp [hc, Ctl.driven]) (by simp [hc, Ctl.polls])
      (by simp [hc, Ctl.serves]) ⟨rfl, rfl, rfl, rfl⟩ rs an hctl.2
  unfold World.detSliceEnd
  dsimp only
  cases o with
  | yielded =>
    rw [hcomm]
    refine Inv.enqueue (hgo.modify_quiet hnext rfl rfl rfl ?_ rfl rfl (.inl rfl))
    exact hy.symm
  | done =>
    dsimp only
    split
    next hr => exact hleave hr _ _
    next hr =>
      have hfin := hgo.finish .halted (hspawned hr) (.inl rfl) .done
      rw [hcomm]
      unfold World.endSlice World.stopThread
      dsimp only
      rw [World.modify_modify]
      exact hfin
  | exn =>
    dsimp only
    split
    next hr => exact hleave hr _ _
    next hr =>
      have hfin := hgo.finish .crashed (hspawned hr) (.inr rfl) .exn
      rw [hcomm]
      unfold World.endSlice World.stopThread World.crash
      dsimp only
      rw [World.modify_modify]
      exact hfin.crashes _
  | blocked req =>
    have hbl : Inv ⟨some i, none, none⟩ (World.stopThread { w with ctl := .detTop root } i .blocked) := by
      refine Inv.block ?_ hsch hy hnext
      rw [looseHand, if_neg hpo]
      exact hgo
    have hend : ∀ u, Served (World.stopThread { w with ctl := .detTop root } i .blocked) i u →
        Inv {} (if root = some i ∧ (u.actor i).status = .crashed then
          { u.unwind i with ctl := .out, answer := some .exn } else u) := by
      rintro u (rfl | ⟨hinv, hst, -⟩)
      · split
        next hr =>
          obtain ⟨rfl, -⟩ := hr
          refine hbl.crashRoot ?_ rfl rfl (.inl rfl) ⟨rfl, rfl, rfl, rfl⟩ _ hctl.2
          have := h.driven i (.inl (by simp [hc, Ctl.driven]))
          simpa [World.stopThread] using this
        next hr =>
          refine hbl.crash ?_
          have := hspawned fun hroot => hr ⟨hroot, by simp [World.crash]⟩
          simpa [World.stopThread] using this
      · rw [if_neg fun hr => hst hr.2]
        exact hinv
    refine hend _ (hbl.service (fun j t ht => hhandles j t ?_) req v)
    have hh : ((World.stopThread { w with ctl := .detTop root } i .blocked).actor j).handles =
        (w.actor j).handles := by
      simp only [World.stopThread, World.modify_actor]
      split
      next hj => rw [hj]
      next => rfl
    exact hh ▸ ht

/-! ## The controller of the multithreaded executor -/

/-- What the invariant says while the root `r` is driven. -/
structure Driving (w : World) (r : Nat) : Prop where
  attached : w.attached = true
  mode : w.mode = .live
  root : w.root = some r
  shutdown : w.shutdown = false
  running : w.running = true

/-- The places of the controller where a drive of `r` is in progress. -/
def Ctl.drives (r : Nat) (c : Ctl) : Prop :=
  c = .mtTop r ∨ c = .mtSlice r ∨ (∃ p, c = .mtServing r p) ∨ c = .mtCheck r ∨ ∃ out, c = .mtDone r out

theorem Ctl.drives.ctlOk {r : Nat} (hc : w.ctl.drives r) (h : Inv hd w) : Driving w r := by
  have hctl := h.ctl
  unfold World.ctlOk at hctl
  rcases hc with hc | hc | ⟨p, hc⟩ | hc | ⟨out, hc⟩ <;> simp only [hc] at hctl <;>
    exact ⟨hctl.1, hctl.2.1, hctl.2.2.1, hctl.2.2.2.1, hctl.2.2.2.2⟩

theorem Driving.ctlOk {r : Nat} (h : Driving w r) {c : Ctl} (hc : c.drives r) :
    ({ w with ctl := c } : World).ctlOk := by
  unfold World.ctlOk
  rcases hc with rfl | rfl | ⟨p, rfl⟩ | rfl | ⟨out, rfl⟩ <;>
    exact ⟨h.attached, h.mode, h.root, h.shutdown, h.running⟩

/-- The controller moves between two places of a drive, and takes or leaves the
root. -/
theorem Inv.driveTo {r : Nat} {c : Ctl} (h : Inv hd w) (hw : w.ctl.drives r) (hc : c.drives r)
    (hdr : c.driven = w.ctl.driven)
    (hr : ∀ i, one (c.slicing = some i) + one (hd'.loose = some i) +
        one ((w.actor i).scheduled w.ctl i ∧ (w.actor i).thread.status = .yielded ∧
          w.ctl.polls ≠ some i) =
      one (w.ctl.slicing = some i) + one (hd.loose = some i) +
        one ((w.actor i).scheduled w.ctl i ∧ (w.actor i).thread.status = .yielded ∧
          c.polls ≠ some i))
    (hs : ∀ i, one (c.serves = some i) + one (hd'.serving = some i) =
      one (w.ctl.serves = some i) + one (hd.serving = some i))
    (hwk : hd'.woken = hd.woken) : Inv hd' { w with ctl := c } :=
  h.moveCtl c w.root w.entered w.running w.answer w.reason hdr hr hs hwk
    ((hw.ctlOk h).ctlOk hc) fun r hr => h.driven r (.inr hr)

/-- The root the controller polls is in no service. -/
theorem Inv.polled_yielded {r : Nat} (h : Inv {} w) (hc : w.ctl = .mtTop r)
    (hrun : (w.actor r).status = .runnable) :
    (w.actor r).scheduled w.ctl r ∧ (w.actor r).thread.status = .yielded := by
  have hdr : w.ctl.driven = some r := by simp [hc, Ctl.driven]
  have had := h.driven r (.inl hdr)
  have hsch : (w.actor r).scheduled w.ctl r := ⟨hrun, by simp [had, hdr]⟩
  refine ⟨hsch, ?_⟩
  rcases (h.actor r).armed hsch with hy | hb
  · exact hy
  · have := (h.actor r).serving.trans (one_true ⟨hsch, hb⟩)
    simp [World.servingTokens, (h.root_unheld had).2, hc, Ctl.serves] at this

/-- The head of the loop of `er_mt_executor_drive`. -/
theorem Inv.mtTop {r : Nat} {w' : World} (h : Inv {} w) (hc : w.ctl = .mtTop r)
    (hw : w.mtTop r = some w') : Inv {} w' := by
  unfold World.mtTop at hw
  split at hw
  next hrun =>
    cases hw
    obtain ⟨hsch, hy⟩ := h.polled_yielded hc hrun
    unfold World.runThread
    rw [World.assume_pos (decide_eq_true hy)]
    refine h.driveTo (r := r) (.inl hc) (.inr (.inl rfl)) (by rw [hc]; rfl) (fun i => ?_)
      (fun i => by simp [hc, Ctl.serves]) rfl
    by_cases hi : i = r
    · subst hi
      rw [one_true (c := _ ∧ _ ∧ (Ctl.mtSlice i).polls ≠ some i) ⟨hsch, hy, by simp [Ctl.polls]⟩]
      simp [hc, Ctl.slicing, Ctl.polls]
    · simp [hc, Ctl.slicing, Ctl.polls, Ne.symm hi]
  split at hw
  · cases hw
    exact h.driveTo (r := r) (.inl hc) (.inr (.inr (.inr (.inl rfl)))) (by rw [hc]; rfl)
      (fun i => by simp [hc, Ctl.slicing, Ctl.polls]) (fun i => by simp [hc, Ctl.serves]) rfl
  · cases hw

/-- After a service of the root, the drive goes on or ends in an exception. -/
theorem Inv.mtServed {r : Nat} {u : World} (hs : Served w r u) (h : Inv ⟨some r, none, none⟩ w)
    (hc : w.ctl = .mtTop r) : Inv {} (u.mtServed r) := by
  have hdrive := Ctl.drives.ctlOk (.inl hc) h
  have had := h.driven r (.inl (by simp [hc, Ctl.driven]))
  rcases hs with rfl | ⟨hinv, hst, -⟩
  · unfold World.mtServed
    rw [if_pos (by simp [World.crash])]
    exact h.crashRoot had (by rw [hc]; rfl) (by rw [hc]; rfl) (.inr (by rw [hc]; rfl))
      ⟨rfl, rfl, rfl, rfl⟩ _ (hdrive.ctlOk (.inr (.inr (.inr (.inr ⟨_, rfl⟩)))))
  · unfold World.mtServed
    rw [if_neg hst]
    exact hinv

/-- A slice of the root is over. -/
theorem Inv.mtSliceEnd {r : Nat} (h : Inv {} w) (hc : w.ctl = .mtSlice r) (o : Outcome) :
    Inv {} (w.mtSliceEnd r o) := by
  have hdr : w.ctl.driven = some r := by simp [hc, Ctl.driven]
  have had := h.driven r (.inl hdr)
  have hsl : w.ctl.slicing = some r := by simp [hc, Ctl.slicing]
  have hdrive := Ctl.drives.ctlOk (.inr (.inl hc)) h
  have hok := h.actor r
  have hcond : (w.actor r).scheduled w.ctl r ∧ (w.actor r).thread.status = .yielded := by
    have hready := hok.ready
    have hle := @one_le_one ((w.actor r).scheduled w.ctl r ∧ (w.actor r).thread.status = .yielded ∧
      w.ctl.polls ≠ some r)
    unfold World.readyTokens at hready
    rw [one_true hsl] at hready
    have := one_eq_one.1 (by omega : one ((w.actor r).scheduled w.ctl r ∧
      (w.actor r).thread.status = .yielded ∧ w.ctl.polls ≠ some r) = 1)
    exact ⟨this.1, this.2.1⟩
  obtain ⟨hsch, hy⟩ := hcond
  have hnext : r < w.next := by
    by_contra hlt
    simp [h.fresh r (Nat.le_of_not_lt hlt)] at had
  have hgo : Inv {} { w with ctl := .mtTop r } := by
    refine h.driveTo (r := r) (.inr (.inl hc)) (.inl rfl) (by rw [hc]; rfl) (fun i => ?_)
      (fun i => by simp [hc, Ctl.serves]) rfl
    by_cases hi : i = r
    · subst hi
      rw [one_true (c := _ ∧ _ ∧ w.ctl.polls ≠ some i) ⟨hsch, hy, by simp [hc, Ctl.polls]⟩]
      simp [hc, Ctl.slicing, Ctl.polls]
    · simp [hc, Ctl.slicing, Ctl.polls, Ne.symm hi]
  have hleave : ∀ rs out, Inv {} { w.stopThread r rs with ctl := .mtDone r out } := fun rs out =>
    h.leaveSlice hsl hdr (by rw [hc]; rfl) (by rw [hc]; rfl) ⟨rfl, rfl, rfl, rfl⟩ rs w.answer
      (hdrive.ctlOk (.inr (.inr (.inr (.inr ⟨_, rfl⟩)))))
  have hcomm : ∀ rs, { w.stopThread r rs with ctl := .mtTop r } =
    World.stopThread { w with ctl := .mtTop r } r rs := fun _ => rfl
  unfold World.mtSliceEnd
  dsimp only
  cases o with
  | yielded =>
    dsimp only
    rw [hcomm]
    unfold World.stopThread
    rw [World.modify_modify]
    exact hgo.modify_quiet hnext hsch.1.symm rfl rfl hy.symm rfl rfl (.inl rfl)
  | done => exact hleave _ _
  | exn => exact hleave _ _
  | blocked req =>
    have hbl : Inv ⟨some r, none, none⟩ (World.stopThread { w with ctl := .mtTop r } r .blocked) := by
      refine Inv.block ?_ ⟨hsch.1, by simp [had, Ctl.driven]⟩ hy hnext
      rw [looseHand, if_pos (by simp [Ctl.polls])]
      exact hgo
    obtain ⟨hnone, hsome⟩ := hbl.beginService req
    dsimp only [Outcome.status]
    split
    next u hu => exact hbl.mtServed (hnone u hu) rfl
    next u p hu =>
      obtain ⟨rfl, -⟩ := hsome u p hu
      refine hbl.driveTo (r := r) (.inl rfl) (.inr (.inr (.inl ⟨p, rfl⟩))) rfl (fun i => ?_)
        (fun i => by simp [World.stopThread, Ctl.serves]) rfl
      by_cases hi : i = r
      · subst hi
        simp [World.stopThread, Ctl.slicing]
      · simp [World.stopThread, Ctl.slicing, Ctl.polls, Ne.symm hi]

/-- The rest of a service of the root. -/
theorem Inv.mtServing {r : Nat} {p : Pending} (h : Inv {} w) (hc : w.ctl = .mtServing r p)
    (hdest : ∀ d, p.dest = some d → d < w.next) (v : Val) :
    Inv {} ((World.finishService { w with ctl := .mtTop r } r v p).mtServed r) := by
  have hdrive := Ctl.drives.ctlOk (.inr (.inr (.inl ⟨p, hc⟩))) h
  have hb : (w.actor r).thread.status = .blocked := by
    have hs := (h.actor r).serving
    have hle := @one_le_one ((w.actor r).scheduled w.ctl r ∧ (w.actor r).thread.status = .blocked)
    unfold World.servingTokens at hs
    rw [one_true (c := w.ctl.serves = some r) (by simp [hc, Ctl.serves])] at hs
    exact (one_eq_one.1 (by omega : one ((w.actor r).scheduled w.ctl r ∧
      (w.actor r).thread.status = .blocked) = 1)).2
  have hgo : Inv ⟨some r, none, none⟩ { w with ctl := .mtTop r } := by
    refine h.driveTo (r := r) (.inr (.inr (.inl ⟨p, hc⟩))) (.inl rfl) (by rw [hc]; rfl) (fun i => ?_)
      (fun i => by simp [hc, Ctl.serves]) rfl
    by_cases hi : i = r
    · subst hi
      simp [hc, hb, Ctl.slicing]
    · simp [hc, Ctl.slicing, Ctl.polls, Ne.symm hi]
  refine hgo.mtServed (hgo.finishService v p hdest fun _ => ?_) rfl
  change w.mode ≠ .replay
  simp [hdrive.mode]

/-- The second look at the deadlock condition. -/
theorem Inv.mtCheck {r : Nat} (h : Inv {} w) (hc : w.ctl = .mtCheck r) : Inv {} (w.mtCheck r) := by
  have hdrive := Ctl.drives.ctlOk (.inr (.inr (.inr (.inl hc)))) h
  unfold World.mtCheck
  split
  next hdl =>
    obtain ⟨hb, -, -, ho⟩ := of_decide_eq_true hdl
    have hhttp := h.http_eq_false (i := r) (h.no_transfers (by simpa using ho))
    refine h.unwind (c := .mtDone r .deadlock) hb hhttp
      (h.driven r (.inl (by simp [hc, Ctl.driven]))) (fun i hi => ?_)
      ⟨rfl, rfl, rfl, rfl⟩ _ (hdrive.ctlOk (.inr (.inr (.inr (.inr ⟨_, rfl⟩)))))
    simp [hc, Ctl.driven, Ctl.polls, Ctl.slicing, Ctl.serves, Ne.symm hi]
  · exact h.driveTo (r := r) (.inr (.inr (.inr (.inl hc)))) (.inl rfl) (by rw [hc]; rfl)
      (fun i => by simp [hc, Ctl.slicing, Ctl.polls]) (fun i => by simp [hc, Ctl.serves]) rfl

/-! ## Freeing the executor -/

/-- A worker without its actor, which has left its private queue. -/
def World.detached (w : World) (k i : Nat) (x : Worker) : World :=
  World.setWorker { w.modify i fun a => { a with owner := none } with
    readyBound := w.readyBound - x.ready.toNat } k { x with actor := none, ready := false }

/-- `er_mt_executor_free`, for a worker that has an actor. -/
theorem World.detach_eq {k i : Nat} {x : Worker} (hx : w.pool[k]? = some x)
    (hact : x.actor = some i) (howner : (w.actor i).owner = some k)
    (hpos : x.ready = true → 0 < w.readyBound) : w.detach k =
      if (w.actor i).status = .runnable then (w.detached k i x).enqueue i else w.detached k i x := by
  cases hr : x.ready with
  | true =>
    have := hpos hr
    simp [World.detach, World.detached, World.worker_eq hx, hact, howner, World.assume, hr, this,
      World.setWorker, World.modify]
  | false =>
    simp [World.detach, World.detached, World.worker_eq hx, hact, howner, World.assume, hr,
      World.setWorker, World.modify]

/-- A worker gives back its actor, after the workers have been joined. -/
theorem Inv.detach {k : Nat} {x : Worker} (h : Inv {} w) (hc : w.ctl = .freeing)
    (hex : ∀ y ∈ w.pool, y.pc = .exited) (hx : w.pool[k]? = some x) :
    Inv {} (w.detach k) ∧ (w.detach k).ctl = .freeing ∧
    (w.detach k).pool = w.pool.set k { x with actor := none, ready := false } := by
  have hpc := hex x (List.mem_of_getElem? hx)
  have hok := h.pool.ok k x hx
  cases hact : x.actor with
  | none =>
    have hready : x.ready = false := by
      by_contra hne
      exact hok.ready (by simpa using hne) hact
    have hsame : w.detach k = w := by
      unfold World.detach
      dsimp only
      rw [World.worker_eq hx, hact]
    rw [hsame, show ({ x with actor := none, ready := false } : Worker) = x by rw [← hact, ← hready]]
    obtain ⟨hlt, rfl⟩ := List.getElem?_eq_some_iff.mp hx
    exact ⟨h, hc, (List.set_getElem_self hlt).symm⟩
  | some i =>
    have howner := hok.actor i hact
    have hrole : x.role = .bound := hok.bound (by simp [hact])
    have hhold : ¬ x.holds i := by simp [Worker.holds, hpc, Pc.slicing, Pc.serves]
    have hpos : x.ready = true → 0 < w.readyBound := fun hready => by
      have := le_tally (fun x : Worker => one (x.ready = true)) hx
      rw [one_true hready, ← h.pool.readyBound] at this
      omega
    have hpool : (w.detached k i x).pool = w.pool.set k { x with actor := none, ready := false } :=
      rfl
    rw [World.detach_eq hx hact howner hpos]
    cases hready : x.ready with
    | true =>
      -- The actor was on the private queue, and goes back to the shared one.
      have htake := h.takeReady hx hact hready
      have hset : (w.setWorker k { x with ready := false }).pool[k]? = some { x with ready := false } := by
        simp [World.setWorker, World.pool_set hx]
      have hdis := htake.disown (x := { x with ready := false }) hset hact rfl .bound (by simp)
        (.inr hpc)
      have heq : w.detached k i x = World.setWorker (World.modify
          { w.setWorker k { x with ready := false } with readyBound := w.readyBound - 1 } i fun a =>
            { a with owner := none }) k { x with actor := none, ready := false, role := .bound } := by
        simp [World.detached, World.setWorker, World.modify, hrole, hready]
      rw [← heq] at hdis
      have hnone : ((w.detached k i x).actor i).owner = none := by
        simp [World.detached, World.setWorker, World.modify]
      have hrun : (w.actor i).status = .runnable := (htake.loose rfl).1.1
      rw [if_pos hrun]
      refine ⟨hdis.enqueue, by rw [World.enqueue_ctl]; exact hc, ?_⟩
      unfold World.enqueue
      rw [hnone]
      dsimp only
      split <;> exact hpool
    | false =>
      have hrun : (w.actor i).status ≠ .runnable := fun hrun => by
        have := (h.bound_ready hx hact hhold hrun).1
        simp [hready] at this
      rw [if_neg hrun]
      have heq : w.detached k i x = (w.modify i fun a => { a with owner := none }).setWorker k
          { x with actor := none, role := .bound } := by
        simp [World.detached, World.setWorker, World.modify, hrole, hready]
      refine ⟨?_, hc, hpool⟩
      rw [heq]
      exact h.disown hx hact hready .bound (by simp) (.inr hpc)

/-- All workers give back their actors. -/
theorem Inv.detachAll (l : List Nat) (h : Inv {} w) (hc : w.ctl = .freeing)
    (hex : ∀ y ∈ w.pool, y.pc = .exited) (hl : ∀ k ∈ l, k < w.pool.length) :
    Inv {} (l.foldl World.detach w) ∧ (l.foldl World.detach w).ctl = .freeing ∧
    (∀ (k : Nat) (y : Worker), (l.foldl World.detach w).pool[k]? = some y → y.pc = .exited ∧
      (k ∈ l → y.actor = none) ∧ ∃ x, w.pool[k]? = some x ∧ (x.actor = none → y.actor = none)) := by
  induction l generalizing w with
  | nil =>
    refine ⟨h, hc, fun k y hy => ⟨hex y (List.mem_of_getElem? hy), by simp, y, hy, id⟩⟩
  | cons k l ih =>
    obtain ⟨x, hx⟩ : ∃ x, w.pool[k]? = some x := ⟨_, List.getElem?_eq_getElem (hl k (by simp))⟩
    obtain ⟨h₁, hc₁, hp₁⟩ := h.detach hc hex hx
    have hget : ∀ j, (w.detach k).pool[j]? =
        if j = k then some { x with actor := none, ready := false } else w.pool[j]? := by
      intro j
      rw [hp₁, World.pool_set hx]
    have hex₁ : ∀ y ∈ (w.detach k).pool, y.pc = .exited := by
      intro y hy
      rw [hp₁] at hy
      rcases List.mem_or_eq_of_mem_set hy with hy | rfl
      · exact hex y hy
      · exact hex x (List.mem_of_getElem? hx)
    have hl₁ : ∀ j ∈ l, j < (w.detach k).pool.length := by
      intro j hj
      rw [hp₁, List.length_set]
      exact hl j (List.mem_cons_of_mem k hj)
    obtain ⟨h₂, hc₂, hp₂⟩ := ih h₁ hc₁ hex₁ hl₁
    refine ⟨h₂, hc₂, fun j y hy => ?_⟩
    obtain ⟨hyex, hyl, z, hz, hza⟩ := hp₂ j y hy
    rw [hget] at hz
    split at hz
    next hjk =>
      cases hz
      exact ⟨hyex, fun _ => hza rfl, x, hjk ▸ hx, fun _ => hza rfl⟩
    next hjk =>
      refine ⟨hyex, fun hj => hyl ?_, z, hz, hza⟩
      exact (List.mem_cons.mp hj).resolve_left hjk

/-- `er_mt_executor_free`, after the joins. -/
theorem Inv.endFree (h : Inv {} w) (hc : w.ctl = .freeing) (hex : ∀ y ∈ w.pool, y.pc = .exited) :
    Inv {} w.endFree := by
  obtain ⟨hinv, hctl, hpool⟩ := h.detachAll (List.range w.pool.length).reverse hc hex (by simp)
  unfold World.endFree
  dsimp only
  generalize (List.range w.pool.length).reverse.foldl World.detach w = u at hinv hctl hpool
  have hidle : ∀ x ∈ u.pool, x.pc = .exited ∧ x.actor = none ∧ x.ready = false := by
    intro x hx
    obtain ⟨k, hk⟩ := List.mem_iff_getElem?.mp hx
    obtain ⟨hxe, hxa, z, hz, -⟩ := hpool k x hk
    have hlt := (List.getElem?_eq_some_iff.mp hz).1
    have hxn : x.actor = none := hxa (by simpa using hlt)
    refine ⟨hxe, hxn, ?_⟩
    by_contra hne
    exact (hinv.pool.ok k x hk).ready (by simpa using hne) hxn
  have hown : ∀ i, (u.actor i).owner = none := by
    intro i
    by_contra hne
    obtain ⟨k, hk⟩ := Option.ne_none_iff_exists'.mp hne
    obtain ⟨x, hx, hxa⟩ := hinv.pool.owner i k hk
    simp [(hidle x (List.mem_of_getElem? hx)).2.1] at hxa
  have hz : ∀ f : Worker → Nat, (∀ x, x.pc = .exited → x.actor = none → x.ready = false → f x = 0) →
      tally f u.pool = 0 := fun f hf => tally_eq_zero.2 fun x hx =>
    hf x (hidle x hx).1 (hidle x hx).2.1 (hidle x hx).2.2
  have hok := hinv.ctl
  unfold World.ctlOk at hok
  simp only [hctl] at hok
  refine ⟨hinv.aborted, fun i => ?_, hinv.queue, hinv.inflightN, hinv.parkedN, hinv.curlm,
    hinv.replay, ⟨by simp, fun i k hi => ?_, ?_, ?_, by simp, ?_, by simp⟩, rfl,
    ⟨hok.2.1, hok.2.2.1, hok.2.2.2.1, hok.2.2.2.2, rfl⟩, fun r hr => ?_, hinv.fresh⟩
  · have hr := hz (Worker.readyFor i) fun x hp ha hre => by
      simp [Worker.readyFor, hp, hre, Pc.slicing]
    have hs := hz (Worker.servingFor i) fun x hp ha hre => by
      simp [Worker.servingFor, hp, Pc.serves]
    have hi : (u.actor i).Ok {} .out i (u.readyTokens i) (u.servingTokens i) (u.transfers i) :=
      (hinv.actor i).recast (by rw [hctl]; rfl) (by rw [hctl]; rfl)
    simp only [World.readyTokens, World.servingTokens, hr, hs, hctl] at hi
    exact hi
  · rw [hown i] at hi
    cases hi
  · exact hinv.pool.readyBound.trans (hz _ fun x hp ha hre => by simp [hre])
  · exact hinv.pool.busyN.trans (hz _ fun x hp ha hre => by simp [hp, Pc.busy])
  · rw [← hinv.pool.pumping]
    exact (hz _ fun x hp ha hre => by simp [hp]).symm
  · rcases hr with hr | hr
    · cases hr
    · exact hinv.driven r (.inr hr)

/-! ## Calls of the embedder -/

/-- What the invariant says between calls. -/
theorem Inv.outside (h : Inv hd w) (hc : w.ctl = .out) : w.entered = false ∧ w.running = false ∧
    w.root = none ∧ w.busyN = 0 ∧ w.shutdown = false := by
  have hctl := h.ctl
  unfold World.ctlOk at hctl
  simpa only [hc] using hctl

/-- Between calls, a root is runnable and held nowhere. -/
theorem Inv.root_outside {r : Nat} (h : Inv {} w) (hc : w.ctl = .out)
    (had : (w.actor r).adopted = true) : (w.actor r).status = .runnable ∧ (w.actor r).http = false ∧
      ¬ (w.actor r).scheduled w.ctl r ∧ w.readyTokens r = 0 ∧ w.servingTokens r = 0 := by
  have hok := h.actor r
  have hns : ¬ (w.actor r).scheduled w.ctl r := by simp [Actor.scheduled, had, hc, Ctl.driven]
  have hrun : (w.actor r).status = .runnable := by
    rcases hok.adopted had with hrun | hb
    · exact hrun
    · simp [hc, Ctl.driven] at hb
  refine ⟨hrun, ?_, hns, (hok.not_ready fun hc => hns hc.1).1, (hok.not_serving fun hc => hns hc.1).1⟩
  by_contra hh
  have := hok.http (by simpa using hh)
  simp [hrun] at this

/-- The embedder arms a thread it adopted. -/
theorem Inv.arm {r : Nat} (h : Inv {} w) (hc : w.ctl = .out) (had : (w.actor r).adopted = true)
    (hr : r < w.next) (t : Thread) : Inv {} (w.modify r fun a => { a with thread := t }) := by
  obtain ⟨hrun, hhttp, hns, hz, hs⟩ := h.root_outside hc had
  have hok := h.actor r
  refine h.modify ?_ rfl rfl hr (fun _ _ => Iff.rfl) (fun _ _ => Iff.rfl) fun _ _ => Iff.rfl
  rw [hz, hs]
  refine .unscheduled (fun hsch => hns hsch) (by simp) (by simp) (by simp) ?_ hok.transfers hok.http ?_
    hok.adopted hok.started hok.owned
  · simp [hrun]
  · simp [hrun]

/-- A drive takes up a root: it is in hand, unless the controller polls it. -/
theorem Inv.takeRoot {r : Nat} {c : Ctl} (h : Inv {} w) (hc : w.ctl = .out)
    (had : (w.actor r).adopted = true) (hy : (w.actor r).thread.status = .yielded)
    (hd' : c.driven = some r) (hsl : c.slicing = none) (hsv : c.serves = none)
    (hpo : c.polls = none ∨ c.polls = some r) (ro : Option Nat) (hro : ∀ i, ro = some i → i = r)
    (e ru : Bool)
    (hctl : ({ w with ctl := c, root := ro, entered := e, running := ru } : World).ctlOk) :
    Inv ⟨none, none, if c.polls = some r then none else some r⟩
      { w with ctl := c, root := ro, entered := e, running := ru } := by
  obtain ⟨hrun, hhttp, hns, hz, hs⟩ := h.root_outside hc had
  refine h.setCtl' c ro e ru w.answer w.reason (fun i => ?_) hctl fun i hi => ?_
  · rw [hsl, hsv]
    have hok := h.actor i
    by_cases hi : i = r
    · subst hi
      unfold World.readyTokens at hz
      unfold World.servingTokens at hs
      rw [(Nat.add_eq_zero_iff.mp hz).1, (Nat.add_eq_zero_iff.mp hs).1, one_none]
      refine ⟨?_, ?_, fun _ => .inl hy, hok.parked, by simp, hok.transfers, hok.http, fun _ => hok.mail
        (by simp), fun _ => .inl hrun, hok.started, hok.owned⟩
      · rw [Nat.zero_add]
        refine one_congr ⟨fun hl => ⟨⟨hrun, by simp [had, hd']⟩, hy, fun hp => ?_⟩, fun hp => ?_⟩
        · simp [hp] at hl
        · simp [hp.2.2]
      · simp [hy]
    · have hdr : c.driven ≠ some i := by simp [hd', Ne.symm hi]
      have hpi : c.polls ≠ some i := by
        rcases hpo with hpo | hpo <;> simp [hpo, Ne.symm hi]
      have hrec : (w.actor i).Ok {} c i (w.readyTokens i) (w.servingTokens i) (w.transfers i) :=
        hok.recast (by rw [hc]; exact ⟨fun hx => absurd hx hdr, nofun⟩)
          (by rw [hc]; exact ⟨fun hx => absurd hx hpi, nofun⟩)
      simp only [World.readyTokens, World.servingTokens, hc] at hrec
      refine hrec.hands ?_ Iff.rfl Iff.rfl
      dsimp only
      split <;> simp [Ne.symm hi]
  · rcases hi with hi | hi
    · obtain rfl : r = i := Option.some.inj (hd'.symm.trans hi)
      exact had
    · exact hro i hi ▸ had

/-- `er_mt_executor_new`. -/
theorem Inv.newExecutor (h : Inv {} w) (hc : w.ctl = .out) (hatt : w.attached = false) (n : Nat) :
    Inv {} (w.newExecutor n) := by
  obtain ⟨-, -, -, -, hsd⟩ := h.outside hc
  have hpool := h.pool.attached hatt
  have hown : ∀ i, (w.actor i).owner = none := by
    intro i
    by_contra hne
    obtain ⟨k, hk⟩ := Option.ne_none_iff_exists'.mp hne
    obtain ⟨x, hx, -⟩ := h.pool.owner i k hk
    simp [hpool] at hx
  -- A fresh worker holds nothing.
  have hz : ∀ f : Worker → Nat, f {} = 0 → tally f (List.replicate n {}) = 0 := fun f hf =>
    tally_eq_zero.2 fun x hx => by rw [(List.mem_replicate.mp hx).2, hf]
  have hget : ∀ (k : Nat) (x : Worker), (List.replicate n ({} : Worker))[k]? = some x → x = {} :=
    fun k x hx => (List.mem_replicate.mp (List.mem_of_getElem? hx)).2
  refine ⟨h.aborted, fun i => ?_, h.queue, h.inflightN, h.parkedN, h.curlm, h.replay,
    ⟨fun k x hx => ?_, fun i k hi => ?_, ?_, ?_, ?_, ?_, fun hf => ?_⟩, rfl, ?_, fun r hr => ?_,
    h.fresh⟩
  · have hi := h.actor i
    have hr : tally (Worker.readyFor i) (List.replicate n {}) = 0 :=
      hz _ (by simp [Worker.readyFor, Pc.slicing])
    have hs : tally (Worker.servingFor i) (List.replicate n {}) = 0 :=
      hz _ (by simp [Worker.servingFor, Pc.serves])
    simp only [World.readyTokens, World.servingTokens, hpool, tally_nil] at hi
    simp only [World.readyTokens, World.servingTokens, World.newExecutor, hr, hs]
    exact hi
  · obtain rfl := hget k x hx
    constructor <;> simp [Pc.slicing, Pc.serves, Pc.busy]
  · change (w.actor i).owner = some k at hi
    rw [hown i] at hi
    cases hi
  · exact (hz _ (by simp)).symm
  · exact (hz _ (by simp [Pc.busy])).symm
  · change n = tally _ (List.replicate n ({} : Worker))
    simp only [tally, List.map_replicate, List.sum_replicate_nat]
    simp
  · have := h.pool.pumping
    rw [hpool] at this
    exact (hz _ (by simp)).trans this
  · cases hf
  · unfold World.ctlOk
    rw [show (w.newExecutor n).ctl = .out from hc]
    exact ⟨rfl, rfl, rfl, rfl, rfl⟩
  · rcases hr with hr | hr
    · exact h.driven r (.inl hr)
    · cases hr

/-- Calls of the embedder keep the invariant. -/
theorem Inv.hostStep {e : Event} {w' : World} (h : Inv {} w) (hc : w.ctl = .out)
    (hw : w.hostStep e = some w') : Inv {} w' := by
  obtain ⟨hent, hrun, hroot, hbusy, hsd⟩ := h.outside hc
  cases e <;> simp only [World.hostStep] at hw <;> try cases hw
  case newActor => exact h.register false
  case adopt => exact h.register true
  case start i fn =>
    split at hw
    next hi =>
      cases hw
      exact h.start hi.1 (by simpa using hi.2.1) (by simpa using hi.2.2) fn
    · cases hw
  case arm i v =>
    split at hw
    next hi =>
      cases hw
      exact h.arm hc hi.2 hi.1 _
    · cases hw
  case setMode m =>
    split at hw
    next hm =>
      cases hw
      obtain ⟨hlive, -, hrep⟩ := hm
      refine ⟨h.aborted, h.actor, h.queue, h.inflightN, h.parkedN, fun hcm _ => ?_, fun hr => ?_,
        h.pool.congr (fun _ => rfl) (fun _ _ => rfl) id rfl rfl rfl rfl rfl rfl, h.width, ?_,
        h.driven, h.fresh⟩
      · exact h.curlm hcm (by simp [hlive])
      · have hcm : w.curlm = false := by simpa using (hrep hr).1
        exact ⟨hcm, (h.curlm hcm (by simp [hlive])).2⟩
      · unfold World.ctlOk
        simpa only [hc] using ⟨hent, hrun, hroot, hbusy, hsd⟩
    · cases hw
  case newExecutor n =>
    split at hw
    next hi =>
      cases hw
      exact h.newExecutor hc (by simpa using hi.1) n
    · cases hw
  case beginFree =>
    split at hw
    next hatt =>
      cases hw
      unfold World.beginFree
      rw [World.assume_pos (by simp [hent, hrun, hbusy])]
      have hgo := h.setCtl .freeing w.root w.entered w.running w.answer w.reason (by rw [hc]; rfl)
        (by rw [hc]; rfl) (by rw [hc]; rfl) (by rw [hc]; rfl) ⟨hatt, hent, hrun, hroot, hbusy⟩
        fun r hr => h.driven r (.inr hr)
      exact ⟨hgo.aborted, hgo.actor, hgo.queue, hgo.inflightN, hgo.parkedN, hgo.curlm, hgo.replay,
        hgo.pool.congr (fun _ => rfl) (fun _ _ => rfl) (fun _ => rfl) rfl rfl rfl rfl rfl rfl,
        hgo.width, hgo.ctl, hgo.driven, hgo.fresh⟩
    · cases hw
  case callRun =>
    split at hw
    next hatt =>
      cases hw
      refine h.setCtl (.detTop none) w.root w.entered w.running w.answer w.reason ?_ ?_ ?_ ?_
        ⟨by simpa using hatt, hent, hrun, hroot, hbusy, hsd⟩ fun r hr => h.driven r (.inr hr)
      all_goals
        rw [hc]
        rfl
    · cases hw
  case callDrive r =>
    split at hw
    next hi =>
      cases hw
      obtain ⟨hatt, hr, had, hy⟩ := hi
      have hgo := h.takeRoot (c := .detTop (some r)) hc had hy rfl rfl rfl (.inl rfl) w.root
        (by simp [hroot]) w.entered w.running
        ⟨by simpa using hatt, hent, hrun, hroot, hbusy, hsd⟩
      rw [if_neg (by simp [Ctl.polls])] at hgo
      refine Inv.enqueue (hgo.modify_quiet hr ?_ rfl rfl rfl rfl rfl (.inl rfl))
      exact (h.root_outside hc had).1.symm
    · cases hw
  case callMtRun =>
    split at hw
    next hi =>
      cases hw
      unfold World.callMtRun
      rw [World.assume_pos (by simp [hent, hrun])]
      refine Inv.maybeComplete ?_
      refine h.setCtl .mtRun none true true w.answer .idle ?_ ?_ ?_ ?_
        ⟨hi.1, hi.2, rfl, hsd, by simp⟩ (by simp)
      all_goals
        rw [hc]
        rfl
    · cases hw
  case callMtDrive r =>
    split at hw
    next hi =>
      cases hw
      obtain ⟨hatt, hlive, hr, had, hy⟩ := hi
      obtain ⟨hst, -, -, hz, -⟩ := h.root_outside hc had
      have hgo := h.takeRoot (c := .mtTop r) hc had hy rfl rfl rfl (.inr rfl) (some r)
        (by simp) true true ⟨hatt, hlive, rfl, hsd, rfl⟩
      rw [if_pos (by simp [Ctl.polls])] at hgo
      have hq : w.queue.erase r = w.queue := by
        refine List.erase_of_not_mem (List.count_eq_zero.mp ?_)
        unfold World.readyTokens at hz
        exact (Nat.add_eq_zero_iff.mp (Nat.add_eq_zero_iff.mp hz).1).1
      unfold World.callMtDrive
      rw [World.assume_pos (by simp [hent, hrun]), hq]
      exact hgo.modify_quiet (f := fun a => { a with status := .runnable }) hr hst.symm rfl rfl rfl rfl
        rfl (.inl rfl)
    · cases hw

/-! ## All steps -/

/-- The controller is busy with actors that exist. -/
theorem Inv.ctl_lt {i : Nat} (h : Inv {} w) (hi : w.ctl.slicing = some i ∨ w.ctl.serves = some i) :
    i < w.next := by
  have hok := h.actor i
  have hsch : (w.actor i).scheduled w.ctl i := by
    by_contra hns
    rcases hi with hi | hi
    · have hz := (hok.not_ready fun hc => hns hc.1).1
      simp [World.readyTokens, one_true hi] at hz
    · have hz := (hok.not_serving fun hc => hns hc.1).1
      simp [World.servingTokens, one_true hi] at hz
  by_contra hlt
  have := hsch.2
  simp [h.fresh i (Nat.le_of_not_lt hlt)] at this

/-- The controller of the deterministic executor idles with an empty run queue. -/
def World.idleOk (w : World) : Prop := ∀ root, w.ctl = .detIdle root → w.queue = []

/-- What the messages and the pending services refer to. -/
structure World.Known (w : World) : Prop where
  handles : ∀ i t, some t ∈ (w.actor i).handles → t < w.next
  pends : ∀ i p d, w.Pends i p → p.dest = some d → d < w.next

/-- Steps of the controller keep the invariant. -/
theorem Inv.ctlStep {e : Event} {w' : World} (h : Inv {} w) (hidle : w.idleOk) (hk : w.Known)
    (hw : w.ctlStep e = some w') : Inv {} w' := by
  have hctl := h.ctl
  unfold World.ctlOk at hctl
  cases e <;> simp only [World.ctlStep] at hw <;> try cases hw
  case endFree =>
    split at hw
    next hc =>
      cases hw
      exact h.endFree hc.1 (by simpa using hc.2)
    · cases hw
  case detTop hs =>
    split at hw
    next hc => exact h.detTop hc hw
    · cases hw
  case detIdle hs =>
    split at hw
    next hc => exact h.detIdle hc (hidle _ hc) hw
    · cases hw
  case detEffect =>
    split at hw
    next i hc =>
      cases hw
      exact h.modify_quiet (h.ctl_lt (.inl (by simp [hc, Ctl.slicing]))) rfl rfl rfl rfl rfl rfl
        (.inl rfl)
    · cases hw
  case detSliceEnd o v =>
    split at hw
    next hc =>
      cases hw
      exact h.detSliceEnd hk.handles hc o v
    · cases hw
  case mtTop =>
    split at hw
    next hc => exact h.mtTop hc hw
    · cases hw
  case mtEffect =>
    split at hw
    next r hc =>
      cases hw
      exact h.modify_quiet (h.ctl_lt (.inl (by simp [hc, Ctl.slicing]))) rfl rfl rfl rfl rfl rfl
        (.inl rfl)
    next r p hc =>
      cases hw
      exact h.modify_quiet (h.ctl_lt (.inr (by simp [hc, Ctl.serves]))) rfl rfl rfl rfl rfl rfl
        (.inl rfl)
    · cases hw
  case mtSliceEnd o =>
    split at hw
    next hc =>
      cases hw
      exact h.mtSliceEnd hc o
    · cases hw
  case mtServed v =>
    split at hw
    next r p hc =>
      split at hw
      · cases hw
        exact h.mtServing hc (fun d hd => hk.pends r p d (.inr hc) hd) v
      · cases hw
    · cases hw
  case mtCheck =>
    split at hw
    next hc =>
      cases hw
      exact h.mtCheck hc
    · cases hw
  case mtDone =>
    split at hw
    next r out hc =>
      cases hw
      simp only [hc] at hctl
      exact h.setCtl (.mtLeave r out) w.root w.entered false w.answer w.reason (by rw [hc]; rfl)
        (by rw [hc]; rfl) (by rw [hc]; rfl) (by rw [hc]; rfl)
        ⟨hctl.1, hctl.2.1, hctl.2.2.1, hctl.2.2.2.1, rfl⟩ fun r hr => h.driven r (.inr hr)
    · cases hw
  case mtLeave =>
    split at hw
    next r out hc =>
      split at hw
      next hz =>
        cases hw
        simp only [hc] at hctl
        exact h.setCtl .out none false w.running _ w.reason (by rw [hc]; rfl) (by rw [hc]; rfl)
          (by rw [hc]; rfl) (by rw [hc]; rfl) ⟨rfl, hctl.2.2.2.2, rfl, hz.1, hctl.2.2.2.1⟩ (by simp)
      · cases hw
    · cases hw
  case mtRunReturn =>
    split at hw
    next hc =>
      cases hw
      simp only [hc.1] at hctl
      have hrun : w.running = false := by simpa using hc.2
      exact h.setCtl .out w.root false w.running _ w.reason (by rw [hc.1]; rfl) (by rw [hc.1]; rfl)
        (by rw [hc.1]; rfl) (by rw [hc.1]; rfl)
        ⟨rfl, hrun, hctl.2.2.1, hctl.2.2.2.2 hrun, hctl.2.2.2.1⟩ fun r hr => h.driven r (.inr hr)
    · cases hw

/-- Every step keeps the invariant. -/
theorem Inv.step {e : Event} {w' : World} (h : Inv {} w) (hidle : w.idleOk) (hk : w.Known)
    (hw : World.step e w = some w') : Inv {} w' := by
  unfold World.step at hw
  split at hw
  case h_1 i v =>
    split at hw
    next hi =>
      cases hw
      unfold World.inject
      split
      · exact h
      · exact h.accept hi.1 _ _
    · cases hw
  all_goals first
    | exact h.workerStep hk.pends hw
    | (split at hw
       next hc => exact h.hostStep hc hw
       next => cases hw)
    | exact h.ctlStep hidle hk hw

end Enki.Runtime
