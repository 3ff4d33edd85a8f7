import Enki.Runtime.Reachable

/-!
# The actor runtime: terminated actors

A halted or crashed actor stays as it is. The operations of the runtime change the
status of the actor they are called for, and that actor is never a terminated one:
it is in a slice, in a service, parked, or a root.
-/

namespace Enki.Runtime

open Enki.Runs

/-- Actor `j` has the status `st`, and no transfer. -/
structure Over (j : Nat) (st : Status) (w : World) : Prop where
  status : (w.actor j).status = st
  inflight : j ∉ w.inflight
  done : j ∉ w.done.map Prod.fst

namespace Over

variable {j : Nat} {st : Status} {w w' : World}

/-- Only parts changed that have nothing to do with statuses and transfers. -/
theorem congr (h : Over j st w) (ha : w'.actor = w.actor) (hi : w'.inflight = w.inflight)
    (hd : w'.done = w.done) : Over j st w' := by
  refine ⟨?_, ?_, ?_⟩
  · rw [ha]
    exact h.status
  · rw [hi]
    exact h.inflight
  · rw [hd]
    exact h.done

theorem assume (h : Over j st w) (c : Bool) : Over j st (w.assume c) := by
  unfold World.assume
  split
  · exact h
  · exact h.congr rfl rfl rfl

/-- The actor table may change at `j` as long as its status does not. -/
theorem modify (h : Over j st w) {i : Nat} {f : Actor → Actor}
    (hf : i = j → (f (w.actor i)).status = (w.actor i).status) : Over j st (w.modify i f) := by
  refine ⟨?_, h.inflight, h.done⟩
  rw [World.modify_actor]
  split
  next hj =>
    subst hj
    rw [hf rfl]
    exact h.status
  next => exact h.status

/-- The run queue holds places, and no status. -/
theorem enqueue (h : Over j st w) (i : Nat) : Over j st (w.enqueue i) := by
  obtain ⟨q, p, r, a, heq⟩ := w.enqueue_frame i
  rw [heq]
  exact h.congr rfl rfl rfl

theorem deposit (h : Over j st w) (i : Nat) (v : Val) : Over j st (w.deposit i v) :=
  (h.assume _).modify fun _ => rfl

theorem stopThread (h : Over j st w) (i : Nat) (s : RunStatus) : Over j st (w.stopThread i s) :=
  h.modify fun _ => rfl

/-- An actor that is bound to a worker gets an owner and keeps its status. -/
theorem bind (h : Over j st w) (k i : Nat) : Over j st (w.bind k i) := by
  -- A waiting worker is promoted in its place, which no actor sees.
  have hprom : ∀ u : World, Over j st u → Over j st u.promote := by
    intro u hu
    unfold World.promote
    split <;> exact hu.congr rfl rfl rfl
  unfold World.bind
  dsimp only
  split
  · exact h.assume _
  · refine Over.assume (hprom _ ?_) _
    have hset : Over j st ((w.assume (!(w.actor i).adopted ∧ (w.worker k).role = .general ∧
        (w.worker k).actor = none ∧ !(w.worker k).ready ∧ 0 < w.generalN)).setWorker k
          { w.worker k with role := .bound, actor := some i }) := (h.assume _).congr rfl rfl rfl
    exact (hset.modify (i := i) (f := fun a => { a with owner := some k }) fun _ => rfl).congr rfl rfl
      rfl

/-- A released worker takes the owner away, and nothing else. -/
theorem release (h : Over j st w) (k : Nat) : Over j st (w.release k) := by
  unfold World.release
  dsimp only
  split
  · exact h.assume _
  next i _ =>
    have hm := (h.assume ((w.worker k).role = .bound ∧ (w.actor i).owner = some k ∧
      !(w.worker k).ready ∧ w.terminated i)).modify (i := i)
      (f := fun a => { a with owner := none }) fun _ => rfl
    exact hm.congr rfl rfl rfl

theorem maybeComplete (h : Over j st w) : Over j st w.maybeComplete := by
  unfold World.maybeComplete
  split
  · exact h
  · exact h.congr rfl rfl rfl

theorem enterSlice (h : Over j st w) (k i : Nat) : Over j st (w.enterSlice k i) := by
  have hr : Over j st (w.runThread i) := h.assume _
  exact hr.congr rfl rfl rfl

theorem dequeue {i : Nat} (h : Over j st w) (hq : w.dequeue = some (i, w')) : Over j st w' := by
  obtain ⟨-, rfl⟩ := World.dequeue_eq hq
  exact h.congr rfl rfl rfl

theorem dequeueSpawned {i : Nat} (h : Over j st w) (hq : w.dequeueSpawned = some (i, w')) :
    Over j st w' := by
  obtain ⟨-, -, rfl⟩ := World.dequeueSpawned_eq hq
  exact h.congr rfl rfl rfl

theorem start (h : Over j st w) (i : Nat) (fn : Val) : Over j st (w.start i fn) :=
  ((h.assume _).modify fun _ => rfl).enqueue i

/-- The new actor is at `next`, where no terminated one is. -/
theorem register (h : Over j st w) (hj : j ≠ w.next) (b : Bool) : Over j st (w.register b) := by
  refine ⟨?_, h.inflight, h.done⟩
  simp only [World.register, Function.update_of_ne hj]
  exact h.status

/-- A transfer that is finished moves from the wire to the list of results; the terminated actor
has none on either. -/
theorem harvest {hs : List (Nat × Val)} (h : Over j st w) (hh : World.harvest hs w = some w') :
    Over j st w' := by
  induction hs generalizing w with
  | nil =>
    cases hh
    exact h
  | cons x xs ih =>
    obtain ⟨u, hu, hh⟩ := Option.bind_eq_some_iff.mp hh
    refine ih ?_ hh
    unfold World.harvest1 at hu
    split at hu
    next hm =>
      cases hu
      have ha := h.assume (x.1 ∈ w.inflight)
      -- what is harvested was in flight, and `j` has nothing in flight
      have hne : x.1 ≠ j := fun he => h.inflight (he ▸ hm)
      refine ⟨ha.status, fun hj => h.inflight (List.mem_of_mem_erase hj), fun hj => ?_⟩
      have hdone : (World.unlinkInflight w x.1).done = w.done := by
        unfold World.unlinkInflight World.assume
        split <;> rfl
      rw [List.map_append, hdone] at hj
      rcases List.mem_append.mp hj with hj | hj
      · exact h.done hj
      · exact hne (List.mem_singleton.mp hj).symm
    next => cases hu

/-! ## Operations on other actors -/

section Other

variable {i : Nat} (h : Over j st w) (hi : i ≠ j)

include h hi

theorem setStatus (s : Status) : Over j st (w.modify i fun a => { a with status := s }) :=
  h.modify fun he => absurd he hi

theorem resume (v : Val) : Over j st (w.resume i v) :=
  ((h.deposit i v).setStatus hi _).enqueue i

theorem recvReady : Over j st (w.recvReady i) := by
  unfold World.recvReady
  split
  · exact h.assume _
  · exact Over.resume (h.modify fun _ => rfl) hi _

theorem crash : Over j st (w.crash i) := (h.setStatus hi .crashed).congr rfl rfl rfl

theorem unwind : Over j st (w.unwind i) := (h.assume _).setStatus hi _

/-- A parked actor goes in front of those on the wire. -/
theorem park : Over j st (w.park i) := by
  have hm : Over j st (w.modify i fun a => { a with http := true, status := .blocked }) :=
    h.modify fun he => absurd he hi
  refine ⟨hm.status, fun hj => ?_, hm.done⟩
  rcases List.mem_cons.mp hj with hj | hj
  · exact hi hj.symm
  · exact h.inflight hj

theorem dispatch : Over j st (w.dispatch i) := (h.park hi).congr rfl rfl rfl

/-- An answer wakes the actor that asked, parked or not. -/
theorem httpResume (v : Val) : Over j st (w.httpResume i v) := by
  have hd := h.deposit i v
  unfold World.httpResume
  dsimp only
  split
  · have hm : Over j st { (w.deposit i v).modify i fun a => { a with http := false } with
        parkedN := (w.deposit i v).parkedN - 1 } :=
      (hd.modify (i := i) (f := fun a => { a with http := false }) fun _ => rfl).congr rfl rfl rfl
    exact (hm.setStatus hi _).enqueue i
  · exact (hd.setStatus hi _).enqueue i

/-- Ending a slice halts, crashes or requeues the actor that ran. -/
theorem endSlice (o : Outcome) : Over j st (w.endSlice i o) := by
  cases o with
  | done => exact h.setStatus hi _
  | exn => exact h.crash hi
  | yielded | blocked _ => exact h.enqueue i

end Other

/-- A delivery wakes only an actor that is parked. -/
theorem accept (h : Over j st w) (hst : st ≠ .blocked) (s : Option Nat) (d : Nat) (m : Msg) :
    Over j st (w.accept s d m) := by
  unfold World.accept World.deliver
  have ha : Over j st { w with accepted := w.accepted ++ [Sent.mk s d m] } := h.congr rfl rfl rfl
  have hm := ha.modify (i := d) (f := fun a => { a with mbox := a.mbox ++ [m] }) fun _ => rfl
  dsimp only
  split
  -- Only here is somebody else's status set: the receiver, if it is blocked in a receive.
  next hb =>
    refine hm.recvReady ?_
    rintro rfl
    exact hst (hm.status.symm.trans hb.1)
  · exact hm

/-- The head of the results belongs to an actor that waits for it. -/
theorem depositHead (h : Over j st w) : Over j st w.depositHead := by
  unfold World.depositHead
  split
  · exact h.assume _
  next i v rest hd =>
    -- `j` has no result in the list, this one included
    have hi : i ≠ j := fun he => h.done (by simp [hd, he])
    have hrest : Over j st { w with done := rest } := by
      refine ⟨h.status, h.inflight, fun hj => h.done ?_⟩
      rw [hd]
      exact List.mem_cons_of_mem _ hj
    exact hrest.httpResume hi v

theorem depositAll (h : Over j st w) : Over j st w.depositAll := by
  unfold World.depositAll
  generalize w.done = l
  induction l generalizing w with
  | nil => exact h
  | cons x l ih => exact ih h.depositHead

/-- A request changes the status of the actor that makes it: it parks, resumes or crashes. -/
theorem beginService {i : Nat} (h : Over j st w) (hi : i ≠ j) (req : Request) :
    Over j st (w.beginService i req).1 := by
  cases req with
  | recv =>
    unfold World.beginService
    dsimp only
    split
    · exact h.setStatus hi _
    · exact h.recvReady hi
  | send hh payload | sendCaps hh payload row =>
    unfold World.beginService
    dsimp only
    split
    · exact h.crash hi
    · exact h
  | fetch rq cfg check =>
    unfold World.beginService
    cases check with
    | malformed => exact h.crash hi
    | invalid code => exact h.httpResume hi _
    | sound =>
      dsimp only
      split
      · exact h.park hi
      · split
        · exact h
        · exact h.dispatch hi
  | closeHandle hh =>
    unfold World.beginService
    dsimp only
    split
    · exact Over.resume (h.modify fun _ => rfl) hi _
    · exact h.resume hi _
  | spawn fn | readBat path | readFolder path | sleep secs => exact h

/-- The second half of a service resumes its actor; a send may also wake the receiver, which a
terminated actor is not. -/
theorem finishService {i : Nat} (h : Over j st w) (hst : st ≠ .blocked) (hi : i ≠ j)
    (hj : j ≠ w.next) (v : Val) (p : Pending) : Over j st (w.finishService i v p) := by
  cases p with
  | send d payload => exact (h.accept hst _ _ _).resume hi _
  | sendCaps d payload row =>
    unfold World.finishService
    dsimp only
    split
    · exact h.crash hi
    · exact (h.accept hst _ _ _).resume hi _
  | spawn fn =>
    exact Over.resume (((h.register hj false).start w.next fn).modify fun _ => rfl) hi _
  | fetch => exact h.dispatch hi
  | answer => exact h.resume hi v
  | sleep => exact h.resume hi _

theorem service {i : Nat} (h : Over j st w) (hst : st ≠ .blocked) (hi : i ≠ j) (hj : j ≠ w.next)
    (req : Request) (v : Val) : Over j st (w.service i req v) := by
  have hb := h.beginService hi req
  unfold World.service
  split
  next u hu =>
    rw [hu] at hb
    exact hb
  next u p hu =>
    obtain rfl := World.beginService_pending hu
    exact h.finishService hst hi hj v p

end Over

/-! ## Steps -/

/-- A terminated actor is a spawned one, and nobody runs it. -/
structure Ended (j : Nat) (st : Status) (w : World) : Prop where
  kept : Over j st w
  next : j ≠ w.next
  adopted : (w.actor j).adopted = false
  unscheduled : ∀ i, (w.actor i).scheduled w.ctl i → i ≠ j

variable {j : Nat} {st : Status} {w w' : World}

/-- The invariant keeps a terminated actor out of every place from where it could be run: it has
no transfer, is no root, and no slice or service is its own. -/
theorem Inv.ended (h : Inv {} w) (hs : (w.actor j).status = st) (hst : st = .halted ∨ st = .crashed) :
    Ended j st w := by
  have hne : st ≠ .runnable ∧ st ≠ .blocked := by
    rcases hst with rfl | rfl <;> simp
  have hok := h.actor j
  have hhttp : (w.actor j).http = false := by
    by_contra hh
    exact hne.2 (hs.symm.trans (hok.http (by simpa using hh)))
  -- Transfers are counted per actor, and only a waiting one has any.
  have ht : w.transfers j = 0 := by
    rw [hok.transfers]
    simp [hhttp]
  unfold World.transfers at ht
  refine ⟨⟨hs, List.count_eq_zero.mp (Nat.add_eq_zero_iff.mp ht).1,
    List.count_eq_zero.mp (Nat.add_eq_zero_iff.mp ht).2⟩, ?_, ?_, ?_⟩
  · -- an actor that does not exist yet is runnable
    rintro rfl
    rw [h.fresh w.next (Nat.le_refl _)] at hs
    exact hne.1 hs.symm
  · -- a root is runnable or blocked
    by_contra ha
    rcases hok.adopted (by simpa using ha) with hr | hb
    · exact hne.1 (hs.symm.trans hr)
    · exact hne.2 (hs.symm.trans hb.1)
  · rintro i hsch rfl
    exact hne.1 (hs.symm.trans hsch.1)

/-- A root is not the terminated actor. -/
theorem Ended.root {r : Nat} (h : Ended j st w) (had : (w.actor r).adopted = true) : r ≠ j := by
  rintro rfl
  simp [h.adopted] at had

/-- What a worker does: it takes actors from the queues, runs slices and services of the actor
it took, and pumps answers to those that wait. -/
theorem Over.workerStep {e : Event} (h : Inv {} w) (hj : Ended j st w) (hst : st ≠ .blocked)
    (hw : w.workerStep e = some w') : Over j st w' := by
  have ho := hj.kept
  cases e <;> simp only [World.workerStep] at hw <;> try cases hw
  case top k =>
    split at hw
    · unfold World.workerTop at hw
      dsimp only at hw
      split at hw
      · cases hw
        exact ho.congr rfl rfl rfl
      -- the roles of a worker in turn: bound, in neither, general
      split at hw
      · cases hw
      split at hw
      · split at hw
        · cases hw
          exact ho.assume _
        split at hw
        · cases hw
          exact ho.release k
        split at hw
        · cases hw
          exact ho.maybeComplete
        next i _ _ _ =>
          cases hw
          refine Over.enterSlice ?_ k i
          exact (ho.assume _).congr rfl rfl rfl
      · cases hw
      · split at hw
        · cases hw
          exact ho.congr rfl rfl rfl
        next i u hu =>
          cases hw
          have hq : Over j st u := by
            split at hu
            · exact ho.dequeue hu
            · exact ho.dequeueSpawned hu
          refine Over.enterSlice ?_ k i
          split
          · exact (hq.assume _).bind k i
          · exact hq.assume _
    · cases hw
  case effect k =>
    -- The effect flag is set, and in the general role the actor is bound.
    have heff : ∀ i, Over j st (w.workerEffect k i) := by
      intro i
      have hm := ho.modify (i := i) (f := fun a => { a with effectful := true }) fun _ => rfl
      unfold World.workerEffect
      dsimp only
      split
      · exact hm
      · exact hm.bind k i
    split at hw
    · cases hw
      exact heff _
    · cases hw
      exact heff _
    · cases hw
  case sliceEnd k o =>
    split at hw
    next i hx =>
      cases hw
      -- the actor whose slice ends is scheduled, so that it is not `j`
      have hi := hj.unscheduled i (h.slicing hx rfl).1
      have hs : Over j st ((w.stopThread i o.status).setPc k (.after i)) :=
        (ho.stopThread i _).congr rfl rfl rfl
      unfold World.workerSliceEnd
      dsimp only
      cases o with
      | blocked req =>
        dsimp only
        have hb := hs.beginService hi req
        split
        next u hu =>
          rw [hu] at hb
          exact hb
        next u p hu =>
          rw [hu] at hb
          exact hb.congr rfl rfl rfl
      | yielded | done | exn => exact hs.endSlice hi _
    · cases hw
  case served k v =>
    split at hw
    next i p hx =>
      split at hw
      · cases hw
        -- nor is the one that is served
        have hi := hj.unscheduled i (h.serves hx rfl).1
        have hs : Over j st (w.setPc k (.after i)) := ho.congr rfl rfl rfl
        exact hs.finishService hst hi hj.next v p
      · cases hw
    · cases hw
  case after k =>
    split at hw
    next i hx =>
      cases hw
      have hs : Over j st { w.setPc k .top with busyN := w.busyN - 1 } := ho.congr rfl rfl rfl
      unfold World.workerAfter
      dsimp only
      split
      · exact (hs.release k).maybeComplete
      · exact hs.maybeComplete
    · cases hw
  case pumpTry k =>
    split at hw
    · cases hw
      unfold World.pumpTry
      split <;> exact ho.congr rfl rfl rfl
    · cases hw
  case pumpEnd k hs =>
    split at hw
    · obtain ⟨u, hu, rfl⟩ := Option.map_eq_some_iff.mp hw
      have hs : Over j st { w.setPc k .pumped with pumping := false } := ho.congr rfl rfl rfl
      exact (hs.harvest hu).depositAll
    · cases hw
  case pumped k =>
    split at hw
    · cases hw
      refine Over.maybeComplete ?_
      exact ho.congr rfl rfl rfl
    · cases hw

/-- A drive returns by unwinding its root. -/
theorem Over.detReturn {root : Option Nat} (ho : Over j st w) (hr : ∀ r, root = some r → r ≠ j) :
    Over j st (w.detReturn root) := by
  cases root with
  | none => exact ho.congr rfl rfl rfl
  | some r => exact (ho.unwind (hr r rfl)).congr rfl rfl rfl

/-- The top of the single-threaded loop pumps and takes the next actor. -/
theorem Over.detTop {root : Option Nat} {hs : List (Nat × Val)} (ho : Over j st w)
    (hw : w.detTop root hs = some w') : Over j st w' := by
  obtain ⟨u, hu, rfl⟩ := Option.map_eq_some_iff.mp hw
  have hp : Over j st u := by
    unfold World.httpPump at hu
    split at hu
    · obtain ⟨u', hu', rfl⟩ := Option.map_eq_some_iff.mp hu
      have := ho.harvest hu'
      split
      · exact this.depositAll
      · exact this
    · cases hu
      exact ho
  split
  · exact hp.congr rfl rfl rfl
  next i u' hd =>
    have hq := hp.dequeue hd
    have hrun : Over j st (World.runThread (if root = none then
        u'.assume (!(u'.actor i).adopted) else u') i) := by
      refine Over.assume ?_ _
      split
      · exact hq.assume _
      · exact hq
    exact hrun.congr rfl rfl rfl

/-- With nothing to run the loop returns, replays a recorded answer, or waits for the wire. -/
theorem Over.detIdle {root : Option Nat} {hs : List (Nat × Val)} (h : Inv {} w) (hj : Ended j st w)
    (hst : st ≠ .blocked) (hr : ∀ r, root = some r → r ≠ j) (hw : w.detIdle root hs = some w') :
    Over j st w' := by
  have ho := hj.kept
  unfold World.detIdle at hw
  split at hw
  · split at hw
    · cases hw
      exact ho.detReturn hr
    split at hw
    next i v =>
      split at hw
      next hhttp =>
        cases hw
        -- the log's answer goes to an actor that has asked, hence one that is blocked
        have hi : i ≠ j := by
          rintro rfl
          exact hst (ho.status.symm.trans ((h.actor i).http hhttp))
        have hres := ho.httpResume hi v
        refine ⟨?_, fun hm => hres.inflight (List.mem_of_mem_erase hm), ?_⟩
        · exact (hres.assume _).status
        · exact (hres.assume _).done
      · cases hw
    · cases hw
  next =>
    split at hw
    · cases hw
      exact ho.detReturn hr
    obtain ⟨u, hu, hw⟩ := Option.bind_eq_some_iff.mp hw
    have hp := ho.harvest hu
    split at hw
    · cases hw
    · cases hw
      split
      · exact hp.depositAll.congr rfl rfl rfl
      · exact hp.depositHead.congr rfl rfl rfl

/-- The end of a slice in the single-threaded loop, with the service in it. -/
theorem Over.detSliceEnd {root : Option Nat} {i : Nat} (hj : Ended j st w) (hst : st ≠ .blocked)
    (hi : i ≠ j) (o : Outcome) (v : Val) : Over j st (w.detSliceEnd root i o v) := by
  have hs : Over j st { w.stopThread i o.status with ctl := .detTop root } :=
    (hj.kept.stopThread i _).congr rfl rfl rfl
  unfold World.detSliceEnd
  dsimp only
  cases o with
  | blocked req =>
    dsimp only
    have hsv := hs.service hst hi hj.next req v
    split
    · exact (hsv.unwind hi).congr rfl rfl rfl
    · exact hsv
  | yielded => exact hs.enqueue i
  | done =>
    dsimp only
    split
    · exact hs.congr rfl rfl rfl
    · exact hs.endSlice hi _
  | exn =>
    dsimp only
    split
    · exact hs.congr rfl rfl rfl
    · exact hs.endSlice hi _

theorem Over.mtServed {r : Nat} (ho : Over j st w) (hr : r ≠ j) : Over j st (w.mtServed r) := by
  unfold World.mtServed
  split
  · exact (ho.unwind hr).congr rfl rfl rfl
  · exact ho

/-- The end of a slice of the root that a multi-threaded drive runs itself. -/
theorem Over.mtSliceEnd {r : Nat} (ho : Over j st w) (hr : r ≠ j) (o : Outcome) :
    Over j st (w.mtSliceEnd r o) := by
  have hs : Over j st { w.stopThread r o.status with ctl := .mtTop r } :=
    (ho.stopThread r _).congr rfl rfl rfl
  unfold World.mtSliceEnd
  dsimp only
  cases o with
  | blocked req =>
    dsimp only
    have hb := hs.beginService hr req
    split
    next u hu =>
      rw [hu] at hb
      exact hb.mtServed hr
    next u p hu =>
      rw [hu] at hb
      exact hb.congr rfl rfl rfl
  | yielded => exact hs.setStatus hr _
  | done | exn => exact hs.congr rfl rfl rfl

/-- On the way out a worker gives its actor back to the queue if the actor can run. -/
theorem Over.detach (ho : Over j st w) (k : Nat) : Over j st (w.detach k) := by
  unfold World.detach
  dsimp only
  split
  · exact ho
  next i _ =>
    have hm := (ho.assume ((w.actor i).owner = some k)).modify (i := i)
      (f := fun a => { a with owner := none }) fun _ => rfl
    have hset : ∀ u : World, Over j st u → Over j st (if ((u.setWorker k
        { w.worker k with actor := none, ready := false }).actor i).status = .runnable then
        (u.setWorker k { w.worker k with actor := none, ready := false }).enqueue i
        else u.setWorker k { w.worker k with actor := none, ready := false }) := by
      intro u hu
      have hs : Over j st (u.setWorker k { w.worker k with actor := none, ready := false }) :=
        hu.congr rfl rfl rfl
      split
      · exact hs.enqueue i
      · exact hs
    refine hset _ ?_
    split
    · exact (hm.assume _).congr rfl rfl rfl
    · exact hm

/-- What the controller does, in either mode. Statuses are set of the root it drives and of the
actor whose slice it runs. -/
theorem Over.ctlStep {e : Event} (h : Inv {} w) (hj : Ended j st w) (hst : st ≠ .blocked)
    (hw : w.ctlStep e = some w') : Over j st w' := by
  have ho := hj.kept
  have hroot : ∀ r, w.ctl.driven = some r → r ≠ j := fun r hr => hj.root (h.driven r (.inl hr))
  cases e <;> simp only [World.ctlStep] at hw <;> try cases hw
  case endFree =>
    split at hw
    · cases hw
      -- The workers are detached one after another.
      have hfold : ∀ (l : List Nat) (u : World), Over j st u → Over j st (l.foldl World.detach u) := by
        intro l
        induction l with
        | nil => exact fun u h => h
        | cons k l ih => exact fun u h => ih _ (h.detach k)
      exact (hfold _ w ho).congr rfl rfl rfl
    · cases hw
  case detTop hs =>
    split at hw
    · exact ho.detTop hw
    · cases hw
  case detIdle hs =>
    split at hw
    next root hc => exact Over.detIdle h hj hst (fun r hr => hroot r (by rw [hc]; exact hr)) hw
    · cases hw
  case detEffect =>
    split at hw
    · cases hw
      exact ho.modify fun _ => rfl
    · cases hw
  case detSliceEnd o v =>
    split at hw
    next root i hc =>
      cases hw
      refine Over.detSliceEnd hj hst ?_ o v
      -- the actor in a slice is scheduled
      obtain ⟨hsch, -⟩ := (h.detSliceOver hc).loose rfl
      refine hj.unscheduled i ?_
      rw [hc]
      exact hsch
    · cases hw
  case mtTop =>
    split at hw
    next r hc =>
      unfold World.mtTop at hw
      split at hw
      · cases hw
        have hrun : Over j st (w.runThread r) := ho.assume _
        exact hrun.congr rfl rfl rfl
      split at hw
      · cases hw
        exact ho.congr rfl rfl rfl
      · cases hw
    · cases hw
  case mtEffect =>
    split at hw
    · cases hw
      exact ho.modify fun _ => rfl
    · cases hw
      exact ho.modify fun _ => rfl
    · cases hw
  case mtSliceEnd o =>
    split at hw
    next r hc =>
      cases hw
      exact ho.mtSliceEnd (hroot r (by rw [hc]; rfl)) o
    · cases hw
  case mtServed v =>
    split at hw
    next r p hc =>
      split at hw
      · cases hw
        have hr := hroot r (by rw [hc]; rfl)
        have hs : Over j st { w with ctl := .mtTop r } := ho.congr rfl rfl rfl
        exact (hs.finishService hst hr hj.next v p).mtServed hr
      · cases hw
    · cases hw
  case mtCheck =>
    split at hw
    next r hc =>
      cases hw
      unfold World.mtCheck
      split
      · exact (ho.unwind (hroot r (by rw [hc]; rfl))).congr rfl rfl rfl
      · exact ho.congr rfl rfl rfl
    · cases hw
  case mtDone =>
    split at hw
    · cases hw
      exact ho.congr rfl rfl rfl
    · cases hw
  case mtLeave =>
    split at hw
    · split at hw
      · cases hw
        exact ho.congr rfl rfl rfl
      · cases hw
    · cases hw
  case mtRunReturn =>
    split at hw
    · cases hw
      exact ho.congr rfl rfl rfl
    · cases hw

/-- What the host asks for between runs: new actors, and drives of roots. -/
theorem Over.hostStep {e : Event} (hj : Ended j st w) (hw : w.hostStep e = some w') :
    Over j st w' := by
  have ho := hj.kept
  cases e <;> simp only [World.hostStep] at hw <;> try cases hw
  case newActor => exact ho.register hj.next false
  case adopt => exact ho.register hj.next true
  case start i fn =>
    split at hw
    · cases hw
      exact ho.start i fn
    · cases hw
  case arm i v =>
    split at hw
    · cases hw
      exact ho.modify fun _ => rfl
    · cases hw
  case setMode m =>
    split at hw
    · cases hw
      exact ho.congr rfl rfl rfl
    · cases hw
  case newExecutor n =>
    split at hw
    · cases hw
      exact ho.congr rfl rfl rfl
    · cases hw
  case beginFree =>
    split at hw
    · cases hw
      exact (ho.assume (!w.entered ∧ !w.running ∧ w.busyN = 0)).congr rfl rfl rfl
    · cases hw
  case callRun =>
    split at hw
    · cases hw
      exact ho.congr rfl rfl rfl
    · cases hw
  case callDrive r =>
    split at hw
    next hi =>
      cases hw
      have hs : Over j st { w with ctl := .detTop (some r) } := ho.congr rfl rfl rfl
      exact (hs.setStatus (hj.root hi.2.2.1) .runnable).enqueue r
    · cases hw
  case callMtRun =>
    split at hw
    · cases hw
      refine Over.maybeComplete ?_
      exact (ho.assume (!w.entered ∧ !w.running)).congr rfl rfl rfl
    · cases hw
  case callMtDrive r =>
    split at hw
    next hi =>
      cases hw
      have hs := (ho.assume (!w.entered ∧ !w.running)).setStatus (hj.root hi.2.2.2.1) .runnable
      exact hs.congr rfl rfl rfl
    · cases hw

/-- A step leaves a terminated actor as it is. -/
theorem Over.step {e : Event} (h : Inv {} w) (hs : (w.actor j).status = st)
    (hst : st = .halted ∨ st = .crashed) (hw : World.step e w = some w') :
    (w'.actor j).status = st := by
  have hj := h.ended hs hst
  have hne : st ≠ .blocked := by
    rcases hst with rfl | rfl <;> simp
  refine Over.status (?_ : Over j st w')
  unfold World.step at hw
  split at hw
  case h_1 i v =>
    split at hw
    · cases hw
      unfold World.inject
      split
      · exact hj.kept
      · exact hj.kept.accept hne _ _ _
    · cases hw
  all_goals first
    | exact Over.workerStep h hj hne hw
    | (split at hw
       next => exact Over.hostStep hj hw
       next => cases hw)
    | exact Over.ctlStep h hj hne hw

/-- A halted or crashed actor stays halted or crashed. -/
theorem terminated_forever {tr : List (Taken World Event)} (hr : Reached w)
    (h : Trace World.step Any w tr w') (hst : (w.actor j).status = .halted ∨
      (w.actor j).status = .crashed) : (w'.actor j).status = (w.actor j).status := by
  have hrel := h.related (P := Reached) (R := fun a b => ∀ st : Status, st = .halted ∨ st = .crashed →
    (a.actor j).status = st → (b.actor j).status = st) hr (fun _ _ _ => id)
    (fun h₁ h₂ st hst hs => h₂ st hst (h₁ st hst hs)) (fun hr _ hs => hr.step hs)
    fun hr _ hs st hst hj => Over.step hr.inv hj hst hs
  exact hrel _ hst rfl

end Enki.Runtime
