import Enki.Runtime.Controllers

/-!
# The actor runtime: the call in progress

What belongs to the call of an executor (`Call`): where its thread stands, whether
the workers run, which root it drives and what it will answer. The operations on
actors, queues, workers and transfers leave all of it alone. A worker changes it
in one way only, when it finds that a run is complete (`worker_call`).
-/

namespace Enki.Runtime

/-- The part of the state that belongs to a call of an executor. -/
structure Call where
  attached : Bool
  root : Option Nat
  entered : Bool
  running : Bool
  shutdown : Bool
  reason : Answer
  ctl : Ctl
  answer : Option Answer

namespace World

variable {w w' : World}

/-- What of a state belongs to the call. -/
def call (w : World) : Call :=
  ⟨w.attached, w.root, w.entered, w.running, w.shutdown, w.reason, w.ctl, w.answer⟩

@[simp] theorem assume_call (c : Bool) : (w.assume c).call = w.call := by
  unfold assume
  split <;> rfl

@[simp] theorem modify_call (i : Nat) (f : Actor → Actor) : (w.modify i f).call = w.call := rfl

@[simp] theorem setWorker_call (k : Nat) (x : Worker) : (w.setWorker k x).call = w.call := rfl

@[simp] theorem setPc_call (k : Nat) (pc : Pc) : (w.setPc k pc).call = w.call := rfl

@[simp] theorem deposit_call (i : Nat) (v : Val) : (w.deposit i v).call = w.call := by
  simp [deposit]

@[simp] theorem runThread_call (i : Nat) : (w.runThread i).call = w.call := by
  simp [runThread]

@[simp] theorem stopThread_call (i : Nat) (s : RunStatus) : (w.stopThread i s).call = w.call := rfl

@[simp] theorem enqueue_call (i : Nat) : (w.enqueue i).call = w.call := by
  obtain ⟨q, p, r, a, h⟩ := w.enqueue_frame i
  rw [h]
  rfl

@[simp] theorem resume_call (i : Nat) (v : Val) : (w.resume i v).call = w.call := by
  simp [resume]

@[simp] theorem recvReady_call (i : Nat) : (w.recvReady i).call = w.call := by
  unfold recvReady
  split <;> simp

@[simp] theorem accept_call (s : Option Nat) (i : Nat) (m : Msg) :
    (w.accept s i m).call = w.call := by
  unfold accept deliver
  dsimp only
  split
  · rw [recvReady_call]
    rfl
  · rfl

@[simp] theorem crash_call (i : Nat) : (w.crash i).call = w.call := rfl

@[simp] theorem register_call (b : Bool) : (w.register b).call = w.call := rfl

@[simp] theorem start_call (i : Nat) (fn : Val) : (w.start i fn).call = w.call := by
  simp [start]

@[simp] theorem unwind_call (i : Nat) : (w.unwind i).call = w.call := by
  simp [unwind]

@[simp] theorem park_call (i : Nat) : (w.park i).call = w.call := rfl

@[simp] theorem dispatch_call (i : Nat) : (w.dispatch i).call = w.call := rfl

@[simp] theorem httpResume_call (i : Nat) (v : Val) : (w.httpResume i v).call = w.call := by
  unfold httpResume
  dsimp only
  split
  · rw [enqueue_call, modify_call]
    exact deposit_call i v
  · simp

@[simp] theorem unlinkInflight_call (i : Nat) : (w.unlinkInflight i).call = w.call :=
  assume_call _

/-- Transfers finish one by one, and none of them touches the call. -/
theorem harvest_call {hs : List (Nat × Val)} (h : harvest hs w = some w') : w'.call = w.call := by
  induction hs generalizing w with
  | nil =>
    cases h
    rfl
  | cons x xs ih =>
    obtain ⟨u, hu, h⟩ := Option.bind_eq_some_iff.mp h
    refine (ih h).trans ?_
    unfold harvest1 at hu
    split at hu
    · cases hu
      exact unlinkInflight_call x.1
    · cases hu

@[simp] theorem depositHead_call : w.depositHead.call = w.call := by
  unfold depositHead
  split
  · simp
  · rw [httpResume_call]
    rfl

@[simp] theorem depositAll_call : w.depositAll.call = w.call := by
  unfold depositAll
  generalize w.done = l
  induction l generalizing w with
  | nil => rfl
  | cons x l ih => exact ih.trans depositHead_call

@[simp] theorem beginService_call (i : Nat) (req : Request) :
    (w.beginService i req).1.call = w.call := by
  cases req with
  | recv =>
    unfold beginService
    dsimp only
    split <;> simp
  | send h payload | sendCaps h payload row =>
    unfold beginService
    dsimp only
    split <;> simp
  | fetch rq cfg check =>
    unfold beginService
    cases check with
    | malformed | invalid code => simp
    | sound =>
      dsimp only
      split
      · simp
      · split <;> simp
  | closeHandle h =>
    unfold beginService
    dsimp only
    split <;> simp
  | spawn fn | readBat path | readFolder path | sleep secs => rfl

@[simp] theorem finishService_call (i : Nat) (v : Val) (p : Pending) :
    (w.finishService i v p).call = w.call := by
  cases p with
  | sendCaps dest payload row =>
    unfold finishService
    dsimp only
    split <;> simp
  | send _ _ | spawn _ | fetch | answer | sleep => simp [finishService]

@[simp] theorem promote_call : w.promote.call = w.call := by
  unfold promote
  split <;> rfl

@[simp] theorem bind_call (k i : Nat) : (w.bind k i).call = w.call := by
  unfold bind
  dsimp only
  split
  · simp
  · rw [assume_call, promote_call]
    exact assume_call _

@[simp] theorem release_call (k : Nat) : (w.release k).call = w.call := by
  unfold release
  dsimp only
  split <;> simp

@[simp] theorem enterSlice_call (k i : Nat) : (w.enterSlice k i).call = w.call :=
  runThread_call i

@[simp] theorem endSlice_call (i : Nat) (o : Outcome) : (w.endSlice i o).call = w.call := by
  cases o <;> simp [endSlice]

theorem dequeue_call {i : Nat} (h : w.dequeue = some (i, w')) : w'.call = w.call := by
  obtain ⟨-, rfl⟩ := dequeue_eq h
  rfl

theorem dequeueSpawned_call {i : Nat} (h : w.dequeueSpawned = some (i, w')) : w'.call = w.call := by
  obtain ⟨-, -, rfl⟩ := dequeueSpawned_eq h
  rfl

/-- A worker leaves the call alone, or completes it. -/
def Completes (w w' : World) : Prop :=
  w'.call = w.call ∨ ∃ u : World, u.call = w.call ∧ w' = u.maybeComplete

/-- A worker that finds nothing left to do may find the run complete; otherwise it takes an
actor. -/
theorem workerTop_call {k : Nat} (h : w.workerTop k = some w') : Completes w w' := by
  unfold workerTop at h
  dsimp only at h
  split at h
  · cases h
    exact .inl (by simp)
  split at h
  · cases h
  split at h
  · split at h
    · cases h
      exact .inl (by simp)
    split at h
    · cases h
      exact .inl (by simp)
    split at h
    · cases h
      exact .inr ⟨w, rfl, rfl⟩
    · cases h
      refine .inl ((enterSlice_call _ _).trans ?_)
      exact assume_call _
  · cases h
  · split at h
    · cases h
      exact .inl rfl
    next i u hu =>
      cases h
      -- either queue gives the actor away and nothing more
      have hq : u.call = w.call := by
        split at hu
        · exact dequeue_call hu
        · exact dequeueSpawned_call hu
      refine .inl ((enterSlice_call _ _).trans ?_)
      split <;> simp [hq]

/-- A slice that ends in a request begins the service at once. -/
theorem workerSliceEnd_call (k i : Nat) (o : Outcome) : (w.workerSliceEnd k i o).call = w.call := by
  unfold workerSliceEnd
  dsimp only
  cases o with
  | blocked req =>
    dsimp only
    have hb := beginService_call (w := (w.stopThread i (Outcome.blocked req).status).setPc k
      (.after i)) i req
    split
    next u hu =>
      rw [hu] at hb
      simpa using hb
    next u p hu =>
      rw [hu] at hb
      simpa using hb
  | yielded | done | exn => simp

theorem workerEffect_call (k i : Nat) : (w.workerEffect k i).call = w.call := by
  unfold workerEffect
  dsimp only
  split <;> simp

/-- After a slice the worker is one busy worker less, which can be what the run waited for. -/
theorem workerAfter_call (k i : Nat) : Completes w (w.workerAfter k i) := by
  refine .inr ⟨_, ?_, rfl⟩
  dsimp only
  split
  · rw [release_call]
    rfl
  · rfl

theorem pumpTry_call (k : Nat) : (w.pumpTry k).call = w.call := by
  unfold pumpTry
  split <;> rfl

theorem pumpEnd_call {k : Nat} {hs : List (Nat × Val)} (h : w.pumpEnd k hs = some w') :
    w'.call = w.call := by
  obtain ⟨u, hu, rfl⟩ := Option.map_eq_some_iff.mp h
  rw [depositAll_call, harvest_call hu]
  rfl

/-- What a step of a worker does to the call in progress. -/
theorem worker_call {e : Event} (h : w.workerStep e = some w') : Completes w w' := by
  cases e <;> simp only [workerStep] at h <;> try cases h
  case top k =>
    split at h
    · exact workerTop_call h
    · cases h
  case effect k =>
    split at h
    · cases h
      exact .inl (workerEffect_call k _)
    · cases h
      exact .inl (workerEffect_call k _)
    · cases h
  case sliceEnd k o =>
    split at h
    · cases h
      exact .inl (workerSliceEnd_call k _ o)
    · cases h
  case served k v =>
    split at h
    · split at h
      · cases h
        exact .inl (by simp)
      · cases h
    · cases h
  case after k =>
    split at h
    · cases h
      exact workerAfter_call k _
    · cases h
  case pumpTry k =>
    split at h
    · cases h
      exact .inl (pumpTry_call k)
    · cases h
  case pumpEnd k hs =>
    split at h
    · exact .inl (pumpEnd_call h)
    · cases h
  case pumped k =>
    split at h
    · cases h
      exact .inr ⟨{ w.setPc k .top with busyN := w.busyN - 1 }, rfl, rfl⟩
    · cases h

theorem maybeComplete_ctl : w.maybeComplete.ctl = w.ctl := by
  unfold maybeComplete
  split <;> rfl

theorem Completes.ctl (h : Completes w w') : w'.ctl = w.ctl := by
  rcases h with h | ⟨u, hu, rfl⟩
  · exact congrArg Call.ctl h
  · exact maybeComplete_ctl.trans (congrArg Call.ctl hu)

/-! ## Where the controller goes -/

@[simp] theorem service_call (i : Nat) (req : Request) (v : Val) :
    (w.service i req v).call = w.call := by
  have hb := beginService_call (w := w) i req
  unfold service
  split
  next u hu =>
    rw [hu] at hb
    exact hb
  next u p hu =>
    rw [hu] at hb
    exact (finishService_call i v p).trans hb

theorem ctl_of_call (h : w'.call = w.call) : w'.ctl = w.ctl := congrArg Call.ctl h

/-- From each place of the controller to the next. -/
inductive Next : Ctl → Ctl → Prop where
  | detIdle (r : Option Nat) : Next (.detTop r) (.detIdle r)
  | detRun (r : Option Nat) (i : Nat) : Next (.detTop r) (.detSlice r i)
  | detEffect (r : Option Nat) (i : Nat) : Next (.detSlice r i) (.detSlice r i)
  | detStepped (r : Option Nat) (i : Nat) : Next (.detSlice r i) (.detTop r)
  | detLeft (r : Option Nat) (i : Nat) : Next (.detSlice r i) .out
  | detWoken (r : Option Nat) : Next (.detIdle r) (.detTop r)
  | detReturn (r : Option Nat) : Next (.detIdle r) .out
  | mtRun (r : Nat) : Next (.mtTop r) (.mtSlice r)
  | mtLook (r : Nat) : Next (.mtTop r) (.mtCheck r)
  | mtEffect (r : Nat) : Next (.mtSlice r) (.mtSlice r)
  | mtStepped (r : Nat) : Next (.mtSlice r) (.mtTop r)
  | mtServe (r : Nat) (p : Pending) : Next (.mtSlice r) (.mtServing r p)
  | mtHalt (r : Nat) (out : Answer) : out = .done ∨ out = .exn → Next (.mtSlice r) (.mtDone r out)
  | mtServeEffect (r : Nat) (p : Pending) : Next (.mtServing r p) (.mtServing r p)
  | mtServed (r : Nat) (p : Pending) : Next (.mtServing r p) (.mtTop r)
  | mtCrash (r : Nat) (p : Pending) : Next (.mtServing r p) (.mtDone r .exn)
  | mtAgain (r : Nat) : Next (.mtCheck r) (.mtTop r)
  | mtDeadlock (r : Nat) : Next (.mtCheck r) (.mtDone r .deadlock)
  | mtDone (r : Nat) (out : Answer) : Next (.mtDone r out) (.mtLeave r out)
  | mtLeave (r : Nat) (out : Answer) : Next (.mtLeave r out) .out
  | mtRunReturn : Next .mtRun .out
  | freed : Next .freeing .out

/-- A slice ends at the top of the loop, unless the root itself has come to an end. -/
theorem detSliceEnd_next (root : Option Nat) (i : Nat) (o : Outcome) (v : Val) :
    Next (.detSlice root i) (w.detSliceEnd root i o v).ctl := by
  unfold detSliceEnd
  dsimp only
  cases o with
  | blocked req =>
    dsimp only
    split
    · exact .detLeft root i
    · rw [ctl_of_call (service_call i req v)]
      exact .detStepped root i
  | yielded =>
    dsimp only
    rw [ctl_of_call (enqueue_call i)]
    exact .detStepped root i
  | done =>
    dsimp only
    split
    · exact .detLeft root i
    · exact .detStepped root i
  | exn =>
    dsimp only
    split
    · exact .detLeft root i
    · exact .detStepped root i

/-- The idle loop is woken by an answer, or returns. -/
theorem detIdle_next {root : Option Nat} {hs : List (Nat × Val)} (h : w.detIdle root hs = some w') :
    Next (.detIdle root) w'.ctl := by
  -- with a root and without one
  have hret : Next (.detIdle root) (w.detReturn root).ctl := by
    cases root <;> exact .detReturn _
  unfold detIdle at h
  split at h
  · split at h
    · cases h
      exact hret
    split at h
    · split at h
      · cases h
        exact .detWoken root
      · cases h
    · cases h
  · split at h
    · cases h
      exact hret
    obtain ⟨u, -, h⟩ := Option.bind_eq_some_iff.mp h
    split at h
    · cases h
    · cases h
      exact .detWoken root

/-- A service that crashed the root ends the drive. -/
theorem mtServed_ctl (r : Nat) :
    (w.mtServed r).ctl = w.ctl ∨ (w.mtServed r).ctl = .mtDone r .exn := by
  unfold mtServed
  split
  · exact .inr rfl
  · exact .inl rfl

/-- The root's slice goes on, stops for a service, or ends the drive. -/
theorem mtSliceEnd_next (r : Nat) (o : Outcome) : Next (.mtSlice r) (w.mtSliceEnd r o).ctl := by
  unfold mtSliceEnd
  dsimp only
  cases o with
  | yielded => exact .mtStepped r
  | done => exact .mtHalt r _ (.inl rfl)
  | exn => exact .mtHalt r _ (.inr rfl)
  | blocked req =>
    dsimp only
    have hb := beginService_call (w := { w.stopThread r (Outcome.blocked req).status with
      ctl := .mtTop r }) r req
    split
    next u hu =>
      rw [hu] at hb
      -- A request answered at once goes on, unless it crashed the root.
      rcases mtServed_ctl (w := u) r with hc | hc
      · rw [hc, ctl_of_call hb]
        exact .mtStepped r
      · rw [hc]
        exact .mtHalt r _ (.inr rfl)
    next u p hu => exact .mtServe r p

/-- A step of the controller takes it to the next place. -/
theorem ctlStep_next {e : Event} (h : w.ctlStep e = some w') : Next w.ctl w'.ctl := by
  cases e <;> simp only [ctlStep] at h <;> try cases h
  case endFree =>
    split at h
    next hc =>
      cases h
      rw [hc.1]
      exact .freed
    · cases h
  case detTop hs =>
    split at h
    next root hc =>
      obtain ⟨u, -, rfl⟩ := Option.map_eq_some_iff.mp h
      rw [hc]
      split
      · exact .detIdle root
      next i u' _ => exact .detRun root i
    · cases h
  case detIdle hs =>
    split at h
    next hc =>
      rw [hc]
      exact detIdle_next h
    · cases h
  case detEffect =>
    split at h
    next root i hc =>
      cases h
      rw [modify_ctl, hc]
      exact .detEffect root i
    · cases h
  case detSliceEnd o v =>
    split at h
    next hc =>
      cases h
      rw [hc]
      exact detSliceEnd_next _ _ o v
    · cases h
  case mtTop =>
    split at h
    next r hc =>
      rw [hc]
      unfold mtTop at h
      split at h
      · cases h
        exact .mtRun r
      split at h
      · cases h
        exact .mtLook r
      · cases h
    · cases h
  case mtEffect =>
    split at h
    next r hc =>
      cases h
      rw [modify_ctl, hc]
      exact .mtEffect r
    next r p hc =>
      cases h
      rw [modify_ctl, hc]
      exact .mtServeEffect r p
    · cases h
  case mtSliceEnd o =>
    split at h
    next hc =>
      cases h
      rw [hc]
      exact mtSliceEnd_next _ o
    · cases h
  -- the service of the root has come back
  case mtServed v =>
    split at h
    next r p hc =>
      split at h
      · cases h
        rw [hc]
        rcases mtServed_ctl (w := finishService { w with ctl := .mtTop r } r v p) r with hs | hs
        · rw [hs, ctl_of_call (finishService_call r v p)]
          exact .mtServed r p
        · rw [hs]
          exact .mtCrash r p
      · cases h
    · cases h
  case mtCheck =>
    split at h
    next r hc =>
      cases h
      rw [hc]
      unfold mtCheck
      split
      · exact .mtDeadlock r
      · exact .mtAgain r
    · cases h
  case mtDone =>
    split at h
    next r out hc =>
      cases h
      rw [hc]
      exact .mtDone r out
    · cases h
  case mtLeave =>
    split at h
    next r out hc =>
      split at h
      · cases h
        rw [hc]
        exact .mtLeave r out
      · cases h
    · cases h
  case mtRunReturn =>
    split at h
    next hc =>
      cases h
      rw [hc.1]
      exact .mtRunReturn
    · cases h

/-- Where a call of the embedder leaves the controller. -/
theorem hostStep_ctl {e : Event} (hc : w.ctl = .out) (h : w.hostStep e = some w') :
    w'.ctl = .out ∨ w'.ctl = .freeing ∨ (∃ root, w'.ctl = .detTop root) ∨ w'.ctl = .mtRun ∨
      ∃ r, w'.ctl = .mtTop r := by
  cases e <;> simp only [hostStep] at h <;> try cases h
  case newActor | adopt => exact .inl hc
  case start i fn =>
    split at h
    · cases h
      exact .inl ((start_ctl i fn).trans hc)
    · cases h
  case arm i v | setMode m | newExecutor n =>
    split at h
    · cases h
      exact .inl hc
    · cases h
  case beginFree =>
    split at h
    · cases h
      exact .inr (.inl rfl)
    · cases h
  case callRun =>
    split at h
    · cases h
      exact .inr (.inr (.inl ⟨none, rfl⟩))
    · cases h
  case callDrive r =>
    split at h
    · cases h
      exact .inr (.inr (.inl ⟨some r, enqueue_ctl r⟩))
    · cases h
  case callMtRun =>
    split at h
    · cases h
      exact .inr (.inr (.inr (.inl maybeComplete_ctl)))
    · cases h
  case callMtDrive r =>
    split at h
    · cases h
      exact .inr (.inr (.inr (.inr ⟨r, rfl⟩)))
    · cases h

end World

end Enki.Runtime
