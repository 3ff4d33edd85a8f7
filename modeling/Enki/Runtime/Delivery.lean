import Enki.Runtime.Reachable

/-!
# The actor runtime: delivery

Messages are neither lost nor repeated nor reordered, whatever the interleaving:
what an actor has heard, followed by its mailbox, is what was accepted for it. A
service that crashes its caller has changed no mailbox and no handle table.
-/

namespace Enki.Runtime

open Enki.Runs

namespace World

variable {w w' w'' : World}

/-! ## Crashes -/

@[simp] theorem assume_crashes (c : Bool) : (w.assume c).crashes = w.crashes := by
  unfold assume
  split <;> rfl

@[simp] theorem modify_crashes (i : Nat) (f : Actor → Actor) :
    (w.modify i f).crashes = w.crashes := rfl

@[simp] theorem enqueue_crashes (i : Nat) : (w.enqueue i).crashes = w.crashes := by
  obtain ⟨q, p, r, a, h⟩ := w.enqueue_frame i
  rw [h]

@[simp] theorem resume_crashes (i : Nat) (v : Val) : (w.resume i v).crashes = w.crashes := by
  simp [resume, deposit]

@[simp] theorem recvReady_crashes (i : Nat) : (w.recvReady i).crashes = w.crashes := by
  unfold recvReady
  split <;> simp

@[simp] theorem accept_crashes (s : Option Nat) (i : Nat) (m : Msg) :
    (w.accept s i m).crashes = w.crashes := by
  unfold accept deliver
  dsimp only
  split <;> simp

@[simp] theorem start_crashes (i : Nat) (fn : Val) : (w.start i fn).crashes = w.crashes := by
  simp [start]

@[simp] theorem unwind_crashes (i : Nat) : (w.unwind i).crashes = w.crashes := by
  simp [unwind]

/-- A step that changes mail or handles crashes nobody. -/
def Clean (w w' : World) : Prop := w'.post = w.post ∨ w'.crashes = w.crashes

theorem Quiet.clean (h : Quiet w w') : Clean w w' := .inl h.post

/-- Parts of a step before and after which touch neither mail nor the record of
crashes. -/
theorem Clean.trans_quiet (h : Clean w w') (hq : Quiet w' w'') (hc : w''.crashes = w'.crashes) :
    Clean w w'' := by
  rcases h with h | h
  · exact .inl (hq.post.trans h)
  · exact .inr (hc.trans h)

theorem Quiet.trans_clean (hq : Quiet w w') (hc : w'.crashes = w.crashes) (h : Clean w' w'') :
    Clean w w'' := by
  rcases h with h | h
  · exact .inl (h.trans hq.post)
  · exact .inr (h.trans hc)

/-- A request that is refused crashes its actor before it has done anything; one that is begun
crashes nobody. -/
theorem beginService_clean (i : Nat) (req : Request) : Clean w (w.beginService i req).1 := by
  have hrefl := Quiet.refl w
  cases req with
  | recv =>
    unfold beginService
    dsimp only
    split <;> exact .inr (by simp)
  | send h payload | sendCaps h payload row =>
    unfold beginService
    dsimp only
    split
    · exact (hrefl.crash i).clean
    · exact hrefl.clean
  | fetch rq cfg check =>
    unfold beginService
    cases check with
    | malformed => exact (hrefl.crash i).clean
    | invalid code => exact (hrefl.httpResume i _).clean
    | sound =>
      dsimp only
      split
      · exact (hrefl.park i).clean
      · split
        · exact hrefl.clean
        · exact (hrefl.dispatch i).clean
  | closeHandle h =>
    unfold beginService
    dsimp only
    split <;> exact .inr (by simp)
  | spawn fn | readBat path | readFolder path | sleep secs => exact hrefl.clean

/-- So does a row of handles that turns out bad once the lock is held again. -/
theorem finishService_clean (i : Nat) (v : Val) (p : Pending) : Clean w (w.finishService i v p) := by
  have hrefl := Quiet.refl w
  cases p with
  | sendCaps dest payload row =>
    unfold finishService
    dsimp only
    split
    · exact (hrefl.crash i).clean
    · exact .inr (by simp)
  | send dest payload => exact .inr (by simp [finishService])
  | spawn fn =>
    refine .inr ?_
    simp only [finishService, resume_crashes, modify_crashes, start_crashes]
    rfl
  | fetch => exact (hrefl.dispatch i).clean
  | answer => exact (hrefl.resume i v).clean
  | sleep => exact (hrefl.resume i _).clean

/-- The two halves in one go: the first half has done nothing yet where the second one crashes.
-/
theorem service_clean (i : Nat) (req : Request) (v : Val) : Clean w (w.service i req v) := by
  have hb := beginService_clean (w := w) i req
  unfold service
  split
  next u hu =>
    rw [hu] at hb
    exact hb
  next u p hu =>
    obtain rfl := beginService_pending hu
    exact finishService_clean i v p

/-- The end of a slice on a worker. -/
theorem workerSliceEnd_clean (k i : Nat) (o : Outcome) : Clean w (w.workerSliceEnd k i o) := by
  have hrefl : Quiet w ((w.stopThread i o.status).setPc k (.after i)) :=
    ((Quiet.refl w).stopThread i _).setPc k fun _ _ => by simp
  unfold workerSliceEnd
  dsimp only
  cases o with
  | blocked req =>
    dsimp only
    have hb := beginService_clean (w := (w.stopThread i (Outcome.blocked req).status).setPc k
      (.after i)) i req
    split
    next u hu =>
      rw [hu] at hb
      exact hrefl.trans_clean rfl hb
    next u p hu =>
      obtain rfl := beginService_pending hu
      exact .inr rfl
  | yielded | done | exn => exact (hrefl.endSlice i _).clean

/-- A drive that ends with its root unwinds it. -/
theorem mtServed_clean (r : Nat) : Quiet w (w.mtServed r) ∧ (w.mtServed r).crashes = w.crashes := by
  refine ⟨(Quiet.refl w).mtServed r, ?_⟩
  unfold mtServed
  split
  · exact unwind_crashes r
  · rfl

/-- The end of a slice of a root. -/
theorem mtSliceEnd_clean (r : Nat) (o : Outcome) : Clean w (w.mtSliceEnd r o) := by
  have hrefl : Quiet w { w.stopThread r o.status with ctl := .mtTop r } :=
    ((Quiet.refl w).stopThread r _).set rfl rfl rfl rfl fun _ _ h => by cases h
  unfold mtSliceEnd
  dsimp only
  cases o with
  | blocked req =>
    dsimp only
    have hb := beginService_clean (w := { w.stopThread r (Outcome.blocked req).status with
      ctl := .mtTop r }) r req
    split
    next u hu =>
      rw [hu] at hb
      exact (hrefl.trans_clean rfl hb).trans_quiet (mtServed_clean r).1 (mtServed_clean r).2
    next u p hu =>
      obtain rfl := beginService_pending hu
      exact .inr rfl
  | yielded | done | exn => exact .inr rfl

/-- The end of a slice in the single-threaded loop. -/
theorem detSliceEnd_clean (root : Option Nat) (i : Nat) (o : Outcome) (v : Val) :
    Clean w (w.detSliceEnd root i o v) := by
  have hrefl : Quiet w { w.stopThread i o.status with ctl := .detTop root } :=
    ((Quiet.refl w).stopThread i _).set rfl rfl rfl rfl fun _ _ h => by cases h
  unfold detSliceEnd
  dsimp only
  cases o with
  | blocked req =>
    dsimp only
    have hs : Clean w (World.service { w.stopThread i (Outcome.blocked req).status with
        ctl := .detTop root } i req v) :=
      hrefl.trans_clean rfl (service_clean i req v)
    split
    · exact hs.trans_quiet (((Quiet.refl _).unwind i).set rfl rfl rfl rfl fun _ _ h => by cases h)
        (unwind_crashes i)
    · exact hs
  | yielded => exact (hrefl.enqueue i).clean
  | done =>
    dsimp only
    split
    · exact .inr rfl
    · exact (hrefl.endSlice i _).clean
  | exn =>
    dsimp only
    split
    · exact .inr rfl
    · exact (hrefl.endSlice i _).clean

/-- A step that crashes an actor changes no mailbox and no handle table. -/
theorem step_clean {e : Event} (h : World.step e w = some w') : Clean w w' := by
  cases step_mailing h with
  | quiet h _ => exact h.clean
  | inject i v _ =>
    refine .inr ?_
    unfold inject
    split
    · rfl
    · exact accept_crashes _ _ _
  | register b _ => exact .inr rfl
  | sliceEnd k i o => exact workerSliceEnd_clean k i o
  -- the worker leaves the service first, which is quiet
  | served k i p v _ _ =>
    exact Quiet.trans_clean ((Quiet.refl w).setPc k fun _ _ => by simp) rfl (finishService_clean i v p)
  | detSliceEnd root i o v _ => exact detSliceEnd_clean root i o v
  | mtSliceEnd r o => exact mtSliceEnd_clean r o
  | mtServed r p v _ =>
    have hq : Quiet w { w with ctl := .mtTop r } :=
      (Quiet.refl w).set rfl rfl rfl rfl fun _ _ h => by cases h
    exact (hq.trans_clean rfl (finishService_clean r v p)).trans_quiet (mtServed_clean r).1
      (mtServed_clean r).2

/-! ## What is heard -/

/-- `a` resumes with message `m`: with its payload and a row of handles which
are live in `a` and name the actors `m` carries, in order. -/
def Resumes (a : Actor) (m : Msg) : Prop :=
  ∃ hs : List Nat, a.thread = ⟨.yielded, valRow [m.payload, valRow (hs.map .nat)]⟩ ∧
    hs.map (a.handles[·]?) = m.caps.map fun t => some (some t)

/-- An actor `a` that becomes `b` hears nothing, or hears one message and resumes
with it. -/
def Hears (a b : Actor) : Prop :=
  b.heard = a.heard ∨ ∃ m, b.heard = a.heard ++ [m] ∧ Resumes b m

theorem Quiet.heard (h : Quiet w w') (j : Nat) : (w'.actor j).heard = (w.actor j).heard :=
  congrFun (congrArg Post.heard h.post) j

theorem Quiet.handles (h : Quiet w w') (j : Nat) : (w'.actor j).handles = (w.actor j).handles :=
  congrFun (congrArg Post.handles h.post) j

theorem Quiet.hears (h : Quiet w w') (j : Nat) : Hears (w.actor j) (w'.actor j) := .inl (h.heard j)

theorem Hears.of_heard {a a' b : Actor} (h : a'.heard = a.heard) (hb : Hears a' b) : Hears a b := by
  unfold Hears at hb ⊢
  rwa [h] at hb

/-- What is done after an actor has heard a message leaves its response alone. -/
theorem Hears.trans_quiet {a : Actor} {j : Nat} (h : Hears a (w.actor j)) (hq : Quiet w w')
    (ht : (w'.actor j).thread = (w.actor j).thread) : Hears a (w'.actor j) := by
  rcases h with h | ⟨m, hm, hs, hr, hc⟩
  · exact .inl ((hq.heard j).trans h)
  · refine .inr ⟨m, (hq.heard j).trans hm, hs, ht.trans hr, ?_⟩
    rw [hq.handles j]
    exact hc

/-- The handles `er_recv_ready` allocates are the last ones of the table. -/
theorem recvResponse_resumes (a : Actor) (m : Msg) :
    Resumes { handleAlloc a m.caps with thread := ⟨.yielded, recvResponse a m⟩ } m := by
  refine ⟨(List.range m.caps.length).map (a.handles.length + ·), ?_, List.ext_getElem ?_ ?_⟩
  · simp [recvResponse, List.map_map, Function.comp_def]
  · simp
  · intro k hk _
    simp only [List.length_map, List.length_range] at hk
    simp [handleAlloc, hk]

/-- The actor that is ready hears the head of its mailbox, and resumes with it. -/
theorem recvReady_hears (i j : Nat) : Hears (w.actor j) ((w.recvReady i).actor j) := by
  unfold recvReady
  cases hm : (w.actor i).mbox with
  | nil => exact .inl (by simp)
  | cons m rest =>
    -- nobody else hears anything
    by_cases hj : j = i
    · subst hj
      obtain ⟨hs, hr, hc⟩ := recvResponse_resumes (w.actor j) m
      refine .inr ⟨m, ?_, hs, ?_, ?_⟩
      · simp [resume_actor]
      · simpa [resume_actor] using hr
      · simpa [resume_actor] using hc
    · exact .inl (by simp [resume_actor, hj])

/-- A delivery is heard by its receiver if that is parked, and by nobody else. -/
theorem accept_hears (s : Option Nat) (i : Nat) (m : Msg) (j : Nat) :
    Hears (w.actor j) ((w.accept s i m).actor j) := by
  -- queueing the message lets nobody hear it yet
  have hq : ∀ u : World, u.actor = (w.modify i fun a => { a with mbox := a.mbox ++ [m] }).actor →
      (u.actor j).heard = (w.actor j).heard := by
    intro u hu
    rw [hu, modify_actor]
    split
    next hj => rw [hj]
    next => rfl
  unfold accept deliver
  dsimp only
  split
  · exact .of_heard (hq _ rfl) (recvReady_hears i j)
  · exact .inl (hq _ rfl)

/-- Only a receive lets its own actor hear a message. -/
theorem beginService_hears (i : Nat) (req : Request) (j : Nat) :
    Hears (w.actor j) ((w.beginService i req).1.actor j) := by
  have hrefl := Quiet.refl w
  cases req with
  | recv =>
    unfold beginService
    dsimp only
    split
    · exact (hrefl.modify i (f := fun a => { a with status := .blocked }) rfl rfl rfl).hears j
    · exact recvReady_hears i j
  | send h payload | sendCaps h payload row =>
    unfold beginService
    dsimp only
    split
    · exact (hrefl.crash i).hears j
    · exact hrefl.hears j
  | fetch rq cfg check =>
    unfold beginService
    cases check with
    | malformed => exact (hrefl.crash i).hears j
    | invalid code => exact (hrefl.httpResume i _).hears j
    | sound =>
      dsimp only
      split
      · exact (hrefl.park i).hears j
      · split
        · exact hrefl.hears j
        · exact (hrefl.dispatch i).hears j
  | closeHandle h =>
    unfold beginService
    dsimp only
    refine .inl (((Quiet.refl _).resume i _).heard j |>.trans ?_)
    split
    · rw [modify_actor]
      split
      next hj => rw [hj]
      next => rfl
    · rfl
  | spawn fn | readBat path | readFolder path | sleep secs => exact hrefl.hears j

/-- A response is deposited into a parked thread only. -/
theorem resume_blocked {i : Nat} {v : Val} (h : (w.resume i v).aborted = false) :
    (w.actor i).thread.status = .blocked := by
  -- the assertion of the deposit is not taken back by what follows
  have hmono : ∀ (u : World) (k : Nat), (u.enqueue k).aborted = false → u.aborted = false := by
    intro u k hu
    unfold enqueue assume at hu
    split at hu
    · dsimp only at hu
      split at hu <;> split at hu <;> simp_all [setWorker]
    · split at hu <;> exact hu
  have ha : (w.deposit i v).aborted = false :=
    hmono ((w.deposit i v).modify i fun a => { a with status := .runnable }) i h
  unfold deposit assume at ha
  by_contra hn
  simp [hn, modify] at ha

/-- The sender of a message is not the actor that hears it: its own thread is
still parked in the service. -/
theorem accept_resume_hears {s : Option Nat} {i d : Nat} {m : Msg} {v : Val}
    (ha : ((w.accept s d m).resume i v).aborted = false) (j : Nat) :
    Hears (w.actor j) (((w.accept s d m).resume i v).actor j) := by
  have hb := resume_blocked ha
  have hq := (Quiet.refl (w.accept s d m)).resume i v
  -- who hears the message has a response, and so is not the parked sender
  rcases accept_hears (w := w) s d m j with h | ⟨x, hx, hr⟩
  · exact .inl ((hq.heard j).trans h)
  · refine Hears.trans_quiet (.inr ⟨x, hx, hr⟩) hq ?_
    obtain ⟨hs, ht, -⟩ := hr
    rw [resume_actor]
    split
    next hj =>
      rw [hj] at ht
      simp [ht] at hb
    next => rfl

/-- The second half of a send may wake its receiver. -/
theorem finishService_hears {i : Nat} {v : Val} {p : Pending}
    (hfresh : (w.actor w.next).heard = []) (ha : (w.finishService i v p).aborted = false) (j : Nat) :
    Hears (w.actor j) ((w.finishService i v p).actor j) := by
  have hrefl := Quiet.refl w
  cases p with
  | send dest payload => exact accept_resume_hears ha j
  | sendCaps dest payload row =>
    unfold finishService at ha ⊢
    dsimp only at ha ⊢
    split
    · exact (hrefl.crash i).hears j
    next caps hcaps =>
      rw [hcaps] at ha
      exact accept_resume_hears ha j
  | spawn fn =>
    refine .inl ?_
    -- Only the table of `i` and the new actor change.
    have hreg : ((w.register false).actor j).heard = (w.actor j).heard := by
      unfold register
      by_cases hj : j = w.next
      · subst hj
        simp [hfresh]
      · simp [Function.update_of_ne hj]
    have hstart := (quiet_start (Quiet.refl (w.register false)) w.next fn).heard j
    unfold finishService
    refine (((Quiet.refl _).resume i _).heard j).trans ?_
    rw [modify_actor]
    split
    next hj =>
      rw [← hj]
      exact hstart.trans hreg
    next => exact hstart.trans hreg
  | fetch => exact (hrefl.dispatch i).hears j
  | answer => exact (hrefl.resume i v).hears j
  | sleep => exact (hrefl.resume i _).hears j

/-- A service in one go. -/
theorem service_hears {i : Nat} {req : Request} {v : Val} (hfresh : (w.actor w.next).heard = [])
    (ha : (w.service i req v).aborted = false) (j : Nat) :
    Hears (w.actor j) ((w.service i req v).actor j) := by
  have hb := beginService_hears (w := w) i req j
  unfold service at ha ⊢
  split
  next u hu =>
    rw [hu] at hb
    exact hb
  next u p hu =>
    obtain rfl := beginService_pending hu
    rw [hu] at ha
    exact finishService_hears hfresh ha j

/-- A crash of the root ends its drive; whoever heard a message has it still. -/
theorem unwind_hears {a : Actor} {i j : Nat} (h : Hears a (w.actor j)) (u : World)
    (hu : u.actor = (w.unwind i).actor) : Hears a (u.actor j) := by
  rw [hu]
  refine h.trans_quiet ((Quiet.refl w).unwind i) ?_
  unfold unwind
  rw [modify_actor, assume_actor]
  split
  next hj => rw [hj]
  next => rfl

/-- The same at the end of a drive. -/
theorem mtServed_hears {a : Actor} {j : Nat} (h : Hears a (w.actor j)) (r : Nat) :
    Hears a ((w.mtServed r).actor j) := by
  unfold mtServed
  split
  · exact unwind_hears h _ rfl
  · exact h

theorem unwind_aborted {i : Nat} (h : (w.unwind i).aborted = false) : w.aborted = false := by
  unfold unwind assume modify at h
  split at h
  · exact h
  · simp at h

theorem mtServed_aborted {r : Nat} (h : (w.mtServed r).aborted = false) : w.aborted = false := by
  unfold mtServed at h
  split at h
  · exact unwind_aborted h
  · exact h

/-- Every step that lets an actor hear a message deposits that message for it. -/
theorem step_hears {e : Event} (h : World.step e w = some w') (hfresh : (w.actor w.next).heard = [])
    (ha : w'.aborted = false) (j : Nat) : Hears (w.actor j) (w'.actor j) := by
  cases step_mailing h with
  | quiet h _ => exact h.hears j
  | inject i v _ =>
    unfold inject
    split
    · exact .inl rfl
    · exact accept_hears _ _ _ j
  | register b _ =>
    refine .inl ?_
    unfold register
    by_cases hj : j = w.next
    · subst hj
      simp [hfresh]
    · simp [Function.update_of_ne hj]
  -- a worker begins the service, and may have to finish it later
  | sliceEnd k i o =>
    have hrefl : Quiet w ((w.stopThread i o.status).setPc k (.after i)) :=
      ((Quiet.refl w).stopThread i _).setPc k fun _ _ => by simp
    unfold workerSliceEnd
    dsimp only
    cases o with
    | blocked req =>
      dsimp only
      have hb := beginService_hears (w := (w.stopThread i (Outcome.blocked req).status).setPc k
        (.after i)) i req j
      split
      next u hu =>
        rw [hu] at hb
        exact .of_heard (hrefl.heard j) hb
      next u p hu =>
        obtain rfl := beginService_pending hu
        exact .inl (hrefl.heard j)
    | yielded | done | exn => exact (hrefl.endSlice i _).hears j
  -- which is here
  | served k i p v _ _ =>
    exact finishService_hears (w := w.setPc k (.after i)) hfresh ha j
  | detSliceEnd root i o v _ =>
    have hrefl : Quiet w { w.stopThread i o.status with ctl := .detTop root } :=
      ((Quiet.refl w).stopThread i _).set rfl rfl rfl rfl fun _ _ h => by cases h
    have hf := (hrefl.heard w.next).trans hfresh
    unfold detSliceEnd at ha ⊢
    dsimp only at ha ⊢
    cases o with
    | blocked req =>
      dsimp only at ha ⊢
      refine .of_heard (hrefl.heard j) ?_
      split
      next hc =>
        rw [if_pos hc] at ha
        exact unwind_hears (service_hears hf (unwind_aborted ha) j) _ rfl
      next hc =>
        rw [if_neg hc] at ha
        exact service_hears hf ha j
    | yielded => exact (hrefl.enqueue i).hears j
    | done | exn =>
      dsimp only
      split
      · exact hrefl.hears j
      · exact (hrefl.endSlice i _).hears j
  | mtSliceEnd r o =>
    have hrefl : Quiet w { w.stopThread r o.status with ctl := .mtTop r } :=
      ((Quiet.refl w).stopThread r _).set rfl rfl rfl rfl fun _ _ h => by cases h
    unfold mtSliceEnd
    dsimp only
    cases o with
    | blocked req =>
      dsimp only
      have hb := beginService_hears (w := { w.stopThread r (Outcome.blocked req).status with
        ctl := .mtTop r }) r req j
      refine .of_heard (hrefl.heard j) ?_
      split
      next u hu =>
        rw [hu] at hb
        exact mtServed_hears hb r
      next u p hu =>
        obtain rfl := beginService_pending hu
        exact .inl rfl
    | yielded =>
      exact (hrefl.modify r (f := fun a => { a with status := .runnable }) rfl rfl rfl).hears j
    | done | exn => exact hrefl.hears j
  | mtServed r p v _ =>
    exact mtServed_hears (finishService_hears (w := { w with ctl := .mtTop r }) hfresh
      (mtServed_aborted ha) j) r

/-! ## What is accepted -/

theorem Quiet.accepted (h : Quiet w w') : w'.accepted = w.accepted := congrArg Post.accepted h.post

/-- Accepting a message records it, whether or not it is heard at once. -/
theorem accept_accepted (s : Sent) :
    (w.accept s.sender s.dest s.msg).accepted = w.accepted ++ [s] := by
  have h := congrArg Post.accepted (posts_accept (w := w) s).post
  refine h.trans ?_
  split
  · exact Post.recv_accepted _
  · rfl

/-- Hearing is not accepting. -/
theorem recvReady_accepted (i : Nat) : (w.recvReady i).accepted = w.accepted :=
  (congrArg Post.accepted (posts_recvReady (w := w) i).post).trans (Post.recv_accepted _)

/-- What the second half of a service accepts is the message it had pending. -/
theorem finishService_accepted (i : Nat) (v : Val) (p : Pending) :
    (w.finishService i v p).accepted = w.accepted ++ w.pendingAccepts i p := by
  have hres : ∀ (u : World) (v : Val), (u.resume i v).accepted = u.accepted := fun u v =>
    ((Quiet.refl u).resume i v).accepted
  cases p with
  | send d payload => exact (hres _ _).trans (accept_accepted ⟨some i, d, ⟨payload, []⟩⟩)
  | sendCaps d payload row =>
    simp only [finishService, pendingAccepts]
    cases loadCaps (w.actor i) row with
    | none => exact (((Quiet.refl w).crash i).accepted).trans (List.append_nil _).symm
    | some caps => exact (hres _ _).trans (accept_accepted ⟨some i, d, ⟨payload, caps⟩⟩)
  | spawn fn =>
    simp only [finishService, pendingAccepts, List.append_nil]
    rw [hres]
    exact (quiet_start (Quiet.refl (w.register false)) w.next fn).accepted
  | fetch => exact (((Quiet.refl w).dispatch i).accepted).trans (List.append_nil _).symm
  | answer | sleep => exact (hres w _).trans (List.append_nil _).symm

/-- The first half accepts nothing. -/
theorem beginService_accepted (i : Nat) (req : Request) :
    (w.beginService i req).1.accepted = w.accepted := by
  have hrefl := Quiet.refl w
  cases req with
  | recv =>
    unfold beginService
    dsimp only
    split
    · rfl
    · exact recvReady_accepted i
  | send h payload | sendCaps h payload row =>
    unfold beginService
    dsimp only
    split
    · exact (hrefl.crash i).accepted
    · rfl
  | fetch rq cfg check =>
    unfold beginService
    cases check with
    | malformed => exact (hrefl.crash i).accepted
    | invalid code => exact (hrefl.httpResume i _).accepted
    | sound =>
      dsimp only
      split
      · exact (hrefl.park i).accepted
      · split
        · rfl
        · exact (hrefl.dispatch i).accepted
  | closeHandle h =>
    unfold beginService
    dsimp only
    split
    · exact ((Quiet.refl _).resume i _).accepted
    · exact (hrefl.resume i _).accepted
  | spawn fn | readBat path | readFolder path | sleep secs => rfl

/-- In one go a service accepts what its request asks for, if the handles are live. -/
theorem service_accepted (i : Nat) (req : Request) (v : Val) :
    (w.service i req v).accepted = w.accepted ++ w.requestAccepts i req := by
  have hb := beginService_accepted (w := w) i req
  unfold service
  split
  next u hu =>
    rw [hu] at hb
    rw [hb]
    cases req with
    -- the handle was dead, and nothing is accepted
    | send h payload | sendCaps h payload row =>
      simp only [beginService] at hu
      simp only [requestAccepts]
      split at hu
      next hn => simp [hn]
      next => cases hu
    | _ => simp [requestAccepts]
  next u p hu =>
    obtain rfl := beginService_pending hu
    rw [finishService_accepted]
    congr 1
    cases req with
    | send h payload | sendCaps h payload row =>
      simp only [beginService] at hu
      simp only [requestAccepts]
      split at hu
      next => simp at hu
      next d hd =>
        cases hu
        simp [hd]
    | recv =>
      simp only [beginService] at hu
      split at hu <;> simp at hu
    | fetch _ _ check =>
      cases check with
      | malformed | invalid _ => simp [beginService] at hu
      | sound =>
        simp only [beginService] at hu
        split at hu
        · simp at hu
        · split at hu
          · cases hu
            rfl
          · simp at hu
    | closeHandle _ => simp [beginService] at hu
    | spawn _ | readBat _ | readFolder _ | sleep _ =>
      cases hu
      rfl

/-- What is accepted depends on the sender's handles only. -/
theorem handleGet_congr {a b : Actor} (h : a.handles = b.handles) : handleGet a = handleGet b := by
  funext v
  unfold handleGet
  rw [h]

/-- The same for a row of handles. -/
theorem loadCaps_congr {a b : Actor} (h : a.handles = b.handles) : loadCaps a = loadCaps b := by
  have hcap : ∀ es, loadCap a es = loadCap b es := by
    intro es
    induction es with
    | nil => rfl
    | cons e es ih => simp only [loadCap, ih, handleGet_congr h]
  funext row
  cases row <;> simp only [loadCaps, hcap]

/-- The handles of the sender decide what a request accepts. -/
theorem requestAccepts_congr {i : Nat} (h : (w'.actor i).handles = (w.actor i).handles)
    (req : Request) : w'.requestAccepts i req = w.requestAccepts i req := by
  cases req <;> simp only [requestAccepts, pendingAccepts, handleGet_congr h, loadCaps_congr h]

/-- A step appends what it accepts to the record. -/
theorem step_accepted {e : Event} (h : World.step e w = some w') :
    w'.accepted = w.accepted ++ w.accepts e := by
  cases step_mailing h with
  | quiet h hn => rw [h.accepted, hn, List.append_nil]
  | inject i v _ =>
    simp only [accepts, inject]
    split
    · exact (List.append_nil _).symm
    · exact accept_accepted ⟨none, i, ⟨v, []⟩⟩
  | register b hn => rw [hn, List.append_nil, register]
  | sliceEnd k i o =>
    have hrefl : Quiet w ((w.stopThread i o.status).setPc k (.after i)) :=
      ((Quiet.refl w).stopThread i _).setPc k fun _ _ => by simp
    simp only [accepts, List.append_nil]
    unfold workerSliceEnd
    dsimp only
    cases o with
    | blocked req =>
      dsimp only
      have hb := beginService_accepted (w := (w.stopThread i (Outcome.blocked req).status).setPc k
        (.after i)) i req
      split
      next u hu =>
        rw [hu] at hb
        exact hb
      next u p hu =>
        rw [hu] at hb
        exact hb
    | yielded | done | exn => exact (hrefl.endSlice i _).accepted
  | served k i p v _ hpc =>
    simp only [accepts, hpc]
    exact finishService_accepted i v p
  | detSliceEnd root i o v hc =>
    have hrefl : Quiet w { w.stopThread i o.status with ctl := .detTop root } :=
      ((Quiet.refl w).stopThread i _).set rfl rfl rfl rfl fun _ _ h => by cases h
    unfold detSliceEnd
    dsimp only
    cases o with
    | blocked req =>
      simp only [accepts, hc]
      have hs := service_accepted (w := { w.stopThread i (Outcome.blocked req).status with
        ctl := .detTop root }) i req v
      rw [requestAccepts_congr (congrFun (congrArg Post.handles hrefl.post) i)] at hs
      split
      · exact (((Quiet.refl _).unwind i).accepted).trans hs
      · exact hs
    | yielded => exact ((hrefl.enqueue i).accepted).trans (List.append_nil _).symm
    | done =>
      dsimp only
      split
      · exact (List.append_nil _).symm
      · exact ((hrefl.endSlice i _).accepted).trans (List.append_nil _).symm
    | exn =>
      dsimp only
      split
      · exact (List.append_nil _).symm
      · exact ((hrefl.endSlice i _).accepted).trans (List.append_nil _).symm
  | mtSliceEnd r o =>
    simp only [accepts, List.append_nil]
    unfold mtSliceEnd
    dsimp only
    cases o with
    | blocked req =>
      dsimp only
      have hb := beginService_accepted (w := { w.stopThread r (Outcome.blocked req).status with
        ctl := .mtTop r }) r req
      split
      next u hu =>
        rw [hu] at hb
        exact ((mtServed_clean r).1.accepted).trans hb
      next u p hu =>
        rw [hu] at hb
        exact hb
    | yielded | done | exn => rfl
  | mtServed r p v hc =>
    simp only [accepts, hc]
    exact ((mtServed_clean r).1.accepted).trans (finishService_accepted r v p)

end World

variable {tr : List (Taken World Event)} {w : World}

/-- The messages a run accepts, in the order of its steps. -/
def acceptedBy (tr : List (Taken World Event)) : List Sent :=
  tr.flatMap fun x => x.pre.accepts x.event

/-- The record at the end of a run is what its steps accepted. By induction on the run. -/
theorem accepted_eq (h : Run Any tr w) : w.accepted = acceptedBy tr := by
  induction h with
  | nil => rfl
  | snoc _ _ hs ih =>
    rw [World.step_accepted hs, ih]
    simp [acceptedBy]

/-- Exactly-once delivery in order: what an actor has heard, followed by its
mailbox, is what the run accepted for it. A step in which an actor hears a
message leaves it with the response of that message. A step in which a service
crashes its caller changes no mail and no handles. An actor is parked on `Recv`
with an empty mailbox. -/
theorem delivery_fifo (h : Run Any tr w) :
    (∀ i, (w.actor i).heard ++ (w.actor i).mbox =
      ((acceptedBy tr).filter (·.dest = i)).map (·.msg)) ∧
    (∀ x ∈ tr, ∀ i, World.Hears (x.pre.actor i) (x.post.actor i)) ∧
    (∀ x ∈ tr, x.post.crashes ≠ x.pre.crashes → x.pre.accepts x.event = [] ∧
      ∀ i, (x.post.actor i).mbox = (x.pre.actor i).mbox ∧
        (x.post.actor i).handles = (x.pre.actor i).handles ∧
        (x.post.actor i).heard = (x.pre.actor i).heard) ∧
    ∀ i, w.receiving i → (w.actor i).mbox = [] := by
  have hr := reached_of_run h
  refine ⟨fun i => ?_, fun x hx i => ?_, fun x hx hne => ?_, fun i hi => ?_⟩
  · rw [← accepted_eq h]
    exact hr.post.fifo i
  · obtain ⟨hpre, hpost, hs⟩ := reached_of_mem h hx
    -- an actor that is registered later has heard nothing
    have hfresh : (x.pre.actor x.pre.next).heard = [] := by
      rw [hpre.inv.fresh _ (Nat.le_refl _)]
    exact World.step_hears hs hfresh hpost.inv.aborted i
  · obtain ⟨-, -, hs⟩ := reached_of_mem h hx
    have hp := (World.step_clean hs).resolve_right hne
    refine ⟨?_, fun i => ⟨congrFun (congrArg Post.mbox hp) i, congrFun (congrArg Post.handles hp) i,
      congrFun (congrArg Post.heard hp) i⟩⟩
    have ha := World.step_accepted hs
    rw [show x.post.accepted = x.pre.accepted from congrArg Post.accepted hp] at ha
    simpa using ha
  · exact (hr.inv.actor i).mail (by simp) hi.1 hi.2

/-- Actor 0 hears what was injected, makes actor 1 and sends it to itself, and
then to actor 1 with itself as a capability; actor 1 hears that while parked. -/
def selfSend : List Event :=
  [.newActor, .start 0 (.nat 0), .inject 0 (.nat 7), .callRun, .detTop [],
    .detSliceEnd (.blocked .recv) (.nat 0), .detTop [],
    .detSliceEnd (.blocked (.spawn (.nat 0))) (.nat 0), .detTop [],
    .detSliceEnd (.blocked .recv) (.nat 0), .detTop [],
    .detSliceEnd (.blocked (.send (.nat 0) (.nat 9))) (.nat 0), .detTop [],
    .detSliceEnd (.blocked (.sendCaps (.nat 1) (.nat 8) (.app 0 (.nat 0) [.nat 0]))) (.nat 0)]

theorem delivery_fifo_selfSend : ∃ tr w, Run Any tr w ∧
    (w.actor 0).heard = [⟨.nat 7, []⟩] ∧ (w.actor 0).mbox = [⟨.nat 9, []⟩] ∧
    ((acceptedBy tr).filter (·.dest = 0)).map (·.msg) = [⟨.nat 7, []⟩, ⟨.nat 9, []⟩] ∧
    ((acceptedBy tr).filter (·.dest = 1)).map (·.msg) = [⟨.nat 8, [0]⟩] ∧
    World.Resumes (w.actor 1) ⟨.nat 8, [0]⟩ := by
  obtain ⟨tr, htr⟩ := Trace.played World.step selfSend {} {} (by decide +kernel)
  have hh : (((play World.step selfSend {}).getD {}).actor 0).heard = [⟨.nat 7, []⟩] := by
    decide +kernel
  have hm : (((play World.step selfSend {}).getD {}).actor 0).mbox = [⟨.nat 9, []⟩] := by
    decide +kernel
  have hh' : (((play World.step selfSend {}).getD {}).actor 1).heard = [⟨.nat 8, [0]⟩] := by
    decide +kernel
  -- the first conjunct at both actors, the rest by running the events
  refine ⟨tr, _, htr, hh, hm, ?_, ?_, [1], ?_, ?_⟩
  · rw [← (delivery_fifo htr).1 0, hh, hm]
    rfl
  · rw [← (delivery_fifo htr).1 1, hh']
    decide +kernel
  · decide +kernel
  · decide +kernel

end Enki.Runtime
