import Enki.Runtime.World

/-!
# The actor runtime: steps

Every step is a stretch of code that runs under one hold of the scheduler lock,
or a part of one; a thread that waits on a condition variable may run whenever
it finds the lock free. The deterministic executor takes no lock, but nothing
else runs beside it.

An event says who moves and supplies what the model leaves open: how a slice
ends and which request it parks (so every program is covered), what curl reports
and what an external read returns. A step is `none` when the thread it names is
elsewhere, when it would only go on waiting, or when the embedder breaks the
contract of `enki/actor.h`.
-/

namespace Enki.Runtime

/-- What `er_http_parse` and `er_http_validate` find. -/
inductive FetchCheck where
  | malformed
  | invalid (code : Nat)
  | sound
  deriving DecidableEq

/-- A parked coordination request with its arguments. -/
inductive Request where
  | recv
  | send (h payload : Val)
  | sendCaps (h payload row : Val)
  | spawn (fn : Val)
  | fetch (request config : Val) (check : FetchCheck)
  | readBat (path : Val)
  | readFolder (path : Val)
  | sleep (secs : Val)
  | closeHandle (h : Val)
  deriving DecidableEq

/-- How a slice ends. -/
inductive Outcome where
  | yielded
  | done
  | exn
  | blocked (req : Request)
  deriving DecidableEq

def Outcome.status : Outcome → RunStatus
  | .yielded => .yielded
  | .done => .done
  | .exn => .exn
  | .blocked _ => .blocked

namespace World

/-! ## Services -/

/-- `er_service` as far as its first hold of the lock goes. -/
def beginService (w : World) (i : Nat) : Request → World × Option Pending
  | .recv =>
    match (w.actor i).mbox with
    -- nothing to hear: the actor waits for a sender to wake it
    | [] => (w.modify i fun a => { a with status := .blocked }, none)
    | _ :: _ => (w.recvReady i, none)
  -- the handle is looked up before the lock is let go
  | .send h payload =>
    match handleGet (w.actor i) h with
    | none => (w.crash i, none)
    | some dest => (w, some (.send dest payload))
  | .sendCaps h payload row =>
    match handleGet (w.actor i) h with
    | none => (w.crash i, none)
    | some dest => (w, some (.sendCaps dest payload row))
  | .spawn fn => (w, some (.spawn fn))
  -- a request that does not parse crashes, one that is not valid gets an error
  | .fetch _ _ .malformed => (w.crash i, none)
  | .fetch _ _ (.invalid code) => (w.httpResume i (.app 0 (.nat 1) [.nat code]), none)
  | .fetch _ _ .sound =>
    -- a replay waits for the answer in the log
    if w.mode = .replay then (w.park i, none)
    else if w.pumping then (w, some .fetch)
    else (w.dispatch i, none)
  | .readBat _ | .readFolder _ => (w, some .answer)
  | .sleep _ => (w, some .sleep)
  | .closeHandle h =>
    -- closing what is no handle does nothing
    let w := match nat63? h with
      | some n => w.modify i fun a => { a with handles := a.handles.set n none }
      | none => w
    (w.resume i (.nat 0), none)

/-- The rest of `er_service`, once it holds the lock again. `v` is what an
external read returned. -/
def finishService (w : World) (i : Nat) (v : Val) : Pending → World
  | .send dest payload => (w.accept (some i) dest ⟨payload, []⟩).resume i (.nat 0)
  | .sendCaps dest payload row =>
    -- a bad handle in the row is found only now, and delivers nothing
    match loadCaps (w.actor i) row with
    | none => w.crash i
    | some caps => (w.accept (some i) dest ⟨payload, caps⟩).resume i (.nat 0)
  | .spawn fn =>
    let child := w.next
    let w := (w.register false).start child fn
    let h := (w.actor i).handles.length
    (w.modify i fun a => handleAlloc a [child]).resume i (.nat h)
  | .fetch => w.dispatch i
  | .answer => w.resume i v
  | .sleep => w.resume i (.nat 0)

/-- `er_service` without other threads. -/
def service (w : World) (i : Nat) (req : Request) (v : Val) : World :=
  match w.beginService i req with
  | (w, none) => w
  | (w, some p) => w.finishService i v p

/-! ## The worker pool -/

/-- The first spare worker of `worker_head`: the newest. -/
def newestSpare (w : World) : Option Nat :=
  (List.range w.pool.length).reverse.find? fun k => (w.worker k).role = .spare

/-- `er_mt_promote_general_locked`, with `er_mt_spawn_general_locked`. -/
def promote (w : World) : World :=
  match w.newestSpare with
  | some k =>
    { w.setWorker k { w.worker k with role := .general } with generalN := w.generalN + 1 }
  | none => { w with pool := w.pool ++ [{}], generalN := w.generalN + 1 }

/-- `er_mt_bind_locked`. -/
def bind (w : World) (k i : Nat) : World :=
  let x := w.worker k
  match (w.actor i).owner with
  -- bound already, which must be to this worker
  | some k' => w.assume (k' = k ∧ x.actor = some i ∧ x.role = .bound)
  | none =>
    let w := w.assume (!(w.actor i).adopted ∧ x.role = .general ∧ x.actor = none ∧ !x.ready ∧
      0 < w.generalN)
    let w := (w.setWorker k { x with role := .bound, actor := some i }).modify i fun a =>
      { a with owner := some k }
    -- another worker takes the place of the one that is bound
    let w := { w with generalN := w.generalN - 1 }.promote
    w.assume (w.generalN = w.workers)

/-- The actor is halted or crashed. -/
def terminated (w : World) (i : Nat) : Bool :=
  (w.actor i).status = .halted ∨ (w.actor i).status = .crashed

/-- `er_mt_release_bound_locked`. -/
def release (w : World) (k : Nat) : World :=
  let x := w.worker k
  match x.actor with
  | none => w.assume false
  | some i =>
    ((w.assume (x.role = .bound ∧ (w.actor i).owner = some k ∧ !x.ready ∧
      w.terminated i)).modify i fun a => { a with owner := none }).setWorker k
        { x with actor := none, role := .spare }

/-- `er_mt_has_runnable_spawned_locked`. -/
def hasRunnableSpawned (w : World) : Bool := w.queue ≠ [] ∨ w.readyBound ≠ 0

/-- `er_run_reason_locked`. -/
def runReason (w : World) : Answer :=
  if (List.range w.next).any fun i => !(w.actor i).adopted ∧ (w.actor i).started ∧
    (w.actor i).status = .blocked then .quiescent else .idle

/-- `er_mt_maybe_complete_locked`. -/
def maybeComplete (w : World) : World :=
  -- a drive ends with its root, so only a run completes here
  if !w.running ∨ w.root ≠ none ∨ w.busyN ≠ 0 ∨ w.hasRunnableSpawned ∨ w.outstanding then w
  else { w with reason := w.runReason, running := false }

/-- Set a worker's place. -/
def setPc (w : World) (k : Nat) (pc : Pc) : World := w.setWorker k { w.worker k with pc }

/-- A worker becomes busy with a slice of `i`. -/
def enterSlice (w : World) (k i : Nat) : World :=
  { (w.runThread i).setPc k (.slice i) with busyN := w.busyN + 1 }

/-- The head of the loop of `er_mt_worker_main`. -/
def workerTop (w : World) (k : Nat) : Option World :=
  let x := w.worker k
  if w.shutdown then some (w.setPc k .exited)
  -- it waits for a call to begin
  else if !w.running then none
  else match x.role with
  | .bound =>
    match x.actor with
    | none => some (w.assume false)
    | some i =>
      -- its actor is gone: back to the spares
      if w.terminated i then some (w.release k)
      else if (w.actor i).status ≠ .runnable then some w.maybeComplete
      else
        let w := w.assume (x.ready ∧ 0 < w.readyBound)
        some ({ w.setWorker k { x with ready := false } with
          readyBound := w.readyBound - 1 }.enterSlice k i)
  | .spare => none
  | .general =>
    -- during a drive the root is left to the controller
    match if w.root = none then w.dequeue else w.dequeueSpawned with
    | none => some { w.setPc k .idle with busyN := w.busyN + 1 }
    | some (i, w) =>
      let w := w.assume (!(w.actor i).adopted ∧ (w.actor i).owner = none)
      -- an actor that has had effects stays on one thread
      let w := if (w.actor i).effectful then w.bind k i else w
      some (w.enterSlice k i)

/-- `er_step`, when the slice did not end in a request. -/
def endSlice (w : World) (i : Nat) : Outcome → World
  | .done => w.modify i fun a => { a with status := .halted }
  | .exn => w.crash i
  -- it has yielded
  | _ => w.enqueue i

/-- A worker's slice is over: `er_step`, as far as the first hold of the lock
goes. -/
def workerSliceEnd (w : World) (k i : Nat) (o : Outcome) : World :=
  let w := (w.stopThread i o.status).setPc k (.after i)
  match o with
  | .blocked req =>
    match w.beginService i req with
    | (w, none) => w
    | (w, some p) => w.setPc k (.serving i p)
  | o => w.endSlice i o

/-- `er_actor_rplan_effect` on a pool worker, in a slice of `i`. -/
def workerEffect (w : World) (k i : Nat) : World :=
  let w := w.modify i fun a => { a with effectful := true }
  if (w.actor i).adopted ∨ (w.actor i).owner = some k then w else w.bind k i

/-- A worker takes the lock again after `er_step`. -/
def workerAfter (w : World) (k i : Nat) : World :=
  let w := { w.setPc k .top with busyN := w.busyN - 1 }
  let x := w.worker k
  -- the slice was the last one of a bound actor
  let w := if x.role = .bound ∧ x.actor = some i ∧ w.terminated i then w.release k else w
  w.maybeComplete

/-- `er_http_mt_pump` up to the curl wait. -/
def pumpTry (w : World) (k : Nat) : World :=
  if !w.curlm ∨ w.pumping ∨ !w.outstanding then w.setPc k .pumped
  else { w.setPc k .pumping with pumping := true }

/-- `er_http_mt_pump` after the curl wait. -/
def pumpEnd (w : World) (k : Nat) (hs : List (Nat × Val)) : Option World :=
  (harvest hs { w.setPc k .pumped with pumping := false }).map depositAll

/-- A worker takes the lock again after `er_http_mt_pump`. -/
def workerPumped (w : World) (k : Nat) : World :=
  { w.setPc k .top with busyN := w.busyN - 1 }.maybeComplete

/-! ## The deterministic executor -/

/-- `er_scheduler_run` and `er_scheduler_drive` return when nothing is left to
run. -/
def detReturn (w : World) : Option Nat → World
  | none =>
    let blocked := (List.range w.next).any fun i => (w.actor i).status = .blocked
    { w with ctl := .out, answer := some (if blocked then .quiescent else .idle) }
  -- a drive without anything to run cannot end its root
  | some r => { w.unwind r with ctl := .out, answer := some .deadlock }

/-- `er_http_pump`: nothing to do before the first transfer. -/
def httpPump (w : World) (hs : List (Nat × Val)) : Option World :=
  if w.curlm then
    (harvest hs w).map fun w => if w.mode = .live then w.depositAll else w
  else some w

/-- The head of the loop: pump, then take the first queued actor. -/
def detTop (w : World) (root : Option Nat) (hs : List (Nat × Val)) : Option World :=
  (w.httpPump hs).map fun w =>
    match w.dequeue with
    | none => { w with ctl := .detIdle root }
    | some (i, w) =>
      -- a run has no adopted actor to run
      let w := if root = none then w.assume (!(w.actor i).adopted) else w
      { w.runThread i with ctl := .detSlice root i }

/-- `er_http_idle`. Where completions are awaited, the step is taken once there
is one. -/
def detIdle (w : World) (root : Option Nat) (hs : List (Nat × Val)) : Option World :=
  match w.mode with
  -- the next answer comes from the log, for the actor it names
  | .replay =>
    if w.parkedN = 0 then some (w.detReturn root)
    else match hs with
    | [(i, v)] =>
      if (w.actor i).http then
        some { (w.httpResume i v).unlinkInflight i with ctl := .detTop root }
      else none
    | _ => none
  | mode =>
    -- nothing is in flight, so nothing will wake anyone
    if w.inflightN = 0 ∧ w.done = [] then some (w.detReturn root)
    else (harvest hs w).bind fun w =>
      if w.done = [] then none
      else some { if mode = .live then w.depositAll else w.depositHead with ctl := .detTop root }

/-- A slice of the deterministic executor is over. -/
def detSliceEnd (w : World) (root : Option Nat) (i : Nat) (o : Outcome) (v : Val) : World :=
  let w := { w.stopThread i o.status with ctl := .detTop root }
  match o with
  | .blocked req =>
    let w := w.service i req v
    -- a bad handle of the root ends the drive
    if root = some i ∧ (w.actor i).status = .crashed then
      { w.unwind i with ctl := .out, answer := some .exn }
    else w
  | .yielded => w.enqueue i
  | .done =>
    if root = some i then { w with ctl := .out, answer := some .done } else w.endSlice i .done
  | .exn =>
    if root = some i then { w with ctl := .out, answer := some .exn } else w.endSlice i .exn

/-! ## The controller of the multithreaded executor -/

/-- The condition of `ER_DRIVE_DEADLOCK`. -/
def deadlocked (w : World) (r : Nat) : Bool :=
  (w.actor r).status = .blocked ∧ w.busyN = 0 ∧ !w.hasRunnableSpawned ∧ !w.outstanding

/-- The head of the loop of `er_mt_executor_drive`. -/
def mtTop (w : World) (r : Nat) : Option World :=
  if (w.actor r).status = .runnable then some { w.runThread r with ctl := .mtSlice r }
  else if w.deadlocked r then some { w with ctl := .mtCheck r }
  -- it waits on `controller_cv`
  else none

/-- After a service of the root: a crash ends the drive. -/
def mtServed (w : World) (r : Nat) : World :=
  if (w.actor r).status = .crashed then { w.unwind r with ctl := .mtDone r .exn } else w

/-- The root's slice is over. -/
def mtSliceEnd (w : World) (r : Nat) (o : Outcome) : World :=
  let w := { w.stopThread r o.status with ctl := .mtTop r }
  match o with
  | .yielded => w.modify r fun a => { a with status := .runnable }
  | .done => { w with ctl := .mtDone r .done }
  | .exn => { w with ctl := .mtDone r .exn }
  | .blocked req =>
    match w.beginService r req with
    | (w, none) => w.mtServed r
    | (w, some p) => { w with ctl := .mtServing r p }

/-- The second look at the deadlock condition. -/
def mtCheck (w : World) (r : Nat) : World :=
  if w.deadlocked r then { w.unwind r with ctl := .mtDone r .deadlock }
  else { w with ctl := .mtTop r }

/-! ## Calls of the embedder -/

/-- `er_mt_executor_new`. -/
def newExecutor (w : World) (n : Nat) : World :=
  { w with
    attached := true
    workers := n
    pool := List.replicate n {}
    generalN := n
    readyBound := 0
    busyN := 0
    entered := false
    running := false
    shutdown := false
    root := none
    reason := .idle }

/-- `er_mt_executor_free` up to the joins. -/
def beginFree (w : World) : World :=
  { w.assume (!w.entered ∧ !w.running ∧ w.busyN = 0) with shutdown := true, ctl := .freeing }

/-- One worker of `er_mt_executor_free`, after the joins. -/
def detach (w : World) (k : Nat) : World :=
  let x := w.worker k
  match x.actor with
  | none => w
  | some i =>
    let w := (w.assume ((w.actor i).owner = some k)).modify i fun a => { a with owner := none }
    let w := if x.ready then
      { w.assume (0 < w.readyBound) with readyBound := w.readyBound - 1 } else w
    let w := w.setWorker k { x with actor := none, ready := false }
    -- what is ready to run can be run without the pool
    if (w.actor i).status = .runnable then w.enqueue i else w

/-- `er_mt_executor_free` after the joins, for the workers of `worker_head`. -/
def endFree (w : World) : World :=
  let w := (List.range w.pool.length).reverse.foldl detach w
  { w with
    attached := false
    pool := []
    workers := 0
    generalN := 0
    shutdown := false
    ctl := .out }

/-- `er_mt_executor_run` up to its wait. -/
def callMtRun (w : World) : World :=
  { w.assume (!w.entered ∧ !w.running) with
    entered := true
    root := none
    reason := .idle
    running := true
    ctl := .mtRun }.maybeComplete

/-- `er_mt_executor_drive` up to its loop. -/
def callMtDrive (w : World) (r : Nat) : World :=
  { (w.assume (!w.entered ∧ !w.running)).modify r fun a => { a with status := .runnable } with
    entered := true
    root := some r
    running := true
    queue := w.queue.erase r
    ctl := .mtTop r }

/-- `er_scheduler_drive` up to its loop. -/
def callDrive (w : World) (r : Nat) : World :=
  ({ w with ctl := .detTop (some r) }.modify r fun a => { a with status := .runnable }).enqueue r

/-- `er_scheduler_inject`. -/
def inject (w : World) (i : Nat) (v : Val) : World :=
  if w.terminated i then w else w.accept none i ⟨v, []⟩

end World

/-! ## Events -/

/-- Who moves, and what the outside contributes. -/
inductive Event where
  /-- `er_scheduler_actor`. -/
  | newActor
  /-- `er_actor_start`. -/
  | start (i : Nat) (fn : Val)
  /-- `er_scheduler_adopt`. -/
  | adopt
  /-- The embedder arms an adopted thread (`pl_thread_start` and its kin). -/
  | arm (i : Nat) (v : Val)
  /-- `er_scheduler_record`, `er_scheduler_replay`. -/
  | setMode (m : Mode)
  | inject (i : Nat) (v : Val)
  | newExecutor (n : Nat)
  | beginFree
  | endFree
  | callRun
  | callDrive (r : Nat)
  | callMtRun
  | callMtDrive (r : Nat)
  /-- The deterministic executor. -/
  | detTop (hs : List (Nat × Val))
  | detIdle (hs : List (Nat × Val))
  | detEffect
  | detSliceEnd (o : Outcome) (v : Val)
  /-- Worker `k`. -/
  | top (k : Nat)
  | effect (k : Nat)
  | sliceEnd (k : Nat) (o : Outcome)
  | served (k : Nat) (v : Val)
  | after (k : Nat)
  | pumpTry (k : Nat)
  | pumpEnd (k : Nat) (hs : List (Nat × Val))
  | pumped (k : Nat)
  /-- The controller. -/
  | mtTop
  | mtEffect
  | mtSliceEnd (o : Outcome)
  | mtServed (v : Val)
  | mtCheck
  | mtDone
  | mtLeave
  | mtRunReturn

namespace World

/-- A host thread may inject beside the multithreaded executor, but only between
calls of the deterministic one. -/
def injectable (w : World) : Bool :=
  match w.ctl with
  | .detTop _ | .detIdle _ | .detSlice _ _ => false
  | _ => true

/-- A second hold of the lock is possible: a dispatch waits out the curl wait. -/
def settled (w : World) : Pending → Bool
  | .fetch => !w.pumping
  | _ => true

/-- Calls of the embedder, who is in no other call. -/
def hostStep (w : World) : Event → Option World
  | .newActor => some (w.register false)
  | .start i fn =>
    if i < w.next ∧ !(w.actor i).adopted ∧ !(w.actor i).started then some (w.start i fn) else none
  | .adopt => some (w.register true)
  -- only the thread of an adopted actor is the embedder's
  | .arm i v =>
    if i < w.next ∧ (w.actor i).adopted then
      some (w.modify i fun a => { a with thread := ⟨.yielded, v⟩ }) else none
  -- once, and a replay before any transfer
  | .setMode m =>
    if w.mode = .live ∧ m ≠ .live ∧ (m = .replay → !w.curlm ∧ w.inflightN = 0) then
      some { w with mode := m } else none
  | .newExecutor n => if !w.attached ∧ 0 < n then some (w.newExecutor n) else none
  | .beginFree => if w.attached then some w.beginFree else none
  | .callRun => if !w.attached then some { w with ctl := .detTop none } else none
  | .callDrive r =>
    if !w.attached ∧ r < w.next ∧ (w.actor r).adopted ∧ (w.actor r).thread.status = .yielded then
      some (w.callDrive r) else none
  | .callMtRun => if w.attached ∧ w.mode = .live then some w.callMtRun else none
  | .callMtDrive r =>
    if w.attached ∧ w.mode = .live ∧ r < w.next ∧ (w.actor r).adopted ∧
      (w.actor r).thread.status = .yielded then some (w.callMtDrive r) else none
  | _ => none

/-- Steps of the thread in a call of an executor. -/
def ctlStep (w : World) : Event → Option World
  | .detTop hs =>
    match w.ctl with
    | .detTop root => w.detTop root hs
    | _ => none
  | .detIdle hs =>
    match w.ctl with
    | .detIdle root => w.detIdle root hs
    | _ => none
  | .detEffect =>
    match w.ctl with
    | .detSlice _ i => some (w.modify i fun a => { a with effectful := true })
    | _ => none
  | .detSliceEnd o v =>
    match w.ctl with
    | .detSlice root i => some (w.detSliceEnd root i o v)
    | _ => none
  | .mtTop =>
    match w.ctl with
    | .mtTop r => w.mtTop r
    | _ => none
  | .mtEffect =>
    match w.ctl with
    | .mtSlice r | .mtServing r _ => some (w.modify r fun a => { a with effectful := true })
    | _ => none
  | .mtSliceEnd o =>
    match w.ctl with
    | .mtSlice r => some (w.mtSliceEnd r o)
    | _ => none
  | .mtServed v =>
    match w.ctl with
    | .mtServing r p =>
      if w.settled p then
        some (({ w with ctl := .mtTop r }.finishService r v p).mtServed r) else none
    | _ => none
  | .mtCheck =>
    match w.ctl with
    | .mtCheck r => some (w.mtCheck r)
    | _ => none
  | .mtDone =>
    match w.ctl with
    | .mtDone r out => some { w with running := false, ctl := .mtLeave r out }
    | _ => none
  | .mtLeave =>
    match w.ctl with
    | .mtLeave _ out =>
      -- the drive waits until every worker is out of its slice
      if w.busyN = 0 ∧ !w.pumping then
        some { w with root := none, entered := false, ctl := .out, answer := some out } else none
    | _ => none
  | .mtRunReturn =>
    if w.ctl = .mtRun ∧ !w.running then
      some { w with entered := false, ctl := .out, answer := some w.reason } else none
  | .endFree =>
    -- the joins: every worker has left its loop
    if w.ctl = .freeing ∧ w.pool.all (·.pc = .exited) then some w.endFree else none
  | _ => none

/-- Steps of worker `k`. -/
def workerStep (w : World) : Event → Option World
  | .top k =>
    match w.pool[k]? with
    | some ⟨_, _, _, .top⟩ => w.workerTop k
    | _ => none
  | .effect k =>
    match w.pool[k]? with
    | some ⟨_, _, _, .slice i⟩ | some ⟨_, _, _, .serving i _⟩ => some (w.workerEffect k i)
    | _ => none
  | .sliceEnd k o =>
    match w.pool[k]? with
    | some ⟨_, _, _, .slice i⟩ => some (w.workerSliceEnd k i o)
    | _ => none
  | .served k v =>
    match w.pool[k]? with
    | some ⟨_, _, _, .serving i p⟩ =>
      if w.settled p then some ((w.setPc k (.after i)).finishService i v p) else none
    | _ => none
  | .after k =>
    match w.pool[k]? with
    | some ⟨_, _, _, .after i⟩ => some (w.workerAfter k i)
    | _ => none
  | .pumpTry k =>
    match w.pool[k]? with
    | some ⟨_, _, _, .idle⟩ => some (w.pumpTry k)
    | _ => none
  | .pumpEnd k hs =>
    match w.pool[k]? with
    | some ⟨_, _, _, .pumping⟩ => w.pumpEnd k hs
    | _ => none
  | .pumped k =>
    match w.pool[k]? with
    | some ⟨_, _, _, .pumped⟩ => some (w.workerPumped k)
    | _ => none
  | _ => none

/-- One step of the system. -/
def step (e : Event) (w : World) : Option World :=
  match e with
  | .inject i v => if i < w.next ∧ w.injectable then some (w.inject i v) else none
  | .newActor | .start _ _ | .adopt | .arm _ _ | .setMode _ | .newExecutor _ | .beginFree
  | .callRun | .callDrive _ | .callMtRun | .callMtDrive _ =>
    if w.ctl = .out then w.hostStep e else none
  | .top _ | .effect _ | .sliceEnd _ _ | .served _ _ | .after _ | .pumpTry _ | .pumpEnd _ _
  | .pumped _ => w.workerStep e
  | e => w.ctlStep e

end World

end Enki.Runtime
