import Enki.Value

/-!
# The actor runtime: state

The scheduler of `enki/src/actor.c` and the bookkeeping of its HTTP driver
(`enki/src/http.c`). The state is everything the scheduler lock protects, and
where each thread of control stands between two holds of that lock: the pool
workers (`Pc`) and the thread that called into the executor (`Ctl`).

An actor's `pl_thread` is its status and the value last deposited into it; what
it computes is not fixed, so the model covers every program. `heard`, `accepted`
and `crashes` are not in the source: they record what was delivered, what was
accepted for delivery and which services crashed their caller. `aborted` is set
where the source would stop in `ax_assume`.
-/

namespace Enki.Runtime

/-- `er_actor_status`. -/
inductive Status where
  | runnable
  | blocked
  | halted
  | crashed
  deriving DecidableEq, Repr

/-- `pl_run_status`: how a thread stopped. -/
inductive RunStatus where
  | done
  | exn
  | yielded
  | blocked
  deriving DecidableEq, Repr

/-- The part of a `pl_thread` the scheduler reads: its status, and the response
it resumes with. -/
structure Thread where
  status : RunStatus := .done
  resume : Val := .nat 0
  deriving DecidableEq

/-- `er_msg`: a payload and the actors it carries. -/
structure Msg where
  payload : Val
  caps : List Nat := []
  deriving DecidableEq

/-- A message accepted for delivery. Injections have no sender. -/
structure Sent where
  sender : Option Nat
  dest : Nat
  msg : Msg
  deriving DecidableEq

/-- `er_actor`. Actors are named by their `id`, their creation order. `http` is
whether `a->http` is set; `owner` is a worker of the executor. -/
structure Actor where
  status : Status := .runnable
  started : Bool := false
  adopted : Bool := false
  mbox : List Msg := []
  handles : List (Option Nat) := []
  http : Bool := false
  effectful : Bool := false
  owner : Option Nat := none
  thread : Thread := {}
  heard : List Msg := []

/-- What is left of a service when it takes the lock again. -/
inductive Pending where
  | send (dest : Nat) (payload : Val)
  | sendCaps (dest : Nat) (payload row : Val)
  | spawn (fn : Val)
  /-- Waiting in `er_http_curlm_settle`. -/
  | fetch
  /-- `ReadBat` and `ReadFolder`: only the result is missing. -/
  | answer
  | sleep
  deriving DecidableEq

/-- `er_mt_worker_role`. -/
inductive Role where
  | general
  | bound
  | spare
  deriving DecidableEq, Repr

/-- Where a pool worker stands while it does not hold the lock. -/
inductive Pc where
  /-- At the head of its loop, perhaps waiting on a condition variable. -/
  | top
  /-- In `pl_thread_run`. -/
  | slice (i : Nat)
  /-- In the unlocked middle of `er_service`. -/
  | serving (i : Nat) (p : Pending)
  /-- After `er_step`, before the worker stops being busy. -/
  | after (i : Nat)
  /-- Found no actor; about to call `er_http_mt_pump`. -/
  | idle
  /-- In the curl wait of `er_http_mt_pump`. -/
  | pumping
  /-- After `er_http_mt_pump`. -/
  | pumped
  /-- Left its loop. -/
  | exited
  deriving DecidableEq

/-- `er_mt_worker`. -/
structure Worker where
  role : Role := .general
  actor : Option Nat := none
  ready : Bool := false
  pc : Pc := .top
  deriving DecidableEq

/-- What a call into an executor returns: `er_run_reason`, `er_drive_status`. -/
inductive Answer where
  | idle
  | quiescent
  | done
  | exn
  | deadlock
  deriving DecidableEq, Repr

/-- The thread that calls into the executors. `root` is the driven actor. -/
inductive Ctl where
  /-- Not in any call. -/
  | out
  /-- `er_scheduler_run` and `er_scheduler_drive`: at the head of the loop, in
  `er_http_idle`, in a slice of actor `i`. -/
  | detTop (root : Option Nat)
  | detIdle (root : Option Nat)
  | detSlice (root : Option Nat) (i : Nat)
  /-- `er_mt_executor_run`, waiting. -/
  | mtRun
  /-- `er_mt_executor_drive`: at the head of the loop, in the root's slice, in
  the unlocked middle of its service, before the second look at the deadlock
  condition. -/
  | mtTop (root : Nat)
  | mtSlice (root : Nat)
  | mtServing (root : Nat) (p : Pending)
  | mtCheck (root : Nat)
  /-- At `done:`, with the answer fixed; then waiting for the workers. -/
  | mtDone (root : Nat) (out : Answer)
  | mtLeave (root : Nat) (out : Answer)
  /-- `er_mt_executor_free`, joining the workers. -/
  | freeing
  deriving DecidableEq

/-- `er_mode`. -/
inductive Mode where
  | live
  | record
  | replay
  deriving DecidableEq, Repr

/-- `er_scheduler` with the `er_mt_executor` attached to it. The pool is kept in
creation order: the source pushes at the head of `worker_head`, so its walks are
walks of the reversed list. -/
structure World where
  actor : Nat → Actor := fun _ => {}
  next : Nat := 0
  queue : List Nat := []
  mode : Mode := .live
  /-- `curlm` has been created. -/
  curlm : Bool := false
  /-- The actors of the transfers in flight, newest first. -/
  inflight : List Nat := []
  inflightN : Nat := 0
  /-- The completion FIFO: the actor and the result of each transfer. -/
  done : List (Nat × Val) := []
  parkedN : Nat := 0
  pumping : Bool := false
  /-- `mt != NULL`. -/
  attached : Bool := false
  root : Option Nat := none
  workers : Nat := 0
  pool : List Worker := []
  generalN : Nat := 0
  readyBound : Nat := 0
  busyN : Nat := 0
  entered : Bool := false
  running : Bool := false
  shutdown : Bool := false
  reason : Answer := .idle
  ctl : Ctl := .out
  /-- What the last call returned. -/
  answer : Option Answer := none
  aborted : Bool := false
  accepted : List Sent := []
  crashes : List Nat := []

namespace World

/-- Change one actor. -/
def modify (w : World) (i : Nat) (f : Actor → Actor) : World :=
  { w with actor := Function.update w.actor i (f (w.actor i)) }

/-- `pool[k]`. -/
def worker (w : World) (k : Nat) : Worker := w.pool.getD k {}

/-- Change one worker. -/
def setWorker (w : World) (k : Nat) (x : Worker) : World :=
  { w with pool := w.pool.set k x }

/-- `ax_assume`: where it fails, the process stops. -/
def assume (w : World) (c : Bool) : World := if c then w else { w with aborted := true }

/-! ## Threads -/

/-- `pl_thread_deposit`. -/
def deposit (w : World) (i : Nat) (v : Val) : World :=
  (w.assume ((w.actor i).thread.status = .blocked)).modify i fun a =>
    { a with thread := ⟨.yielded, v⟩ }

/-- `pl_thread_run` starts: its thread must have been armed, or resumed. -/
def runThread (w : World) (i : Nat) : World := w.assume ((w.actor i).thread.status = .yielded)

/-- `pl_thread_run` returns. -/
def stopThread (w : World) (i : Nat) (s : RunStatus) : World :=
  w.modify i fun a => { a with thread := { a.thread with status := s } }

/-! ## Run queue -/

/-- `er_enqueue`: a bound actor goes to its worker's private queue, the driven
root of the multithreaded executor to its controller, any other to the shared
queue. -/
def enqueue (w : World) (i : Nat) : World :=
  match (w.actor i).owner with
  | some k =>
    -- `qnext` is set for a queued actor that is not the last one.
    let w := w.assume (i ∉ w.queue.dropLast)
    let x := w.worker k
    -- once on the private queue is enough
    if x.ready then w
    else { w.setWorker k { x with ready := true } with readyBound := w.readyBound + 1 }
  -- the controller looks at the status of the root itself
  | none => if w.attached ∧ w.root = some i then w else { w with queue := w.queue ++ [i] }

/-- `er_dequeue`. -/
def dequeue (w : World) : Option (Nat × World) :=
  match w.queue with
  | [] => none
  | i :: q => some (i, { w with queue := q })

/-- `er_dequeue_spawned`: the first queued actor that is not adopted. -/
def dequeueSpawned (w : World) : Option (Nat × World) :=
  match w.queue.find? fun i => !(w.actor i).adopted with
  | none => none
  | some i => some (i, { w with queue := w.queue.erase i })

/-- Deposit a response, mark the actor runnable and enqueue it: how every
service and every wake-up ends. -/
def resume (w : World) (i : Nat) (v : Val) : World :=
  ((w.deposit i v).modify i fun a => { a with status := .runnable }).enqueue i

/-! ## Handles -/

/-- `pl_is_nat63`. -/
def nat63? : Val → Option Nat
  | .nat n => if n < 2 ^ 63 then some n else none
  | _ => none

/-- `er_handle_get`. -/
def handleGet (a : Actor) (h : Val) : Option Nat :=
  match nat63? h with
  | some n => (a.handles[n]?).join
  | none => none

/-- `er_handle_alloc`, for several actors in a row. -/
def handleAlloc (a : Actor) (targets : List Nat) : Actor :=
  { a with handles := a.handles ++ targets.map some }

/-- A row: an application of 0, or 0 itself when it is empty. -/
def valRow : List Val → Val
  | [] => .nat 0
  | vs => .app 0 (.nat 0) vs

/-- The loop of `er_load_caps`: elements that are no direct naturals are dropped,
a direct natural must be a live handle. -/
def loadCap (a : Actor) : List Val → Option (List Nat)
  | [] => some []
  | e :: es =>
    match nat63? e with
    -- no direct natural: dropped, not refused
    | none => loadCap a es
    | some _ =>
      match handleGet a e with
      | none => none
      | some t => (loadCap a es).map (t :: ·)

/-- `er_load_caps`. The row is in normal form, because `SendCaps` forces its
arguments deeply before it parks. -/
def loadCaps (a : Actor) : Val → Option (List Nat)
  | .app _ _ es => loadCap a es
  -- what is no row has no elements
  | _ => some []

/-! ## Messaging -/

/-- The response of `Recv`: the payload and the row of fresh handles. -/
def recvResponse (a : Actor) (m : Msg) : Val :=
  valRow [m.payload, valRow ((List.range m.caps.length).map fun j => .nat (a.handles.length + j))]

/-- `er_recv_ready`. -/
def recvReady (w : World) (i : Nat) : World :=
  match (w.actor i).mbox with
  | [] => w.assume false
  | m :: rest =>
    -- the handles get their numbers before they are allocated
    let v := recvResponse (w.actor i) m
    (w.modify i fun a =>
      { handleAlloc a m.caps with mbox := rest, heard := a.heard ++ [m] }).resume i v

/-- `er_deliver`. -/
def deliver (w : World) (dest : Nat) (m : Msg) : World :=
  let w := w.modify dest fun a => { a with mbox := a.mbox ++ [m] }
  -- parked in `Recv`, and not on a transfer
  if (w.actor dest).status = .blocked ∧ (w.actor dest).http = false then w.recvReady dest else w

/-- A message is accepted for delivery. -/
def accept (w : World) (sender : Option Nat) (dest : Nat) (m : Msg) : World :=
  { w with accepted := w.accepted ++ [Sent.mk sender dest m] }.deliver dest m

/-- `er_crash`. -/
def crash (w : World) (i : Nat) : World :=
  { w.modify i fun a => { a with status := .crashed } with crashes := i :: w.crashes }

/-! ## Actors -/

/-- `er_register`. -/
def register (w : World) (adopted : Bool) : World :=
  { w with
    actor := Function.update w.actor w.next { adopted, handles := [some w.next] }
    next := w.next + 1 }

/-- `er_actor_start`: `pl_thread_start_call_nf`, then into the run queue. -/
def start (w : World) (i : Nat) (fn : Val) : World :=
  ((w.assume (!(w.actor i).started ∧ (w.actor i).status = .runnable)).modify i fun a =>
    { a with started := true, thread := ⟨.yielded, fn⟩ }).enqueue i

/-- `er_root_unwind`: the root's parked continuation is given up. -/
def unwind (w : World) (i : Nat) : World :=
  (w.assume ((w.actor i).thread.status = .blocked)).modify i fun a =>
    { a with status := .runnable }

/-! ## Transfers -/

/-- `er_http_park`. -/
def park (w : World) (i : Nat) : World :=
  { w.modify i fun a => { a with http := true, status := .blocked } with
    inflight := i :: w.inflight
    inflightN := w.inflightN + 1
    parkedN := w.parkedN + 1 }

/-- `er_http_dispatch`: the first one creates the multi handle. -/
def dispatch (w : World) (i : Nat) : World := { w.park i with curlm := true }

/-- `er_http_resume`. -/
def httpResume (w : World) (i : Nat) (v : Val) : World :=
  let w := w.deposit i v
  -- a request that failed its check was never parked
  let w := if (w.actor i).http then
    { w.modify i fun a => { a with http := false } with parkedN := w.parkedN - 1 } else w
  (w.modify i fun a => { a with status := .runnable }).enqueue i

/-- `er_http_unlink_inflight`. -/
def unlinkInflight (w : World) (i : Nat) : World :=
  { w.assume (i ∈ w.inflight) with
    inflight := w.inflight.erase i
    inflightN := w.inflightN - 1 }

/-- One turn of `er_http_harvest`: the transfer of `i` is done. `none` is a
report curl does not make, of a transfer it was not given. -/
def harvest1 (w : World) (x : Nat × Val) : Option World :=
  if x.1 ∈ w.inflight then
    -- it leaves the list now and is deposited later
    let w := w.unlinkInflight x.1
    some { w with done := w.done ++ [x] }
  else none

/-- `er_http_harvest`, for the completions curl reports, in its order. -/
def harvest : List (Nat × Val) → World → Option World
  | [], w => some w
  | x :: xs, w => (w.harvest1 x).bind (harvest xs)

/-- `er_http_deposit_head`. -/
def depositHead (w : World) : World :=
  match w.done with
  | [] => w.assume false
  | (i, v) :: rest => { w with done := rest }.httpResume i v

/-- `while (http_done_head != NULL) er_http_deposit_head(sys)`. -/
def depositAll (w : World) : World := w.done.foldl (fun w _ => w.depositHead) w

/-- `er_http_outstanding`. -/
def outstanding (w : World) : Bool := 0 < w.inflightN ∨ w.done ≠ [] ∨ 0 < w.parkedN

end World

end Enki.Runtime
