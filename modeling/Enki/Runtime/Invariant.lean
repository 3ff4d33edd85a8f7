import Enki.Lib.Runs
import Enki.Lib.Tally
import Enki.Runtime.Step

/-!
# The actor runtime: the scheduler invariant

An actor that may run is held in exactly one place: the run queue, its worker's
private queue, a slice, or the unlocked middle of a service. The invariant
counts these places (`readyTokens`, `servingTokens`) and relates the counts to
the status of the actor and of its thread; the counters the source keeps by hand
are tallies of the same lists.

Inside a step an actor is for a moment in none of these places. `Hands` names
the actors the running step has in hand, so that each operation of the source
has its own lemma: it moves one actor from a hand to a place, or back.
-/

namespace Enki.Runtime

/-- The root whose drive is in progress. -/
def Ctl.driven : Ctl → Option Nat
  | .detTop r | .detIdle r | .detSlice r _ => r
  | .mtTop r | .mtSlice r | .mtServing r _ | .mtCheck r => some r
  | _ => none

/-- The controller looks at the status of this root by itself, so the root needs
no place in a queue. -/
def Ctl.polls : Ctl → Option Nat
  | .mtTop r | .mtCheck r => some r
  | _ => none

/-- The actor whose slice the controller runs. -/
def Ctl.slicing : Ctl → Option Nat
  | .detSlice _ i | .mtSlice i => some i
  | _ => none

/-- The actor in whose service the controller has dropped the lock. -/
def Ctl.serves : Ctl → Option Nat
  | .mtServing r _ => some r
  | _ => none

/-- The actor whose slice a worker runs. -/
def Pc.slicing : Pc → Option Nat
  | .slice i => some i
  | _ => none

/-- The actor in whose service a worker has dropped the lock. -/
def Pc.serves : Pc → Option Nat
  | .serving i _ => some i
  | _ => none

/-- Counted in `busy_workers`. -/
def Pc.busy : Pc → Bool
  | .top | .exited => false
  | _ => true

open Classical in
/-- 1 when the condition holds. -/
noncomputable def one (c : Prop) : Nat := if c then 1 else 0

namespace Worker

/-- How often this worker holds actor `i` for a run. -/
noncomputable def readyFor (i : Nat) (x : Worker) : Nat :=
  one (x.ready ∧ x.actor = some i) + one (x.pc.slicing = some i)

/-- How often this worker holds actor `i` in a service. -/
noncomputable def servingFor (i : Nat) (x : Worker) : Nat := one (x.pc.serves = some i)

end Worker

/-- The actor may run: it is runnable, and started or driven. -/
def Actor.scheduled (a : Actor) (c : Ctl) (i : Nat) : Prop :=
  a.status = .runnable ∧ if a.adopted then c.driven = some i else a.started

namespace World

/-- How often actor `i` is queued or in a slice. -/
noncomputable def readyTokens (w : World) (i : Nat) : Nat :=
  w.queue.count i + tally (Worker.readyFor i) w.pool + one (w.ctl.slicing = some i)

/-- How often actor `i` is in the unlocked middle of a service. -/
noncomputable def servingTokens (w : World) (i : Nat) : Nat :=
  tally (Worker.servingFor i) w.pool + one (w.ctl.serves = some i)

/-- How many transfers of actor `i` there are. -/
def transfers (w : World) (i : Nat) : Nat := w.inflight.count i + (w.done.map Prod.fst).count i

end World

/-- The actors the running step has in hand: one whose request it serves, one it
is waking, and one that is runnable and not yet enqueued. -/
structure Hands where
  serving : Option Nat := none
  woken : Option Nat := none
  loose : Option Nat := none

/-- What holds of actor `i`, held `r` times for a run and `s` times in a service,
with `t` transfers. -/
structure Actor.Ok (hd : Hands) (c : Ctl) (i : Nat) (a : Actor) (r s t : Nat) : Prop where
  ready : r + one (hd.loose = some i) =
    one (a.scheduled c i ∧ a.thread.status = .yielded ∧ c.polls ≠ some i)
  serving : s + one (hd.serving = some i) =
    one (a.scheduled c i ∧ a.thread.status = .blocked)
  armed : a.scheduled c i → a.thread.status = .yielded ∨ a.thread.status = .blocked
  parked : a.status = .blocked → a.thread.status = .blocked
  woken : hd.woken = some i → a.status = .blocked ∧ a.http = false
  transfers : t = one (a.http = true)
  http : a.http → a.status = .blocked
  mail : hd.woken ≠ some i → a.status = .blocked → a.http = false → a.mbox = []
  adopted : a.adopted → a.status = .runnable ∨ a.status = .blocked ∧ c.driven = some i
  started : a.adopted = false → a.status ≠ .runnable → a.started
  owned : a.owner ≠ none → a.adopted = false ∧ a.started

/-- What holds of worker `k`. -/
structure Worker.Ok (w : World) (k : Nat) (x : Worker) : Prop where
  actor : ∀ i, x.actor = some i → (w.actor i).owner = some k
  bound : x.actor ≠ none → x.role = .bound
  working : x.role = .bound → x.pc ≠ .exited → x.actor ≠ none
  ready : x.ready → x.actor ≠ none
  slice : ∀ i, x.pc.slicing = some i ∨ x.pc.serves = some i → (w.actor i).adopted = false ∧
    (x.role = .bound → x.actor = some i) ∧ (x.role = .general → (w.actor i).owner = none)
  spare : x.role = .spare → x.pc.busy = false
  pump : x.pc = .idle ∨ x.pc = .pumping ∨ x.pc = .pumped → x.role = .general
  exited : x.pc = .exited → w.shutdown

/-- The worker pool and its counters. -/
structure Pool (w : World) : Prop where
  ok : ∀ (k : Nat) (x : Worker), w.pool[k]? = some x → x.Ok w k
  owner : ∀ i k, (w.actor i).owner = some k → ∃ x, w.pool[k]? = some x ∧ x.actor = some i
  readyBound : w.readyBound = tally (fun x => one (x.ready = true)) w.pool
  busyN : w.busyN = tally (fun x => one (x.pc.busy = true)) w.pool
  generalN : w.generalN = tally (fun x => one (x.role = .general)) w.pool
  pumping : tally (fun x => one (x.pc = .pumping)) w.pool = one (w.pumping = true)
  attached : w.attached = false → w.pool = []

/-- Where the controller may be. -/
def World.ctlOk (w : World) : Prop :=
  match w.ctl with
  | .out => w.entered = false ∧ w.running = false ∧ w.root = none ∧ w.busyN = 0 ∧
    w.shutdown = false
  | .detTop _ | .detIdle _ | .detSlice _ _ => w.attached = false ∧ w.entered = false ∧
    w.running = false ∧ w.root = none ∧ w.busyN = 0 ∧ w.shutdown = false
  | .mtRun => w.attached ∧ w.mode = .live ∧ w.root = none ∧ w.shutdown = false ∧
    (w.running = false → w.busyN = 0)
  | .mtTop r | .mtSlice r | .mtServing r _ | .mtCheck r | .mtDone r _ =>
    w.attached ∧ w.mode = .live ∧ w.root = some r ∧ w.shutdown = false ∧ w.running
  | .mtLeave r _ => w.attached ∧ w.mode = .live ∧ w.root = some r ∧ w.shutdown = false ∧
    w.running = false
  | .freeing => w.attached ∧ w.entered = false ∧ w.running = false ∧ w.root = none ∧ w.busyN = 0

/-- The invariant of the scheduler. -/
structure Inv (hd : Hands) (w : World) : Prop where
  aborted : w.aborted = false
  actor : ∀ i, (w.actor i).Ok hd w.ctl i (w.readyTokens i) (w.servingTokens i) (w.transfers i)
  queue : ∀ i ∈ w.queue, (w.actor i).owner = none
  inflightN : w.inflightN = w.inflight.length
  parkedN : w.parkedN = w.inflight.length + w.done.length
  curlm : w.curlm = false → w.mode ≠ .replay → w.inflight = [] ∧ w.done = []
  replay : w.mode = .replay → w.curlm = false ∧ w.done = []
  pool : Pool w
  width : w.generalN = w.workers
  ctl : w.ctlOk
  driven : ∀ r, w.ctl.driven = some r ∨ w.root = some r → (w.actor r).adopted
  fresh : ∀ i, w.next ≤ i → w.actor i = {}

/-! ## Small facts -/

theorem one_true {c : Prop} (h : c) : one c = 1 := if_pos h

theorem one_false {c : Prop} (h : ¬ c) : one c = 0 := if_neg h

@[simp] theorem one_eq_zero {c : Prop} : one c = 0 ↔ ¬ c := by
  unfold one
  split <;> simp_all

@[simp] theorem one_eq_one {c : Prop} : one c = 1 ↔ c := by
  unfold one
  split <;> simp_all

theorem one_le_one {c : Prop} : one c ≤ 1 := by
  unfold one
  split <;> simp

theorem one_pos {c : Prop} : 0 < one c ↔ c := by
  unfold one
  split <;> simp_all

@[simp] theorem one_False : one False = 0 := one_false not_false

@[simp] theorem one_True : one True = 1 := one_true trivial

@[simp] theorem one_none (j : Nat) : one (none = some j) = 0 := one_false (by simp)

theorem count_singleton (i j : Nat) : [i].count j = one (some i = some j) := by
  unfold one
  split <;> simp_all

theorem one_congr {c d : Prop} (h : c ↔ d) : one c = one d := by
  rw [propext h]

theorem Actor.scheduled.started {a : Actor} {c : Ctl} {i : Nat} (h : a.scheduled c i)
    (ha : a.adopted = false) : a.started = true := by
  have := h.2
  rwa [if_neg (by simp [ha])] at this

theorem Actor.scheduled.driven {a : Actor} {c : Ctl} {i : Nat} (h : a.scheduled c i)
    (ha : a.adopted = true) : c.driven = some i := by
  have := h.2
  rwa [if_pos ha] at this

namespace World

variable {w : World}

@[simp] theorem modify_actor (i : Nat) (f : Actor → Actor) (j : Nat) :
    (w.modify i f).actor j = if j = i then f (w.actor i) else w.actor j := by
  simp [modify, Function.update_apply]

theorem assume_pos {c : Bool} (h : c = true) : w.assume c = w := by
  simp [assume, h]

theorem worker_eq {k : Nat} {x : Worker} (h : w.pool[k]? = some x) : w.worker k = x := by
  simp [worker, List.getD, h]

theorem pool_set {k : Nat} {x y : Worker} (h : w.pool[k]? = some x) (j : Nat) :
    (w.pool.set k y)[j]? = if j = k then some y else w.pool[j]? := by
  have hk : k < w.pool.length := (List.getElem?_eq_some_iff.mp h).1
  by_cases hj : j = k
  · subst hj
    rw [List.getElem?_set_self hk, if_pos rfl]
  · rw [List.getElem?_set_ne (Ne.symm hj), if_neg hj]

end World

end Enki.Runtime
