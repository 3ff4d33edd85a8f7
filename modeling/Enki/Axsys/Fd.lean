import Mathlib.Algebra.Ring.Nat
import Enki.Lib.Runs

/-!
# The descriptor table

`axsys/src/fd.c`: handles for OS descriptors, shared by all threads. Each function
holds the table's lock once; the close of the descriptor itself happens without
the lock, between two holds of it. A step of the model is one hold of the lock, or
one `close(2)`.

`World` adds to the table where each thread stands, and a history that the source
does not keep: descriptors are told apart by the order in which they were added,
since the OS gives a number out again once it is closed.
-/

namespace Enki.Axsys

open Enki.Runs

/-- `AX_FD_MAX`. -/
def fdMax : Nat := 1024

/-- `SIZE_MAX`. -/
def sizeMax : Nat := 2 ^ 64 - 1

/-- `ax_fd_slot`. -/
structure Slot where
  live : Bool := false
  closing : Bool := false
  fd : Int := 0
  refs : Nat := 0
  deriving DecidableEq

/-- `ax_fd_table`. -/
structure Table where
  next : Nat
  slots : Nat → Slot

/-- How the first hold of the lock ends in `ax_fd_close` and `ax_fd_release`. -/
inductive Release where
  /-- Returns -1; the flag is whether `errno` is `EBADF` (else `EMFILE`, or unset). -/
  | failed (ebadf : Bool)
  /-- Returns 0: others hold references. -/
  | deferred
  /-- `ax_fd_finish_close` follows. -/
  | last (fd : Int)
  /-- An `ax_assume` fails. -/
  | aborted
  deriving DecidableEq

namespace Table

/-- Change one slot. -/
def set (T : Table) (h : Nat) (s : Slot) : Table :=
  { T with slots := Function.update T.slots h s }

/-- `ax_global_fd_table`. -/
def initial : Table where
  next := 3
  slots h := if h < 3 then { live := true, fd := h, refs := 1 } else {}

/-- The first slot that nothing uses. -/
def freeSlot (T : Table) : Option Nat :=
  (List.range fdMax).find? fun k =>
    !(T.slots k).live && !(T.slots k).closing && (T.slots k).refs == 0

/-- `ax_fd_add`; `none` is `AX_FD_INVALID`. -/
def add (T : Table) (fd : Int) : Table × Option Nat :=
  if T.next < fdMax then
    ({ T.set T.next { live := true, fd, refs := 1 } with next := T.next + 1 }, some T.next)
  -- fresh handles first, then those nobody holds any more
  else match T.freeSlot with
  | some k => (T.set k { T.slots k with fd, refs := 1, live := true }, some k)
  | none => (T, none)

/-- `ax_fd_get`. -/
def get (T : Table) (h : Nat) : Int :=
  if fdMax ≤ h then -1 else if (T.slots h).live then (T.slots h).fd else -1

/-- `ax_fd_retain`: whether it returns 0. -/
def retain (T : Table) (h : Nat) : Table × Bool :=
  if fdMax ≤ h then (T, false)
  else
    let s := T.slots h
    if !s.live ∨ s.refs = sizeMax then (T, false)
    else (T.set h { s with refs := s.refs + 1 }, true)

/-- `ax_fd_acquire`: the descriptor it stores through `out_fd`, if it returns 0.
`out` is whether `out_fd` is given. -/
def acquire (T : Table) (h : Nat) (out : Bool) : Table × Option Int :=
  if fdMax ≤ h ∨ !out then (T, none)
  else
    let s := T.slots h
    if !s.live ∨ s.refs = sizeMax then (T, none)
    else (T.set h { s with refs := s.refs + 1 }, some s.fd)

/-- `ax_fd_close` up to the close of the descriptor. -/
def close (T : Table) (h : Nat) : Table × Release :=
  if fdMax ≤ h then (T, .failed false)
  else
    let s := T.slots h
    if !s.live then (T, .failed true)
    -- the handle itself counts for one reference
    else if s.refs = 0 then (T.set h { s with live := false }, .aborted)
    else if s.refs - 1 ≠ 0 then (T.set h { s with live := false, refs := s.refs - 1 }, .deferred)
    -- the slot is taken until the descriptor is closed
    else (T.set h { s with live := false, refs := s.refs - 1, closing := true }, .last s.fd)

/-- `ax_fd_release` up to the close of the descriptor. -/
def release (T : Table) (h : Nat) : Table × Release :=
  if fdMax ≤ h then (T, .failed false)
  else
    let s := T.slots h
    if s.refs = 0 then (T, .failed false)
    else if s.refs - 1 ≠ 0 then (T.set h { s with refs := s.refs - 1 }, .deferred)
    else (T.set h { s with live := false, refs := s.refs - 1, closing := true }, .last s.fd)

/-- The second hold of the lock in `ax_fd_finish_close`. -/
def finishClose (T : Table) (h : Nat) : Table :=
  T.set h { T.slots h with fd := -1, closing := false }

end Table

/-- Where a thread stands without the lock. -/
inductive Pc where
  | idle
  /-- Before the `close(2)` of number `fd`; descriptor `d` was in slot `h`. -/
  | closing (h : Nat) (fd : Int) (d : Nat)
  /-- After it. -/
  | closed (h : Nat)
  deriving DecidableEq

/-- The slot a thread is about to finish. -/
def Pc.slot : Pc → Option Nat
  | .idle => none
  | .closing h _ _ | .closed h => some h

/-- The table, the threads, and the history. -/
structure World where
  table : Table := .initial
  pc : Nat → Pc := fun _ => .idle
  aborted : Bool := false
  /-- Successful acquires and retains of a handle that no release matches yet. -/
  held : Nat → Nat := fun _ => 0
  /-- How many descriptors there were, the three standard ones included. -/
  added : Nat := 3
  /-- The descriptor a slot holds or held last. -/
  holds : Nat → Option Nat := fun h => if h < 3 then some h else none
  /-- The number under which a descriptor was added. -/
  number : Nat → Int := fun d => d
  /-- The descriptors whose handle `ax_fd_close` has taken. -/
  requested : List Nat := []
  /-- The `close(2)` calls, newest first. -/
  closed : List Nat := []

/-- Who moves. -/
inductive Event where
  | add (t : Nat) (fd : Int)
  | get (t h : Nat)
  | acquire (t h : Nat) (out : Bool)
  | retain (t h : Nat)
  | close (t h : Nat)
  | release (t h : Nat)
  | osClose (t : Nat)
  | finish (t : Nat)

namespace World

def setPc (w : World) (t : Nat) (pc : Pc) : World := { w with pc := Function.update w.pc t pc }

/-- A descriptor comes to the handle `ax_fd_add` returns. -/
def add (w : World) (fd : Int) : World :=
  match w.table.add fd with
  | (T, none) => { w with table := T }
  | (T, some h) =>
    { w with
      table := T
      holds := Function.update w.holds h (some w.added)
      number := Function.update w.number w.added fd
      added := w.added + 1 }

/-- A reference more. -/
def take (w : World) (h : Nat) (r : Table × Bool) : World :=
  { w with table := r.1, held := Function.update w.held h (w.held h + r.2.toNat) }

/-- The thread goes on to close the descriptor, or returns. -/
def leave (w : World) (t h : Nat) (r : Table × Release) : World :=
  match r with
  -- the descriptor is closed without the lock
  | (T, .last fd) => { w with table := T }.setPc t (.closing h fd ((w.holds h).getD 0))
  | (T, .aborted) => { w with table := T, aborted := true }
  | (T, _) => { w with table := T }

/-- `ax_fd_close` on the handle of a descriptor. -/
def request (w : World) (h : Nat) : World :=
  if h < fdMax ∧ (w.table.slots h).live then
    { w with requested := (w.holds h).toList ++ w.requested }
  else w

/-- One step. A call is made by a thread that is in no other; a release matches an
acquire or a retain of its handle. -/
def step (e : Event) (w : World) : Option World :=
  match e with
  | .add t fd => if w.pc t = .idle then some (w.add fd) else none
  | .get t _ => if w.pc t = .idle then some w else none
  | .acquire t h out =>
    if w.pc t = .idle then
      let r := w.table.acquire h out
      some (w.take h (r.1, r.2.isSome))
    else none
  | .retain t h => if w.pc t = .idle then some (w.take h (w.table.retain h)) else none
  | .close t h =>
    if w.pc t = .idle then some ((w.request h).leave t h (w.table.close h)) else none
  | .release t h =>
    if w.pc t = .idle ∧ 0 < w.held h then
      some ({ w with held := Function.update w.held h (w.held h - 1) }.leave t h
        (w.table.release h))
    else none
  | .osClose t =>
    match w.pc t with
    | .closing h _ d => some { w.setPc t (.closed h) with closed := d :: w.closed }
    | _ => none
  | .finish t =>
    match w.pc t with
    | .closed h => some ({ w with table := w.table.finishClose h }.setPc t .idle)
    | _ => none

end World

end Enki.Axsys
