import Enki.Runtime.Moves
import Enki.Runtime.Post

/-!
# The actor runtime: services

A service takes its caller from the hands of the step that parked it, and leaves
it crashed, parked or back in the schedule (`Served`). It is one step when nothing
else runs, and two steps on a worker or the controller of the multithreaded
executor, which drop the lock in between.
-/

namespace Enki.Runtime

variable {w : World} {hd hd' : Hands}

/-! ## Services -/

namespace World

@[simp] theorem assume_ctl (c : Bool) : (w.assume c).ctl = w.ctl := by
  unfold assume
  split <;> rfl

@[simp] theorem assume_actor (c : Bool) : (w.assume c).actor = w.actor := by
  unfold assume
  split <;> rfl

@[simp] theorem modify_ctl (i : Nat) (f : Actor → Actor) : (w.modify i f).ctl = w.ctl := rfl

@[simp] theorem enqueue_ctl (i : Nat) : (w.enqueue i).ctl = w.ctl := by
  obtain ⟨q, p, r, a, h⟩ := w.enqueue_frame i
  rw [h]

@[simp] theorem enqueue_actor (i : Nat) : (w.enqueue i).actor = w.actor := by
  obtain ⟨q, p, r, a, h⟩ := w.enqueue_frame i
  rw [h]

@[simp] theorem resume_ctl (i : Nat) (v : Val) : (w.resume i v).ctl = w.ctl := by
  simp [resume, deposit]

theorem httpResume_ctl (i : Nat) (v : Val) : (w.httpResume i v).ctl = w.ctl := by
  unfold httpResume
  dsimp only
  split <;> simp [deposit]

/-- What a resumed actor becomes. -/
theorem resume_actor (i : Nat) (v : Val) (j : Nat) : (w.resume i v).actor j =
    if j = i then { w.actor i with thread := ⟨.yielded, v⟩, status := .runnable }
    else w.actor j := by
  simp only [resume, deposit, enqueue_actor, modify_actor, assume_actor]
  split <;> simp_all

@[simp] theorem recvReady_ctl (i : Nat) : (w.recvReady i).ctl = w.ctl := by
  unfold recvReady
  split <;> simp

@[simp] theorem deliver_ctl (i : Nat) (m : Msg) : (w.deliver i m).ctl = w.ctl := by
  unfold deliver
  dsimp only
  split <;> simp

@[simp] theorem accept_ctl (s : Option Nat) (i : Nat) (m : Msg) : (w.accept s i m).ctl = w.ctl := by
  simp [accept]

@[simp] theorem start_ctl (i : Nat) (fn : Val) : (w.start i fn).ctl = w.ctl := by
  simp [start]

@[simp] theorem register_ctl (b : Bool) : (w.register b).ctl = w.ctl := rfl

@[simp] theorem crash_ctl (i : Nat) : (w.crash i).ctl = w.ctl := rfl

@[simp] theorem park_ctl (i : Nat) : (w.park i).ctl = w.ctl := rfl

@[simp] theorem dispatch_ctl (i : Nat) : (w.dispatch i).ctl = w.ctl := rfl

end World

/-- How a service leaves its caller: crashed, or back in the schedule or parked. -/
def Served (w : World) (i : Nat) (w' : World) : Prop :=
  w' = w.crash i ∨ Inv {} w' ∧ (w'.actor i).status ≠ .crashed ∧ w'.ctl = w.ctl

theorem Inv.served_resume {i : Nat} {w₁ : World} (h : Inv ⟨some i, none, none⟩ w₁) (v : Val)
    (hctl : w₁.ctl = w.ctl) : Served w i (w₁.resume i v) := by
  refine .inr ⟨h.resume_served v, ?_, by simpa using hctl⟩
  rw [World.resume_actor, if_pos rfl]
  simp

/-- `er_service` up to the first hold of the lock. -/
theorem Inv.beginService {i : Nat} (h : Inv ⟨some i, none, none⟩ w) (req : Request) :
    (∀ w', w.beginService i req = (w', none) → Served w i w') ∧
    ∀ w' p, w.beginService i req = (w', some p) → w' = w ∧ (p = .fetch → w.mode ≠ .replay) := by
  have hi := h.inService
  cases req with
  | recv =>
    simp only [World.beginService]
    cases hm : (w.actor i).mbox with
    | nil =>
      refine ⟨fun w' hw => ?_, by simp⟩
      cases hw
      refine .inr ⟨h.park_recv hm, ?_, rfl⟩
      simp
    | cons m rest =>
      refine ⟨fun w' hw => ?_, by simp⟩
      cases hw
      refine .inr ⟨h.recvReady_served (by simp [hm]), ?_, by simp⟩
      unfold World.recvReady
      rw [hm]
      dsimp only
      rw [World.resume_actor, if_pos rfl]
      simp
  | send hh payload =>
    simp only [World.beginService]
    split
    · refine ⟨fun w' hw => ?_, by simp⟩
      cases hw
      exact .inl rfl
    · simp +contextual
  | sendCaps hh payload row =>
    simp only [World.beginService]
    split
    · refine ⟨fun w' hw => ?_, by simp⟩
      cases hw
      exact .inl rfl
    · simp +contextual
  | spawn fn => simp +contextual [World.beginService]
  | fetch rq cfg check =>
    cases check with
    | malformed =>
      simp only [World.beginService]
      refine ⟨fun w' hw => ?_, by simp⟩
      cases hw
      exact .inl rfl
    | invalid code =>
      simp only [World.beginService]
      refine ⟨fun w' hw => ?_, by simp⟩
      cases hw
      rw [World.httpResume_eq_resume hi.http]
      exact h.served_resume _ rfl
    | sound =>
      simp only [World.beginService]
      split
      next hm =>
        refine ⟨fun w' hw => ?_, by simp⟩
        cases hw
        have hc := (h.replay hm).1
        have := h.park (b := w.curlm) (by rw [if_pos hm]; exact hc)
        refine .inr ⟨this, ?_, rfl⟩
        simp [World.park]
      next hm =>
        split
        next hp => simp +contextual [hm]
        next hp =>
          refine ⟨fun w' hw => ?_, by simp⟩
          cases hw
          refine .inr ⟨h.park (by rw [if_neg hm]), ?_, rfl⟩
          simp [World.dispatch, World.park]
  | readBat path => simp +contextual [World.beginService]
  | readFolder path => simp +contextual [World.beginService]
  | sleep secs => simp +contextual [World.beginService]
  | closeHandle hh =>
    simp only [World.beginService]
    refine ⟨fun w' hw => ?_, by simp⟩
    cases hw
    split
    · exact Inv.served_resume (h.modify_quiet hi.next rfl rfl rfl rfl rfl rfl (.inl rfl)) _ rfl
    · exact h.served_resume _ rfl

/-- The rest of `er_service`. -/
theorem Inv.finishService {i : Nat} (h : Inv ⟨some i, none, none⟩ w) (v : Val) (p : Pending)
    (hdest : ∀ d, p.dest = some d → d < w.next) (hfetch : p = .fetch → w.mode ≠ .replay) :
    Served w i (w.finishService i v p) := by
  have hi := h.inService
  cases p with
  | send d payload =>
    exact Inv.served_resume (h.accept (hdest d rfl) _ _) _ (by simp)
  | sendCaps d payload row =>
    simp only [World.finishService]
    split
    · exact .inl rfl
    · exact Inv.served_resume (h.accept (hdest d rfl) _ _) _ (by simp)
  | spawn fn =>
    simp only [World.finishService]
    have hreg := h.register false
    have hne : i ≠ w.next := Nat.ne_of_lt hi.next
    have hst : Inv ⟨some i, none, none⟩ ((w.register false).start w.next fn) := by
      refine hreg.start (by simp [World.register]) ?_ ?_ fn
      · simp [World.register]
      · simp [World.register]
    have hnext : i < ((w.register false).start w.next fn).next := hst.inService.next
    exact Inv.served_resume (hst.modify_quiet hnext rfl rfl rfl rfl rfl rfl (.inl rfl)) _ (by simp)
  | fetch =>
    simp only [World.finishService]
    refine .inr ⟨h.park (by rw [if_neg (hfetch rfl)]), ?_, rfl⟩
    simp [World.dispatch, World.park]
  | answer => exact h.served_resume _ rfl
  | sleep => exact h.served_resume _ rfl

end Enki.Runtime
