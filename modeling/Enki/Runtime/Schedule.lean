import Enki.Runtime.Terminated

/-!
# The actor runtime: where every actor is

In every reachable state each actor is in exactly one place: waiting to be
started, queued, running, parked, or at its end. The counters the source keeps by
hand are the numbers of actors, transfers and workers they stand for, and no
assertion fails on the way.
-/

namespace Enki.Runtime

open Enki.Runs

/-- The places an actor can be in. -/
inductive Place where
  | unstarted
  /-- In the shared run queue. -/
  | queued
  /-- In the private queue of worker `k`. -/
  | ready (k : Nat)
  /-- In a slice on worker `k`, or in the service that ends it. -/
  | worker (k : Nat)
  /-- In a slice on the controller, in the service that ends it, or runnable at the
  head of the controller's loop. -/
  | controller
  /-- Parked on `Recv`. -/
  | recv
  /-- Parked on a transfer in flight. -/
  | inflight
  /-- Parked on a transfer in the completion FIFO. -/
  | completed
  | halted
  | crashed
  /-- An adopted root that is not driven. -/
  | undriven
  deriving DecidableEq

/-- Actor `i` is in a place. -/
def World.At (w : World) (i : Nat) : Place → Prop
  | .unstarted => (w.actor i).adopted = false ∧ (w.actor i).started = false
  | .queued => i ∈ w.queue
  | .ready k => ∃ x, w.pool[k]? = some x ∧ x.ready = true ∧ x.actor = some i
  | .worker k => ∃ x, w.pool[k]? = some x ∧ x.holds i
  | .controller => w.ctl.slicing = some i ∨ w.ctl.serves = some i ∨
      w.ctl.polls = some i ∧ (w.actor i).status = .runnable
  | .recv => (w.actor i).status = .blocked ∧ (w.actor i).http = false
  | .inflight => i ∈ w.inflight
  | .completed => i ∈ w.done.map Prod.fst
  | .halted => (w.actor i).status = .halted
  | .crashed => (w.actor i).status = .crashed
  | .undriven => (w.actor i).adopted = true ∧ w.ctl.driven ≠ some i

/-- The places from which an actor runs. -/
def Place.runs : Place → Bool
  | .queued | .ready _ | .worker _ | .controller => true
  | _ => false

variable {w : World}

/-! ## Each place says what the actor is -/

theorem readyFor_ready {x : Worker} {i : Nat} (hr : x.ready = true) (ha : x.actor = some i) :
    1 ≤ x.readyFor i := by
  unfold Worker.readyFor
  rw [one_true ⟨hr, ha⟩]
  omega

theorem readyFor_slicing {x : Worker} {i : Nat} (hs : x.pc.slicing = some i) : 1 ≤ x.readyFor i := by
  unfold Worker.readyFor
  rw [one_true hs]
  omega

/-- An actor in a place from which it runs may run. -/
theorem Inv.scheduled_of_runs (h : Inv {} w) {i : Nat} {p : Place} (hp : p.runs = true)
    (hi : w.At i p) : (w.actor i).scheduled w.ctl i := by
  have hok := h.actor i
  by_contra hns
  have hr := (hok.not_ready fun hc => hns hc.1).1
  have hs := (hok.not_serving fun hc => hns hc.1).1
  cases p with
  | queued =>
    have := List.count_pos_iff.mpr hi
    unfold World.readyTokens at hr
    omega
  | ready k =>
    obtain ⟨x, hx, hready, hact⟩ := hi
    have := le_tally (Worker.readyFor i) hx
    have hx' := readyFor_ready hready hact
    unfold World.readyTokens at hr
    omega
  | worker k =>
    obtain ⟨x, hx, hh⟩ := hi
    exact hns (h.holds hx hh).1
  | controller =>
    rcases hi with hi | hi | ⟨hi, hrun⟩
    · simp [World.readyTokens, one_true hi] at hr
    · simp [World.servingTokens, one_true hi] at hs
    · have hdr := Ctl.driven_of_polls hi
      exact hns ⟨hrun, by simp [h.driven i (.inl hdr), hdr]⟩
  | unstarted | recv | inflight | completed | halted | crashed | undriven => cases hp

/-- An actor with a transfer is parked on it. -/
theorem Inv.http_of_transfer (h : Inv {} w) {i : Nat}
    (hi : i ∈ w.inflight ∨ i ∈ w.done.map Prod.fst) :
    (w.actor i).http = true ∧ (w.actor i).status = .blocked := by
  have hpos : 0 < w.transfers i := by
    unfold World.transfers
    rcases hi with hi | hi
    · have := List.count_pos_iff.mpr hi
      omega
    · have := List.count_pos_iff.mpr hi
      omega
  have hok := h.actor i
  rw [hok.transfers] at hpos
  have hh := one_pos.1 hpos
  exact ⟨hh, hok.http hh⟩

/-! ## At most one place -/

/-- An actor is held at most once: in a queue or a slice, in a service, or by the
controller that polls it. -/
theorem Inv.held_count (h : Inv {} w) (i : Nat) :
    w.readyTokens i + w.servingTokens i + one (w.ctl.polls = some i) ≤ 1 := by
  have hok := h.actor i
  have hr := hok.ready
  have hs := hok.serving
  rw [one_none, Nat.add_zero] at hr hs
  have hle := @one_le_one (w.ctl.polls = some i)
  by_cases hp : w.ctl.polls = some i
  · have hsv : w.servingTokens i = 0 := by
      have had := h.driven i (.inl (Ctl.driven_of_polls hp))
      have hz : w.ctl.serves ≠ some i := by
        cases hc : w.ctl <;> simp_all [Ctl.polls, Ctl.serves]
      simp [World.servingTokens, (h.root_unheld had).2, one_false, hz]
    rw [one_false (fun hc => hc.2.2 hp)] at hr
    omega
  · have hle₁ := @one_le_one ((w.actor i).scheduled w.ctl i ∧
      (w.actor i).thread.status = .yielded ∧ w.ctl.polls ≠ some i)
    have hle₂ := @one_le_one ((w.actor i).scheduled w.ctl i ∧ (w.actor i).thread.status = .blocked)
    rw [one_false hp]
    by_cases hb : (w.actor i).thread.status = .blocked
    · have := (hok.not_ready (by simp [hb])).1
      omega
    · have := (hok.not_serving fun hc => hb hc.2).1
      omega

/-- What the place of an actor that runs contributes to the counts. -/
theorem World.At.token {i : Nat} {p : Place} (hi : w.At i p) (hp : p.runs = true) :
    (p = .queued ∧ 1 ≤ w.queue.count i) ∨
    (∃ (k : Nat) (x : Worker), w.pool[k]? = some x ∧ 1 ≤ x.readyFor i ∧
      (p = .ready k ∧ x.ready = true ∧ x.actor = some i ∨
        p = .worker k ∧ x.pc.slicing = some i)) ∨
    (∃ (k : Nat) (x : Worker), w.pool[k]? = some x ∧ 1 ≤ x.servingFor i ∧ p = .worker k) ∨
    (p = .controller ∧ 1 ≤ one (w.ctl.slicing = some i) + one (w.ctl.serves = some i) +
      one (w.ctl.polls = some i)) := by
  cases p with
  | queued => exact .inl ⟨rfl, List.count_pos_iff.mpr hi⟩
  | ready k =>
    obtain ⟨x, hx, hr, ha⟩ := hi
    exact .inr (.inl ⟨k, x, hx, readyFor_ready hr ha, .inl ⟨rfl, hr, ha⟩⟩)
  | worker k =>
    obtain ⟨x, hx, hh | hh⟩ := hi
    · exact .inr (.inl ⟨k, x, hx, readyFor_slicing hh, .inr ⟨rfl, hh⟩⟩)
    · exact .inr (.inr (.inl ⟨k, x, hx, one_pos.2 hh, rfl⟩))
  | controller =>
    refine .inr (.inr (.inr ⟨rfl, ?_⟩))
    rcases hi with hi | hi | hi
    · have := one_true hi
      omega
    · have := one_true hi
      omega
    · have := one_true hi.1
      omega
  | unstarted | recv | inflight | completed | halted | crashed | undriven => cases hp

/-- Two workers with a weight are one, if the weights add up to at most 1. -/
theorem tally_unique {f : Worker → Nat} {l : List Worker} {j k : Nat} {x y : Worker}
    (hle : tally f l ≤ 1) (hx : l[j]? = some x) (hy : l[k]? = some y) (hfx : 1 ≤ f x)
    (hfy : 1 ≤ f y) : j = k := by
  by_contra hne
  have := two_le_tally f hne hx hy hfx hfy
  omega

/-- A worker holds an actor on its private queue or in a slice, not both. -/
theorem not_ready_and_slicing {x : Worker} {i : Nat} (hle : x.readyFor i ≤ 1) (hr : x.ready = true)
    (ha : x.actor = some i) : x.pc.slicing ≠ some i := by
  intro hs
  unfold Worker.readyFor at hle
  rw [one_true ⟨hr, ha⟩, one_true hs] at hle
  omega

/-- An actor runs from one place only. -/
theorem Inv.runs_unique (h : Inv {} w) {i : Nat} {p q : Place} (hp : p.runs = true)
    (hq : q.runs = true) (hip : w.At i p) (hiq : w.At i q) : p = q := by
  have hle := h.held_count i
  unfold World.readyTokens World.servingTokens at hle
  have hready : ∀ {k : Nat} {x : Worker}, w.pool[k]? = some x →
      x.readyFor i ≤ tally (Worker.readyFor i) w.pool := fun hx => le_tally _ hx
  have hserving : ∀ {k : Nat} {x : Worker}, w.pool[k]? = some x →
      x.servingFor i ≤ tally (Worker.servingFor i) w.pool := fun hx => le_tally _ hx
  rcases hip.token hp with ⟨rfl, h₁⟩ | ⟨k, x, hx, h₁, hpx⟩ | ⟨k, x, hx, h₁, rfl⟩ | ⟨rfl, h₁⟩
  · -- The shared queue.
    rcases hiq.token hq with ⟨rfl, -⟩ | ⟨l, y, hy, h₂, -⟩ | ⟨l, y, hy, h₂, -⟩ | ⟨-, h₂⟩
    · rfl
    · have := hready hy
      omega
    · have := hserving hy
      omega
    · omega
  · -- A private queue, or a slice on a worker.
    have hxle := hready hx
    rcases hiq.token hq with ⟨-, h₂⟩ | ⟨l, y, hy, h₂, hqy⟩ | ⟨l, y, hy, h₂, -⟩ | ⟨-, h₂⟩
    · omega
    · obtain rfl := tally_unique (by omega) hx hy h₁ h₂
      obtain rfl : x = y := Option.some.inj (hx.symm.trans hy)
      rcases hpx with ⟨rfl, hr, ha⟩ | ⟨rfl, hs⟩ <;> rcases hqy with ⟨rfl, hr', ha'⟩ | ⟨rfl, hs'⟩
      · rfl
      · exact absurd hs' (not_ready_and_slicing (by omega) hr ha)
      · exact absurd hs (not_ready_and_slicing (by omega) hr' ha')
      · rfl
    · have := hserving hy
      omega
    · omega
  · -- A service on a worker.
    have hxle := hserving hx
    rcases hiq.token hq with ⟨-, h₂⟩ | ⟨l, y, hy, h₂, -⟩ | ⟨l, y, hy, h₂, rfl⟩ | ⟨-, h₂⟩
    · omega
    · have := hready hy
      omega
    · rw [tally_unique (by omega) hx hy h₁ h₂]
    · omega
  · -- The controller.
    rcases hiq.token hq with ⟨-, h₂⟩ | ⟨l, y, hy, h₂, -⟩ | ⟨l, y, hy, h₂, -⟩ | ⟨rfl, -⟩
    · omega
    · have := hready hy
      omega
    · have := hserving hy
      omega
    · rfl

/-- What tells the places from which an actor does not run apart: the status, and
for a runnable actor whether it is a root, for a parked one whether it has a
transfer. -/
def Place.kind : Place → Status × Bool
  | .recv => (.blocked, false)
  | .inflight | .completed => (.blocked, true)
  | .halted => (.halted, false)
  | .crashed => (.crashed, false)
  | .undriven => (.runnable, true)
  | _ => (.runnable, false)

theorem Inv.kind (h : Inv {} w) {i : Nat} {p : Place} (hp : p.runs = false) (hi : w.At i p) :
    p.kind = ((w.actor i).status, if (w.actor i).status = .runnable then (w.actor i).adopted
      else (w.actor i).http) := by
  have hok := h.actor i
  have hhttp : (w.actor i).status ≠ .blocked → (w.actor i).http = false := by
    intro hne
    by_contra hh
    exact hne (hok.http (by simpa using hh))
  cases p with
  | unstarted =>
    obtain ⟨ha, hs⟩ := hi
    have hrun : (w.actor i).status = .runnable := by
      by_contra hne
      simp [hok.started ha hne] at hs
    simp [Place.kind, hrun, ha]
  | undriven =>
    obtain ⟨ha, hd⟩ := hi
    have hrun := (hok.adopted ha).resolve_right fun hb => hd hb.2
    simp [Place.kind, hrun, ha]
  | recv =>
    obtain ⟨hb, hh⟩ := hi
    simp [Place.kind, hb, hh]
  | inflight =>
    obtain ⟨hh, hb⟩ := h.http_of_transfer (.inl hi)
    simp [Place.kind, hb, hh]
  | completed =>
    obtain ⟨hh, hb⟩ := h.http_of_transfer (.inr hi)
    simp [Place.kind, hb, hh]
  | halted =>
    have hs : (w.actor i).status = .halted := hi
    simp [Place.kind, hs, hhttp]
  | crashed =>
    have hs : (w.actor i).status = .crashed := hi
    simp [Place.kind, hs, hhttp]
  | queued | ready _ | worker _ | controller => cases hp

/-- A transfer is in flight or complete, not both. -/
theorem Inv.one_transfer (h : Inv {} w) {i : Nat} (h₁ : i ∈ w.inflight)
    (h₂ : i ∈ w.done.map Prod.fst) : False := by
  have ht := (h.actor i).transfers
  have hle := @one_le_one ((w.actor i).http = true)
  have := List.count_pos_iff.mpr h₁
  have := List.count_pos_iff.mpr h₂
  unfold World.transfers at ht
  omega

/-- An actor that may run is in no place from which it does not. -/
theorem Inv.runs_not_idle (h : Inv {} w) {i : Nat} {p q : Place} (hp : p.runs = true)
    (hq : q.runs = false) (hip : w.At i p) (hiq : w.At i q) : False := by
  obtain ⟨hrun, hsch⟩ := h.scheduled_of_runs hp hip
  have hkind := h.kind hq hiq
  rw [hrun] at hkind
  cases q with
  | unstarted =>
    obtain ⟨ha, hs⟩ := hiq
    simp [ha, hs] at hsch
  | undriven =>
    obtain ⟨ha, hd⟩ := hiq
    simp [ha, hd] at hsch
  | recv | inflight | completed | halted | crashed => simp [Place.kind] at hkind
  | queued | ready _ | worker _ | controller => cases hq

/-- An actor is in at most one place. -/
theorem Inv.at_unique (h : Inv {} w) {i : Nat} {p q : Place} (hip : w.At i p) (hiq : w.At i q) :
    p = q := by
  cases hp : p.runs <;> cases hq : q.runs
  · have hkind := (h.kind hp hip).trans (h.kind hq hiq).symm
    have htr := fun h₁ h₂ => h.one_transfer (i := i) h₁ h₂
    cases p <;> cases q <;> first
      | rfl
      | exact (Bool.noConfusion hp)
      | exact (Bool.noConfusion hq)
      | exact (htr hip hiq).elim
      | exact (htr hiq hip).elim
      | simp [Place.kind] at hkind
  · exact (h.runs_not_idle hq hp hiq hip).elim
  · exact (h.runs_not_idle hp hq hip hiq).elim
  · exact h.runs_unique hp hq hip hiq

/-! ## At least one place -/

theorem exists_of_tally {f : Worker → Nat} {l : List Worker} (h : 0 < tally f l) :
    ∃ (k : Nat) (x : Worker), l[k]? = some x ∧ 0 < f x := by
  have hne : ¬ ∀ x ∈ l, f x = 0 := fun hz => by
    rw [tally_eq_zero.2 hz] at h
    cases h
  push Not at hne
  obtain ⟨x, hx, hf⟩ := hne
  obtain ⟨k, hk⟩ := List.mem_iff_getElem?.mp hx
  exact ⟨k, x, hk, Nat.pos_of_ne_zero hf⟩

/-- An actor that may run is somewhere it runs from. -/
theorem Inv.exists_runs (h : Inv {} w) {i : Nat} (hsch : (w.actor i).scheduled w.ctl i) :
    ∃ p, p.runs = true ∧ w.At i p := by
  have hok := h.actor i
  rcases hok.armed hsch with hy | hb
  · by_cases hpo : w.ctl.polls = some i
    · exact ⟨.controller, rfl, .inr (.inr ⟨hpo, hsch.1⟩)⟩
    · have hr := hok.ready.trans (one_true ⟨hsch, hy, hpo⟩)
      rw [one_none, Nat.add_zero, World.readyTokens] at hr
      by_cases hq : i ∈ w.queue
      · exact ⟨.queued, rfl, hq⟩
      by_cases hc : w.ctl.slicing = some i
      · exact ⟨.controller, rfl, .inl hc⟩
      rw [List.count_eq_zero.mpr hq, one_false hc] at hr
      obtain ⟨k, x, hx, hf⟩ := exists_of_tally (f := Worker.readyFor i) (l := w.pool) (by omega)
      by_cases hs : x.pc.slicing = some i
      · exact ⟨.worker k, rfl, x, hx, .inl hs⟩
      · unfold Worker.readyFor at hf
        rw [one_false hs] at hf
        exact ⟨.ready k, rfl, x, hx, one_pos.1 hf⟩
  · have hs := hok.serving.trans (one_true ⟨hsch, hb⟩)
    rw [one_none, Nat.add_zero, World.servingTokens] at hs
    by_cases hc : w.ctl.serves = some i
    · exact ⟨.controller, rfl, .inr (.inl hc)⟩
    rw [one_false hc] at hs
    obtain ⟨k, x, hx, hf⟩ := exists_of_tally (f := Worker.servingFor i) (l := w.pool) (by omega)
    exact ⟨.worker k, rfl, x, hx, .inr (one_pos.1 hf)⟩

/-- A parked actor waits for mail or for its transfer. -/
theorem Inv.exists_parked (h : Inv {} w) {i : Nat} (hb : (w.actor i).status = .blocked) :
    ∃ p, w.At i p := by
  by_cases hh : (w.actor i).http = true
  · have ht := (h.actor i).transfers
    rw [one_true hh, World.transfers] at ht
    by_cases hi : i ∈ w.inflight
    · exact ⟨.inflight, hi⟩
    · rw [List.count_eq_zero.mpr hi] at ht
      exact ⟨.completed, List.count_pos_iff.mp (by omega)⟩
  · exact ⟨.recv, hb, by simpa using hh⟩

/-- Every actor is in exactly one place. -/
theorem Inv.place (h : Inv {} w) (i : Nat) : ∃ p, w.At i p ∧ ∀ q, w.At i q → q = p := by
  have hone : ∃ p, w.At i p := by
    cases had : (w.actor i).adopted with
    | true =>
      by_cases hdr : w.ctl.driven = some i
      · rcases (h.actor i).adopted had with hrun | hb
        · obtain ⟨p, -, hp⟩ := h.exists_runs ⟨hrun, by simp [had, hdr]⟩
          exact ⟨p, hp⟩
        · exact h.exists_parked hb.1
      · exact ⟨.undriven, had, hdr⟩
    | false =>
      cases hst : (w.actor i).started with
      | false => exact ⟨.unstarted, had, hst⟩
      | true =>
        cases hs : (w.actor i).status with
        | runnable =>
          obtain ⟨p, -, hp⟩ := h.exists_runs ⟨hs, by simp [had, hst]⟩
          exact ⟨p, hp⟩
        | blocked => exact h.exists_parked hs
        | halted => exact ⟨.halted, hs⟩
        | crashed => exact ⟨.crashed, hs⟩
  obtain ⟨p, hp⟩ := hone
  exact ⟨p, hp, fun q hq => h.at_unique hq hp⟩

/-! ## Counters -/

/-- A list without repetitions of the actors below a bound that have a property is
as long as there are such actors. -/
theorem length_eq_countP {l : List Nat} {n : Nat} {f : Nat → Bool} (hnd : l.Nodup)
    (hmem : ∀ i, i ∈ l ↔ i < n ∧ f i = true) : l.length = (List.range n).countP f := by
  rw [List.countP_eq_length_filter]
  refine List.Perm.length_eq ((List.perm_ext_iff_of_nodup hnd (List.nodup_range.filter _)).mpr ?_)
  intro i
  rw [hmem, List.mem_filter, List.mem_range]

/-- No actor is queued twice, and none has two transfers. -/
theorem Inv.nodup (h : Inv {} w) :
    w.queue.Nodup ∧ (w.inflight ++ w.done.map Prod.fst).Nodup := by
  refine ⟨List.nodup_iff_count.mpr fun i => ?_, List.nodup_iff_count.mpr fun i => ?_⟩
  · have := h.held_count i
    unfold World.readyTokens at this
    omega
  · have ht := (h.actor i).transfers
    have hle := @one_le_one ((w.actor i).http = true)
    rw [List.count_append]
    unfold World.transfers at ht
    omega

/-- `http_parked_n` counts the actors parked on a transfer. -/
theorem Inv.parkedN_eq (h : Inv {} w) :
    w.parkedN = (List.range w.next).countP fun i => (w.actor i).http := by
  have hlen := length_eq_countP (n := w.next) (f := fun i => (w.actor i).http) h.nodup.2 fun i => ?_
  · rw [h.parkedN, ← hlen, List.length_append, List.length_map]
  · rw [List.mem_append]
    refine ⟨fun hi => ?_, fun hi => ?_⟩
    · have hh := (h.http_of_transfer hi).1
      refine ⟨?_, hh⟩
      by_contra hlt
      simp [h.fresh i (Nat.le_of_not_lt hlt)] at hh
    · have ht := (h.actor i).transfers
      rw [one_true hi.2, World.transfers] at ht
      by_cases hm : i ∈ w.inflight
      · exact .inl hm
      · rw [List.count_eq_zero.mpr hm] at ht
        exact .inr (List.count_pos_iff.mp (by omega))

theorem one_toNat (c : Prop) [Decidable c] : one c = (decide c).toNat := by
  by_cases h : c
  · simp [h]
  · simp [h]

theorem tally_one (f : Worker → Bool) (l : List Worker) :
    tally (fun x => one (f x = true)) l = l.countP f := by
  rw [countP_eq_tally]
  exact tally_congr fun x _ => by rw [one_toNat, Bool.decide_eq_true]

variable {tr : List (Taken World Event)}

/-- The run queue and the statuses. In every reachable state each actor is in
exactly one place, and queued or parked on a transfer at most once; who runs or
waits to run is runnable; who has halted or crashed stays so; the counters are the
numbers they stand for; and no assertion has failed. -/
theorem schedule (h : Run Any tr w) :
    (∀ i, ∃ p, w.At i p ∧ ∀ q, w.At i q → q = p) ∧
    (w.queue.Nodup ∧ (w.inflight ++ w.done.map Prod.fst).Nodup) ∧
    (∀ i p, p.runs = true → w.At i p → (w.actor i).status = .runnable) ∧
    (∀ tr' w' i, (w.actor i).status = .halted ∨ (w.actor i).status = .crashed →
      Trace World.step Any w tr' w' → (w'.actor i).status = (w.actor i).status ∧
        ∀ p, p.runs = true → ¬ w'.At i p) ∧
    (w.parkedN = (List.range w.next).countP (fun i => (w.actor i).http) ∧
      w.inflightN = w.inflight.length ∧
      w.readyBound = w.pool.countP (·.ready) ∧
      w.busyN = w.pool.countP (·.pc.busy) ∧
      w.generalN = w.pool.countP (·.role = .general) ∧ w.generalN = w.workers) ∧
    w.aborted = false := by
  have hr := reached_of_run h
  have hinv := hr.inv
  refine ⟨hinv.place, hinv.nodup, fun i p hp hi => (hinv.scheduled_of_runs hp hi).1,
    fun tr' w' i hst h' => ?_, ⟨hinv.parkedN_eq, hinv.inflightN, ?_, ?_, ?_, hinv.width⟩,
    hinv.aborted⟩
  · have hs := terminated_forever hr h' hst
    have hr' := h'.invariant hr fun hr _ hs => hr.step hs
    refine ⟨hs, fun p hp hi => ?_⟩
    have hrun := (hr'.inv.scheduled_of_runs hp hi).1
    rw [hs] at hrun
    rw [hrun] at hst
    simp at hst
  · exact hinv.pool.readyBound.trans (tally_one _ _)
  · exact hinv.pool.busyN.trans (tally_one _ _)
  · refine hinv.pool.generalN.trans ?_
    rw [← tally_one]
    exact tally_congr fun x _ => one_congr (by simp)

/-- One actor halts on a worker, and one is parked on `Recv`. -/
def haltAndPark : List Event :=
  [.newActor, .start 0 (.nat 0), .newActor, .start 1 (.nat 0), .newExecutor 2, .callMtRun, .top 0,
    .top 1, .sliceEnd 0 .done, .sliceEnd 1 (.blocked .recv)]

theorem schedule_haltAndPark : ∃ tr w, Run Any tr w ∧ w.At 0 .halted ∧ w.At 1 .recv ∧
    w.busyN = w.pool.countP (·.pc.busy) ∧
    ∀ tr' w', Trace World.step Any w tr' w' → ∀ p, p.runs = true → ¬ w'.At 0 p := by
  obtain ⟨tr, htr⟩ := Trace.played World.step haltAndPark {} {} (by decide +kernel)
  have hh : (((play World.step haltAndPark {}).getD {}).actor 0).status = .halted := by
    decide +kernel
  have hb : (((play World.step haltAndPark {}).getD {}).actor 1).status = .blocked ∧
      (((play World.step haltAndPark {}).getD {}).actor 1).http = false := by
    decide +kernel
  obtain ⟨-, -, -, hdead, hcount, -⟩ := schedule htr
  refine ⟨tr, _, htr, hh, hb, hcount.2.2.2.1, fun tr' w' h' p hp => ?_⟩
  exact (hdead tr' w' 0 (.inl hh) h').2 p hp

end Enki.Runtime
