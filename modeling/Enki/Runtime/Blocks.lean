import Enki.Runtime.Invariant

/-!
# The actor runtime: operations keep the invariant

One lemma for each operation of the source on actors, queues and transfers. Each
says how the operation moves an actor between the places of the invariant and
the hands of the running step; the steps are then put together from these in
`Enki.Runtime.Preserved`.
-/

namespace Enki.Runtime

variable {w : World} {hd hd' : Hands}

/-! ## Frames -/

/-- Only the hands changed, and not for this actor. -/
theorem Actor.Ok.hands {c : Ctl} {i : Nat} {a : Actor} {r s t : Nat} (h : a.Ok hd c i r s t)
    (hl : hd'.loose = some i ↔ hd.loose = some i) (hs : hd'.serving = some i ↔ hd.serving = some i)
    (hw : hd'.woken = some i ↔ hd.woken = some i) : a.Ok hd' c i r s t := by
  refine ⟨?_, ?_, h.armed, h.parked, fun hi => h.woken (hw.mp hi), h.transfers, h.http,
    fun hi => h.mail fun hi' => hi (hw.mpr hi'), h.adopted, h.started, h.owned⟩
  · rw [one_congr hl]
    exact h.ready
  · rw [one_congr hs]
    exact h.serving

/-- A worker in a slice or a service of `i` holds it. -/
theorem held_pos {i k : Nat} {x : Worker} (hx : w.pool[k]? = some x)
    (hi : x.pc.slicing = some i ∨ x.pc.serves = some i) :
    0 < w.readyTokens i + w.servingTokens i := by
  have hr := le_tally (Worker.readyFor i) hx
  have hs := le_tally (Worker.servingFor i) hx
  have hr' : x.readyFor i = one (x.ready ∧ x.actor = some i) + one (x.pc.slicing = some i) := rfl
  have hs' : x.servingFor i = one (x.pc.serves = some i) := rfl
  unfold World.readyTokens World.servingTokens
  rcases hi with hi | hi
  · rw [one_true hi] at hr'
    omega
  · rw [one_true hi] at hs'
    omega

theorem Worker.Ok.congr {w' : World} {k : Nat} {x : Worker} (h : x.Ok w k)
    (ho : ∀ i, (w'.actor i).owner = (w.actor i).owner)
    (ha : ∀ i, x.pc.slicing = some i ∨ x.pc.serves = some i →
      (w'.actor i).adopted = (w.actor i).adopted)
    (hs : w.shutdown → w'.shutdown) : x.Ok w' k := by
  refine ⟨fun i hi => ?_, h.bound, h.working, h.ready, fun i hi => ?_, h.spare, h.pump,
    fun hp => hs (h.exited hp)⟩
  · rw [ho]
    exact h.actor i hi
  · rw [ho, ha i hi]
    exact h.slice i hi

/-- A change of actors that leaves owners and kinds alone. -/
theorem Pool.congr {w' : World} (h : Pool w)
    (ho : ∀ i, (w'.actor i).owner = (w.actor i).owner)
    (ha : ∀ i, 0 < w.readyTokens i + w.servingTokens i →
      (w'.actor i).adopted = (w.actor i).adopted)
    (hs : w.shutdown → w'.shutdown) (hp : w'.pool = w.pool) (hr : w'.readyBound = w.readyBound)
    (hb : w'.busyN = w.busyN) (hg : w'.generalN = w.generalN)
    (hpu : w'.pumping = w.pumping) (hat : w'.attached = w.attached) : Pool w' := by
  constructor
  · intro k x hx
    rw [hp] at hx
    exact (h.ok k x hx).congr ho (fun i hi => ha i (held_pos hx hi)) hs
  · intro i k hi
    rw [hp]
    exact h.owner i k (ho i ▸ hi)
  · rw [hr, hp, h.readyBound]
  · rw [hb, hp, h.busyN]
  · rw [hg, hp, h.generalN]
  · rw [hp, hpu, h.pumping]
  · intro hf
    rw [hp, h.attached (hat ▸ hf)]

/-- One worker changes, but not its role and actor. -/
theorem Pool.set {w' : World} {k : Nat} {x y : Worker} (h : Pool w) (hx : w.pool[k]? = some x)
    (hp : w'.pool = w.pool.set k y) (hy : y.Ok w k) (hact : y.actor = x.actor)
    (hrole : y.role = x.role) (hactor : w'.actor = w.actor) (hs : w'.shutdown = w.shutdown)
    (hr : w'.readyBound + one (x.ready = true) = w.readyBound + one (y.ready = true))
    (hb : w'.busyN + one (x.pc.busy = true) = w.busyN + one (y.pc.busy = true))
    (hg : w'.generalN = w.generalN)
    (hpu : one (w'.pumping = true) + one (x.pc = .pumping) =
      one (w.pumping = true) + one (y.pc = .pumping))
    (hat : w'.attached = w.attached) : Pool w' := by
  have hok : ∀ {j : Nat} {z : Worker}, z.Ok w j → z.Ok w' j := fun hz =>
    hz.congr (fun _ => by rw [hactor]) (fun _ _ => by rw [hactor]) fun h => hs ▸ h
  constructor
  · intro j z hz
    rw [hp, World.pool_set hx] at hz
    split at hz
    next hj =>
      cases hz
      exact hj ▸ hok hy
    next hj => exact hok (h.ok j z hz)
  · intro i j hi
    rw [hactor] at hi
    obtain ⟨z, hz, hza⟩ := h.owner i j hi
    rw [hp, World.pool_set hx]
    by_cases hj : j = k
    · subst hj
      obtain rfl : x = z := Option.some.inj (hx.symm.trans hz)
      exact ⟨y, if_pos rfl, hact.trans hza⟩
    · exact ⟨z, (if_neg hj).trans hz, hza⟩
  · have := tally_set (fun x : Worker => one (x.ready = true)) hx y
    have := h.readyBound
    rw [hp]
    omega
  · have := tally_set (fun x : Worker => one (x.pc.busy = true)) hx y
    have := h.busyN
    rw [hp]
    omega
  · have := tally_set (fun x : Worker => one (x.role = .general)) hx y
    rw [hrole] at this
    rw [hp, hg, h.generalN]
    omega
  · have := tally_set (fun x : Worker => one (x.pc = .pumping)) hx y
    have := h.pumping
    rw [hp]
    omega
  · intro hf
    rw [h.attached (hat ▸ hf)] at hx
    cases hx

theorem readyTokens_setWorker {k : Nat} {x y : Worker} (hx : w.pool[k]? = some x) (i : Nat) :
    (w.setWorker k y).readyTokens i + x.readyFor i = w.readyTokens i + y.readyFor i := by
  have := tally_set (Worker.readyFor i) hx y
  simp only [World.readyTokens, World.setWorker]
  omega

theorem servingTokens_setWorker {k : Nat} {x y : Worker} (hx : w.pool[k]? = some x) (i : Nat) :
    (w.setWorker k y).servingTokens i + x.servingFor i = w.servingTokens i + y.servingFor i := by
  have := tally_set (Worker.servingFor i) hx y
  simp only [World.servingTokens, World.setWorker]
  omega

/-- Handles, heard messages and the effect mark are free to change, and so is the
mail of an actor that is not parked on `Recv`. -/
theorem Actor.Ok.congr {c : Ctl} {i : Nat} {a b : Actor} {r s t : Nat} (h : a.Ok hd c i r s t)
    (hst : b.status = a.status) (hsd : b.started = a.started) (had : b.adopted = a.adopted)
    (hth : b.thread.status = a.thread.status) (hht : b.http = a.http) (ho : b.owner = a.owner)
    (hm : b.mbox = a.mbox ∨ hd.woken = some i ∨ a.status ≠ .blocked ∨ a.http = true) :
    b.Ok hd c i r s t := by
  have hsch : b.scheduled c i ↔ a.scheduled c i := by
    unfold Actor.scheduled
    rw [hst, had, hsd]
  refine ⟨?_, ?_, fun hs => ?_, ?_, ?_, ?_, ?_, fun hw hs hh => ?_, ?_, ?_, ?_⟩
  · rw [hth, one_congr (and_congr_left fun _ => hsch)]
    exact h.ready
  · rw [hth, one_congr (and_congr_left fun _ => hsch)]
    exact h.serving
  · rw [hth]
    exact h.armed (hsch.mp hs)
  · rw [hth, hst]
    exact h.parked
  · rw [hst, hht]
    exact h.woken
  · rw [hht]
    exact h.transfers
  · rw [hst, hht]
    exact h.http
  · rw [hst] at hs
    rw [hht] at hh
    rcases hm with hm | hm | hm | hm
    · rw [hm]
      exact h.mail hw hs hh
    · exact absurd hm hw
    · exact absurd hs hm
    · simp [hh] at hm
  · rw [had, hst]
    exact h.adopted
  · rw [had, hst, hsd]
    exact h.started
  · rw [ho, had, hsd]
    exact h.owned

/-- One actor changes, in what it keeps for itself. -/
theorem Inv.modify {i : Nat} {f : Actor → Actor} (h : Inv hd w)
    (hok : (f (w.actor i)).Ok hd' w.ctl i (w.readyTokens i) (w.servingTokens i) (w.transfers i))
    (ho : (f (w.actor i)).owner = (w.actor i).owner)
    (ha : (f (w.actor i)).adopted = (w.actor i).adopted) (hi : i < w.next)
    (hl : ∀ j, j ≠ i → (hd'.loose = some j ↔ hd.loose = some j))
    (hs : ∀ j, j ≠ i → (hd'.serving = some j ↔ hd.serving = some j))
    (hw : ∀ j, j ≠ i → (hd'.woken = some j ↔ hd.woken = some j)) : Inv hd' (w.modify i f) := by
  have hown : ∀ j, ((w.modify i f).actor j).owner = (w.actor j).owner := by
    intro j
    rw [World.modify_actor]
    split
    next hj => rw [hj, ho]
    next => rfl
  have had : ∀ j, ((w.modify i f).actor j).adopted = (w.actor j).adopted := by
    intro j
    rw [World.modify_actor]
    split
    next hj => rw [hj, ha]
    next => rfl
  refine ⟨h.aborted, fun j => ?_, fun j hj => (hown j).trans (h.queue j hj), h.inflightN, h.parkedN,
    h.curlm, h.replay, h.pool.congr hown (fun j _ => had j) id rfl rfl rfl rfl rfl rfl, h.width, h.ctl,
    fun r hr => (had r).trans (h.driven r hr), fun j hj => ?_⟩
  · rw [World.modify_actor]
    split
    next hj =>
      subst hj
      exact hok
    next hj => exact (h.actor j).hands (hl j hj) (hs j hj) (hw j hj)
  · have hne : j ≠ i := Nat.ne_of_gt (Nat.lt_of_lt_of_le hi hj)
    rw [World.modify_actor, if_neg hne]
    exact h.fresh j hj

/-! ## The actor in hand -/

theorem Inv.loose {i : Nat} (h : Inv hd w) (hl : hd.loose = some i) :
    (w.actor i).scheduled w.ctl i ∧ (w.actor i).thread.status = .yielded ∧
      w.ctl.polls ≠ some i ∧ w.readyTokens i = 0 := by
  have hr := (h.actor i).ready
  rw [one_true hl] at hr
  have hle := @one_le_one ((w.actor i).scheduled w.ctl i ∧
    (w.actor i).thread.status = .yielded ∧ w.ctl.polls ≠ some i)
  have hc := one_eq_one.1 (by omega : one ((w.actor i).scheduled w.ctl i ∧
    (w.actor i).thread.status = .yielded ∧ w.ctl.polls ≠ some i) = 1)
  exact ⟨hc.1, hc.2.1, hc.2.2, by omega⟩

theorem Inv.serving {i : Nat} (h : Inv hd w) (hs : hd.serving = some i) :
    (w.actor i).scheduled w.ctl i ∧ (w.actor i).thread.status = .blocked ∧
      w.servingTokens i = 0 := by
  have hr := (h.actor i).serving
  rw [one_true hs] at hr
  have hle := @one_le_one ((w.actor i).scheduled w.ctl i ∧ (w.actor i).thread.status = .blocked)
  have hc := one_eq_one.1 (by omega : one ((w.actor i).scheduled w.ctl i ∧
    (w.actor i).thread.status = .blocked) = 1)
  exact ⟨hc.1, hc.2, by omega⟩

/-- A thread that is not blocked is in no service. -/
theorem Actor.Ok.not_serving {c : Ctl} {i : Nat} {a : Actor} {r s t : Nat} (h : a.Ok hd c i r s t)
    (hb : ¬ (a.scheduled c i ∧ a.thread.status = .blocked)) : s = 0 ∧ hd.serving ≠ some i := by
  have hs := h.serving.trans (one_false hb)
  exact ⟨by omega, one_eq_zero.1 (by omega)⟩

/-- A thread that has not yielded is in no queue and no slice. -/
theorem Actor.Ok.not_ready {c : Ctl} {i : Nat} {a : Actor} {r s t : Nat} (h : a.Ok hd c i r s t)
    (hb : ¬ (a.scheduled c i ∧ a.thread.status = .yielded)) : r = 0 ∧ hd.loose ≠ some i := by
  have hs := h.ready.trans (one_false fun hc => hb ⟨hc.1, hc.2.1⟩)
  exact ⟨by omega, one_eq_zero.1 (by omega)⟩

/-- An actor that was never registered is in no hand. -/
theorem Inv.lt_next {i : Nat} (h : Inv hd w)
    (hi : hd.loose = some i ∨ hd.serving = some i ∨ hd.woken = some i) : i < w.next := by
  by_contra hlt
  have hf := h.fresh i (Nat.le_of_not_lt hlt)
  rcases hi with hi | hi | hi
  · have := (h.loose hi).1.2
    simp [hf] at this
  · have := (h.serving hi).1.2
    simp [hf] at this
  · have := ((h.actor i).woken hi).1
    simp [hf] at this

/-- A loose actor is not the root the controller looks at. -/
theorem Inv.not_root {i : Nat} (h : Inv hd w) (hl : hd.loose = some i) :
    ¬ (w.attached ∧ w.root = some i) := by
  rintro ⟨hatt, hroot⟩
  obtain ⟨hs, hy, hp, hz⟩ := h.loose hl
  have had := h.driven i (.inr hroot)
  have hdr := hs.driven had
  have hctl := h.ctl
  have hsv := ((h.actor i).not_serving (by simp [hy])).1
  unfold World.readyTokens at hz
  unfold World.servingTokens at hsv
  unfold World.ctlOk at hctl
  revert hctl hdr hp hz hsv
  cases w.ctl <;> simp_all [Ctl.driven, Ctl.polls, Ctl.slicing, Ctl.serves]

/-- A worker whose actor is held nowhere has nothing on its private queue. -/
theorem not_queued {i k : Nat} {x : Worker} (hz : w.readyTokens i = 0)
    (hx : w.pool[k]? = some x) (ha : x.actor = some i) : x.ready = false := by
  have hle := le_tally (Worker.readyFor i) hx
  have hx₁ : x.readyFor i = one (x.ready ∧ x.actor = some i) + one (x.pc.slicing = some i) := rfl
  unfold World.readyTokens at hz
  have : one (x.ready ∧ x.actor = some i) = 0 := by omega
  simpa [ha] using this

/-! ## Queues -/

/-- `er_enqueue` of an actor in hand. -/
theorem Inv.enqueue {i : Nat} {s k : Option Nat} (h : Inv ⟨s, k, some i⟩ w) :
    Inv ⟨s, k, none⟩ (w.enqueue i) := by
  obtain ⟨hs, hy, hp, hz⟩ := h.loose rfl
  have hnr := h.not_root rfl
  unfold World.enqueue
  cases ho : (w.actor i).owner with
  | none =>
    simp only [if_neg hnr]
    refine ⟨h.aborted, fun j => ?_, fun j hj => ?_, h.inflightN, h.parkedN, h.curlm, h.replay,
      h.pool.congr (fun _ => rfl) (fun _ _ => rfl) id rfl rfl rfl rfl rfl rfl, h.width, h.ctl, h.driven,
      h.fresh⟩
    · have hok := h.actor j
      refine ⟨?_, hok.serving, hok.armed, hok.parked, hok.woken, hok.transfers, hok.http, hok.mail,
        hok.adopted, hok.started, hok.owned⟩
      refine Eq.trans ?_ hok.ready
      simp only [World.readyTokens, List.count_append, count_singleton, one_none]
      omega
    · rcases List.mem_append.mp hj with hj | hj
      · exact h.queue j hj
      · obtain rfl := List.mem_singleton.mp hj
        exact ho
  | some k =>
    obtain ⟨x, hx, hxa⟩ := h.pool.owner i k ho
    have hok := h.pool.ok k x hx
    have hready := not_queued hz hx hxa
    have hmem : i ∉ w.queue.dropLast := by
      intro hm
      have := h.queue i (List.dropLast_subset _ hm)
      simp [ho] at this
    simp only [World.assume_pos (decide_eq_true hmem), World.worker_eq hx, hready]
    refine ⟨h.aborted, fun j => ?_, h.queue, h.inflightN, h.parkedN, h.curlm, h.replay, ?_,
      h.width, h.ctl, h.driven, h.fresh⟩
    · have hj := h.actor j
      refine ⟨?_, ?_, hj.armed, hj.parked, hj.woken, hj.transfers, hj.http, hj.mail,
        hj.adopted, hj.started, hj.owned⟩
      · refine Eq.trans ?_ hj.ready
        have hset := readyTokens_setWorker hx (y := { x with ready := true }) j
        have hx₁ : x.readyFor j = one (x.pc.slicing = some j) := by
          simp [Worker.readyFor, hready]
        have hx₂ : ({ x with ready := true } : Worker).readyFor j =
            one (some i = some j) + one (x.pc.slicing = some j) := by
          simp [Worker.readyFor, hxa]
        change (w.setWorker k { x with ready := true }).readyTokens j + one (none = some j) =
          w.readyTokens j + one (some i = some j)
        rw [one_none]
        omega
      · refine Eq.trans ?_ hj.serving
        exact congrArg (· + _) (Nat.add_right_cancel
          (servingTokens_setWorker hx (y := { x with ready := true }) j))
    · refine h.pool.set hx rfl ⟨hok.actor, hok.bound, hok.working, by simp [hxa], hok.slice, hok.spare,
        hok.pump, hok.exited⟩ rfl rfl rfl rfl ?_ rfl rfl rfl rfl
      simp [hready, one_true, one_false]

/-- The hand an actor is in after it became runnable: none if the controller
polls its status. -/
def looseHand (w : World) (i : Nat) : Option Nat := if w.ctl.polls = some i then none else some i

theorem looseHand_eq_some {i j : Nat} :
    looseHand w i = some j ↔ i = j ∧ w.ctl.polls ≠ some i := by
  unfold looseHand
  split <;> simp_all

/-- The controller's root needs no place in a queue. -/
theorem Inv.enqueue_polled {i : Nat} (h : Inv hd w) (hp : w.ctl.polls = some i) :
    w.enqueue i = w := by
  have hctl := h.ctl
  have hroot : w.attached = true ∧ w.root = some i := by
    unfold World.ctlOk at hctl
    revert hctl hp
    cases w.ctl <;> simp_all [Ctl.polls]
  have had := h.driven i (.inr hroot.2)
  have ho : (w.actor i).owner = none := by
    by_contra hne
    have := ((h.actor i).owned hne).1
    simp [had] at this
  unfold World.enqueue
  rw [ho]
  exact if_pos hroot

/-- `er_enqueue` of an actor that just became runnable. -/
theorem Inv.enqueue_loose {i : Nat} {s k : Option Nat} (h : Inv ⟨s, k, looseHand w i⟩ w) :
    Inv ⟨s, k, none⟩ (w.enqueue i) := by
  by_cases hp : w.ctl.polls = some i
  · rw [h.enqueue_polled hp]
    rwa [looseHand, if_pos hp] at h
  · rw [looseHand, if_neg hp] at h
    exact h.enqueue

/-! ## Resuming -/

theorem World.modify_modify (i : Nat) (f g : Actor → Actor) :
    (w.modify i f).modify i g = w.modify i fun a => g (f a) := by
  simp [World.modify]

/-- The response is deposited into a thread that waits for it. -/
theorem World.resume_eq {i : Nat} (hb : (w.actor i).thread.status = .blocked) (v : Val) :
    w.resume i v = (w.modify i fun a =>
      { a with thread := ⟨.yielded, v⟩, status := .runnable }).enqueue i := by
  unfold World.resume World.deposit
  rw [World.assume_pos (decide_eq_true hb), World.modify_modify]

/-- A parked actor becomes schedulable as soon as it is runnable. -/
theorem Actor.Ok.scheduled_of_blocked {c : Ctl} {i : Nat} {a : Actor} {r s t : Nat}
    (h : a.Ok hd c i r s t) (hb : a.status = .blocked) :
    if a.adopted then c.driven = some i else a.started = true := by
  split
  next ha =>
    rcases h.adopted ha with hr | hr
    · simp [hb] at hr
    · exact hr.2
  next ha => exact h.started (by simpa using ha) (by simp [hb])

/-- An actor held nowhere is made runnable with a response. -/
theorem Actor.Ok.resumed {c : Ctl} {i : Nat} {a : Actor} {t : Nat} (h : a.Ok hd c i 0 0 t)
    (hsch : if a.adopted then c.driven = some i else a.started = true) (hhttp : a.http = false)
    (hl : hd'.loose = some i ↔ c.polls ≠ some i) (hs : hd'.serving ≠ some i)
    (hw : hd'.woken ≠ some i) (v : Val) :
    { a with thread := ⟨.yielded, v⟩, status := .runnable }.Ok hd' c i 0 0 t := by
  refine ⟨?_, ?_, fun _ => .inl rfl, ?_, fun hi => absurd hi hw, h.transfers, ?_, ?_,
    fun _ => .inl rfl, ?_, h.owned⟩
  · rw [Nat.zero_add]
    refine one_congr (hl.trans ⟨fun hp => ⟨⟨rfl, hsch⟩, rfl, hp⟩, fun hp => hp.2.2⟩)
  · rw [one_false hs, one_false]
    simp
  all_goals simp [hhttp]

/-- The end of a service: the caller gets its response. -/
theorem Inv.resume_served {i : Nat} {k : Option Nat} (h : Inv ⟨some i, k, none⟩ w) (v : Val) :
    Inv ⟨none, k, none⟩ (w.resume i v) := by
  obtain ⟨hsch, hb, hz⟩ := h.serving rfl
  have hok := h.actor i
  have hr := (hok.not_ready (by simp [hb])).1
  have hwk : k ≠ some i := by
    intro hk
    have := (hok.woken hk).1
    rw [hsch.1] at this
    cases this
  have hhttp : (w.actor i).http = false := by
    by_contra hh
    have := hok.http (by simpa using hh)
    rw [hsch.1] at this
    cases this
  rw [hr, hz] at hok
  rw [World.resume_eq hb]
  refine Inv.enqueue_loose (h.modify ?_ rfl rfl (h.lt_next (.inr (.inl rfl))) ?_ ?_ fun _ _ => Iff.rfl)
  · rw [hr, hz]
    refine hok.resumed hsch.2 hhttp ?_ (by simp) hwk v
    exact looseHand_eq_some.trans (and_iff_right rfl)
  · intro j hj
    simp [looseHand_eq_some, Ne.symm hj]
  · intro j hj
    simp [Ne.symm hj]

/-- An actor is woken: it gets what it waited for. -/
theorem Inv.resume_woken {i : Nat} {s : Option Nat} (h : Inv ⟨s, some i, none⟩ w) (v : Val) :
    Inv ⟨s, none, none⟩ (w.resume i v) := by
  have hok := h.actor i
  obtain ⟨hbl, hhttp⟩ := hok.woken rfl
  have hb := hok.parked hbl
  have hns : ¬ (w.actor i).scheduled w.ctl i := fun hsch => by simp [hsch.1] at hbl
  have hr := (hok.not_ready fun hc => hns hc.1).1
  obtain ⟨hz, hsi⟩ := hok.not_serving fun hc => hns hc.1
  rw [hr, hz] at hok
  rw [World.resume_eq hb]
  refine Inv.enqueue_loose (h.modify ?_ rfl rfl (h.lt_next (.inr (.inr rfl))) ?_
    (fun _ _ => Iff.rfl) ?_)
  · rw [hr, hz]
    refine hok.resumed (hok.scheduled_of_blocked hbl) hhttp ?_ ?_ ?_ v
    · exact looseHand_eq_some.trans (and_iff_right rfl)
    · exact hsi
    · simp
  · intro j hj
    simp [looseHand_eq_some, Ne.symm hj]
  · intro j hj
    simp [Ne.symm hj]

/-! ## Messaging -/

/-- A change of one actor that no part of the invariant reads. -/
theorem Inv.modify_quiet {i : Nat} {f : Actor → Actor} (h : Inv hd w) (hi : i < w.next)
    (hst : (f (w.actor i)).status = (w.actor i).status)
    (hsd : (f (w.actor i)).started = (w.actor i).started)
    (had : (f (w.actor i)).adopted = (w.actor i).adopted)
    (hth : (f (w.actor i)).thread.status = (w.actor i).thread.status)
    (hht : (f (w.actor i)).http = (w.actor i).http)
    (ho : (f (w.actor i)).owner = (w.actor i).owner)
    (hm : (f (w.actor i)).mbox = (w.actor i).mbox ∨ hd.woken = some i ∨
      (w.actor i).status ≠ .blocked ∨ (w.actor i).http = true) : Inv hd (w.modify i f) :=
  h.modify ((h.actor i).congr hst hsd had hth hht ho hm) ho had hi (fun _ _ => Iff.rfl)
    (fun _ _ => Iff.rfl) fun _ _ => Iff.rfl

/-- `er_recv_ready` for an actor that is being woken. -/
theorem Inv.recvReady_woken {i : Nat} {s : Option Nat} (h : Inv ⟨s, some i, none⟩ w)
    (hm : (w.actor i).mbox ≠ []) : Inv ⟨s, none, none⟩ (w.recvReady i) := by
  unfold World.recvReady
  cases hmb : (w.actor i).mbox with
  | nil => exact absurd hmb hm
  | cons m rest =>
    exact (h.modify_quiet (h.lt_next (.inr (.inr rfl))) rfl rfl rfl rfl rfl rfl
      (.inr (.inl rfl))).resume_woken _

/-- `er_recv_ready` for an actor that asks for mail it has. -/
theorem Inv.recvReady_served {i : Nat} {k : Option Nat} (h : Inv ⟨some i, k, none⟩ w)
    (hm : (w.actor i).mbox ≠ []) : Inv ⟨none, k, none⟩ (w.recvReady i) := by
  unfold World.recvReady
  cases hmb : (w.actor i).mbox with
  | nil => exact absurd hmb hm
  | cons m rest =>
    have hrun := (h.serving rfl).1.1
    exact (h.modify_quiet (h.lt_next (.inr (.inl rfl))) rfl rfl rfl rfl rfl rfl
      (.inr (.inr (.inl (by simp [hrun]))))).resume_served _

/-- An actor parked on `Recv` is about to be woken, whatever its mailbox holds. -/
theorem Inv.wake {i : Nat} {s : Option Nat} (h : Inv ⟨s, none, none⟩ w)
    (hb : (w.actor i).status = .blocked) (hh : (w.actor i).http = false) (hi : i < w.next)
    {f : Actor → Actor} (hst : (f (w.actor i)).status = (w.actor i).status)
    (hsd : (f (w.actor i)).started = (w.actor i).started)
    (had : (f (w.actor i)).adopted = (w.actor i).adopted)
    (hth : (f (w.actor i)).thread.status = (w.actor i).thread.status)
    (hht : (f (w.actor i)).http = (w.actor i).http)
    (ho : (f (w.actor i)).owner = (w.actor i).owner) : Inv ⟨s, some i, none⟩ (w.modify i f) := by
  have hok := h.actor i
  have hok' : (w.actor i).Ok ⟨s, some i, none⟩ w.ctl i (w.readyTokens i) (w.servingTokens i)
      (w.transfers i) :=
    ⟨hok.ready, hok.serving, hok.armed, hok.parked, fun _ => ⟨hb, hh⟩, hok.transfers, hok.http,
      fun hne => absurd rfl hne, hok.adopted, hok.started, hok.owned⟩
  refine h.modify (hok'.congr hst hsd had hth hht ho (.inr (.inl rfl))) ho had hi
    (fun _ _ => Iff.rfl) (fun _ _ => Iff.rfl) fun j hj => ?_
  simp [Ne.symm hj]

/-- `er_deliver`. -/
theorem Inv.deliver {i : Nat} {s : Option Nat} (h : Inv ⟨s, none, none⟩ w) (hi : i < w.next)
    (m : Msg) : Inv ⟨s, none, none⟩ (w.deliver i m) := by
  unfold World.deliver
  dsimp only
  split
  next hc =>
    simp only [World.modify_actor] at hc
    refine Inv.recvReady_woken (h.wake hc.1 hc.2 hi rfl rfl rfl rfl rfl rfl) ?_
    simp
  next hc =>
    simp only [World.modify_actor, not_and] at hc
    refine h.modify_quiet hi rfl rfl rfl rfl rfl rfl (.inr (.inr ?_))
    by_cases hb : (w.actor i).status = .blocked
    · exact .inr (by simpa using hc hb)
    · exact .inl hb

/-- Only the records changed. -/
theorem Inv.accepted (h : Inv hd w) (l : List Sent) : Inv hd { w with accepted := l } :=
  ⟨h.aborted, h.actor, h.queue, h.inflightN, h.parkedN, h.curlm, h.replay,
    h.pool.congr (fun _ => rfl) (fun _ _ => rfl) id rfl rfl rfl rfl rfl rfl, h.width, h.ctl, h.driven, h.fresh⟩

theorem Inv.crashes (h : Inv hd w) (l : List Nat) : Inv hd { w with crashes := l } :=
  ⟨h.aborted, h.actor, h.queue, h.inflightN, h.parkedN, h.curlm, h.replay, h.pool.congr (fun _ => rfl)
    (fun _ _ => rfl) id rfl rfl rfl rfl rfl rfl, h.width, h.ctl, h.driven, h.fresh⟩

theorem Inv.accept {i : Nat} {s : Option Nat} (h : Inv ⟨s, none, none⟩ w) (hi : i < w.next)
    (sender : Option Nat) (m : Msg) : Inv ⟨s, none, none⟩ (w.accept sender i m) :=
  (h.accepted (w.accepted ++ [Sent.mk sender i m])).deliver hi m

/-! ## Leaving the schedule -/

/-- An actor that may not run and is in no hand. -/
theorem Actor.Ok.unscheduled {c : Ctl} {i : Nat} {a : Actor} {t : Nat} (hns : ¬ a.scheduled c i)
    (hl : hd.loose ≠ some i) (hs : hd.serving ≠ some i) (hw : hd.woken ≠ some i)
    (hparked : a.status = .blocked → a.thread.status = .blocked)
    (htransfers : t = one (a.http = true)) (hhttp : a.http → a.status = .blocked)
    (hmail : a.status = .blocked → a.http = false → a.mbox = [])
    (hadopted : a.adopted → a.status = .runnable ∨ a.status = .blocked ∧ c.driven = some i)
    (hstarted : a.adopted = false → a.status ≠ .runnable → a.started)
    (howned : a.owner ≠ none → a.adopted = false ∧ a.started) : a.Ok hd c i 0 0 t := by
  refine ⟨?_, ?_, fun h => absurd h hns, hparked, fun h => absurd h hw, htransfers, hhttp,
    fun _ => hmail, hadopted, hstarted, howned⟩
  · rw [one_false hl, one_false fun h => hns h.1]
  · rw [one_false hs, one_false fun h => hns h.1]

/-- What is known of the caller of a service. -/
structure InService (w : World) (k : Option Nat) (i : Nat) : Prop where
  scheduled : (w.actor i).scheduled w.ctl i
  thread : (w.actor i).thread.status = .blocked
  ready : w.readyTokens i = 0
  serving : w.servingTokens i = 0
  transfers : w.transfers i = 0
  http : (w.actor i).http = false
  woken : k ≠ some i
  next : i < w.next

theorem Inv.inService {i : Nat} {k : Option Nat} (h : Inv ⟨some i, k, none⟩ w) :
    InService w k i := by
  obtain ⟨hsch, hb, hz⟩ := h.serving rfl
  have hok := h.actor i
  have hhttp : (w.actor i).http = false := by
    by_contra hh
    have := hok.http (by simpa using hh)
    rw [hsch.1] at this
    cases this
  refine ⟨hsch, hb, (hok.not_ready (by simp [hb])).1, hz, ?_, hhttp, fun hk => ?_,
    h.lt_next (.inr (.inl rfl))⟩
  · rw [hok.transfers]
    simp [hhttp]
  · have := (hok.woken hk).1
    rw [hsch.1] at this
    cases this

/-- The caller of a service is no longer scheduled. -/
theorem Inv.modify_left {i : Nat} {k : Option Nat} {f : Actor → Actor}
    (h : Inv ⟨some i, k, none⟩ w)
    (hok : (f (w.actor i)).Ok ⟨none, k, none⟩ w.ctl i 0 0 0)
    (ho : (f (w.actor i)).owner = (w.actor i).owner)
    (ha : (f (w.actor i)).adopted = (w.actor i).adopted) :
    Inv ⟨none, k, none⟩ (w.modify i f) := by
  have hi := h.inService
  refine h.modify ?_ ho ha hi.next (fun _ _ => Iff.rfl) (fun j hj => ?_) fun _ _ => Iff.rfl
  · rw [hi.ready, hi.serving, hi.transfers]
    exact hok
  · simp [Ne.symm hj]

/-- `Recv` with an empty mailbox parks the caller. -/
theorem Inv.park_recv {i : Nat} {k : Option Nat} (h : Inv ⟨some i, k, none⟩ w)
    (hm : (w.actor i).mbox = []) :
    Inv ⟨none, k, none⟩ (w.modify i fun a => { a with status := .blocked }) := by
  have hi := h.inService
  refine h.modify_left (.unscheduled ?_ ?_ ?_ hi.woken ?_ ?_ ?_ ?_ ?_ ?_ (h.actor i).owned) rfl rfl
  · simp [Actor.scheduled]
  · simp
  · simp
  · exact fun _ => hi.thread
  · simp [hi.http]
  · simp
  · exact fun _ _ => hm
  · exact fun ha => .inr ⟨rfl, hi.scheduled.driven ha⟩
  · exact fun ha _ => hi.scheduled.started ha

/-- `er_crash` of a spawned caller. -/
theorem Inv.crash {i : Nat} {k : Option Nat} (h : Inv ⟨some i, k, none⟩ w)
    (had : (w.actor i).adopted = false) : Inv ⟨none, k, none⟩ (w.crash i) := by
  have hi := h.inService
  have hstarted := hi.scheduled.started had
  have hw : Inv ⟨none, k, none⟩ (w.modify i fun a => { a with status := .crashed }) := by
    refine h.modify_left (.unscheduled ?_ ?_ ?_ hi.woken ?_ ?_ ?_ ?_ ?_ ?_ (h.actor i).owned) rfl rfl
    · simp [Actor.scheduled]
    · simp
    · simp
    · simp
    · simp [hi.http]
    · simp [hi.http]
    · simp
    · simp [had]
    · exact fun _ _ => hstarted
  exact hw.crashes _

/-- The slice of a spawned actor ends its life. -/
theorem Inv.finish {i : Nat} {s k : Option Nat} (h : Inv ⟨s, k, some i⟩ w)
    (st : Status) (had : (w.actor i).adopted = false) (hst : st = .halted ∨ st = .crashed)
    (rs : RunStatus) : Inv ⟨s, k, none⟩ (w.modify i fun a =>
      { a with thread := { a.thread with status := rs }, status := st }) := by
  obtain ⟨hsch, hy, hp, hr⟩ := h.loose rfl
  have hok := h.actor i
  obtain ⟨hz, hsi⟩ := hok.not_serving (by simp [hy])
  have hwk : k ≠ some i := fun hk => by
    have := (hok.woken hk).1
    rw [hsch.1] at this
    cases this
  have hhttp : (w.actor i).http = false := by
    by_contra hh
    have := hok.http (by simpa using hh)
    rw [hsch.1] at this
    cases this
  have hne : st ≠ .runnable ∧ st ≠ .blocked := by
    rcases hst with rfl | rfl <;> simp
  refine h.modify ?_ rfl rfl (h.lt_next (.inl rfl)) (fun j hj => ?_) (fun _ _ => Iff.rfl)
    fun _ _ => Iff.rfl
  · rw [hr, hz]
    refine .unscheduled ?_ ?_ hsi hwk ?_ hok.transfers ?_ ?_ ?_ ?_ hok.owned
    · simp [Actor.scheduled, hne.1]
    · simp
    · simp [hne.2]
    · simp [hhttp]
    · simp [hne.2]
    · simp [had]
    · exact fun _ _ => hsch.started had
  · simp [Ne.symm hj]

/-- A slice parks a request: its actor is in the hands of the service. -/
theorem Inv.block {i : Nat} {k : Option Nat} (h : Inv ⟨none, k, looseHand w i⟩ w)
    (hsch : (w.actor i).scheduled w.ctl i) (hy : (w.actor i).thread.status = .yielded)
    (hi : i < w.next) : Inv ⟨some i, k, none⟩ (w.stopThread i .blocked) := by
  have hok := h.actor i
  have hz := (hok.not_serving (by simp [hy])).1
  have hr : w.readyTokens i = 0 := by
    have := hok.ready
    have hle := one_congr (looseHand_eq_some (w := w) (i := i) (j := i))
    rw [hle, one_congr (show i = i ∧ w.ctl.polls ≠ some i ↔ (w.actor i).scheduled w.ctl i ∧
      (w.actor i).thread.status = .yielded ∧ w.ctl.polls ≠ some i from
      ⟨fun hp => ⟨hsch, hy, hp.2⟩, fun hp => ⟨rfl, hp.2.2⟩⟩)] at this
    omega
  have hwk : k ≠ some i := fun hk => by
    have := (hok.woken hk).1
    rw [hsch.1] at this
    cases this
  refine h.modify ?_ rfl rfl hi (fun j hj => ?_) (fun j hj => ?_) fun _ _ => Iff.rfl
  · rw [hr, hz]
    refine ⟨?_, ?_, fun _ => .inr rfl, fun _ => rfl, hok.woken, hok.transfers, hok.http, hok.mail,
      hok.adopted, hok.started, hok.owned⟩
    · rw [one_none, one_false]
      simp
    · rw [one_true rfl, one_true]
      exact ⟨hsch, rfl⟩
  · simp [looseHand_eq_some, Ne.symm hj]
  · simp [Ne.symm hj]

/-! ## Transfers -/

/-- `er_http_park`; the stubs of a replay need no multi handle. -/
theorem Inv.park {i : Nat} {k : Option Nat} (h : Inv ⟨some i, k, none⟩ w) {b : Bool}
    (hb : if w.mode = .replay then b = false else b = true) :
    Inv ⟨none, k, none⟩ { w.park i with curlm := b } := by
  have hi := h.inService
  have hat : ∀ j, (w.park i).transfers j = w.transfers j + one (some i = some j) := by
    intro j
    change ([i] ++ w.inflight).count j + (w.done.map Prod.fst).count j = _
    rw [List.count_append, count_singleton, World.transfers]
    omega
  have hown : ∀ j, ((w.park i).actor j).owner = (w.actor j).owner := by
    intro j
    simp only [World.park, World.modify_actor]
    split
    next hj => rw [hj]
    next => rfl
  have had : ∀ j, ((w.park i).actor j).adopted = (w.actor j).adopted := by
    intro j
    simp only [World.park, World.modify_actor]
    split
    next hj => rw [hj]
    next => rfl
  refine ⟨h.aborted, fun j => ?_, fun j hj => (hown j).trans (h.queue j hj), ?_, ?_, ?_, ?_,
    h.pool.congr hown (fun j _ => had j) id rfl rfl rfl rfl rfl rfl, h.width, h.ctl,
    fun r hr => (had r).trans (h.driven r hr), fun j hj => ?_⟩
  · change Actor.Ok _ _ _ ((w.park i).actor j) (w.readyTokens j) (w.servingTokens j)
      ((w.park i).transfers j)
    rw [hat]
    by_cases hj : j = i
    · subst hj
      rw [hi.ready, hi.serving, hi.transfers]
      simp only [World.park, World.modify_actor]
      refine .unscheduled ?_ ?_ ?_ hi.woken ?_ ?_ ?_ ?_ ?_ ?_ (h.actor j).owned
      · simp [Actor.scheduled]
      · simp
      · simp
      · exact fun _ => hi.thread
      · simp
      · simp
      · simp
      · exact fun ha => .inr ⟨rfl, hi.scheduled.driven ha⟩
      · exact fun ha _ => hi.scheduled.started ha
    · simp only [World.park, World.modify_actor, if_neg hj]
      rw [one_false (by simp [Ne.symm hj]), Nat.add_zero]
      exact (h.actor j).hands Iff.rfl (by simp [Ne.symm hj]) Iff.rfl
  · simp [World.park, h.inflightN]
  · simp only [World.park, List.length_cons, h.parkedN, World.modify]
    omega
  · rintro rfl (hm : w.mode ≠ .replay)
    simp [hm] at hb
  · intro (hm : w.mode = .replay)
    rw [if_pos hm] at hb
    exact ⟨hb, (h.replay hm).2⟩
  · have hne : j ≠ i := Nat.ne_of_gt (Nat.lt_of_lt_of_le hi.next hj)
    simp only [World.park, World.modify_actor, if_neg hne]
    exact h.fresh j hj

/-- The transfers are counted the same. -/
theorem Inv.relist (h : Inv hd w) {inflight : List Nat} {done : List (Nat × Val)}
    (ht : ∀ i, inflight.count i + (done.map Prod.fst).count i = w.transfers i)
    (hn : inflight.length + done.length = w.inflight.length + w.done.length)
    (hc : w.curlm = true) :
    Inv hd { w with inflight := inflight, inflightN := inflight.length, done := done } := by
  refine ⟨h.aborted, fun i => ?_, h.queue, rfl, h.parkedN.trans hn.symm, fun hf => ?_, fun hm => ?_,
    h.pool.congr (fun _ => rfl) (fun _ _ => rfl) id rfl rfl rfl rfl rfl rfl, h.width, h.ctl, h.driven,
    h.fresh⟩
  · have hok := h.actor i
    exact ⟨hok.ready, hok.serving, hok.armed, hok.parked, hok.woken, (ht i).trans hok.transfers,
      hok.http, hok.mail, hok.adopted, hok.started, hok.owned⟩
  · simp [hc] at hf
  · have := (h.replay hm).1
    simp [hc] at this

/-- One turn of `er_http_harvest`. -/
theorem Inv.harvest1 {w' : World} {x : Nat × Val} (h : Inv hd w) (hx : w.harvest1 x = some w')
    (hmode : w.mode ≠ .replay) : Inv hd w' ∧ w'.mode = w.mode ∧ w'.ctl = w.ctl := by
  unfold World.harvest1 at hx
  split at hx
  next hm =>
    cases hx
    have hlen : w.inflightN - 1 = (w.inflight.erase x.1).length := by
      rw [h.inflightN, List.length_erase_of_mem hm]
    have hcurlm : w.curlm = true := by
      by_contra hc
      have := (h.curlm (by simpa using hc) hmode).1
      simp [this] at hm
    simp only [World.unlinkInflight, World.assume_pos (decide_eq_true hm), hlen]
    refine ⟨h.relist (fun i => ?_) ?_ hcurlm, trivial, trivial⟩
    · simp only [List.map_append, List.count_append, List.map_cons, List.map_nil, World.transfers]
      by_cases hi : i = x.1
      · subst hi
        have := List.count_pos_iff.mpr hm
        rw [List.count_erase_self, count_singleton, one_true rfl]
        omega
      · rw [List.count_erase_of_ne hi, count_singleton, one_false (by simp [Ne.symm hi])]
        omega
    · have := List.length_pos_of_mem hm
      rw [List.length_erase_of_mem hm, List.length_append, List.length_singleton]
      omega
  next => cases hx

/-- `er_http_harvest`. -/
theorem Inv.harvest {w w' : World} {hs : List (Nat × Val)} (h : Inv hd w)
    (hx : World.harvest hs w = some w') (hmode : w.mode ≠ .replay) :
    Inv hd w' ∧ w'.mode = w.mode ∧ w'.ctl = w.ctl := by
  induction hs generalizing w with
  | nil =>
    cases hx
    exact ⟨h, rfl, rfl⟩
  | cons x xs ih =>
    obtain ⟨w₁, hw₁, hx⟩ := Option.bind_eq_some_iff.mp hx
    obtain ⟨h₁, hm₁, hc₁⟩ := h.harvest1 hw₁ hmode
    obtain ⟨h₂, hm₂, hc₂⟩ := ih h₁ hx (hm₁ ▸ hmode)
    exact ⟨h₂, hm₂.trans hm₁, hc₂.trans hc₁⟩

/-- A parked actor whose transfer is over is about to be woken. -/
theorem Inv.unpark {s : Option Nat} (h : Inv ⟨s, none, none⟩ w) (i : Nat) (inflight : List Nat)
    (done : List (Nat × Val))
    (ht : ∀ j, inflight.count j + (done.map Prod.fst).count j + one (some i = some j) =
      w.transfers j)
    (hn : inflight.length + done.length + 1 = w.inflight.length + w.done.length)
    (hsub : inflight ⊆ w.inflight ∧ done ⊆ w.done) :
    Inv ⟨s, some i, none⟩ { w.modify i fun a => { a with http := false } with
      inflight := inflight
      inflightN := inflight.length
      done := done
      parkedN := w.parkedN - 1 } := by
  have hti := ht i
  have hok := h.actor i
  have htr := hok.transfers
  have hle := @one_le_one ((w.actor i).http = true)
  rw [one_true rfl] at hti
  have hhttp : (w.actor i).http = true := one_eq_one.1 (by omega)
  have hbl := hok.http hhttp
  have hi : i < w.next := by
    by_contra hlt
    simp [h.fresh i (Nat.le_of_not_lt hlt)] at hhttp
  have hown : ∀ j, ((w.modify i fun a => { a with http := false }).actor j).owner =
      (w.actor j).owner := by
    intro j
    simp only [World.modify_actor]
    split
    next hj => rw [hj]
    next => rfl
  have had : ∀ j, ((w.modify i fun a => { a with http := false }).actor j).adopted =
      (w.actor j).adopted := by
    intro j
    simp only [World.modify_actor]
    split
    next hj => rw [hj]
    next => rfl
  refine ⟨h.aborted, fun j => ?_, fun j hj => (hown j).trans (h.queue j hj), rfl, ?_,
    fun hc hm => ?_, fun hm => ?_, h.pool.congr hown (fun j _ => had j) id rfl rfl rfl rfl rfl rfl,
    h.width, h.ctl, fun r hr => (had r).trans (h.driven r hr), fun j hj => ?_⟩
  · change Actor.Ok _ w.ctl j ((w.modify i fun a => { a with http := false }).actor j)
      (w.readyTokens j) (w.servingTokens j) (inflight.count j + (done.map Prod.fst).count j)
    rw [World.modify_actor]
    split
    next hj =>
      subst hj
      refine ⟨hok.ready, hok.serving, hok.armed, hok.parked, fun _ => ⟨hbl, rfl⟩, ?_, ?_,
        fun hne => absurd rfl hne, hok.adopted, hok.started, hok.owned⟩
      · simp only [Bool.false_eq_true, one_False]
        rw [one_true hhttp] at htr
        omega
      · simp
    next hj =>
      have htj := ht j
      rw [one_false (by simp [Ne.symm hj])] at htj
      rw [show inflight.count j + (done.map Prod.fst).count j = w.transfers j by omega]
      exact (h.actor j).hands Iff.rfl Iff.rfl (by simp [Ne.symm hj])
  · have := h.parkedN
    change w.parkedN - 1 = inflight.length + done.length
    omega
  · obtain ⟨h₁, h₂⟩ := h.curlm hc hm
    exact ⟨List.subset_nil.mp (h₁ ▸ hsub.1), List.subset_nil.mp (h₂ ▸ hsub.2)⟩
  · obtain ⟨h₁, h₂⟩ := h.replay hm
    exact ⟨h₁, List.subset_nil.mp (h₂ ▸ hsub.2)⟩
  · have hne : j ≠ i := Nat.ne_of_gt (Nat.lt_of_lt_of_le hi hj)
    change (w.modify i fun a => { a with http := false }).actor j = {}
    rw [World.modify_actor, if_neg hne]
    exact h.fresh j hj

/-- `er_enqueue` touches the queues only. -/
theorem World.enqueue_frame (w : World) (i : Nat) : ∃ q p r a,
    w.enqueue i = { w with queue := q, pool := p, readyBound := r, aborted := a } := by
  unfold World.enqueue
  cases (w.actor i).owner with
  | none =>
    dsimp only
    split
    · exact ⟨_, _, _, _, rfl⟩
    · exact ⟨_, _, _, _, rfl⟩
  | some k =>
    dsimp only [World.assume]
    split <;> split
    all_goals exact ⟨_, _, _, _, rfl⟩

/-- Queues and transfers are apart. -/
theorem World.enqueue_inflight (w : World) (i : Nat) (l : List Nat) (n : Nat) :
    ({ w with inflight := l, inflightN := n } : World).enqueue i =
      { w.enqueue i with inflight := l, inflightN := n } := by
  unfold World.enqueue
  cases ho : (w.actor i).owner with
  | none =>
    dsimp only
    split <;> rfl
  | some k =>
    dsimp only [World.assume, World.worker]
    split <;> split <;> rfl

theorem World.enqueue_unlink {i : Nat} (hm : i ∈ w.inflight) :
    (w.enqueue i).unlinkInflight i = ({ w with
      inflight := w.inflight.erase i
      inflightN := w.inflightN - 1 } : World).enqueue i := by
  refine Eq.trans ?_ (w.enqueue_inflight i _ _).symm
  obtain ⟨q, p, r, a, hq⟩ := w.enqueue_frame i
  have hassume : (w.enqueue i).assume (i ∈ (w.enqueue i).inflight) = w.enqueue i := by
    refine World.assume_pos (decide_eq_true ?_)
    rw [hq]
    exact hm
  unfold World.unlinkInflight
  rw [hassume, hq]

/-- `er_http_resume` of an actor that is parked on its transfer. -/
theorem World.httpResume_eq {i : Nat} (hb : (w.actor i).thread.status = .blocked)
    (hh : (w.actor i).http = true) (v : Val) :
    w.httpResume i v = ({ w.modify i fun a => { a with http := false } with
      parkedN := w.parkedN - 1 } : World).resume i v := by
  rw [World.resume_eq (by simpa using hb)]
  unfold World.httpResume World.deposit
  rw [World.assume_pos (decide_eq_true hb)]
  simp [World.modify, hh]

/-- `er_http_resume` of an actor that is not parked. -/
theorem World.httpResume_eq_resume {i : Nat} (hh : (w.actor i).http = false) (v : Val) :
    w.httpResume i v = w.resume i v := by
  unfold World.httpResume World.resume
  have : ((w.deposit i v).actor i).http = false := by
    unfold World.deposit World.assume
    split <;> simpa using hh
  dsimp only
  rw [if_neg (by simp [this])]

/-- An actor with a transfer waits for it. -/
theorem Inv.parked_of_transfer (h : Inv hd w) {i : Nat} (ht : 0 < w.transfers i) :
    (w.actor i).http = true ∧ (w.actor i).thread.status = .blocked := by
  have hok := h.actor i
  have hhttp : (w.actor i).http = true := by
    by_contra hh
    have := hok.transfers
    rw [one_false hh] at this
    omega
  exact ⟨hhttp, hok.parked (hok.http hhttp)⟩

/-- The first completion is deposited. -/
theorem Inv.depositHead {s : Option Nat} (h : Inv ⟨s, none, none⟩ w) (hd : w.done ≠ []) :
    Inv ⟨s, none, none⟩ w.depositHead := by
  cases hdone : w.done with
  | nil => exact absurd hdone hd
  | cons x rest =>
    obtain ⟨i, v⟩ := x
    have hcount : ∀ j, w.inflight.count j + (rest.map Prod.fst).count j + one (some i = some j) =
        w.transfers j := by
      intro j
      have : (w.done.map Prod.fst).count j = (rest.map Prod.fst).count j + [i].count j := by
        rw [hdone, List.map_cons, ← List.singleton_append, List.count_append, Nat.add_comm]
      rw [World.transfers, this, count_singleton]
      omega
    obtain ⟨hhttp, hb⟩ := h.parked_of_transfer (i := i) (by
      have := hcount i
      rw [one_true rfl] at this
      omega)
    have hu := (h.unpark i w.inflight rest hcount (by rw [hdone, List.length_cons]; omega)
      ⟨List.Subset.refl _, by simp [hdone]⟩).resume_woken v
    rw [← h.inflightN] at hu
    unfold World.depositHead
    rw [hdone]
    dsimp only
    rwa [World.httpResume_eq (w := { w with done := rest }) hb hhttp]

/-- A deposit takes one completion off the FIFO. -/
theorem World.depositHead_frame (w : World) : w.depositHead.done = w.done.tail ∧
    w.depositHead.mode = w.mode ∧ w.depositHead.ctl = w.ctl := by
  unfold World.depositHead
  cases hd : w.done with
  | nil => simp [World.assume, hd]
  | cons x rest =>
    obtain ⟨i, v⟩ := x
    dsimp only [World.httpResume, List.tail_cons]
    obtain ⟨q, p, r, a, hq⟩ := World.enqueue_frame ((if
      ((World.deposit { w with done := rest } i v).actor i).http = true then
        { (World.deposit { w with done := rest } i v).modify i fun a => { a with http := false } with
          parkedN := (World.deposit { w with done := rest } i v).parkedN - 1 }
      else World.deposit { w with done := rest } i v).modify i fun a =>
        { a with status := .runnable }) i
    rw [hq]
    split <;> simp only [World.modify, World.deposit, World.assume] <;> split <;> simp

/-- All completions are deposited. -/
theorem Inv.depositAll {s : Option Nat} (h : Inv ⟨s, none, none⟩ w) :
    Inv ⟨s, none, none⟩ w.depositAll ∧ w.depositAll.mode = w.mode ∧ w.depositAll.ctl = w.ctl := by
  suffices hall : ∀ (l : List (Nat × Val)) (w : World), l.length = w.done.length →
      Inv ⟨s, none, none⟩ w → Inv ⟨s, none, none⟩ (l.foldl (fun w _ => w.depositHead) w) ∧
        (l.foldl (fun w _ => w.depositHead) w).mode = w.mode ∧
        (l.foldl (fun w _ => w.depositHead) w).ctl = w.ctl from hall w.done w rfl h
  intro l
  induction l with
  | nil => exact fun w _ h => ⟨h, rfl, rfl⟩
  | cons x l ih =>
    intro w hlen h
    obtain ⟨hdone, hmode, hctl⟩ := w.depositHead_frame
    have hne : w.done ≠ [] := by
      intro he
      simp [he] at hlen
    obtain ⟨h₁, h₂, h₃⟩ := ih w.depositHead (by
      rw [hdone, List.length_tail, ← hlen, List.length_cons]
      omega) (h.depositHead hne)
    exact ⟨h₁, h₂.trans hmode, h₃.trans hctl⟩

/-- A logged completion is deposited, and its stub unlinked. -/
theorem Inv.replayDeposit {i : Nat} {s : Option Nat} (h : Inv ⟨s, none, none⟩ w)
    (hmode : w.mode = .replay) (hhttp : (w.actor i).http = true) (v : Val) :
    Inv ⟨s, none, none⟩ ((w.httpResume i v).unlinkInflight i) := by
  have hok := h.actor i
  have hb := hok.parked (hok.http hhttp)
  have hdone := (h.replay hmode).2
  have hmem : i ∈ w.inflight := by
    have := hok.transfers
    rw [one_true hhttp, World.transfers, hdone] at this
    exact List.count_pos_iff.mp (by simp at this; omega)
  have hu := (h.unpark i (w.inflight.erase i) w.done (fun j => ?_) ?_
    ⟨List.erase_subset, List.Subset.refl _⟩).resume_woken v
  · have hlen : w.inflightN - 1 = (w.inflight.erase i).length := by
      rw [h.inflightN, List.length_erase_of_mem hmem]
    rw [World.httpResume_eq hb hhttp]
    rw [World.resume_eq (by simpa using hb)] at hu ⊢
    rw [World.enqueue_unlink (by exact hmem)]
    rw [← hlen] at hu
    exact hu
  · by_cases hj : j = i
    · subst hj
      have := List.count_pos_iff.mpr hmem
      rw [List.count_erase_self, one_true rfl, World.transfers]
      omega
    · rw [List.count_erase_of_ne hj, one_false (by simp [Ne.symm hj]), World.transfers]
      omega
  · have := List.length_pos_of_mem hmem
    rw [List.length_erase_of_mem hmem]
    omega

/-! ## New actors -/

/-- A root the controller polls is driven. -/
theorem Ctl.driven_of_polls {c : Ctl} {i : Nat} (h : c.polls = some i) : c.driven = some i := by
  cases c <;> simp_all [Ctl.polls, Ctl.driven]

/-- `er_register`. -/
theorem Inv.register (h : Inv hd w) (b : Bool) : Inv hd (w.register b) := by
  have hfresh := h.fresh w.next (Nat.le_refl _)
  have hact : ∀ j, (w.register b).actor j =
      if j = w.next then { adopted := b, handles := [some w.next] } else w.actor j := by
    intro j
    simp [World.register, Function.update_apply]
  have hok := h.actor w.next
  rw [hfresh] at hok
  have hns : ¬ Actor.scheduled {} w.ctl w.next := by simp [Actor.scheduled]
  obtain ⟨hr, hl⟩ := hok.not_ready fun hc => hns hc.1
  obtain ⟨hz, hs⟩ := hok.not_serving fun hc => hns hc.1
  have hw : hd.woken ≠ some w.next := fun hk => by simpa using (hok.woken hk).1
  have hdriven : ∀ r, w.ctl.driven = some r ∨ w.root = some r → r ≠ w.next := by
    rintro r hr rfl
    have := h.driven _ hr
    simp [hfresh] at this
  have hown : ∀ j, ((w.register b).actor j).owner = (w.actor j).owner := by
    intro j
    rw [hact]
    split
    next hj => rw [hj, hfresh]
    next => rfl
  refine ⟨h.aborted, fun j => ?_, fun j hj => (hown j).trans (h.queue j hj), h.inflightN, h.parkedN,
    h.curlm, h.replay, ?_, h.width, h.ctl, fun r hr => ?_, fun j hj => ?_⟩
  · rw [hact]
    split
    next hj =>
      subst hj
      change Actor.Ok hd w.ctl w.next _ (w.readyTokens w.next) (w.servingTokens w.next)
        (w.transfers w.next)
      rw [hr, hz]
      refine .unscheduled ?_ hl hs hw ?_ hok.transfers ?_ ?_ ?_ ?_ ?_
      · rintro ⟨-, hsch⟩
        split at hsch
        · exact hdriven _ (.inl hsch) rfl
        · cases hsch
      all_goals simp
    next => exact h.actor j
  · refine h.pool.congr hown (fun j hj => ?_) id rfl rfl rfl rfl rfl rfl
    rw [hact, if_neg]
    rintro rfl
    omega
  · rw [hact, if_neg (hdriven r hr)]
    exact h.driven r hr
  · have hj' : w.next + 1 ≤ j := hj
    rw [hact, if_neg (by omega)]
    exact h.fresh j (by omega)

/-- `er_actor_start`. -/
theorem Inv.start {i : Nat} {s k : Option Nat} (h : Inv ⟨s, k, none⟩ w) (hi : i < w.next)
    (ha : (w.actor i).adopted = false) (hst : (w.actor i).started = false) (fn : Val) :
    Inv ⟨s, k, none⟩ (w.start i fn) := by
  have hok := h.actor i
  have hrun : (w.actor i).status = .runnable := by
    by_contra hne
    have := hok.started ha hne
    simp [hst] at this
  have hns : ¬ (w.actor i).scheduled w.ctl i := fun hc => by
    have := hc.started ha
    simp [hst] at this
  have hr := (hok.not_ready fun hc => hns hc.1).1
  obtain ⟨hz, hsi⟩ := hok.not_serving fun hc => hns hc.1
  have hwk : k ≠ some i := fun hk => by
    have := (hok.woken hk).1
    simp [hrun] at this
  have hp : w.ctl.polls ≠ some i := fun hp => by
    have := h.driven i (.inl (Ctl.driven_of_polls hp))
    simp [ha] at this
  have hhttp : (w.actor i).http = false := by
    by_contra hh
    have := hok.http (by simpa using hh)
    simp [hrun] at this
  unfold World.start
  rw [World.assume_pos (by simp [hst, hrun])]
  refine Inv.enqueue (h.modify ?_ rfl rfl hi (fun j hj => ?_) (fun _ _ => Iff.rfl)
    fun _ _ => Iff.rfl)
  · rw [hr, hz]
    have hsch : Actor.scheduled
        { w.actor i with started := true, thread := ⟨.yielded, fn⟩ } w.ctl i := by
      refine ⟨hrun, ?_⟩
      rw [if_neg (by simp [ha])]
    refine ⟨?_, ?_, fun _ => .inl rfl, ?_, fun hk => absurd hk hwk, hok.transfers, hok.http, hok.mail,
      hok.adopted, fun _ _ => rfl, fun ho => ⟨(hok.owned ho).1, rfl⟩⟩
    · rw [one_true rfl, one_true]
      exact ⟨hsch, rfl, hp⟩
    · rw [one_false hsi, one_false]
      simp
    · simp [hrun]
  · simp [Ne.symm hj]

end Enki.Runtime
