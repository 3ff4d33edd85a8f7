import Enki.Runtime.Blocks

/-!
# The actor runtime: moves of the controller and of the workers

How the invariant follows the threads of control: the controller goes from one
place to another, taking up or leaving a root; a worker goes through its loop,
and changes its role when it is bound to an actor, released, or promoted.
-/

namespace Enki.Runtime

variable {w : World} {hd hd' : Hands}

/-! ## The controller moves -/

/-- The controller moves, and with it perhaps one root. -/
theorem Inv.setCtl' (h : Inv hd w) (c : Ctl) (ro : Option Nat) (e ru : Bool) (an : Option Answer)
    (re : Answer)
    (hok : ∀ i, (w.actor i).Ok hd' c i
      (w.queue.count i + tally (Worker.readyFor i) w.pool + one (c.slicing = some i))
      (tally (Worker.servingFor i) w.pool + one (c.serves = some i)) (w.transfers i))
    (hctl : ({ w with ctl := c, root := ro, entered := e, running := ru } : World).ctlOk)
    (hdr : ∀ r, c.driven = some r ∨ ro = some r → (w.actor r).adopted) :
    Inv hd' { w with ctl := c, root := ro, entered := e, running := ru, answer := an, reason := re } :=
  ⟨h.aborted, hok, h.queue, h.inflightN, h.parkedN, h.curlm, h.replay,
    h.pool.congr (fun _ => rfl) (fun _ _ => rfl) id rfl rfl rfl rfl rfl rfl, h.width, hctl, hdr, h.fresh⟩

/-- What holds of an actor depends on the controller only where it names it. -/
theorem Actor.Ok.recast {c c' : Ctl} {i : Nat} {a : Actor} {r s t : Nat} (h : a.Ok hd c i r s t)
    (hdr : c'.driven = some i ↔ c.driven = some i) (hpo : c'.polls = some i ↔ c.polls = some i) :
    a.Ok hd c' i r s t := by
  have hsch : a.scheduled c' i ↔ a.scheduled c i := by
    unfold Actor.scheduled
    rw [propext hdr]
  refine ⟨?_, ?_, fun hs => h.armed (hsch.mp hs), h.parked, h.woken, h.transfers, h.http, h.mail, ?_,
    h.started, h.owned⟩
  · rw [one_congr (and_congr hsch (and_congr Iff.rfl (not_congr hpo)))]
    exact h.ready
  · rw [one_congr (and_congr_left fun _ => hsch)]
    exact h.serving
  · rw [propext hdr]
    exact h.adopted

/-- The controller moves between places that name the same actors. -/
theorem Inv.setCtl (h : Inv hd w) (c : Ctl) (ro : Option Nat) (e ru : Bool) (an : Option Answer)
    (re : Answer) (hdr : c.driven = w.ctl.driven) (hpo : c.polls = w.ctl.polls)
    (hsl : c.slicing = w.ctl.slicing) (hsv : c.serves = w.ctl.serves)
    (hctl : ({ w with ctl := c, root := ro, entered := e, running := ru } : World).ctlOk)
    (hro : ∀ r, ro = some r → (w.actor r).adopted) :
    Inv hd { w with ctl := c, root := ro, entered := e, running := ru, answer := an, reason := re } := by
  refine h.setCtl' c ro e ru an re (fun i => ?_) hctl fun r hr => ?_
  · rw [hsl, hsv]
    exact (h.actor i).recast (by rw [hdr]) (by rw [hpo])
  · rcases hr with hr | hr
    · exact h.driven r (.inl (hdr ▸ hr))
    · exact hro r hr

/-! ## Workers move -/

/-- A worker moves. -/
theorem Inv.setPc {k : Nat} {x : Worker} (h : Inv hd w) (hx : w.pool[k]? = some x) (pc : Pc)
    (b : Nat) (p : Bool)
    (hl : ∀ j, one (pc.slicing = some j) + one (hd'.loose = some j) =
      one (x.pc.slicing = some j) + one (hd.loose = some j))
    (hs : ∀ j, one (pc.serves = some j) + one (hd'.serving = some j) =
      one (x.pc.serves = some j) + one (hd.serving = some j))
    (hw : hd'.woken = hd.woken)
    (hb : b + one (x.pc.busy = true) = w.busyN + one (pc.busy = true))
    (hp : one (p = true) + one (x.pc = .pumping) = one (w.pumping = true) + one (pc = .pumping))
    (hok : Worker.Ok w k { x with pc })
    (hctl : ({ w with busyN := b } : World).ctlOk) :
    Inv hd' { w.setPc k pc with busyN := b, pumping := p } := by
  unfold World.setPc
  rw [World.worker_eq hx]
  refine ⟨h.aborted, fun j => ?_, h.queue, h.inflightN, h.parkedN, h.curlm, h.replay, ?_,
    h.width, hctl, h.driven, h.fresh⟩
  · have hj := h.actor j
    -- the tokens of the pool change by those of this worker
    have hr := readyTokens_setWorker hx (y := { x with pc }) j
    have hv := servingTokens_setWorker hx (y := { x with pc }) j
    have hr₁ : x.readyFor j = one (x.ready ∧ x.actor = some j) + one (x.pc.slicing = some j) := rfl
    have hr₂ : ({ x with pc } : Worker).readyFor j =
      one (x.ready ∧ x.actor = some j) + one (pc.slicing = some j) := rfl
    have hv₁ : x.servingFor j = one (x.pc.serves = some j) := rfl
    have hv₂ : ({ x with pc } : Worker).servingFor j = one (pc.serves = some j) := rfl
    have hlj := hl j
    have hsj := hs j
    refine ⟨?_, ?_, hj.armed, hj.parked, ?_, hj.transfers, hj.http, ?_, hj.adopted, hj.started,
      hj.owned⟩
    · -- what the worker gains the hands lose, and the other way round
      refine Eq.trans ?_ hj.ready
      change (w.setWorker k { x with pc }).readyTokens j + _ = _
      omega
    · refine Eq.trans ?_ hj.serving
      change (w.setWorker k { x with pc }).servingTokens j + _ = _
      omega
    · rw [hw]
      exact hj.woken
    · rw [hw]
      exact hj.mail
  · exact h.pool.set hx rfl hok rfl rfl rfl rfl rfl hb rfl hp rfl

/-- Busy workers are only there while the executor runs a call. -/
theorem World.ctlOk.busy (h : w.ctlOk) {b : Nat} (hb : b ≤ w.busyN ∨ w.running = true) :
    ({ w with busyN := b } : World).ctlOk := by
  unfold World.ctlOk at h ⊢
  cases hc : w.ctl <;> simp only [hc] at h ⊢ <;> grind

/-! ## Roles -/

/-- The newest spare worker is one of the pool, and spare. -/
theorem World.newestSpare_eq_some {k : Nat} (h : w.newestSpare = some k) :
    ∃ x, w.pool[k]? = some x ∧ x.role = .spare := by
  have hrole := List.find?_some h
  have hmem := List.mem_of_find?_eq_some h
  rw [List.mem_reverse, List.mem_range] at hmem
  refine ⟨w.pool[k], List.getElem?_eq_getElem hmem, ?_⟩
  rw [World.worker_eq (List.getElem?_eq_getElem hmem)] at hrole
  simpa using hrole

/-- `er_mt_promote_general_locked` gives the pool one more general worker. -/
theorem Pool.promote (h : Pool w) (hatt : w.attached = true) : Pool w.promote ∧
    (∀ i, w.promote.readyTokens i = w.readyTokens i) ∧
    (∀ i, w.promote.servingTokens i = w.servingTokens i) ∧
    (∀ (j : Nat) (z : Worker), w.pool[j]? = some z → z.role ≠ .spare →
      w.promote.pool[j]? = some z) ∧
    ∃ p, w.promote = { w with pool := p, generalN := w.generalN + 1 } := by
  unfold World.promote
  cases hsp : w.newestSpare with
  | some k =>
    obtain ⟨x, hx, hrole⟩ := World.newestSpare_eq_some hsp
    have hxok := h.ok k x hx
    -- only a bound worker has an actor
    have hact : x.actor = none := by
      by_contra hne
      have := hxok.bound hne
      simp [hrole] at this
    have hready : x.ready = false := by
      by_contra hne
      exact hxok.ready (by simpa using hne) hact
    have hpc := hxok.spare hrole
    have hno : x.pc.slicing = none ∧ x.pc.serves = none ∧ x.pc ≠ .idle ∧ x.pc ≠ .pumping ∧
        x.pc ≠ .pumped := by
      revert hpc
      cases x.pc <;> simp [Pc.busy, Pc.slicing, Pc.serves]
    dsimp only
    rw [World.worker_eq hx]
    -- what a worker counts for changes with its role only
    have hset := fun (f : Worker → Nat) => tally_set f hx { x with role := .general }
    refine ⟨⟨fun j z hz => ?_, fun i j hi => ?_, ?_, ?_, ?_, ?_, fun hf => ?_⟩, fun i => ?_,
      fun i => ?_, fun j z hz hne => ?_, _, rfl⟩
    · change (w.pool.set k { x with role := .general })[j]? = some z at hz
      rw [World.pool_set hx] at hz
      split at hz
      next hj =>
        cases hz
        subst hj
        refine ⟨hxok.actor, ?_, ?_, ?_, ?_, ?_, fun _ => rfl, hxok.exited⟩
        · simp [hact]
        · simp
        · simp [hready]
        · simp [hno]
        · simp
      next hj => exact (h.ok j z hz).congr (fun _ => rfl) (fun _ _ => rfl) id
    · obtain ⟨z, hz, hza⟩ := h.owner i j hi
      change ∃ x', (w.pool.set k { x with role := .general })[j]? = some x' ∧ _
      rw [World.pool_set hx]
      by_cases hj : j = k
      · subst hj
        obtain rfl : x = z := Option.some.inj (hx.symm.trans hz)
        simp [hact] at hza
      · exact ⟨z, (if_neg hj).trans hz, hza⟩
    · exact h.readyBound.trans (Nat.add_right_cancel (hset fun x => one (x.ready = true))).symm
    · exact h.busyN.trans (Nat.add_right_cancel (hset fun x => one (x.pc.busy = true))).symm
    · have := hset fun x => one (x.role = .general)
      simp only [hrole, one_True, reduceCtorEq, one_False] at this
      have := h.generalN
      change w.generalN + 1 = tally _ (w.pool.set k _)
      omega
    · exact (Nat.add_right_cancel (hset fun x => one (x.pc = .pumping))).trans h.pumping
    · simp [World.setWorker, hatt] at hf
    · have := readyTokens_setWorker hx (y := { x with role := .general }) i
      exact Nat.add_right_cancel this
    · have := servingTokens_setWorker hx (y := { x with role := .general }) i
      exact Nat.add_right_cancel this
    · change (w.pool.set k { x with role := .general })[j]? = some z
      rw [World.pool_set hx, if_neg, hz]
      rintro rfl
      obtain rfl : x = z := Option.some.inj (hx.symm.trans hz)
      exact hne hrole
  -- Without a spare worker the pool grows by a new one at its end.
  | none =>
    dsimp only
    refine ⟨⟨fun j z hz => ?_, fun i j hi => ?_, ?_, ?_, ?_, ?_, fun hf => ?_⟩, fun i => ?_,
      fun i => ?_, fun j z hz _ => ?_, _, rfl⟩
    · have hz : (w.pool ++ [({} : Worker)])[j]? = some z := hz
      rw [List.getElem?_append] at hz
      split at hz
      next hj => exact (h.ok j z hz).congr (fun _ => rfl) (fun _ _ => rfl) id
      next hj =>
        have hz' : z = {} := by
          rw [List.getElem?_singleton] at hz
          split at hz
          · exact (Option.some.inj hz).symm
          · cases hz
        subst hz'
        constructor <;> simp [Pc.slicing, Pc.serves]
    · obtain ⟨z, hz, hza⟩ := h.owner i j hi
      refine ⟨z, ?_, hza⟩
      change (w.pool ++ [({} : Worker)])[j]? = some z
      rw [List.getElem?_append_left (List.getElem?_eq_some_iff.mp hz).1]
      exact hz
    · simp [h.readyBound]
    · simp [h.busyN, Pc.busy]
    · simp [h.generalN]
    · simp [h.pumping]
    · simp [hatt] at hf
    · simp [World.readyTokens, Worker.readyFor, Pc.slicing]
    · simp [World.servingTokens, Worker.servingFor, Pc.serves]
    · rw [List.getElem?_append_left (List.getElem?_eq_some_iff.mp hz).1]
      exact hz

/-- A general worker takes an actor for itself. -/
theorem Pool.own {k i : Nat} {x : Worker} (h : Pool w) (hx : w.pool[k]? = some x)
    (hrole : x.role = .general) (ho : (w.actor i).owner = none)
    (had : (w.actor i).adopted = false)
    (hself : ∀ j, x.pc.slicing = some j ∨ x.pc.serves = some j → j = i)
    (hpump : x.pc ≠ .idle ∧ x.pc ≠ .pumping ∧ x.pc ≠ .pumped)
    (hother : ∀ (j : Nat) (z : Worker), j ≠ k → w.pool[j]? = some z →
      z.pc.slicing ≠ some i ∧ z.pc.serves ≠ some i) :
    Pool { (w.setWorker k { x with role := .bound, actor := some i }).modify i fun a =>
      { a with owner := some k } with generalN := w.generalN - 1 } := by
  have hxok := h.ok k x hx
  have hact : x.actor = none := by
    by_contra hne
    have := hxok.bound hne
    simp [hrole] at this
  have hown : ∀ j, (((w.setWorker k { x with role := .bound, actor := some i }).modify i fun a =>
      { a with owner := some k }).actor j).owner = if j = i then some k else (w.actor j).owner := by
    intro j
    rw [World.modify_actor]
    split <;> rfl
  have hadopted : ∀ j, (((w.setWorker k { x with role := .bound, actor := some i }).modify i
      fun a => { a with owner := some k }).actor j).adopted = (w.actor j).adopted := by
    intro j
    rw [World.modify_actor]
    split
    next hj => rw [hj]; rfl
    next => rfl
  have hset := fun (f : Worker → Nat) => tally_set f hx { x with role := .bound, actor := some i }
  refine ⟨fun j z hz => ?_, fun j l hj => ?_, ?_, ?_, ?_, ?_, fun hf => ?_⟩
  · change (w.pool.set k { x with role := .bound, actor := some i })[j]? = some z at hz
    rw [World.pool_set hx] at hz
    split at hz
    -- another worker holds another actor, and runs another one
    next hj =>
      cases hz
      subst hj
      refine ⟨fun l hl => ?_, by simp, by simp, by simp, fun l hl => ⟨?_, fun _ => ?_, ?_⟩, by simp, ?_,
        hxok.exited⟩
      · obtain rfl : i = l := Option.some.inj hl
        exact (hown i).trans (if_pos rfl)
      · rw [hself l hl]
        exact (hadopted i).trans had
      · rw [hself l hl]
      · simp
      · simp [hpump]
    next hj =>
      have hzok := h.ok j z hz
      refine ⟨fun l hl => ?_, hzok.bound, hzok.working, hzok.ready, fun l hl => ?_, hzok.spare, hzok.pump,
        hzok.exited⟩
      · refine (hown l).trans ((if_neg ?_).trans (hzok.actor l hl))
        rintro rfl
        have := hzok.actor l hl
        simp [ho] at this
      · have hli : l ≠ i := by
          rintro rfl
          have := hother j z hj hz
          rcases hl with hl | hl
          · exact this.1 hl
          · exact this.2 hl
        obtain ⟨h₁, h₂, h₃⟩ := hzok.slice l hl
        exact ⟨(hadopted l).trans h₁, h₂, fun hg => (hown l).trans ((if_neg hli).trans (h₃ hg))⟩
  · have hj' := (hown j).symm.trans hj
    change ∃ x', (w.pool.set k { x with role := .bound, actor := some i })[l]? = some x' ∧ _
    rw [World.pool_set hx]
    split at hj'
    next hji =>
      cases hj'
      exact ⟨_, if_pos rfl, by rw [hji]⟩
    next hji =>
      obtain ⟨z, hz, hza⟩ := h.owner j l hj'
      refine ⟨z, (if_neg ?_).trans hz, hza⟩
      rintro rfl
      obtain rfl : x = z := Option.some.inj (hx.symm.trans hz)
      simp [hact] at hza
  · exact h.readyBound.trans (Nat.add_right_cancel (hset fun x => one (x.ready = true))).symm
  · exact h.busyN.trans (Nat.add_right_cancel (hset fun x => one (x.pc.busy = true))).symm
  · have := hset fun x => one (x.role = .general)
    simp only [hrole, one_True, reduceCtorEq, one_False] at this
    have := h.generalN
    change w.generalN - 1 = tally _ (w.pool.set k _)
    omega
  · exact (Nat.add_right_cancel (hset fun x => one (x.pc = .pumping))).trans h.pumping
  · have hf : w.attached = false := hf
    rw [h.attached hf] at hx
    cases hx

/-- `er_mt_bind_locked` of an actor without a worker. -/
theorem Inv.bind {k i : Nat} {x : Worker} (h : Inv hd w) (hx : w.pool[k]? = some x)
    (hrole : x.role = .general) (ho : (w.actor i).owner = none)
    (had : (w.actor i).adopted = false) (hst : (w.actor i).started = true) (hi : i < w.next)
    (hq : i ∉ w.queue)
    (hself : ∀ j, x.pc.slicing = some j ∨ x.pc.serves = some j → j = i)
    (hpump : x.pc ≠ .idle ∧ x.pc ≠ .pumping ∧ x.pc ≠ .pumped)
    (hother : ∀ (j : Nat) (z : Worker), j ≠ k → w.pool[j]? = some z →
      z.pc.slicing ≠ some i ∧ z.pc.serves ≠ some i) :
    Inv hd (w.bind k i) ∧
    (w.bind k i).pool[k]? = some { x with role := .bound, actor := some i } ∧
    ∃ p, w.bind k i = { w.modify i fun a => { a with owner := some k } with pool := p } := by
  have hxok := h.pool.ok k x hx
  have hact : x.actor = none := by
    by_contra hne
    have := hxok.bound hne
    simp [hrole] at this
  have hready : x.ready = false := by
    by_contra hne
    exact hxok.ready (by simpa using hne) hact
  have hatt : w.attached = true := by
    by_contra hf
    rw [h.pool.attached (by simpa using hf)] at hx
    cases hx
  have hpos : 0 < w.generalN := by
    have := le_tally (fun x : Worker => one (x.role = .general)) hx
    have := h.pool.generalN
    simp only [hrole, one_True] at *
    omega
  have hown := h.pool.own hx hrole ho had hself hpump hother
  obtain ⟨hpool, hr, hs, hkeep, p, hp⟩ := hown.promote hatt
  have hk := hkeep k { x with role := .bound, actor := some i }
    ((World.pool_set hx k).trans (if_pos rfl)) (by simp)
  -- one general worker less, and by promotion one more
  have hgen : w.generalN - 1 + 1 = w.generalN := by omega
  -- The assertions of the source all hold.
  have heq : w.bind k i = World.promote { (w.setWorker k
      { x with role := .bound, actor := some i }).modify i fun a =>
        { a with owner := some k } with generalN := w.generalN - 1 } := by
    have hassume : w.assume (!(w.actor i).adopted ∧ x.role = .general ∧ x.actor = none ∧ !x.ready ∧
        0 < w.generalN) = w := World.assume_pos (by simp [had, hrole, hact, hready, hpos])
    unfold World.bind
    dsimp only
    rw [ho, World.worker_eq hx]
    dsimp only
    rw [hassume]
    refine World.assume_pos (decide_eq_true ?_)
    exact (congrArg World.generalN hp).trans
      ((hgen.trans h.width).trans (congrArg World.workers hp).symm)
  rw [heq]
  refine ⟨?_, hk, p, ?_⟩
  · rw [hp] at hpool hr hs ⊢
    refine ⟨h.aborted, fun j => ?_, fun j hj => ?_, h.inflightN, h.parkedN, h.curlm, h.replay, hpool,
      hgen.trans h.width, h.ctl, fun r hr => ?_, fun j hj => ?_⟩
    · rw [hr, hs]
      have hj := h.actor j
      -- the actor was on no private queue, and is on none
      have hrt : World.readyTokens { (w.setWorker k
          { x with role := .bound, actor := some i }).modify i fun a =>
            { a with owner := some k } with generalN := w.generalN - 1 } j = w.readyTokens j := by
        have hset := readyTokens_setWorker hx (y := { x with role := .bound, actor := some i }) j
        have hfor : ({ x with role := .bound, actor := some i } : Worker).readyFor j =
            x.readyFor j := by
          simp [Worker.readyFor, hready]
        rw [hfor] at hset
        exact Nat.add_right_cancel hset
      have hst' : World.servingTokens { (w.setWorker k
          { x with role := .bound, actor := some i }).modify i fun a =>
            { a with owner := some k } with generalN := w.generalN - 1 } j = w.servingTokens j :=
        Nat.add_right_cancel
          (servingTokens_setWorker hx (y := { x with role := .bound, actor := some i }) j)
      rw [hrt, hst']
      change Actor.Ok hd w.ctl j (((w.setWorker k
        { x with role := .bound, actor := some i }).modify i fun a =>
          { a with owner := some k }).actor j) _ _ (w.transfers j)
      rw [World.modify_actor]
      split
      next hji =>
        subst hji
        exact ⟨hj.ready, hj.serving, hj.armed, hj.parked, hj.woken, hj.transfers, hj.http, hj.mail,
          hj.adopted, hj.started, fun _ => ⟨had, hst⟩⟩
      next => exact hj
    · change (((w.setWorker k { x with role := .bound, actor := some i }).modify i fun a =>
        { a with owner := some k }).actor j).owner = none
      rw [World.modify_actor, if_neg]
      · exact h.queue j hj
      · rintro rfl
        exact hq hj
    · change (((w.setWorker k { x with role := .bound, actor := some i }).modify i fun a =>
        { a with owner := some k }).actor r).adopted = true
      rw [World.modify_actor]
      split
      next hri => exact hri ▸ h.driven r hr
      next => exact h.driven r hr
    · change ((w.setWorker k { x with role := .bound, actor := some i }).modify i fun a =>
        { a with owner := some k }).actor j = {}
      have hj' : w.next ≤ j := hj
      rw [World.modify_actor, if_neg (by omega)]
      exact h.fresh j hj'
  · rw [hp]
    simp only [World.modify, World.setWorker, hgen]

/-- A worker gives up its actor, which is not on its private queue. -/
theorem Inv.disown {k i : Nat} {x : Worker} (h : Inv hd w) (hx : w.pool[k]? = some x)
    (hact : x.actor = some i) (hready : x.ready = false) (role : Role) (hg : role ≠ .general)
    (hpc : x.pc = .top ∧ role = .spare ∨ x.pc = .exited) :
    Inv hd ((w.modify i fun a => { a with owner := none }).setWorker k
      { x with actor := none, role }) := by
  have hxok := h.pool.ok k x hx
  have howner := hxok.actor i hact
  have hrole : x.role = .bound := hxok.bound (by simp [hact])
  have hown : ∀ j, ((w.modify i fun a => { a with owner := none }).actor j).owner =
      if j = i then none else (w.actor j).owner := by
    intro j
    rw [World.modify_actor]
    split <;> rfl
  have hset := fun (f : Worker → Nat) => tally_set f hx { x with actor := none, role }
  refine ⟨h.aborted, fun j => ?_, fun j hj => ?_, h.inflightN, h.parkedN, h.curlm, h.replay, ?_,
    h.width, h.ctl, fun r hr => ?_, fun j hj => ?_⟩
  · have hj := h.actor j
    -- the private queue was empty
    have hrt : World.readyTokens ((w.modify i fun a => { a with owner := none }).setWorker k
        { x with actor := none, role }) j = w.readyTokens j := by
      have hset := readyTokens_setWorker hx (y := { x with actor := none, role }) j
      have hfor : ({ x with actor := none, role } : Worker).readyFor j =
          x.readyFor j := by
        simp [Worker.readyFor, hready]
      rw [hfor] at hset
      exact Nat.add_right_cancel hset
    have hst : World.servingTokens ((w.modify i fun a => { a with owner := none }).setWorker k
        { x with actor := none, role }) j = w.servingTokens j :=
      Nat.add_right_cancel
        (servingTokens_setWorker hx (y := { x with actor := none, role }) j)
    rw [hrt, hst]
    change Actor.Ok hd w.ctl j ((w.modify i fun a => { a with owner := none }).actor j) _ _
      (w.transfers j)
    rw [World.modify_actor]
    split
    next hji =>
      subst hji
      exact ⟨hj.ready, hj.serving, hj.armed, hj.parked, hj.woken, hj.transfers, hj.http, hj.mail,
        hj.adopted, hj.started, fun ho => absurd rfl ho⟩
    next => exact hj
  · refine (hown j).trans ?_
    split
    · rfl
    · exact h.queue j hj
  · refine ⟨fun j z hz => ?_, fun j l hj => ?_, ?_, ?_, ?_, ?_, fun hf => ?_⟩
    · change (w.pool.set k { x with actor := none, role })[j]? = some z at hz
      rw [World.pool_set hx] at hz
      split at hz
      next hj =>
        cases hz
        refine ⟨by simp, by simp, fun hr he => ?_, by simp [hready], ?_, ?_, ?_, hxok.exited⟩
        · rcases hpc with hpc | hpc
          · rw [hpc.2] at hr
            cases hr
          · exact absurd hpc he
        · rcases hpc with hpc | hpc <;> simp [hpc, Pc.slicing, Pc.serves]
        · rcases hpc with hpc | hpc <;> simp [hpc, Pc.busy]
        · rcases hpc with hpc | hpc <;> simp [hpc]
      next hj =>
        have hzok := h.pool.ok j z hz
        refine ⟨fun l hl => ?_, hzok.bound, hzok.working, hzok.ready, fun l hl => ?_, hzok.spare, hzok.pump,
          hzok.exited⟩
        · refine (hown l).trans ((if_neg ?_).trans (hzok.actor l hl))
          rintro rfl
          exact hj (Option.some.inj ((hzok.actor l hl).symm.trans howner))
        · -- who runs the actor may do so without owning it
          obtain ⟨h₁, h₂, h₃⟩ := hzok.slice l hl
          refine ⟨?_, h₂, fun hg => (hown l).trans ?_⟩
          · change ((w.modify i fun a => { a with owner := none }).actor l).adopted = false
            rw [World.modify_actor]
            split
            next hli => exact hli ▸ h₁
            next => exact h₁
          · split
            · rfl
            · exact h₃ hg
    · have hj' := (hown j).symm.trans hj
      change ∃ x', (w.pool.set k { x with actor := none, role })[l]? = some x' ∧ _
      rw [World.pool_set hx]
      split at hj'
      next => cases hj'
      next hji =>
        obtain ⟨z, hz, hza⟩ := h.pool.owner j l hj'
        refine ⟨z, (if_neg ?_).trans hz, hza⟩
        rintro rfl
        obtain rfl : x = z := Option.some.inj (hx.symm.trans hz)
        exact hji (Option.some.inj (hza.symm.trans hact))
    · exact h.pool.readyBound.trans
        (Nat.add_right_cancel (hset fun x => one (x.ready = true))).symm
    · exact h.pool.busyN.trans
        (Nat.add_right_cancel (hset fun x => one (x.pc.busy = true))).symm
    · have := hset fun x => one (x.role = .general)
      simp only [hrole, hg, reduceCtorEq, one_False] at this
      exact h.pool.generalN.trans this.symm
    · exact (Nat.add_right_cancel (hset fun x => one (x.pc = .pumping))).trans h.pool.pumping
    · have hf : w.attached = false := hf
      rw [h.pool.attached hf] at hx
      cases hx
  · change ((w.modify i fun a => { a with owner := none }).actor r).adopted = true
    rw [World.modify_actor]
    split
    next hri => exact hri ▸ h.driven r hr
    next => exact h.driven r hr
  · have hj' : w.next ≤ j := hj
    change (w.modify i fun a => { a with owner := none }).actor j = {}
    rw [World.modify_actor, if_neg]
    · exact h.fresh j hj'
    · rintro rfl
      simp [h.fresh j hj'] at howner

/-- `er_mt_release_bound_locked` at the head of the loop. -/
theorem Inv.release {k i : Nat} {x : Worker} (h : Inv hd w) (hx : w.pool[k]? = some x)
    (hact : x.actor = some i) (hterm : w.terminated i = true) (hpc : x.pc = .top) :
    Inv hd (w.release k) := by
  have hxok := h.pool.ok k x hx
  have howner := hxok.actor i hact
  have hrole : x.role = .bound := hxok.bound (by simp [hact])
  -- a terminated actor is not scheduled, and so is on no queue
  have hns : ¬ (w.actor i).scheduled w.ctl i := by
    rintro ⟨hrun, -⟩
    simp [World.terminated, hrun] at hterm
  have hready : x.ready = false := not_queued ((h.actor i).not_ready fun hc => hns hc.1).1 hx hact
  have hassume : w.assume (x.role = .bound ∧ (w.actor i).owner = some k ∧ !x.ready ∧
      w.terminated i) = w := World.assume_pos (by simp [hrole, howner, hready, hterm])
  unfold World.release
  dsimp only
  rw [World.worker_eq hx, hact]
  dsimp only
  rw [hassume]
  exact h.disown hx hact hready .spare (by simp) (.inl ⟨hpc, rfl⟩)

/-! ## Leaving a root -/

/-- The controller leaves the root it drove, which is held nowhere else. -/
theorem Inv.leave {r : Nat} (h : Inv hd w) (had : (w.actor r).adopted = true)
    (hhand : ∀ i, i ≠ r → hd.loose ≠ some i ∧ hd.serving ≠ some i ∧ hd.woken ≠ some i)
    (hother : ∀ i, i ≠ r → w.ctl.driven ≠ some i ∧ w.ctl.polls ≠ some i ∧
      w.ctl.slicing ≠ some i ∧ w.ctl.serves ≠ some i)
    (hready : w.queue.count r + tally (Worker.readyFor r) w.pool = 0)
    (hserving : tally (Worker.servingFor r) w.pool = 0) (hhttp : (w.actor r).http = false)
    (c : Ctl) (hc : c.driven = none ∧ c.polls = none ∧ c.slicing = none ∧ c.serves = none)
    (th : Actor → Thread) (an : Option Answer) (hctl : ({ w with ctl := c } : World).ctlOk) :
    Inv {} { w.modify r fun a => { a with status := .runnable, thread := th a } with
      ctl := c, answer := an } := by
  obtain ⟨hc₁, hc₂, hc₃, hc₄⟩ := hc
  have hr : r < w.next := by
    by_contra hlt
    simp [h.fresh r (Nat.le_of_not_lt hlt)] at had
  have hokr := h.actor r
  have hown : ∀ j, ((w.modify r fun a => { a with status := .runnable, thread := th a }).actor
      j).owner = (w.actor j).owner := by
    intro j
    rw [World.modify_actor]
    split
    next hj => rw [hj]
    next => rfl
  have hadopted : ∀ j, ((w.modify r fun a =>
      { a with status := .runnable, thread := th a }).actor j).adopted = (w.actor j).adopted := by
    intro j
    rw [World.modify_actor]
    split
    next hj => rw [hj]
    next => rfl
  refine ⟨h.aborted, fun i => ?_, fun j hj => (hown j).trans (h.queue j hj), h.inflightN, h.parkedN,
    h.curlm, h.replay, h.pool.congr hown (fun j _ => hadopted j) id rfl rfl rfl rfl rfl rfl, h.width,
    hctl, fun l hl => (hadopted l).trans ?_, fun j hj => ?_⟩
  · change Actor.Ok {} c i ((w.modify r fun a =>
      { a with status := .runnable, thread := th a }).actor i)
      (w.queue.count i + tally (Worker.readyFor i) w.pool + one (c.slicing = some i))
      (tally (Worker.servingFor i) w.pool + one (c.serves = some i)) (w.transfers i)
    rw [World.modify_actor, hc₃, hc₄, one_none, Nat.add_zero, Nat.add_zero]
    split
    next hi =>
      subst hi
      rw [hready, hserving]
      -- the root is parked, with no token anywhere
      refine .unscheduled ?_ ?_ ?_ ?_ ?_ hokr.transfers ?_ ?_ ?_ ?_ hokr.owned
      · rintro ⟨-, hsch⟩
        rw [if_pos had, hc₁] at hsch
        cases hsch
      · simp
      · simp
      · simp
      · simp
      · simp [hhttp]
      · simp
      · exact fun _ => .inl rfl
      · simp
    next hi =>
      -- the controller did not name the other actors before, and does not now
      obtain ⟨ho₁, ho₂, ho₃, ho₄⟩ := hother i hi
      obtain ⟨hh₁, hh₂, hh₃⟩ := hhand i hi
      have hok := h.actor i
      simp only [World.readyTokens, World.servingTokens, one_false ho₃, one_false ho₄,
        Nat.add_zero] at hok
      refine (hok.hands ?_ ?_ ?_).recast ?_ ?_
      · simp [hh₁]
      · simp [hh₂]
      · simp [hh₃]
      · simp [hc₁, ho₁]
      · simp [hc₂, ho₂]
  · rcases hl with hl | hl
    · rw [hc₁] at hl
      cases hl
    · exact h.driven l (.inr hl)
  · have hj' : w.next ≤ j := hj
    change (w.modify r fun a => { a with status := .runnable, thread := th a }).actor j = {}
    rw [World.modify_actor, if_neg (by omega)]
    exact h.fresh j hj'

end Enki.Runtime
