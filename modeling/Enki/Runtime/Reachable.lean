import Enki.Runtime.Calls

/-!
# The actor runtime: reachable states

A run starts from a scheduler without actors. In every state it reaches, the
scheduler invariant holds (`Reached.inv`), and so does what `Post.Sound` says of
mail and handles: they name actors that exist, and what an actor has heard,
followed by its mailbox, is what was accepted for it, in order.
-/

namespace Enki.Runtime

open Enki.Runs

/-! ## Mail -/

namespace Post

/-- The messages accepted for actor `i`, in order. -/
def sentTo (p : Post) (i : Nat) : List Msg := (p.accepted.filter (·.dest = i)).map (·.msg)

/-- What holds of mail and handles in every reachable state. -/
structure Sound (p : Post) : Prop where
  handles : ∀ i t, p.holds i t → t < p.next
  caps : ∀ i, ∀ m ∈ p.mbox i, ∀ t ∈ m.caps, t < p.next
  dests : ∀ s ∈ p.accepted, s.dest < p.next
  fifo : ∀ i, p.heard i ++ p.mbox i = p.sentTo i

variable {p p' : Post} {may : Nat → Nat → Prop}

theorem sentTo_accept (s : Sent) (i : Nat) :
    (p.accept s).sentTo i = p.sentTo i ++ if s.dest = i then [s.msg] else [] := by
  unfold sentTo accept
  rw [List.filter_append, List.map_append]
  by_cases h : s.dest = i <;> simp [h]

/-- Hearing a message keeps what was heard followed by the mailbox. -/
theorem Sound.recv (h : p.Sound) (i : Nat) : (p.recv i).Sound := by
  unfold Post.recv
  cases hm : p.mbox i with
  | nil => exact h
  | cons m rest =>
    have hcaps : ∀ t ∈ m.caps, t < p.next := h.caps i m (by simp [hm])
    refine ⟨fun j t ht => ?_, fun j m' hm' => ?_, h.dests, fun j => ?_⟩
    · unfold holds at ht
      by_cases hj : j = i
      · subst hj
        simp only [Function.update_self, List.mem_append, List.mem_map, Option.some.injEq,
          exists_eq_right] at ht
        rcases ht with ht | ht
        · exact h.handles j t ht
        · exact hcaps t ht
      · simp only [Function.update_of_ne hj] at ht
        exact h.handles j t ht
    · by_cases hj : j = i
      · subst hj
        simp only [Function.update_self] at hm'
        exact h.caps j m' (by simp [hm, hm'])
      · simp only [Function.update_of_ne hj] at hm'
        exact h.caps j m' hm'
    · by_cases hj : j = i
      · subst hj
        have := h.fifo j
        rw [hm] at this
        simpa [sentTo] using this
      · simpa [Function.update_of_ne hj, sentTo] using h.fifo j

/-- Accepting a message appends it to one mailbox and to the record. -/
theorem Sound.accept (h : p.Sound) (s : Sent) (hd : s.dest < p.next)
    (hc : ∀ t ∈ s.msg.caps, t < p.next) : (p.accept s).Sound := by
  refine ⟨h.handles, fun j m hm => ?_, fun s' hs' => ?_, fun j => ?_⟩
  · unfold Post.accept at hm
    by_cases hj : j = s.dest
    · subst hj
      simp only [Function.update_self, List.mem_append, List.mem_singleton] at hm
      rcases hm with hm | rfl
      · exact h.caps _ m hm
      · exact hc
    · simp only [Function.update_of_ne hj] at hm
      exact h.caps j m hm
  · rcases List.mem_append.mp hs' with hs' | hs'
    · exact h.dests s' hs'
    · obtain rfl := List.mem_singleton.mp hs'
      exact hd
  · rw [sentTo_accept, ← h.fifo j]
    unfold Post.accept
    by_cases hj : j = s.dest
    · subst hj
      simp
    · simp [Function.update_of_ne hj, Ne.symm hj]

/-- A new actor has no mail, and none was accepted for it. -/
theorem Sound.register (h : p.Sound) : p.register.Sound := by
  have hnone : p.sentTo p.next = [] := by
    unfold sentTo
    rw [List.map_eq_nil_iff, List.filter_eq_nil_iff]
    intro s hs
    have := h.dests s hs
    simp only [decide_eq_true_eq]
    omega
  refine ⟨fun j t ht => ?_, fun j m hm t ht => ?_, fun s hs => ?_, fun j => ?_⟩
  · unfold holds Post.register at ht
    by_cases hj : j = p.next
    · subst hj
      obtain rfl : t = p.next := by simpa using ht
      exact Nat.lt_succ_self _
    · simp only [Function.update_of_ne hj] at ht
      exact Nat.lt_succ_of_lt (h.handles j t ht)
  · unfold Post.register at hm
    by_cases hj : j = p.next
    · subst hj
      simp at hm
    · simp only [Function.update_of_ne hj] at hm
      exact Nat.lt_succ_of_lt (h.caps j m hm t ht)
  · exact Nat.lt_succ_of_lt (h.dests s hs)
  · change _ = p.sentTo j
    unfold Post.register
    by_cases hj : j = p.next
    · subst hj
      simpa using hnone.symm
    · simpa [Function.update_of_ne hj] using h.fifo j

theorem Sound.alloc (h : p.Sound) (i : Nat) {t : Nat} (ht : t < p.next) : (p.alloc i t).Sound := by
  refine ⟨fun j t' ht' => ?_, h.caps, h.dests, h.fifo⟩
  unfold holds Post.alloc at ht'
  by_cases hj : j = i
  · subst hj
    simp only [Function.update_self, List.mem_append, List.mem_singleton, Option.some.injEq] at ht'
    rcases ht' with ht' | rfl
    · exact h.handles j t' ht'
    · exact ht
  · simp only [Function.update_of_ne hj] at ht'
    exact h.handles j t' ht'

theorem Sound.close (h : p.Sound) (i n : Nat) : (p.close i n).Sound := by
  refine ⟨fun j t ht => ?_, h.caps, h.dests, h.fifo⟩
  unfold holds Post.close at ht
  by_cases hj : j = i
  · subst hj
    simp only [Function.update_self] at ht
    rcases List.mem_or_eq_of_mem_set ht with ht | ht
    · exact h.handles j t ht
    · cases ht
  · simp only [Function.update_of_ne hj] at ht
    exact h.handles j t ht

theorem Justified.sound {s : Sent} (hs : p.Justified may s) (h : p.Sound)
    (hmay : ∀ i d, may i d → d < p.next) : (p.accept s).Sound := by
  cases hsnd : s.sender with
  | none =>
    obtain ⟨hc, hd⟩ := hs.host hsnd
    exact h.accept s hd (by simp [hc])
  | some i =>
    obtain ⟨hd, hc⟩ := hs.actor i hsnd
    exact h.accept s (hmay i _ hd) fun t ht => h.handles i t (hc t ht)

/-- Every change keeps mail and handles sound. -/
theorem Change.sound (hc : Change p may p') (h : p.Sound) (hmay : ∀ i d, may i d → d < p.next) :
    p'.Sound := by
  cases hc with
  | same => exact h
  | register => exact h.register
  | accept s hs => exact hs.sound h hmay
  | hear s hs => exact (hs.sound h hmay).recv s.dest
  | recv i => exact h.recv i
  | close i n => exact h.close i n
  | spawn i => exact h.register.alloc i (Nat.lt_succ_self _)

theorem recv_next (i : Nat) : (p.recv i).next = p.next := by
  unfold recv
  split <;> rfl

theorem recv_accepted (i : Nat) : (p.recv i).accepted = p.accepted := by
  unfold recv
  split <;> rfl

theorem Change.next_le (hc : Change p may p') : p.next ≤ p'.next := by
  cases hc with
  | hear s _ => exact Nat.le_of_eq (recv_next (p := p.accept s) s.dest).symm
  | recv i => exact Nat.le_of_eq (recv_next i).symm
  | register | spawn i => exact Nat.le_succ _
  | same | accept _ _ | close _ _ => exact Nat.le_refl _

end Post

/-! ## Runs -/

/-- A run of the runtime from a scheduler without actors. -/
abbrev Run (allowed : World → Event → Prop) : List (Taken World Event) → World → Prop :=
  Trace World.step allowed {}

/-- What holds in every reachable state. -/
structure Reached (w : World) : Prop where
  inv : Inv {} w
  idle : w.idleOk
  post : w.post.Sound
  pends : ∀ i p d, w.Pends i p → p.dest = some d → d < w.next

theorem Reached.known {w : World} (h : Reached w) : w.Known := ⟨h.post.handles, h.pends⟩

theorem Reached.may {w : World} (h : Reached w) {i d : Nat} (hm : w.May i d) : d < w.next := by
  rcases hm with hm | ⟨p, hp, hd⟩
  · exact h.post.handles i d hm
  · exact h.pends i p d hp hd

namespace World

variable {w w' : World}

/-- Only a look at an empty run queue makes the deterministic executor idle. -/
theorem idle_ctlStep {e : Event} (h : w.ctlStep e = some w') : w'.idleOk := by
  intro root hc
  have hnext := ctlStep_next h
  rw [hc] at hnext
  generalize hw : w.ctl = c at hnext
  cases hnext
  cases e <;> simp only [ctlStep, hw] at h <;> try cases h
  obtain ⟨u, -, rfl⟩ := Option.map_eq_some_iff.mp h
  unfold dequeue at hc ⊢
  cases hq : u.queue <;> simp_all

/-- Every step keeps what holds in reachable states. -/
theorem idle_step {e : Event} (h : Inv {} w) (hw : World.step e w = some w') : w'.idleOk := by
  unfold World.step at hw
  split at hw
  case h_1 i v =>
    split at hw
    next hi =>
      cases hw
      intro root hc
      have hctl : (w.inject i v).ctl = w.ctl := by
        unfold inject
        split
        · rfl
        · exact accept_ctl _ _ _
      rw [hctl] at hc
      simp [injectable, hc] at hi
    · cases hw
  all_goals first
    | (intro root hc
       -- No worker is there beside the deterministic executor.
       have hctl := h.ctl
       unfold World.ctlOk at hctl
       rw [(worker_call hw).ctl] at hc
       simp only [hc] at hctl
       have hpool := h.pool.attached hctl.1
       simp [World.workerStep, hpool] at hw)
    | (split at hw
       next hc =>
         intro root hd
         have := hostStep_ctl hc hw
         simp [hd] at this
       next => cases hw)
    | exact idle_ctlStep hw

end World

/-- Every step keeps what holds in reachable states. -/
theorem Reached.step {w w' : World} {e : Event} (h : Reached w) (hw : World.step e w = some w') :
    Reached w' := by
  have hp := World.step_post hw
  have hle : w.next ≤ w'.next := hp.change.next_le
  refine ⟨h.inv.step h.idle h.known hw, World.idle_step h.inv hw, hp.change.sound h.post
    fun i d => h.may, fun i p d hpd hd => ?_⟩
  rcases hp.pends i p hpd with ho | hn
  · exact Nat.lt_of_lt_of_le (h.pends i p d ho hd) hle
  · exact Nat.lt_of_lt_of_le (h.post.handles i d (hn d hd)) hle

/-- A scheduler without actors. -/
theorem Reached.init : Reached {} := by
  refine ⟨⟨rfl, fun i => ?_, by simp, rfl, rfl, by simp, by simp, ?_, rfl, ?_, ?_, fun _ _ => rfl⟩, ?_,
    ?_, ?_⟩
  · constructor <;> simp [Actor.scheduled, World.readyTokens, World.servingTokens, World.transfers,
      Ctl.slicing, Ctl.serves]
  · constructor <;> simp
  · exact ⟨rfl, rfl, rfl, rfl, rfl⟩
  · simp [Ctl.driven]
  · simp [World.idleOk]
  · constructor <;> simp [World.post, Post.holds, Post.sentTo]
  · rintro i p d (hp | hp)
    · simp at hp
    · cases hp

/-- Every state of a run. -/
theorem reached_of_run {allowed : World → Event → Prop} {tr : List (Taken World Event)} {w : World}
    (h : Run allowed tr w) : Reached w :=
  h.invariant Reached.init fun hr _ hs => hr.step hs

/-- Every step of a run starts in a reachable state and ends in one. -/
theorem reached_of_mem {allowed : World → Event → Prop} {tr : List (Taken World Event)} {w : World}
    (h : Run allowed tr w) {x : Taken World Event} (hx : x ∈ tr) :
    Reached x.pre ∧ Reached x.post ∧ World.step x.event x.pre = some x.post := by
  obtain ⟨tr', ht, -, hs⟩ := h.before hx
  have hr := reached_of_run ht
  exact ⟨hr, hr.step hs, hs⟩

end Enki.Runtime
