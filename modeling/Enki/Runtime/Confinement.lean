import Enki.Runtime.Delivery

/-!
# The actor runtime: confinement

Handles are numbers, but they are no authority by themselves: an actor comes to
hold a handle of another only by spawning it, or by hearing a message in which an
actor passed on a handle it held. `Origin` says where an entry of a handle table
comes from, in terms of the steps of the run; `Connected` follows these origins
back, through the actors that passed the handle on.
-/

namespace Enki.Runtime

open Enki.Runs

/-- The step makes actor `j` and gives `i` a handle of it. -/
def Spawns (x : Taken World Event) (i j : Nat) : Prop :=
  j = x.pre.next ∧ x.post.post = x.pre.post.register.alloc i j

/-- The step accepts a message from `s` to `i` with a handle of `j`, which `s`
holds at that moment. -/
structure Passes (x : Taken World Event) (s i j : Nat) (m : Msg) : Prop where
  accepts : ⟨some s, i, m⟩ ∈ x.pre.accepts x.event
  carries : j ∈ m.caps
  holds : x.pre.post.holds s j

/-- Where the entry `n` of the table of `i`, a handle of `j`, comes from. -/
def Origin (tr : List (Taken World Event)) (heard : List Msg) (i n j : Nat) : Prop :=
  (n = 0 ∧ j = i) ∨ (∃ x ∈ tr, Spawns x i j) ∨ ∃ m ∈ heard, ∃ s, ∃ x ∈ tr, Passes x s i j m

/-- Actors that can come to know each other along a run: by spawning, or by a
message from an actor that is connected to both. -/
inductive Connected (tr : List (Taken World Event)) : Nat → Nat → Prop where
  | self (i : Nat) : Connected tr i i
  | spawned {i j : Nat} {x : Taken World Event} : x ∈ tr → Spawns x i j → Connected tr i j
  | given {s i j : Nat} {x : Taken World Event} {m : Msg} : x ∈ tr → Passes x s i j m →
      Connected tr s i → Connected tr s j → Connected tr i j

variable {tr tr' : List (Taken World Event)} {w w' : World}

theorem Connected.mono (hle : tr ⊆ tr') {i j : Nat} (h : Connected tr i j) : Connected tr' i j := by
  induction h with
  | self i => exact .self i
  | spawned hx hs => exact .spawned (hle hx) hs
  | given hx hp _ _ ih₁ ih₂ => exact .given (hle hx) hp ih₁ ih₂

theorem Origin.mono (hle : tr ⊆ tr') {l l' : List Msg} (hl : l ⊆ l') {i n j : Nat}
    (h : Origin tr l i n j) : Origin tr' l' i n j := by
  rcases h with h | ⟨x, hx, hs⟩ | ⟨m, hm, s, x, hx, hp⟩
  · exact .inl h
  · exact .inr (.inl ⟨x, hle hx, hs⟩)
  · exact .inr (.inr ⟨m, hl hm, s, x, hle hx, hp⟩)

/-! ## The invariant -/

/-- Every handle, and every handle on its way, comes from steps of the run. -/
structure Traced (tr : List (Taken World Event)) (p : Post) : Prop where
  table : ∀ i n j, (p.handles i)[n]? = some (some j) → Origin tr (p.heard i) i n j
  linked : ∀ i j, p.holds i j → Connected tr i j
  mail : ∀ i, ∀ m ∈ p.mbox i, ∀ j ∈ m.caps, (∃ s, ∃ x ∈ tr, Passes x s i j m) ∧ Connected tr i j

namespace Traced

variable {p : Post}

theorem mono (h : Traced tr p) (hle : tr ⊆ tr') : Traced tr' p := by
  refine ⟨fun i n j hn => (h.table i n j hn).mono hle (List.Subset.refl _),
    fun i j hj => (h.linked i j hj).mono hle, fun i m hm j hj => ?_⟩
  obtain ⟨⟨s, x, hx, hp⟩, hc⟩ := h.mail i m hm j hj
  exact ⟨⟨s, x, hle hx, hp⟩, hc.mono hle⟩

theorem register (h : Traced tr p) : Traced tr p.register := by
  unfold Post.register
  refine ⟨fun i n j hn => ?_, fun i j hj => ?_, fun i m hm => ?_⟩
  · by_cases hi : i = p.next
    · subst hi
      simp only [Function.update_self] at hn
      obtain ⟨hlt, hget⟩ := List.getElem?_eq_some_iff.mp hn
      obtain rfl : n = 0 := by simpa using hlt
      exact .inl ⟨rfl, by simpa using hget.symm⟩
    · simp only [Function.update_of_ne hi] at hn ⊢
      exact h.table i n j hn
  · unfold Post.holds at hj
    by_cases hi : i = p.next
    · subst hi
      obtain rfl : j = p.next := by simpa using hj
      exact .self _
    · simp only [Function.update_of_ne hi] at hj
      exact h.linked i j hj
  · by_cases hi : i = p.next
    · subst hi
      simp at hm
    · simp only [Function.update_of_ne hi] at hm
      exact h.mail i m hm

/-- Entries are appended, each with an origin. -/
theorem append {i : Nat} {l : List Nat} {heard : List Msg} (h : Traced tr p)
    (hheard : p.heard i ⊆ heard)
    (hnew : ∀ j ∈ l, (∀ n, Origin tr heard i n j) ∧ Connected tr i j)
    {mbox : List Msg} (hmbox : mbox ⊆ p.mbox i) :
    Traced tr { p with
      mbox := Function.update p.mbox i mbox
      handles := Function.update p.handles i (p.handles i ++ l.map some)
      heard := Function.update p.heard i heard } := by
  refine ⟨fun k n j hn => ?_, fun k j hj => ?_, fun k m hm => ?_⟩
  · by_cases hk : k = i
    · subst hk
      simp only [Function.update_self] at hn ⊢
      rw [List.getElem?_append] at hn
      split at hn
      · exact (h.table k n j hn).mono (List.Subset.refl _) hheard
      · have hmem := List.mem_of_getElem? hn
        exact (hnew j (by simpa using hmem)).1 n
    · simp only [Function.update_of_ne hk] at hn ⊢
      exact h.table k n j hn
  · unfold Post.holds at hj
    by_cases hk : k = i
    · subst hk
      simp only [Function.update_self, List.mem_append, List.mem_map, Option.some.injEq,
        exists_eq_right] at hj
      rcases hj with hj | hj
      · exact h.linked k j hj
      · exact (hnew j hj).2
    · simp only [Function.update_of_ne hk] at hj
      exact h.linked k j hj
  · by_cases hk : k = i
    · subst hk
      simp only [Function.update_self] at hm
      exact h.mail k m (hmbox hm)
    · simp only [Function.update_of_ne hk] at hm
      exact h.mail k m hm

/-- The handles of a message come to the table when it is heard. -/
theorem recv (h : Traced tr p) (i : Nat) : Traced tr (p.recv i) := by
  unfold Post.recv
  cases hm : p.mbox i with
  | nil => exact h
  | cons m rest =>
    refine h.append (List.subset_append_left _ _) (fun j hj => ?_) (by simp [hm])
    obtain ⟨hp, hc⟩ := h.mail i m (by simp [hm]) j hj
    exact ⟨fun n => .inr (.inr ⟨m, by simp, hp⟩), hc⟩

theorem alloc (h : Traced tr p) {i j : Nat} {x : Taken World Event} (hx : x ∈ tr)
    (hs : Spawns x i j) : Traced tr (p.alloc i j) := by
  have := h.append (i := i) (l := [j]) (List.Subset.refl _) (fun k hk => ?_) (List.Subset.refl _)
  · simpa [Post.alloc] using this
  · obtain rfl := List.mem_singleton.mp hk
    exact ⟨fun n => .inr (.inl ⟨x, hx, hs⟩), .spawned hx hs⟩

/-- Closing a handle leaves the others. -/
theorem close (h : Traced tr p) (i n : Nat) : Traced tr (p.close i n) := by
  unfold Post.close
  refine ⟨fun k l j hl => ?_, fun k j hj => ?_, h.mail⟩
  · by_cases hk : k = i
    · subst hk
      simp only [Function.update_self, List.getElem?_set] at hl
      split at hl
      · split at hl <;> simp at hl
      · exact h.table k l j hl
    · simp only [Function.update_of_ne hk] at hl
      exact h.table k l j hl
  · unfold Post.holds at hj
    by_cases hk : k = i
    · subst hk
      simp only [Function.update_self] at hj
      rcases List.mem_or_eq_of_mem_set hj with hj | hj
      · exact h.linked k j hj
      · cases hj
    · simp only [Function.update_of_ne hk] at hj
      exact h.linked k j hj

/-- A message is on its way, with handles its sender holds. -/
theorem accept (h : Traced tr p) (s : Sent)
    (hs : ∀ j ∈ s.msg.caps, (∃ i, ∃ x ∈ tr, Passes x i s.dest j s.msg) ∧ Connected tr s.dest j) :
    Traced tr (p.accept s) := by
  unfold Post.accept
  refine ⟨h.table, h.linked, fun k m hm => ?_⟩
  by_cases hk : k = s.dest
  · subst hk
    simp only [Function.update_self, List.mem_append, List.mem_singleton] at hm
    rcases hm with hm | rfl
    · exact h.mail _ m hm
    · exact hs
  · simp only [Function.update_of_ne hk] at hm
    exact h.mail k m hm

end Traced

/-- What a run shows of an actor's knowledge of another: it held a handle of it,
and they are connected. -/
def Knows (tr : List (Taken World Event)) (i d : Nat) : Prop :=
  (∃ x ∈ tr, x.pre.post.holds i d) ∧ Connected tr i d

theorem Knows.mono (hle : tr ⊆ tr') {i d : Nat} (h : Knows tr i d) : Knows tr' i d := by
  obtain ⟨⟨x, hx, hd⟩, hc⟩ := h
  exact ⟨⟨x, hle hx, hd⟩, hc.mono hle⟩

/-- What a run keeps: where handles come from, and that pending and accepted sends
go to actors their senders know. -/
structure Confined (tr : List (Taken World Event)) (w : World) : Prop where
  traced : Traced tr w.post
  pends : ∀ i p d, w.Pends i p → p.dest = some d → Knows tr i d
  sends : ∀ s ∈ w.accepted, ∀ i, s.sender = some i → Knows tr i s.dest

/-- The sender of an accepted message knows its receiver, and the receiver gets no
handle its sender does not hold. -/
theorem Confined.accept (h : Confined tr w) {e : Event} {s : Sent} {w' : World}
    (hs : w.post.Justified w.May s) (hacc : w.accepts e = [s]) :
    (∀ i, s.sender = some i → Knows (tr ++ [⟨w, e, w'⟩]) i s.dest) ∧
    Traced (tr ++ [⟨w, e, w'⟩]) (w.post.accept s) := by
  have hle : tr ⊆ tr ++ [⟨w, e, w'⟩] := List.subset_append_left _ _
  have hx : ⟨w, e, w'⟩ ∈ tr ++ [⟨w, e, w'⟩] := by simp
  have hknows : ∀ i, s.sender = some i → Knows (tr ++ [⟨w, e, w'⟩]) i s.dest := by
    intro i hi
    rcases (hs.actor i hi).1 with hh | ⟨p, hp, hd⟩
    · exact ⟨⟨_, hx, hh⟩, (h.traced.linked i _ hh).mono hle⟩
    · exact (h.pends i p _ hp hd).mono hle
  refine ⟨hknows, (h.traced.mono hle).accept s fun j hj => ?_⟩
  cases hsnd : s.sender with
  | none => simp [(hs.host hsnd).1] at hj
  | some i =>
    have hh := (hs.actor i hsnd).2 j hj
    have hp : Passes ⟨w, e, w'⟩ i s.dest j s.msg := by
      refine ⟨?_, hj, hh⟩
      rw [hacc, ← hsnd]
      exact List.mem_singleton.mpr rfl
    exact ⟨⟨i, _, hx, hp⟩, .given hx hp (hknows i hsnd).2 ((h.traced.linked i j hh).mono hle)⟩

/-- A step keeps it. -/
theorem Confined.step (h : Confined tr w) {e : Event} (hs : World.step e w = some w') :
    Confined (tr ++ [⟨w, e, w'⟩]) w' := by
  have hle : tr ⊆ tr ++ [⟨w, e, w'⟩] := List.subset_append_left _ _
  have hx : ⟨w, e, w'⟩ ∈ tr ++ [⟨w, e, w'⟩] := by simp
  have hp := World.step_post hs
  have hacc := World.step_accepted hs
  have htr := h.traced.mono hle
  -- A change that accepts `s` accepts what the step says.
  have hone : ∀ s, w'.post.accepted = w.post.accepted ++ [s] → w.accepts e = [s] := fun s hs' =>
    List.append_cancel_left (hacc.symm.trans hs')
  have hold : w'.accepted = w.accepted →
      ∀ s ∈ w'.accepted, ∀ i, s.sender = some i → Knows (tr ++ [⟨w, e, w'⟩]) i s.dest := by
    intro heq s hs' i hi
    exact (h.sends s (heq ▸ hs') i hi).mono hle
  have hnew : ∀ s, w.post.Justified w.May s → w'.accepted = w.accepted ++ [s] →
      ∀ s' ∈ w'.accepted, ∀ i, s'.sender = some i → Knows (tr ++ [⟨w, e, w'⟩]) i s'.dest := by
    intro s hj heq s' hs' i hi
    rw [heq] at hs'
    rcases List.mem_append.mp hs' with hs' | hs'
    · exact (h.sends s' hs' i hi).mono hle
    · obtain rfl := List.mem_singleton.mp hs'
      exact (h.accept hj (hone _ heq)).1 i hi
  have hmain : Traced (tr ++ [⟨w, e, w'⟩]) w'.post ∧
      ∀ s ∈ w'.accepted, ∀ i, s.sender = some i → Knows (tr ++ [⟨w, e, w'⟩]) i s.dest := by
    have hchange := hp.change
    generalize hq : w'.post = q at hchange hone
    have haccepted : w'.accepted = q.accepted := by
      rw [← hq]
      rfl
    cases hchange with
    | same => exact ⟨htr, hold haccepted⟩
    | register => exact ⟨htr.register, hold haccepted⟩
    | accept s hj => exact ⟨(h.accept hj (hone s rfl)).2, hnew s hj haccepted⟩
    | hear s hj =>
      have heq : w'.accepted = w.accepted ++ [s] := haccepted.trans (Post.recv_accepted _)
      refine ⟨(h.accept hj (hone s (Post.recv_accepted _))).2.recv s.dest, hnew s hj heq⟩
    | recv i => exact ⟨htr.recv i, hold (haccepted.trans (Post.recv_accepted _))⟩
    | close i n => exact ⟨htr.close i n, hold haccepted⟩
    | spawn i => exact ⟨htr.register.alloc hx ⟨rfl, hq⟩, hold haccepted⟩
  refine ⟨hmain.1, fun i p d hpd hd => ?_, hmain.2⟩
  rcases hp.pends i p hpd with ho | hn
  · exact (h.pends i p d ho hd).mono hle
  · have hh := hn d hd
    exact ⟨⟨_, hx, hh⟩, (h.traced.linked i d hh).mono hle⟩

theorem confined_of_run (h : Run Any tr w) : Confined tr w := by
  induction h with
  | nil =>
    refine ⟨⟨by simp [World.post], by simp [World.post, Post.holds], by simp [World.post]⟩, ?_,
      by simp⟩
    rintro i p d (hp | hp)
    · simp at hp
    · cases hp
  | snoc _ _ hs ih => exact ih.step hs

/-! ## Tables over time -/

/-- A closed handle stays closed, and a live one keeps its actor or is closed. -/
structure Later (l l' : List (Option Nat)) : Prop where
  closed : ∀ n : Nat, l[n]? = some none → l'[n]? = some none
  live : ∀ (n j : Nat), l[n]? = some (some j) → l'[n]? = some (some j) ∨ l'[n]? = some none

theorem Later.refl (l : List (Option Nat)) : Later l l := ⟨fun _ => id, fun _ _ => .inl⟩

theorem Later.trans {l l' l'' : List (Option Nat)} (h : Later l l') (h' : Later l' l'') :
    Later l l'' := by
  refine ⟨fun n hn => h'.closed n (h.closed n hn), fun n j hn => ?_⟩
  rcases h.live n j hn with hl | hl
  · exact h'.live n j hl
  · exact .inr (h'.closed n hl)

theorem Later.append (l l' : List (Option Nat)) : Later l (l ++ l') := by
  have hkeep : ∀ (n : Nat) x, l[n]? = some x → (l ++ l')[n]? = some x := fun n x hn => by
    rw [List.getElem?_append_left (List.getElem?_eq_some_iff.mp hn).1, hn]
  exact ⟨fun n => hkeep n none, fun n j hn => .inl (hkeep n _ hn)⟩

theorem Later.set (l : List (Option Nat)) (n : Nat) : Later l (l.set n none) := by
  have hset : ∀ (k : Nat) x, l[k]? = some x → (l.set n none)[k]? = if n = k then some none else some x := by
    intro k x hk
    have hlt := (List.getElem?_eq_some_iff.mp hk).1
    rw [List.getElem?_set]
    split
    next hn =>
      subst hn
      rw [if_pos hlt]
    next => exact hk
  refine ⟨fun k hk => ?_, fun k j hk => ?_⟩
  · rw [hset k _ hk]
    split <;> rfl
  · rw [hset k _ hk]
    split
    · exact .inr rfl
    · exact .inl rfl

namespace Post

variable {p p' : Post} {may : Nat → Nat → Prop}

theorem recv_handles (i j : Nat) : (p.recv i).handles j = p.handles j ∨
    ∃ m, j = i ∧ (p.recv i).heard j = p.heard j ++ [m] ∧
      (p.recv i).handles j = p.handles j ++ m.caps.map some := by
  unfold Post.recv
  cases p.mbox i with
  | nil => exact .inl rfl
  | cons m rest =>
    by_cases hj : j = i
    · subst hj
      exact .inr ⟨m, rfl, by simp, by simp⟩
    · exact .inl (by simp [Function.update_of_ne hj])

/-- What a change does to one table. -/
theorem Change.handles (h : Change p may p') (j : Nat) :
    p'.handles j = p.handles j ∨
    (j = p.next ∧ p'.handles j = [some j]) ∨
    p' = p.register.alloc j p.next ∨
    (∃ m, p'.heard j = p.heard j ++ [m] ∧ p'.handles j = p.handles j ++ m.caps.map some) ∨
    ∃ n, p'.handles j = (p.handles j).set n none := by
  have hreg : p.register.handles j = p.handles j ∨ (j = p.next ∧ p.register.handles j = [some j]) := by
    unfold Post.register
    by_cases hj : j = p.next
    · subst hj
      exact .inr ⟨rfl, by simp⟩
    · exact .inl (by simp [Function.update_of_ne hj])
  cases h with
  | same => exact .inl rfl
  | accept s _ => exact .inl rfl
  | register =>
    rcases hreg with hreg | hreg
    · exact .inl hreg
    · exact .inr (.inl hreg)
  | hear s _ =>
    rcases recv_handles (p := p.accept s) s.dest j with hr | ⟨m, -, hm, hh⟩
    · exact .inl hr
    · exact .inr (.inr (.inr (.inl ⟨m, hm, hh⟩)))
  | recv i =>
    rcases recv_handles (p := p) i j with hr | ⟨m, -, hm, hh⟩
    · exact .inl hr
    · exact .inr (.inr (.inr (.inl ⟨m, hm, hh⟩)))
  | close i n =>
    unfold Post.close
    by_cases hj : j = i
    · subst hj
      exact .inr (.inr (.inr (.inr ⟨n, by simp⟩)))
    · exact .inl (by simp [Function.update_of_ne hj])
  | spawn i =>
    by_cases hj : j = i
    · subst hj
      exact .inr (.inr (.inl rfl))
    · unfold Post.alloc
      simp only [Function.update_of_ne hj]
      rcases hreg with hreg | hreg
      · exact .inl hreg
      · exact .inr (.inl hreg)

theorem Change.later (h : Change p may p') (hfresh : p.handles p.next = []) (j : Nat) :
    Later (p.handles j) (p'.handles j) := by
  rcases h.handles j with hh | ⟨rfl, hh⟩ | rfl | ⟨m, -, hh⟩ | ⟨n, hh⟩
  · rw [hh]
    exact .refl _
  · rw [hh, hfresh]
    exact .append [] _
  · have hreg : Later (p.handles j) (p.register.handles j) := by
      unfold Post.register
      by_cases hj : j = p.next
      · subst hj
        rw [hfresh]
        exact .append [] _
      · simp only [Function.update_of_ne hj]
        exact .refl _
    refine hreg.trans ?_
    unfold Post.alloc
    simp only [Function.update_self]
    exact .append _ _
  · rw [hh]
    exact .append _ _
  · rw [hh]
    exact .set _ n

end Post

theorem Reached.fresh_handles {w : World} (h : Reached w) : w.post.handles w.post.next = [] := by
  change (w.actor w.next).handles = []
  rw [h.inv.fresh w.next (Nat.le_refl _)]

/-- Capability confinement. Every live handle is the actor itself at handle 0, an
actor it spawned, or one whose handle was passed to it in a message it heard, by an
actor that held it when the message was sent. Messages go only to actors their
sender knows, and so is connected to. A closed handle is never live again, and a
live one never names another actor. A table grows only by a spawn or by the
handles of a message heard, whatever payloads there are. -/
theorem confinement (h : Run Any tr w) :
    (∀ i (n : Nat) j, (w.actor i).handles[n]? = some (some j) →
      Origin tr (w.actor i).heard i n j ∧ Connected tr i j) ∧
    (∀ s ∈ acceptedBy tr, ∀ i, s.sender = some i → Knows tr i s.dest) ∧
    (∀ tr' w', Trace World.step Any w tr' w' →
      ∀ i, Later (w.actor i).handles (w'.actor i).handles) ∧
    ∀ x ∈ tr, ∀ i, (x.pre.actor i).handles.length < (x.post.actor i).handles.length →
      (i = x.pre.next ∧ (x.post.actor i).handles = [some i]) ∨ Spawns x i x.pre.next ∨
      ∃ m, (x.post.actor i).heard = (x.pre.actor i).heard ++ [m] ∧
        (x.post.actor i).handles = (x.pre.actor i).handles ++ m.caps.map some := by
  have hc := confined_of_run h
  have hr := reached_of_run h
  refine ⟨fun i n j hn => ⟨hc.traced.table i n j hn, hc.traced.linked i j (List.mem_of_getElem? hn)⟩,
    ?_, fun tr' w' h' i => ?_, fun x hx i hlt => ?_⟩
  · rw [← accepted_eq h]
    exact hc.sends
  · refine h'.related (P := Reached) (R := fun a b => Later (a.actor i).handles (b.actor i).handles) hr
      (fun _ => .refl _) .trans (fun hr _ hs => hr.step hs) fun hr _ hs => ?_
    exact (World.step_post hs).change.later hr.fresh_handles i
  · obtain ⟨hpre, -, hs⟩ := reached_of_mem h hx
    rcases (World.step_post hs).change.handles i with hh | hh | hh | ⟨m, hm, hh⟩ |
      ⟨n, hh⟩
    · exact absurd (congrArg List.length hh) (Nat.ne_of_gt hlt)
    · exact .inl hh
    · exact .inr (.inl ⟨rfl, hh⟩)
    · exact .inr (.inr ⟨m, hm, hh⟩)
    · have := congrArg List.length hh
      rw [List.length_set] at this
      exact absurd this (Nat.ne_of_gt hlt)

/-- An actor spawns another, and passes it a handle of itself. -/
def introduce : List Event :=
  [.newActor, .start 0 (.nat 0), .callRun, .detTop [],
    .detSliceEnd (.blocked (.spawn (.nat 0))) (.nat 0), .detTop [],
    .detSliceEnd (.blocked .recv) (.nat 0), .detTop [],
    .detSliceEnd (.blocked (.sendCaps (.nat 1) (.nat 5) (.app 0 (.nat 0) [.nat 0]))) (.nat 0)]

theorem confinement_introduce : ∃ tr w, Run Any tr w ∧
    (w.actor 1).handles = [some 1, some 0] ∧ Connected tr 1 0 ∧
    Origin tr (w.actor 1).heard 1 1 0 := by
  obtain ⟨tr, htr⟩ := Trace.played World.step introduce {} {} (by decide +kernel)
  have hh : (((play World.step introduce {}).getD {}).actor 1).handles = [some 1, some 0] := by
    decide +kernel
  obtain ⟨ho, hc⟩ := (confinement htr).1 1 1 0 (by rw [hh]; rfl)
  exact ⟨tr, _, htr, hh, hc, ho⟩

end Enki.Runtime
