import Mathlib.Data.List.Basic

/-!
# Runs of an executable transition system

A system is a partial step function on states; the event says which step is
taken, so that all the nondeterminism is in the choice of events, and a step
that cannot be taken is `none`. A run is kept as the list of its steps, each
with the states around it, so that a property of a state can refer to what was
done on the way to it.

Three rules are proved: a property that steps keep holds along a run
(`Trace.invariant`), a relation that single steps satisfy and that composes
holds between any two states of a run (`Trace.related`), and a run can be
computed from its events (`Trace.of_play`).
-/

namespace Enki.Runs

variable {σ ε : Type}

/-- One step of a run. -/
structure Taken (σ ε : Type) where
  pre : σ
  event : ε
  post : σ

/-- The runs of `step` from `init`, whose steps all meet `allowed`. -/
inductive Trace (step : ε → σ → Option σ) (allowed : σ → ε → Prop) (init : σ) :
    List (Taken σ ε) → σ → Prop where
  | nil : Trace step allowed init [] init
  | snoc {tr s e s'} : Trace step allowed init tr s → allowed s e → step e s = some s' →
      Trace step allowed init (tr ++ [⟨s, e, s'⟩]) s'

/-- No restriction on the steps. -/
def Any (_ : σ) (_ : ε) : Prop := True

variable {step : ε → σ → Option σ} {allowed : σ → ε → Prop} {init : σ}

/-- A property of the initial state that every step keeps holds at the end. -/
theorem Trace.invariant {P : σ → Prop} (hinit : P init)
    (hstep : ∀ {e s s'}, P s → allowed s e → step e s = some s' → P s') {tr s}
    (h : Trace step allowed init tr s) : P s := by
  induction h with
  | nil => exact hinit
  | snoc _ ha hs ih => exact hstep ih ha hs

/-- Every step of a run starts at the end of a shorter run. -/
theorem Trace.before {tr s} (h : Trace step allowed init tr s) {x : Taken σ ε} (hx : x ∈ tr) :
    ∃ tr', Trace step allowed init tr' x.pre ∧ allowed x.pre x.event ∧
      step x.event x.pre = some x.post := by
  induction h with
  | nil => cases hx
  | snoc ht ha hs ih =>
    rcases List.mem_append.mp hx with hx | hx
    · exact ih hx
    · obtain rfl := List.mem_singleton.mp hx
      exact ⟨_, ht, ha, hs⟩

/-- A run up to one of its steps, and from there on. -/
theorem Trace.split {tr s front x back} (h : Trace step allowed init tr s)
    (htr : tr = front ++ x :: back) :
    Trace step allowed init front x.pre ∧ allowed x.pre x.event ∧
      step x.event x.pre = some x.post ∧ Trace step allowed x.post back s := by
  induction h generalizing back with
  | nil => simp at htr
  | snoc ht ha hs ih =>
    rcases List.eq_nil_or_concat back with rfl | ⟨back, y, rfl⟩
    · obtain ⟨rfl, hx⟩ := List.append_inj' htr rfl
      obtain rfl := List.head_eq_of_cons_eq hx
      exact ⟨ht, ha, hs, .nil⟩
    · rw [List.concat_eq_append, ← List.cons_append, ← List.append_assoc] at htr
      obtain ⟨rfl, hy⟩ := List.append_inj' htr rfl
      obtain rfl := List.head_eq_of_cons_eq hy
      obtain ⟨hfront, hx, hxs, hback⟩ := ih rfl
      refine ⟨hfront, hx, hxs, ?_⟩
      rw [List.concat_eq_append]
      exact .snoc hback ha hs

theorem Trace.mono {allowed' : σ → ε → Prop} (hle : ∀ s e, allowed s e → allowed' s e) {tr s}
    (h : Trace step allowed init tr s) : Trace step allowed' init tr s := by
  induction h with
  | nil => exact .nil
  | snoc _ ha hs ih => exact .snoc ih (hle _ _ ha) hs

/-- What follows a state: the run goes on from there. -/
theorem Trace.append {mid tr tr' s} (h : Trace step allowed init tr mid)
    (h' : Trace step allowed mid tr' s) : Trace step allowed init (tr ++ tr') s := by
  induction h' with
  | nil => simpa using h
  | snoc _ ha hs ih =>
    rw [← List.append_assoc]
    exact .snoc ih ha hs

/-- A reflexive and transitive relation that every step from a good state
satisfies holds between a good state and all that follow it. -/
theorem Trace.related {P : σ → Prop} {R : σ → σ → Prop} (hinit : P init) (hrefl : ∀ s, R s s)
    (htrans : ∀ {a b c}, R a b → R b c → R a c)
    (hkeep : ∀ {e s s'}, P s → allowed s e → step e s = some s' → P s')
    (hstep : ∀ {e s s'}, P s → allowed s e → step e s = some s' → R s s') {tr s}
    (h : Trace step allowed init tr s) : R init s := by
  induction h with
  | nil => exact hrefl _
  | snoc ht ha hs ih => exact htrans ih (hstep (ht.invariant hinit hkeep) ha hs)

/-- Take the steps of a list of events, in order. -/
def play (step : ε → σ → Option σ) : List ε → σ → Option σ
  | [], s => some s
  | e :: es, s => (step e s).bind (play step es)

/-- The last event is played after the others. -/
theorem play_snoc {es : List ε} {e : ε} {s s' : σ} (h : play step (es ++ [e]) s = some s') :
    ∃ mid, play step es s = some mid ∧ step e mid = some s' := by
  induction es generalizing s with
  | nil =>
    obtain ⟨u, hu, h⟩ := Option.bind_eq_some_iff.mp h
    cases h
    exact ⟨s, rfl, hu⟩
  | cons e' es ih =>
    obtain ⟨u, hu, h⟩ := Option.bind_eq_some_iff.mp h
    obtain ⟨mid, hmid, he⟩ := ih h
    exact ⟨mid, by simp [play, hu, hmid], he⟩

/-- Playing events that are all allowed is a run. -/
theorem Trace.of_play (es : List ε) (hall : ∀ s, ∀ e ∈ es, allowed s e) {s s' : σ}
    (h : play step es s = some s') : ∃ tr, Trace step allowed s tr s' := by
  induction es generalizing s with
  | nil =>
    cases h
    exact ⟨[], .nil⟩
  | cons e es ih =>
    obtain ⟨mid, hmid, h⟩ := Option.bind_eq_some_iff.mp h
    obtain ⟨tr, htr⟩ := ih (fun s e he => hall s e (List.mem_cons_of_mem _ he)) h
    exact ⟨_, (Trace.snoc .nil (hall s e List.mem_cons_self) hmid).append htr⟩

/-- Where a list of events leads, if its steps can be taken. -/
theorem Trace.played (step : ε → σ → Option σ) (es : List ε) (s d : σ) (h : (play step es s).isSome = true) :
    ∃ tr, Trace step Any s tr ((play step es s).getD d) := by
  obtain ⟨s', hs'⟩ := Option.isSome_iff_exists.mp h
  rw [hs']
  exact Trace.of_play es (fun _ _ _ => trivial) hs'

end Enki.Runs
