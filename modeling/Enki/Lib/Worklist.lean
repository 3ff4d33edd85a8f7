import Mathlib.Data.List.Basic

/-!
# Worklist fixed points

A forward dataflow analysis over numbered points. Each point holds a state;
visiting a point sends states to other points, where they are joined into what
is already there, and a point whose state changed is visited again. The loop is
bounded by a number of visits, past which no result is given.

Two rules are proved. `solve_stable`: when the loop ends, what every visited
point sends is covered by the states it is sent to; this needs no monotonicity,
because each point is revisited after its last change. `solve_invariant`: a
property that transfer and join keep holds of every state of the run, and of
the state at which a visit failed; only states a join has made are visited.
-/

namespace Enki.Worklist

variable {σ ε : Type}

/-- How states are joined and what a visit sends. `join d s` is the new state
of a point that holds `d` and is sent `s`, or `none` if that changes nothing. -/
structure Analysis (σ ε : Type) where
  join : σ → σ → Option σ
  transfer : Nat → σ → Except ε (List (Nat × σ))

/-- The states of the points, and the points still to visit. -/
structure Work (σ : Type) where
  states : List σ
  queue : List Nat

variable (A : Analysis σ ε)

/-- Send a state to a point. One outside the program is ignored. -/
def flow (w : Work σ) (f : Nat × σ) : Work σ :=
  match w.states[f.1]? with
  | none => w
  | some d =>
    match A.join d f.2 with
    | none => w
    | some d' =>
      ⟨w.states.set f.1 d', if f.1 ∈ w.queue then w.queue else w.queue ++ [f.1]⟩

/-- Send several states, in order. -/
def flows (w : Work σ) (fs : List (Nat × σ)) : Work σ := fs.foldl (flow A) w

/-- Visit queued points until none is left. `none` is a run out of visits. -/
def solve : Nat → Work σ → Except (Option ε) (List σ)
  | _, ⟨states, []⟩ => .ok states
  | 0, ⟨_, _ :: _⟩ => .error none
  | fuel + 1, ⟨states, pc :: rest⟩ =>
    match states[pc]? with
    | none => solve fuel ⟨states, rest⟩
    | some d =>
      match A.transfer pc d with
      | .error e => .error (some e)
      | .ok fs => solve fuel (flows A ⟨states, rest⟩ fs)

section Stable

/-- `le` is the order in which states only grow, and `dead` a state that no
visit has been asked for. -/
structure JoinSound (le : σ → σ → Prop) : Prop where
  refl : ∀ d, le d d
  trans : ∀ {a b c}, le a b → le b c → le a c
  left : ∀ {d s d'}, A.join d s = some d' → le d d'
  right : ∀ {d s d'}, A.join d s = some d' → le s d'
  unchanged : ∀ {d s}, A.join d s = none → le s d

variable {A} {le : σ → σ → Prop} {dead : σ → Prop}

/-- What is sent to a point is covered by the state it holds. -/
def Covered (le : σ → σ → Prop) (states : List σ) (f : Nat × σ) : Prop :=
  ∀ d, states[f.1]? = some d → le f.2 d

/-- A visit to `pc` would change nothing. -/
def Settled (A : Analysis σ ε) (le : σ → σ → Prop) (dead : σ → Prop) (states : List σ)
    (pc : Nat) : Prop :=
  ∀ d, states[pc]? = some d → dead d ∨
    ∃ fs, A.transfer pc d = .ok fs ∧ ∀ f ∈ fs, Covered le states f

theorem flow_le (hj : JoinSound A le) {w : Work σ} {f : Nat × σ} {t : Nat} {d d' : σ}
    (h : w.states[t]? = some d) (h' : (flow A w f).states[t]? = some d') : le d d' := by
  unfold flow at h'
  split at h'
  · obtain rfl : d = d' := by simpa [h] using h'
    exact hj.refl d
  · rename_i e he
    split at h'
    · obtain rfl : d = d' := by simpa [h] using h'
      exact hj.refl d
    · rename_i e' hjoin
      by_cases ht : f.1 = t
      · subst ht
        obtain rfl : e = d := by simpa [h] using he.symm
        have hlt : f.1 < w.states.length := (List.getElem?_eq_some_iff.mp h).1
        obtain rfl : e' = d' := by simpa [hlt] using h'
        exact hj.left hjoin
      · obtain rfl : d = d' := by simpa [List.getElem?_set_ne ht, h] using h'
        exact hj.refl d

theorem flow_length (w : Work σ) (f : Nat × σ) :
    (flow A w f).states.length = w.states.length := by
  unfold flow
  split
  · rfl
  · split <;> simp

theorem flows_length (fs : List (Nat × σ)) :
    ∀ w : Work σ, (flows A w fs).states.length = w.states.length := by
  induction fs with
  | nil => exact fun _ => rfl
  | cons f fs ih => exact fun w => (ih _).trans (flow_length w f)

/-- The loop keeps a state for every point. -/
theorem solve_length (fuel : Nat) :
    ∀ (w : Work σ) {states : List σ}, solve A fuel w = .ok states →
      states.length = w.states.length := by
  induction fuel with
  | zero =>
    rintro ⟨ss, _ | ⟨pc, rest⟩⟩ states h
    · obtain rfl : ss = states := by simpa [solve] using h
      rfl
    · simp [solve] at h
  | succ fuel ih =>
    rintro ⟨ss, _ | ⟨pc, rest⟩⟩ states h
    · obtain rfl : ss = states := by simpa [solve] using h
      rfl
    · simp only [solve] at h
      split at h
      · exact ih ⟨ss, rest⟩ h
      · split at h
        · simp at h
        · exact (ih _ h).trans (flows_length _ ⟨ss, rest⟩)

theorem flow_covered (hj : JoinSound A le) {w : Work σ} {f g : Nat × σ}
    (h : Covered le w.states g) : Covered le (flow A w f).states g := by
  intro d' hd'
  have hlt : g.1 < w.states.length := by
    have := (List.getElem?_eq_some_iff.mp hd').1
    rwa [flow_length] at this
  have hd : w.states[g.1]? = some w.states[g.1] := List.getElem?_eq_getElem hlt
  exact hj.trans (h _ hd) (flow_le hj hd hd')

/-- What is sent is covered afterwards. -/
theorem flow_covers (hj : JoinSound A le) (w : Work σ) (f : Nat × σ) :
    Covered le (flow A w f).states f := by
  intro d hd
  unfold flow at hd
  split at hd
  · simp_all
  · rename_i e he
    split at hd
    · obtain rfl : e = d := by simpa [he] using hd
      exact hj.unchanged (by assumption)
    · rename_i e' hjoin
      have hlt : f.1 < w.states.length := (List.getElem?_eq_some_iff.mp he).1
      obtain rfl : e' = d := by simpa [hlt] using hd
      exact hj.right hjoin

theorem mem_queue_flow {w : Work σ} (f : Nat × σ) {pc : Nat} (h : pc ∈ w.queue) :
    pc ∈ (flow A w f).queue := by
  unfold flow
  split
  · exact h
  · split
    · exact h
    · simp only
      split <;> simp [h]

/-- A point whose state changes is queued. -/
theorem flow_queued (w : Work σ) (f : Nat × σ) (pc : Nat) :
    (flow A w f).states[pc]? = w.states[pc]? ∨ pc ∈ (flow A w f).queue := by
  unfold flow
  split
  · exact .inl rfl
  · split
    · exact .inl rfl
    · by_cases hpc : f.1 = pc
      · right
        simp only
        split <;> simp_all
      · left
        simp [List.getElem?_set_ne hpc]

/-- A point settled before is settled after, unless it is queued again. -/
theorem flow_settled (hj : JoinSound A le) {w : Work σ} {f : Nat × σ} {pc : Nat}
    (h : pc ∈ w.queue ∨ Settled A le dead w.states pc) :
    pc ∈ (flow A w f).queue ∨ Settled A le dead (flow A w f).states pc := by
  rcases h with h | h
  · exact .inl (mem_queue_flow f h)
  · rcases flow_queued (A := A) w f pc with hsame | hpc
    · right
      intro d hd
      rw [hsame] at hd
      rcases h d hd with hdead | ⟨fs, hfs, hcov⟩
      · exact .inl hdead
      · exact .inr ⟨fs, hfs, fun g hg => flow_covered hj (hcov g hg)⟩
    · exact .inl hpc

theorem flows_settled (hj : JoinSound A le) (fs : List (Nat × σ)) {pc : Nat} :
    ∀ {w : Work σ}, (pc ∈ w.queue ∨ Settled A le dead w.states pc) →
      pc ∈ (flows A w fs).queue ∨ Settled A le dead (flows A w fs).states pc := by
  induction fs with
  | nil => exact id
  | cons f fs ih => exact fun h => ih (flow_settled hj h)

theorem flows_covered (hj : JoinSound A le) (fs : List (Nat × σ)) {g : Nat × σ} :
    ∀ {w : Work σ}, Covered le w.states g → Covered le (flows A w fs).states g := by
  induction fs with
  | nil => exact id
  | cons f fs ih => exact fun h => ih (flow_covered hj h)

theorem flows_covers (hj : JoinSound A le) (fs : List (Nat × σ)) :
    ∀ {w : Work σ} {g : Nat × σ}, g ∈ fs → Covered le (flows A w fs).states g := by
  induction fs with
  | nil => simp
  | cons f fs ih =>
    intro w g hg
    rcases List.mem_cons.mp hg with rfl | hg
    · exact flows_covered hj fs (flow_covers hj w _)
    · exact ih hg

theorem mem_queue_flows (fs : List (Nat × σ)) {pc : Nat} :
    ∀ (w : Work σ), pc ∈ w.queue → pc ∈ (flows A w fs).queue := by
  induction fs with
  | nil => exact fun _ => id
  | cons f fs ih => exact fun w h => ih _ (mem_queue_flow f h)

theorem flows_queued (fs : List (Nat × σ)) (pc : Nat) :
    ∀ (w : Work σ), (flows A w fs).states[pc]? = w.states[pc]? ∨ pc ∈ (flows A w fs).queue := by
  induction fs with
  | nil => exact fun _ => .inl rfl
  | cons f fs ih =>
    intro w
    rcases ih (flow A w f) with h | h
    · rcases flow_queued (A := A) w f pc with h' | h'
      · exact .inl (h.trans h')
      · exact .inr (mem_queue_flows fs _ h')
    · exact .inr h

/-- A point just visited leaves the queue: either it is queued again, or its own
state did not change and what it sent is covered. -/
theorem visited_settled (hj : JoinSound A le) {states : List σ} {rest : List Nat} {pc : Nat}
    {d : σ} {fs : List (Nat × σ)} (hd : states[pc]? = some d) (hfs : A.transfer pc d = .ok fs) :
    pc ∈ (flows A ⟨states, rest⟩ fs).queue ∨
      Settled A le dead (flows A ⟨states, rest⟩ fs).states pc := by
  rcases flows_queued (A := A) fs pc ⟨states, rest⟩ with hsame | hpc
  · right
    intro e he
    obtain rfl : d = e := by simpa [hsame, hd] using he
    exact .inr ⟨fs, hfs, fun g hg => flows_covers hj fs hg⟩
  · exact .inl hpc

/-- When the loop ends every point is settled, and what was covered still is. -/
theorem solve_stable (hj : JoinSound A le) (fuel : Nat) :
    ∀ (w : Work σ) {states : List σ}, solve A fuel w = .ok states →
      (∀ pc, pc ∈ w.queue ∨ Settled A le dead w.states pc) →
      (∀ pc, Settled A le dead states pc) ∧
        ∀ g, Covered le w.states g → Covered le states g := by
  induction fuel with
  | zero =>
    rintro ⟨ss, _ | ⟨pc, rest⟩⟩ states h hset
    · obtain rfl : ss = states := by simpa [solve] using h
      exact ⟨fun pc => by simpa using hset pc, fun g hg => hg⟩
    · simp [solve] at h
  | succ fuel ih =>
    rintro ⟨ss, _ | ⟨pc, rest⟩⟩ states h hset
    · obtain rfl : ss = states := by simpa [solve] using h
      exact ⟨fun pc => by simpa using hset pc, fun g hg => hg⟩
    · simp only [solve] at h
      split at h
      · -- a queued point outside the program is dropped
        refine ih ⟨ss, rest⟩ h fun q => ?_
        rcases hset q with hq | hq
        · rcases List.mem_cons.mp hq with rfl | hq
          · exact .inr fun d hd => by simp_all
          · exact .inl hq
        · exact .inr hq
      · rename_i d hd
        split at h
        · simp at h
        · rename_i fs hfs
          obtain ⟨hall, hcov⟩ := ih _ h fun q => by
            rcases hset q with hq | hq
            · rcases List.mem_cons.mp hq with rfl | hq
              · exact visited_settled hj hd hfs
              · exact flows_settled hj fs (.inl hq)
            · exact flows_settled hj fs (.inr hq)
          exact ⟨hall, fun g hg => hcov g (flows_covered hj fs hg)⟩

end Stable

section Invariant

variable {A} {P R : Nat → σ → Prop} {live : σ → Prop}

/-- A property `P` of the state a point holds that is kept when states with the
property `R` are sent, and only such are. A join makes a live state, and only
live states are visited. -/
structure Kept (A : Analysis σ ε) (live : σ → Prop) (P R : Nat → σ → Prop) : Prop where
  joined : ∀ {d s d'}, A.join d s = some d' → live d'
  join : ∀ {pc d s d'}, P pc d → R pc s → A.join d s = some d' → P pc d'
  transfer : ∀ {pc d fs}, live d → P pc d → A.transfer pc d = .ok fs → ∀ f ∈ fs, R f.1 f.2

/-- Every point has the property, and every queued point is live. -/
def Holds (live : σ → Prop) (P : Nat → σ → Prop) (w : Work σ) : Prop :=
  ∀ pc d, w.states[pc]? = some d → P pc d ∧ (pc ∈ w.queue → live d)

theorem flow_holds (hk : Kept A live P R) {w : Work σ} {f : Nat × σ} (h : Holds live P w)
    (hf : R f.1 f.2) : Holds live P (flow A w f) := by
  intro pc d hd
  unfold flow at hd ⊢
  split
  · simp_all [h pc d]
  · rename_i e he
    cases hj : A.join e f.2 with
    | none => simp_all [h pc d]
    | some e' =>
      simp only [he, hj] at hd ⊢
      by_cases hpc : f.1 = pc
      · subst hpc
        have hlt : f.1 < w.states.length := (List.getElem?_eq_some_iff.mp he).1
        obtain rfl : e' = d := by simpa [hlt] using hd
        exact ⟨hk.join (h _ _ he).1 hf hj, fun _ => hk.joined hj⟩
      · have hold := h pc d (by simpa [List.getElem?_set_ne hpc] using hd)
        refine ⟨hold.1, fun hq => hold.2 ?_⟩
        split_ifs at hq
        · exact hq
        · rcases List.mem_append.mp hq with hq | hq
          · exact hq
          · exact absurd (List.mem_singleton.mp hq).symm hpc

theorem flows_holds (hk : Kept A live P R) (fs : List (Nat × σ)) :
    ∀ (w : Work σ), Holds live P w → (∀ f ∈ fs, R f.1 f.2) → Holds live P (flows A w fs) := by
  induction fs with
  | nil => exact fun _ h _ => h
  | cons f fs ih =>
    intro w h hf
    exact ih _ (flow_holds hk h (hf f (by simp))) fun g hg => hf g (by simp [hg])

/-- A property that visits and joins keep holds of every state the loop ends
with, and of the state at which a visit failed. -/
theorem solve_invariant (hk : Kept A live P R) (fuel : Nat) :
    ∀ (w : Work σ), Holds live P w →
      (∀ states, solve A fuel w = .ok states → ∀ pc d, states[pc]? = some d → P pc d) ∧
        ∀ e, solve A fuel w = .error (some e) →
          ∃ pc d, P pc d ∧ live d ∧ A.transfer pc d = .error e := by
  induction fuel with
  | zero =>
    rintro ⟨ss, _ | ⟨pc, rest⟩⟩ h
    · refine ⟨fun states hs pc d hd => ?_, fun e he => by simp [solve] at he⟩
      obtain rfl : ss = states := by simpa [solve] using hs
      exact (h pc d hd).1
    · exact ⟨fun states hs => by simp [solve] at hs, fun e he => by simp [solve] at he⟩
  | succ fuel ih =>
    rintro ⟨ss, _ | ⟨pc, rest⟩⟩ h
    · refine ⟨fun states hs pc d hd => ?_, fun e he => by simp [solve] at he⟩
      obtain rfl : ss = states := by simpa [solve] using hs
      exact (h pc d hd).1
    · have hrest : Holds live P ⟨ss, rest⟩ := fun q d hd =>
        ⟨(h q d hd).1, fun hq => (h q d hd).2 (List.mem_cons_of_mem pc hq)⟩
      simp only [solve]
      cases hd : ss[pc]? with
      | none => exact ih ⟨ss, rest⟩ hrest
      | some d =>
        obtain ⟨hP, hlive⟩ := h pc d hd
        have hlive := hlive (by simp)
        simp only
        cases ht : A.transfer pc d with
        | error e =>
          refine ⟨fun states hs => by simp at hs, fun e' he' => ?_⟩
          obtain rfl : e = e' := by simpa using he'
          exact ⟨pc, d, hP, hlive, ht⟩
        | ok fs => exact ih _ (flows_holds hk fs _ hrest (hk.transfer hlive hP ht))

end Invariant

end Enki.Worklist
