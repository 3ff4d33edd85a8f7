import Mathlib.Computability.StateTransition

/-!
# Runs of a partial step function

A functional semantics with a depth agrees with a step function if, at every depth, what it
says is where the run ends up, and where it says nothing the run goes on for at least as many
steps. `Tracks` is that relation for a part of a run; it is composed like the run.
-/

namespace Running

open StateTransition

variable {σ ρ τ : Type*} {f : σ → Option σ} {a b : σ} {n m : Nat}

/-- At least so many steps can be made. -/
def Runs (f : σ → Option σ) : Nat → σ → Prop
  | 0, _ => True
  | n + 1, a => ∃ b ∈ f a, Runs f n b

theorem Runs.mono (h : Runs f n a) (hle : m ≤ n) : Runs f m a := by
  induction m generalizing n a with
  | zero => trivial
  | succ m ih =>
    obtain ⟨n, rfl⟩ := Nat.exists_eq_add_of_le' (Nat.lt_of_lt_of_le m.succ_pos hle)
    obtain ⟨b, hb, h⟩ := h
    exact ⟨b, hb, ih h (by omega)⟩

theorem Runs.of_reaches (hab : Reaches f a b) (h : Runs f n b) : Runs f n a := by
  induction hab using Relation.ReflTransGen.head_induction_on with
  | refl => exact h
  | head hstep _ ih => exact Runs.mono (n := n + 1) ⟨_, hstep, ih⟩ (Nat.le_succ n)

/-- A run that ends does not go on for ever. -/
theorem exists_not_runs (h : b ∈ eval f a) : ∃ n, ¬Runs f n a := by
  obtain ⟨hab, hend⟩ := mem_eval.1 h
  induction hab using Relation.ReflTransGen.head_induction_on with
  | refl =>
    refine ⟨1, ?_⟩
    rintro ⟨c, hc, -⟩
    rw [hend] at hc
    cases hc
  | head hstep hrest ih =>
    obtain ⟨n, hn⟩ := ih (mem_eval.2 ⟨hrest, hend⟩)
    refine ⟨n + 1, ?_⟩
    rintro ⟨c, hc, hruns⟩
    cases Option.mem_unique hstep hc
    exact hn hruns

/-- The run from `a` comes to an end that `Ends` allows for the outcome, or, if there is none,
goes on for at least `n` steps. -/
def Tracks (f : σ → Option σ) (n : Nat) (a : σ) (o : Option ρ) (Ends : ρ → σ → Prop) : Prop :=
  match o with
  | some r => ∃ b, Reaches f a b ∧ Ends r b
  | none => Runs f n a

variable {o : Option ρ} {Ends : ρ → σ → Prop} {Ends' : τ → σ → Prop}

theorem Tracks.done {r : ρ} (h : Ends r a) : Tracks f n a (some r) Ends :=
  ⟨a, .refl, h⟩

theorem Tracks.of_reaches (hab : Reaches f a b) (h : Tracks f n b o Ends) :
    Tracks f n a o Ends := by
  cases o with
  | none => exact Runs.of_reaches hab h
  | some r =>
    obtain ⟨c, hbc, hc⟩ := h
    exact ⟨c, hab.trans hbc, hc⟩

theorem Tracks.step (hstep : f a = some b) (h : Tracks f n b o Ends) :
    Tracks f (n + 1) a o Ends := by
  cases o with
  | none => exact ⟨b, hstep, h⟩
  | some r =>
    obtain ⟨c, hbc, hc⟩ := h
    exact ⟨c, hbc.head hstep, hc⟩

theorem Tracks.mono (h : Tracks f n a o Ends) (hle : m ≤ n) : Tracks f m a o Ends := by
  cases o with
  | none => exact Runs.mono h hle
  | some r => exact h

/-- One part of a run after another. -/
theorem Tracks.bind {k : ρ → Option τ} (h : Tracks f n a o Ends)
    (hk : ∀ r b, Ends r b → Tracks f n b (k r) Ends') : Tracks f n a (o.bind k) Ends' := by
  cases o with
  | none => exact h
  | some r =>
    obtain ⟨b, hab, hb⟩ := h
    exact (hk r b hb).of_reaches hab

theorem Tracks.weaken {Ends₂ : ρ → σ → Prop} (h : Tracks f n a o Ends)
    (hw : ∀ r b, Ends r b → Ends₂ r b) : Tracks f n a o Ends₂ := by
  cases o with
  | none => exact h
  | some r =>
    obtain ⟨b, hab, hb⟩ := h
    exact ⟨b, hab, hw r b hb⟩

/-- A semantics that tracks the run to its ends at every depth says how the run ends. -/
theorem mem_eval_of_tracks {sem : Nat → Option ρ} (h : ∀ n, Tracks f n a (sem n) Ends)
    (hend : ∀ r c, Ends r c → f c = none) :
    b ∈ eval f a ↔ ∃ n r, sem n = some r ∧ Ends r b ∧ Reaches f a b := by
  constructor
  · intro hb
    obtain ⟨n, hn⟩ := exists_not_runs hb
    have hn' := h n
    cases hr : sem n with
    | none =>
      rw [hr] at hn'
      exact absurd hn' hn
    | some r =>
      rw [hr] at hn'
      obtain ⟨c, hac, hc⟩ := hn'
      obtain rfl := Part.mem_unique hb (mem_eval.2 ⟨hac, hend r c hc⟩)
      exact ⟨n, r, hr, hc, hac⟩
  · rintro ⟨n, r, -, hb, hab⟩
    exact mem_eval.2 ⟨hab, hend r b hb⟩

/-- What a run keeps holds wherever it comes. -/
theorem invariant {I : σ → Prop} (ha : I a)
    (hstep : ∀ b c, Reaches f a b → I b → f b = some c → I c) (hab : Reaches f a b) : I b := by
  induction hab with
  | refl => exact ha
  | tail hreach hnext ih => exact hstep _ _ hreach ih hnext

/-- The state after so many steps. -/
def after (f : σ → Option σ) : Nat → σ → Option σ
  | 0, a => some a
  | n + 1, a => (f a).bind (after f n)

end Running
