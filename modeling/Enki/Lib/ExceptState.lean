import Mathlib.Data.List.Basic

/-!
# Stateful computations that may fail

Inversion and composition rules for `StateT σ (Except ε)`: a successful run of
a sequence splits into successful runs of its parts, and runs compose.
-/

namespace ExceptState

variable {σ ε α β : Type}

@[simp] theorem run_pure (a : α) (s : σ) :
    (pure a : StateT σ (Except ε) α) s = .ok (a, s) := rfl

@[simp] theorem run_throw (e : ε) (s : σ) :
    (throw e : StateT σ (Except ε) α) s = .error e := rfl

theorem run_bind (x : StateT σ (Except ε) α) (f : α → StateT σ (Except ε) β) (s : σ) :
    (x >>= f) s = (x s).bind fun r => f r.1 r.2 := rfl

theorem run_bind_ok {x : StateT σ (Except ε) α} {f : α → StateT σ (Except ε) β} {s : σ}
    {r : β × σ} :
    (x >>= f) s = .ok r ↔ ∃ a t, x s = .ok (a, t) ∧ f a t = .ok r := by
  rw [run_bind]
  cases h : x s with
  | error e => simp [Except.bind]
  | ok v =>
    obtain ⟨a, t⟩ := v
    constructor
    · intro hr
      exact ⟨a, t, rfl, hr⟩
    · rintro ⟨a', t', heq, hr⟩
      cases heq
      exact hr

theorem run_bind_eq {x : StateT σ (Except ε) α} {f : α → StateT σ (Except ε) β} {s t : σ} {a : α}
    (h : x s = .ok (a, t)) : (x >>= f) s = f a t := by
  rw [run_bind, h]
  rfl

theorem run_bind_error {x : StateT σ (Except ε) α} {f : α → StateT σ (Except ε) β} {s : σ} {e : ε}
    (h : x s = .error e) : (x >>= f) s = .error e := by
  rw [run_bind, h]
  rfl

theorem ok_bind (a : α) (f : α → Except ε β) : (Except.ok a >>= f) = f a := rfl

theorem error_bind (e : ε) (f : α → Except ε β) : (Except.error e >>= f) = .error e := rfl

theorem bind_ok {x : Except ε α} {f : α → Except ε β} {b : β} :
    (x >>= f) = .ok b ↔ ∃ a, x = .ok a ∧ f a = .ok b := by
  cases x with
  | error e => simp [bind, Except.bind]
  | ok a => simp [bind, Except.bind]

theorem map_ok {x : Except ε α} {f : α → β} {b : β} :
    x.map f = .ok b ↔ ∃ a, x = .ok a ∧ f a = b := by
  cases x with
  | error e => simp [Except.map]
  | ok a => simp [Except.map]

/-- A guard that rejects when `c` holds. -/
def reject (c : Prop) [Decidable c] (e : ε) : StateT σ (Except ε) Unit :=
  if c then throw e else pure ()

theorem run_reject_ok {c : Prop} [Decidable c] {e : ε} {s : σ} {r : Unit × σ} :
    (reject c e : StateT σ (Except ε) Unit) s = .ok r ↔ ¬ c ∧ r = ((), s) := by
  unfold reject
  split
  · next h => simp [h]
  · next h =>
    simp only [h, not_false_eq_true, true_and, run_pure, Except.ok.injEq]
    exact eq_comm

theorem run_reject_bind_ok {c : Prop} [Decidable c] {e : ε}
    {f : Unit → StateT σ (Except ε) β} {s : σ} {r : β × σ} :
    ((reject c e : StateT σ (Except ε) Unit) >>= f) s = .ok r ↔ ¬ c ∧ f () s = .ok r := by
  rw [run_bind_ok]
  constructor
  · rintro ⟨a, t, hx, hf⟩
    obtain ⟨hc, heq⟩ := run_reject_ok.1 hx
    cases heq
    exact ⟨hc, hf⟩
  · rintro ⟨hc, hf⟩
    exact ⟨(), s, run_reject_ok.2 ⟨hc, rfl⟩, hf⟩

end ExceptState
