import Enki.Lib.ExceptState

/-!
# Byte-stream parsers

A parser consumes a prefix of a byte string, threads an auxiliary state `σ`
and may fail with a message. Two views of one parser are used throughout:

- forwards, `Parses x p bs a q`: on any stream that starts with `bs`, in
  auxiliary state `p`, the parser consumes exactly `bs`, returns `a` and
  leaves `q`; `Rejects x p bs` says that it fails on every such stream;
- backwards, `ExceptState.run_bind_ok`: a successful run of a sequence splits
  into successful runs of its parts.
-/

namespace StreamParser

open ExceptState

variable {σ α β : Type}

/-- Input still to be read, the offset reached, and the auxiliary state. -/
structure Stream (σ : Type) where
  rest : List UInt8
  pos : Nat
  aux : σ

/-- A fallible parser over byte streams. -/
abbrev Parser (σ : Type) := StateT (Stream σ) (Except String)

/-! ## Reading bytes -/

/-- Read exactly `n` bytes, or fail with `msg` at the current offset. -/
def take (msg : Nat → String) (n : Nat) : Parser σ (List UInt8) := fun s =>
  if n ≤ s.rest.length then
    .ok (s.rest.take n, { s with rest := s.rest.drop n, pos := s.pos + n })
  else
    .error (msg s.pos)

theorem run_take_ok {msg : Nat → String} {n : Nat} {s t : Stream σ} {bs : List UInt8}
    (h : take msg n s = .ok (bs, t)) :
    s.rest = bs ++ t.rest ∧ bs.length = n ∧ t.aux = s.aux := by
  unfold take at h
  split at h
  · next hn =>
    cases h
    exact ⟨(List.take_append_drop n s.rest).symm, by simp [hn], rfl⟩
  · cases h

/-! ## Forward reasoning -/

/-- On every stream starting with `bs`, `x` consumes `bs` and returns `a`,
moving the auxiliary state from `p` to `q`. -/
def Parses (x : Parser σ α) (p : σ) (bs : List UInt8) (a : α) (q : σ) : Prop :=
  ∀ rest pos, x ⟨bs ++ rest, pos, p⟩ = .ok (a, ⟨rest, pos + bs.length, q⟩)

/-- On every stream starting with `bs`, `x` fails. -/
def Rejects (x : Parser σ α) (p : σ) (bs : List UInt8) : Prop :=
  ∀ rest pos, ∃ e, x ⟨bs ++ rest, pos, p⟩ = .error e

theorem Parses.pure (a : α) (p : σ) : Parses (pure a : Parser σ α) p [] a p :=
  fun _ _ => rfl

theorem Parses.bind {x : Parser σ α} {f : α → Parser σ β} {p q r : σ}
    {bs cs : List UInt8} {a : α} {b : β}
    (hx : Parses x p bs a q) (hf : Parses (f a) q cs b r) :
    Parses (x >>= f) p (bs ++ cs) b r := by
  intro rest pos
  rw [List.append_assoc, run_bind_eq (hx (cs ++ rest) pos), hf rest (pos + bs.length),
    List.length_append, Nat.add_assoc]

/-- `bind` with a continuation that reads nothing. -/
theorem Parses.bind_nil {x : Parser σ α} {f : α → Parser σ β} {p q r : σ}
    {bs : List UInt8} {a : α} {b : β}
    (hx : Parses x p bs a q) (hf : Parses (f a) q [] b r) : Parses (x >>= f) p bs b r := by
  have h := hx.bind hf
  rwa [List.append_nil] at h

theorem Parses.take {msg : Nat → String} {n : Nat} {bs : List UInt8} (p : σ)
    (h : bs.length = n) : Parses (take msg n) p bs bs p := by
  intro rest pos
  subst h
  simp [StreamParser.take]

theorem Parses.reject_bind {c : Prop} [Decidable c] {e : String}
    {f : Unit → Parser σ β} {p q : σ} {bs : List UInt8} {b : β}
    (hc : ¬ c) (hf : Parses (f ()) p bs b q) :
    Parses (reject c e >>= f) p bs b q :=
  fun rest pos => run_reject_bind_ok.2 ⟨hc, hf rest pos⟩

theorem Rejects.bind_left {x : Parser σ α} {p : σ} {bs cs : List UInt8}
    (hx : Rejects x p bs) (f : α → Parser σ β) : Rejects (x >>= f) p (bs ++ cs) := by
  intro rest pos
  obtain ⟨e, he⟩ := hx (cs ++ rest) pos
  exact ⟨e, by rw [List.append_assoc]; exact run_bind_error he⟩

theorem Rejects.bind_right {x : Parser σ α} {f : α → Parser σ β} {p q : σ}
    {bs cs : List UInt8} {a : α} (hx : Parses x p bs a q) (hf : Rejects (f a) q cs) :
    Rejects (x >>= f) p (bs ++ cs) := by
  intro rest pos
  obtain ⟨e, he⟩ := hf rest (pos + bs.length)
  exact ⟨e, by rw [List.append_assoc, run_bind_eq (hx (cs ++ rest) pos)]; exact he⟩

theorem Rejects.reject_bind {c : Prop} [Decidable c] {e : String}
    {f : Unit → Parser σ β} {p : σ} {bs : List UInt8}
    (h : c ∨ Rejects (f ()) p bs) : Rejects (reject c e >>= f) p bs := by
  intro rest pos
  by_cases hc : c
  · exact ⟨e, by simp [reject, hc, run_bind, Except.bind]⟩
  · obtain ⟨e', he'⟩ := h.resolve_left hc rest pos
    refine ⟨e', ?_⟩
    rw [run_bind_eq (run_reject_ok.2 ⟨hc, rfl⟩)]
    exact he'

end StreamParser
