import Enki.Eval.Adequate

/-!
# Entries

`pl_whnf`, `pl_apply`, `pl_nf` and the runs that `pl_thread_start` arms are one thing: a value
is evaluated under continuations, above the stacks of the host. How such a run ends is what
`evalEntry` says, with the host's stacks as they were. It follows that quanta do not matter:
a thread suspended at every safepoint ends like one that is never suspended.
-/

namespace Enki.Eval

open Running StateTransition

variable {W : Type}

namespace Run

/-- A run above the host's values and frames. -/
def enter (ks : List Kont) (v : Val) (S : List Val) (F : List Frame) (s : Sto W) (fuel : Nat) :
    Run W :=
  .at (.eval v) S (ks.map (Kont.frame S.length) ++ F) s fuel 0

/-- `pl_whnf`, `pl_thread_start` -/
def whnf (v : Val) (S : List Val) (F : List Frame) (s : Sto W) (fuel : Nat) : Run W :=
  enter [] v S F s fuel

/-- `pl_apply` -/
def apply (f x : Val) (S : List Val) (F : List Frame) (s : Sto W) (fuel : Nat) : Run W :=
  enter [.apply x] f S F s fuel

/-- `pl_nf`, `pl_thread_start_nf` -/
def nf (v : Val) (S : List Val) (F : List Frame) (s : Sto W) (fuel : Nat) : Run W :=
  enter [.nf] v S F s fuel

/-- `pl_thread_start_call_nf` -/
def startCallNf (f x : Val) (S : List Val) (F : List Frame) (s : Sto W) (fuel : Nat) : Run W :=
  enter [.apply x, .nf] f S F s fuel

end Run

/-- The entry of a run above the host's values and frames. -/
def Entry.above (mode : Mode W) (S : List Val) (F : List Frame) : Entry W :=
  ⟨mode, F.length, S.length⟩

/-- What an entry comes to. -/
def evalEntry (ctx : Ctx W) (mode : Mode W) (n : Nat) (ks : List Kont) (v : Val) (s : Sto W) :
    Outcome W :=
  under (evalJob ctx mode n) v ks s

/-- How a run stops. -/
def Res.ctl : Res → Ctl
  | .val v => .done v
  | .raise e => .exn e
  | .abort => .abort

theorem Res.ctl_inj {res res' : Res} (h : res.ctl = res'.ctl) : res = res' := by
  cases res <;> cases res' <;> simp_all [Res.ctl]

/-- The end of a run: the host's stacks are as they were, the heap and the rest as evaluation
left them. -/
def Finishes (S : List Val) (F : List Frame) (o : Sto W × Res) (r : Run W) : Prop :=
  r.thread.ctl = o.2.ctl ∧
    (o.2 ≠ .abort → r.thread.vstack = S ∧ r.thread.frames = F ∧ r.thread.sto = o.1)

variable {ctx : Ctx W} {mode : Mode W} {S : List Val} {F : List Frame} {quantum : Nat → Nat}

/-- An exception that nothing catches leaves the machine. -/
theorem caught_uncaught {e : Exn} {vs : List Val} {above : List Frame} {s : Sto W} {h : Heap}
    {fuel : Nat} (hvs : S <+: vs) (huncaught : Uncaught e above)
    (hunwind : unwindFrames above h = some s.heap) :
    (⟨.raised e, vs, above ++ F, s.setHeap h, fuel⟩ : Thread W).caught (.above mode S F) e =
      ⟨.exn e, S, F, s, fuel⟩ := by
  have hown : (above ++ F).length - F.length = above.length := by simp
  have htake : (above ++ F).take above.length = above := by simp
  have hdrop : (above ++ F).drop above.length = F := by simp
  have hstack : vs.take S.length = S := (List.prefix_iff_eq_take.1 hvs).symm
  have hsplit : ∀ v, e = .value v → Thread.splitTry above = none := by
    intro v hv
    have happend := splitTry_append [] (huncaught v hv)
    rw [List.append_nil] at happend
    exact happend
  cases e with
  | message msg =>
    simp only [Thread.caught, Entry.above, hown, htake, hdrop, hstack, Sto.setHeap, hunwind,
      Thread.orAbort, Thread.setHeap]
  | value v =>
    simp only [Thread.caught, Entry.above, hown, htake, hdrop, hstack, hsplit v rfl, Sto.setHeap,
      hunwind, Thread.orAbort, Thread.setHeap]

theorem Ends.finish {n : Nat} {o : Sto W × Res} {r : Run W} (h : Ends S F o r) :
    Tracks (Run.next ctx (.above mode S F) quantum) n r (some o) (Finishes S F) := by
  obtain ⟨s, res⟩ := o
  obtain ⟨t, i⟩ := r
  cases res with
  | abort => exact Tracks.done ⟨h, fun hne => absurd rfl hne⟩
  | val v =>
    obtain ⟨fuel, hfuel, hr⟩ := h
    cases hr
    have hret : (⟨.ret v, S, F, s, fuel⟩ : Thread W).ret ctx (.above mode S F) v =
        ⟨.done v, S, F, s, fuel⟩ := if_pos rfl
    refine Tracks.mono (Tracks.step (congrArg some (congrArg (Run.mk · i) hret)) ?_) (Nat.le_succ n)
    exact Tracks.done ⟨rfl, fun _ => ⟨rfl, rfl, rfl⟩⟩
  | raise e =>
    obtain ⟨vs, above, h, fuel, hfuel, hr, hvs, huncaught, hunwind⟩ := h
    cases hr
    have hcaught : (⟨.raised e, vs, above ++ F, s.setHeap h, fuel⟩ : Thread W).caught
        (.above mode S F) e = ⟨.exn e, S, F, s, fuel⟩ :=
      caught_uncaught hvs huncaught hunwind
    refine Tracks.mono (Tracks.step (congrArg some (congrArg (Run.mk · i) hcaught)) ?_)
      (Nat.le_succ n)
    exact Tracks.done ⟨rfl, fun _ => ⟨rfl, rfl, rfl⟩⟩

/-- At every depth, the run of an entry is where evaluation says. -/
theorem enter_tracks (hq : ∀ i, 2 ≤ quantum i) (ks : List Kont) (v : Val) (s : Sto W) {fuel : Nat}
    (hfuel : 0 < fuel) (n : Nat) :
    Tracks (Run.next ctx (.above mode S F) quantum) n (.enter ks v S F s fuel)
      (evalEntry ctx mode n ks v s) (Finishes S F) := by
  have hdo : ∀ j, Does ctx (.above mode S F) quantum n j := fun j => does hq n j
  have hrun := Tracks.under hdo ks (v := v) (s := s) (i := 0) (S := S) (Nat.le_refl F.length) hfuel
  have hfinish := Tracks.bind hrun fun o b hb => Ends.finish (n := n) hb
  rw [Option.bind_fun_some] at hfinish
  exact hfinish

theorem Finishes.next_eq_none {en : Entry W} {o : Sto W × Res} {r : Run W} (h : Finishes S F o r) :
    Run.next ctx en quantum r = none := by
  obtain ⟨⟨ctl, vs, fs, s', fuel⟩, i⟩ := r
  obtain ⟨s, res⟩ := o
  obtain ⟨rfl, -⟩ : ctl = res.ctl ∧ _ := h
  cases res <;> rfl

/-- The ends of runs are told apart, failed checks excepted. -/
theorem Finishes.inj {o o' : Sto W × Res} {r : Run W} (h : Finishes S F o r)
    (h' : Finishes S F o' r) (ho : o.2 ≠ .abort) : o = o' := by
  have hres : o.2 = o'.2 := Res.ctl_inj (h.1.symm.trans h'.1)
  exact Prod.ext ((h.2 ho).2.2.symm.trans (h'.2 (hres ▸ ho)).2.2) hres

section

variable (hq : ∀ i, 2 ≤ quantum i) (ks : List Kont) (v : Val) (s : Sto W) {fuel : Nat}
  (hfuel : 0 < fuel)
include hq hfuel

theorem mem_eval_enter (r : Run W) :
    r ∈ eval (Run.next ctx (.above mode S F) quantum) (.enter ks v S F s fuel) ↔
      ∃ n o, evalEntry ctx mode n ks v s = some o ∧ Finishes S F o r ∧
        Reaches (Run.next ctx (.above mode S F) quantum) (.enter ks v S F s fuel) r :=
  mem_eval_of_tracks (enter_tracks hq ks v s hfuel) fun _ _ hr => hr.next_eq_none

theorem exists_end {n : Nat} {o : Sto W × Res} (hn : evalEntry ctx mode n ks v s = some o) :
    ∃ r ∈ eval (Run.next ctx (.above mode S F) quantum) (.enter ks v S F s fuel),
      Finishes S F o r := by
  have htracks : Tracks (Run.next ctx (.above mode S F) quantum) n (.enter ks v S F s fuel)
      (evalEntry ctx mode n ks v s) (Finishes S F) := enter_tracks hq ks v s hfuel n
  rw [hn] at htracks
  obtain ⟨r, hreach, hfin⟩ := htracks
  exact ⟨r, (mem_eval_enter hq ks v s hfuel r).2 ⟨n, o, hn, hfin, hreach⟩, hfin⟩

/-- **Suspension is transparent.** However a run is cut into quanta, and above whatever stacks,
it ends the same way and in the same heap. -/
theorem suspension_transparent {quantum' : Nat → Nat} (hq' : ∀ i, 2 ≤ quantum' i) {fuel' : Nat}
    (hfuel' : 0 < fuel') (S' : List Val) (F' : List Frame) {r : Run W}
    (hr : r ∈ eval (Run.next ctx (.above mode S F) quantum) (.enter ks v S F s fuel)) :
    ∃ r' ∈ eval (Run.next ctx (.above mode S' F') quantum') (.enter ks v S' F' s fuel'),
      r'.thread.ctl = r.thread.ctl ∧
      (r.thread.ctl ≠ .abort → r'.thread.sto = r.thread.sto ∧
        (r.thread.vstack, r.thread.frames) = (S, F) ∧
        (r'.thread.vstack, r'.thread.frames) = (S', F')) := by
  obtain ⟨n, o, hn, hfin, -⟩ := (mem_eval_enter hq ks v s hfuel r).1 hr
  obtain ⟨r', hr', hfin'⟩ := exists_end (S := S') (F := F') hq' ks v s hfuel' hn
  refine ⟨r', hr', hfin'.1.trans hfin.1.symm, fun hne => ?_⟩
  have ho : o.2 ≠ .abort := by
    intro habort
    rw [hfin.1, habort] at hne
    exact hne rfl
  obtain ⟨hvs, hfs, hsto⟩ := hfin.2 ho
  obtain ⟨hvs', hfs', hsto'⟩ := hfin'.2 ho
  exact ⟨hsto'.trans hsto.symm, by rw [hvs, hfs], by rw [hvs', hfs']⟩

end

/-! ## A small heap -/

/-- Primops that return their first argument. -/
def firstOf : Ctx Unit where
  rplan := false
  memoised := true
  boxed _ n := 2 ^ 63 + n
  boxed_ge _ _ := Nat.le_add_right ..
  boxed_inj _ _ _ _ h := Nat.add_left_cancel h
  body _ _ args s := .returns (args.headD (.nat 0)) [] s
  spend _ _ _ fuel := fuel
  spend_pos _ _ _ _ h := h
  memoRecord _ _ _ s := s.world

/-- The identity, a thunk that applies it to 7, and an application that holds the thunk. -/
def sample : Sto Unit where
  heap := [.law false 1 (.nat 0) (.nat 1), .env (.ref 0) [], .app 0 false (.nat 0) [.nat 7],
    .app 0 false (.nat 0) [.nat 0, .ref 2], .thunk (.ref 1) (.ref 3), .app 0 false (.nat 5) [.ref 4]]
  epoch := 0
  world := ()

/-- The thunk has been evaluated: it has its value, and the activation of the identity is left. -/
def sampleForced : Sto Unit where
  heap := [.law false 1 (.nat 0) (.nat 1), .env (.ref 0) [], .app 0 false (.nat 0) [.nat 7],
    .app 0 false (.nat 0) [.nat 0, .ref 2], .ind (.nat 7), .app 0 false (.nat 5) [.ref 4],
    .env (.ref 0) [.nat 7]]
  epoch := 0
  world := ()

/-- And its holder normalised. -/
def sampleNormal : Sto Unit where
  heap := [.law false 1 (.nat 0) (.nat 1), .env (.ref 0) [], .app 0 false (.nat 0) [.nat 7],
    .app 0 false (.nat 0) [.nat 0, .ref 2], .ind (.nat 7), .app 0 true (.nat 5) [.nat 7],
    .env (.ref 0) [.nat 7]]
  epoch := 0
  world := ()

theorem sample_whnf (mode : Mode Unit) :
    evalEntry firstOf mode 8 [] (.ref 4) sample = some (sampleForced, .val (.nat 7)) := rfl

theorem sample_nf (mode : Mode Unit) :
    evalEntry firstOf mode 11 [.nf] (.ref 5) sample = some (sampleNormal, .val (.ref 5)) := rfl

theorem sample_whnf_run (mode : Mode Unit) :
    ∃ r ∈ eval (Run.next firstOf (.above mode [] []) fun _ => 2) (.whnf (.ref 4) [] [] sample 1),
      Finishes [] [] (sampleForced, .val (.nat 7)) r :=
  exists_end (fun _ => Nat.le_refl 2) [] (.ref 4) sample Nat.one_pos (sample_whnf mode)

theorem sample_nf_run (mode : Mode Unit) :
    ∃ r ∈ eval (Run.next firstOf (.above mode [] []) fun _ => 2) (.nf (.ref 5) [] [] sample 1),
      Finishes [] [] (sampleNormal, .val (.ref 5)) r :=
  exists_end (fun _ => Nat.le_refl 2) [.nf] (.ref 5) sample Nat.one_pos (sample_nf mode)

/-- An executor that answers every request with zero. -/
def zeroes : Mode Unit := .executor fun _ s => (.nat 0, s)

theorem suspension_transparent_sample :
    ∃ r ∈ eval (Run.next firstOf (.above zeroes [] []) fun _ => 2) (.whnf (.ref 4) [] [] sample 1),
    ∃ r' ∈ eval (Run.next firstOf (.above zeroes [.nat 3] []) fun i => i + 2)
      (.whnf (.ref 4) [.nat 3] [] sample 9),
      r'.thread.ctl = r.thread.ctl ∧
      (r.thread.ctl ≠ .abort → r'.thread.sto = r.thread.sto ∧
        (r.thread.vstack, r.thread.frames) = ([], []) ∧
        (r'.thread.vstack, r'.thread.frames) = ([.nat 3], [])) := by
  obtain ⟨r, hr, -⟩ := sample_whnf_run zeroes
  exact ⟨r, hr, suspension_transparent (fun _ => Nat.le_refl 2) [] (.ref 4) sample Nat.one_pos
    (fun i => Nat.le_add_left 2 i) (by decide) [.nat 3] [] hr⟩

end Enki.Eval
