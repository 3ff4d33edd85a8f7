import Enki.Eval.Semantics
import Enki.Lib.Running

/-!
# Jobs on the machine

A job stands for states of the machine: a label, what lies on the stacks for it and, below
that, a context that the job leaves alone. From such a state the machine runs as `evalJob`
says: to a return of the value into the context, to an exception whose frames, once they are
unwound, leave the heap of the outcome, or to a failed check. Where `evalJob` says nothing
yet, the machine is not done either. How much fuel there is, and how often the thread yields
on the way, makes no difference.
-/

namespace Enki.Eval

open Running StateTransition

variable {W : Type} {ctx : Ctx W} {en : Entry W} {quantum : Nat → Nat}

/-! ## Frames and exceptions -/

/-- A frame that an exception passes without a trace. -/
def Frame.Plain : Frame → Prop
  | .update _ _ | .tryIn _ => False
  | _ => True

/-- No barrier catches this. -/
def Uncaught (e : Exn) (fs : List Frame) : Prop :=
  ∀ v, e = .value v → ∀ mark, Frame.tryIn mark ∉ fs

theorem unwindFrames_append (fs fs' : List Frame) (h : Heap) :
    unwindFrames (fs ++ fs') h = (unwindFrames fs h).bind (unwindFrames fs') := by
  induction fs generalizing h with
  | nil => rfl
  | cons f fs ih =>
    cases f with
    | update r expr =>
      simp only [List.cons_append, unwindFrames, Option.bind_assoc]
      exact congrArg _ (funext ih)
    | _ => exact ih h

theorem Frame.Plain.unwind {f : Frame} (hf : f.Plain) (h : Heap) : unwindFrames [f] h = some h := by
  cases f with
  | update _ _ => cases hf
  | _ => rfl

/-- The frames above a barrier do not matter for finding it. -/
theorem splitTry_append {above : List Frame} (fs : List Frame)
    (h : ∀ mark, Frame.tryIn mark ∉ above) :
    Thread.splitTry (above ++ fs) =
      (Thread.splitTry fs).map fun split => (above ++ split.1, split.2.1, split.2.2) := by
  induction above with
  | nil => simp
  | cons f above ih =>
    have hrest := ih fun mark hmem => h mark (List.mem_cons_of_mem _ hmem)
    cases f with
    | tryIn mark => exact absurd List.mem_cons_self (h mark)
    | _ => simp [Thread.splitTry, hrest, Function.comp_def]

/-! ## Where a job begins and ends -/

/-- The states that a job stands for, in a context of values and frames. -/
inductive Starts (S : List Val) (F : List Frame) : Job → Ctl → List Val → List Frame → Prop
  | whnf (v : Val) : Starts S F (.whnf v) (.eval v) S F
  | expr (env e : Val) : Starts S F (.expr env e) (.evalExpr env e) S F
  | deliver (k : Kont) (v : Val) : Starts S F (.deliver k v) (.ret v) S (k.frame S.length :: F)
  | applyn (v slot : Val) (args : List Val) :
    Starts S F (.applyn v args) (.ret v) (S ++ slot :: args)
      (.applyn (S.length + 1) args.length :: F)
  | enter (head : Val) (args : List Val) :
    Starts S F (.enter head args) (.fastApply S.length) (S ++ head :: args) F
  | scan (head : Val) (args : List Val) (node : Val) (binds : List Val) :
    Starts S F (.scan head args node binds) (.judgeScan S.length args.length)
      (S ++ head :: (args ++ node :: binds)) F
  | prim (op : Nat) (name : Val) (args : List Val) (k : Nat) :
    Starts S F (.prim op name args k) (.opArgs op (S.length + 1) args.length k)
      (S ++ name :: args) F
  | primNext (op : Nat) (name : Val) (args : List Val) (k : Nat) :
    Starts S F (.prim op name args k) .opargNext (S ++ name :: args)
      (.oparg op (S.length + 1) args.length k :: F)
  | deep (op : Nat) (name : Val) (args : List Val) (k : Nat) :
    Starts S F (.deep op name args k) .opdeepNext (S ++ name :: args)
      (.opdeep op (S.length + 1) args.length k :: F)
  | body (op : Nat) (name : Val) (args : List Val) :
    Starts S F (.body op name args) (.opBody op (S.length + 1) args.length) (S ++ name :: args) F
  | fields (v : Val) (k : Nat) : Starts S F (.fields v k) .nfField S (.nfobj v k :: F)

/-- An outcome, in a context. -/
def Ends (S : List Val) (F : List Frame) : Sto W × Res → Run W → Prop
  | (s, .val v), r => ∃ fuel, 0 < fuel ∧ r.thread = ⟨.ret v, S, F, s, fuel⟩
  | (s, .raise e), r => ∃ vs above h fuel, 0 < fuel ∧
      r.thread = ⟨.raised e, vs, above ++ F, s.setHeap h, fuel⟩ ∧ S <+: vs ∧
      Uncaught e above ∧ unwindFrames above h = some s.heap
  | (_, .abort), r => r.thread.ctl = .abort

/-- A thread and what it has been given. -/
abbrev Run.at (ctl : Ctl) (vs : List Val) (fs : List Frame) (s : Sto W) (fuel i : Nat) : Run W :=
  ⟨⟨ctl, vs, fs, s, fuel⟩, i⟩

variable (ctx en quantum)

/-- From everywhere a job starts, the machine does it. -/
def Does (n : Nat) (j : Job) : Prop :=
  ∀ (s : Sto W) (S : List Val) (F : List Frame) (ctl : Ctl) (vs : List Val) (fs : List Frame),
    Starts S F j ctl vs fs → en.base ≤ F.length → ∀ fuel i, 0 < fuel →
      Tracks (Run.next ctx en quantum) n (.at ctl vs fs s fuel i) (evalJob ctx en.mode n j s)
        (Ends S F)

variable {ctx en quantum}

/-- An exception ends a job that has pushed more. -/
theorem Ends.outer {S S' : List Val} {F : List Frame} {f : Frame} {s : Sto W} {e : Exn} {r : Run W}
    (hS : S <+: S') (hf : f.Plain) (h : Ends S' (f :: F) (s, .raise e) r) :
    Ends S F (s, .raise e) r := by
  obtain ⟨vs, above, hp, fuel, hfuel, hr, hvs, huncaught, hunwind⟩ := h
  refine ⟨vs, above ++ [f], hp, fuel, hfuel, ?_, hS.trans hvs, ?_, ?_⟩
  · rw [hr, List.append_assoc]
    rfl
  · intro v he mark hmem
    rcases List.mem_append.1 hmem with hmem | hmem
    · exact huncaught v he mark hmem
    · obtain rfl := List.mem_singleton.1 hmem
      exact hf
  · rw [unwindFrames_append, hunwind]
    exact hf.unwind _

/-- On with the value of a part that has pushed a frame. -/
theorem Tracks.andThen {n : Nat} {c : Run W} {o : Outcome W} {S S' : List Val} {F : List Frame}
    {f : Frame} {k : Sto W → Val → Outcome W} (hS : S <+: S') (hf : f.Plain)
    (h : Tracks (Run.next ctx en quantum) n c o (Ends S' (f :: F)))
    (hk : ∀ s v fuel i, 0 < fuel → Tracks (Run.next ctx en quantum) n
      (.at (.ret v) S' (f :: F) s fuel i) (k s v) (Ends S F)) :
    Tracks (Run.next ctx en quantum) n c (o.andThen k) (Ends S F) := by
  cases o with
  | none => exact h
  | some o =>
    obtain ⟨s, res⟩ := o
    obtain ⟨c', hreach, hends⟩ := h
    cases res with
    | val v =>
      obtain ⟨fuel, hfuel, hr⟩ := hends
      obtain ⟨t, i⟩ := c'
      cases hr
      exact (hk s v fuel i hfuel).of_reaches hreach
    | raise e => exact ⟨c', hreach, hends.outer hS hf⟩
    | abort => exact ⟨c', hreach, hends⟩

/-- A check of the machine and the same check of the semantics. -/
theorem Tracks.orAbort {n : Nat} {α : Type} {t : Thread W} {i : Nat} {s : Sto W} {o : Option α}
    {k : α → Thread W} {k' : α → Outcome W} {S : List Val} {F : List Frame}
    (hk : ∀ a, o = some a →
      Tracks (Run.next ctx en quantum) n ⟨k a, i⟩ (k' a) (Ends S F)) :
    Tracks (Run.next ctx en quantum) n ⟨t.orAbort o k, i⟩ (s.orAbort o k') (Ends S F) := by
  cases o with
  | none => exact Tracks.done rfl
  | some a => exact hk a rfl

/-! ## Evaluation and its safepoint -/

/-- After the safepoint, however the machine got past it. -/
theorem Tracks.eval {n : Nat} {v : Val} {S : List Val} {F : List Frame} {s : Sto W}
    {fuel i : Nat} {o : Outcome W} {E : Sto W × Res → Run W → Prop} (hq : ∀ i, 2 ≤ quantum i)
    (hfuel : 0 < fuel)
    (h : ∀ fuel i, 0 < fuel → Tracks (Run.next ctx en quantum) n
      ⟨(⟨.eval v, S, F, s, fuel⟩ : Thread W).evalVal v, i⟩ o E) :
    Tracks (Run.next ctx en quantum) (n + 1) (.at (.eval v) S F s fuel i) o E := by
  have hmore : ∀ fuel i, 1 < fuel → Tracks (Run.next ctx en quantum) (n + 1)
      (.at (.eval v) S F s fuel i) o E := by
    intro fuel i hlt
    have hone : ¬fuel = 1 := by omega
    have hstep : Run.next ctx en quantum (.at (.eval v) S F s fuel i) =
        some ⟨(⟨.eval v, S, F, s, fuel - 1⟩ : Thread W).evalVal v, i⟩ := by
      simp only [Run.next, Thread.step, Thread.eval, if_neg hone]
    exact Tracks.step hstep (h (fuel - 1) i (Nat.sub_pos_of_lt hlt))
  by_cases hone : fuel = 1
  · subst hone
    cases hmode : en.mode with
    | executor answer =>
      -- the thread yields, and goes on with its next quantum
      have hyield : Run.next ctx en quantum (.at (.eval v) S F s 1 i) =
          some (.at (.yielded v) S F s 0 i) := by
        simp only [Run.next, Thread.step, Thread.eval, hmode, if_true]
      have hnext : Run.next ctx en quantum (.at (.yielded v) S F s 0 i) =
          some (.at (.eval v) S F s (quantum i) (i + 1)) := rfl
      have hrest := hmore (quantum i) (i + 1) (hq i)
      exact Tracks.mono (Tracks.step hyield (Tracks.step hnext hrest)) (by omega)
    | host =>
      have hstep : Run.next ctx en quantum (.at (.eval v) S F s 1 i) =
          some ⟨(⟨.eval v, S, F, s, 2 ^ 64 - 1⟩ : Thread W).evalVal v, i⟩ := by
        simp only [Run.next, Thread.step, Thread.eval, hmode, if_true]
      exact Tracks.step hstep (h _ i (by decide))
    | nested =>
      have hstep : Run.next ctx en quantum (.at (.eval v) S F s 1 i) =
          some ⟨(⟨.eval v, S, F, s, 1⟩ : Thread W).evalVal v, i⟩ := by
        simp only [Run.next, Thread.step, Thread.eval, hmode, if_true]
      exact Tracks.step hstep (h 1 i (by decide))
  · exact hmore fuel i (by omega)


/-! ## Exceptions -/

theorem take_own (above : List Frame) {F : List Frame} {base : Nat} (hbase : base ≤ F.length) :
    (above ++ F).take ((above ++ F).length - base) = above ++ F.take (F.length - base) := by
  have hlen : (above ++ F).length - base = above.length + (F.length - base) := by
    rw [List.length_append]
    omega
  rw [hlen, List.take_length_add_append]

theorem drop_own (above : List Frame) {F : List Frame} {base : Nat} (hbase : base ≤ F.length) :
    (above ++ F).drop ((above ++ F).length - base) = F.drop (F.length - base) := by
  have hlen : (above ++ F).length - base = above.length + (F.length - base) := by
    rw [List.length_append]
    omega
  rw [hlen, List.drop_length_add_append]

/-- The topmost barrier catches a value. -/
theorem caught_barrier {t : Thread W} {v : Val} {above F : List Frame} {mark : Nat}
    (hbase : en.base ≤ F.length) (habove : ∀ mark, Frame.tryIn mark ∉ above)
    (hframes : t.frames = above ++ .tryIn mark :: F) :
    t.caught en (.value v) =
      t.orAbort (unwindFrames above t.sto.heap) fun h =>
        t.orAbort (h.mkAppFrom (.nat 1) [v]) fun hv =>
          { t.setHeap hv.1 with
            frames := F, vstack := t.vstack.take mark, ctl := .ret hv.2 } := by
  have hbase' : en.base ≤ (Frame.tryIn mark :: F).length := Nat.le_succ_of_le hbase
  have hlen : (Frame.tryIn mark :: F).length - en.base = (F.length - en.base) + 1 := by
    rw [List.length_cons]
    omega
  have hsplit : Thread.splitTry (t.frames.take (t.frames.length - en.base)) =
      some (above, mark, F.take (F.length - en.base)) := by
    rw [hframes, take_own above hbase', splitTry_append _ habove, hlen, List.take_succ_cons,
      Thread.splitTry]
    simp
  have houter : t.frames.drop (t.frames.length - en.base) = F.drop (F.length - en.base) := by
    rw [hframes, drop_own above hbase', hlen, List.drop_succ_cons]
  simp only [Thread.caught, hsplit, houter, List.take_append_drop]

/-- A thunk that cannot be restored fails a check, whatever catches the exception. -/
theorem caught_abort {t : Thread W} {e : Exn} {above F : List Frame} (hbase : en.base ≤ F.length)
    (habove : Uncaught e above) (hframes : t.frames = above ++ F)
    (hunwind : unwindFrames above t.sto.heap = none) : (t.caught en e).ctl = .abort := by
  have htake := take_own above hbase
  rw [← hframes] at htake
  have hall : unwindFrames (t.frames.take (t.frames.length - en.base)) t.sto.heap = none := by
    rw [htake, unwindFrames_append, hunwind]
    rfl
  cases e with
  | message msg => simp only [Thread.caught, hall, Thread.orAbort, Thread.abort]
  | value v =>
    have hsplit := splitTry_append (F.take (F.length - en.base)) (habove v rfl)
    rw [← htake] at hsplit
    cases hF : Thread.splitTry (F.take (F.length - en.base)) with
    | none =>
      rw [hF] at hsplit
      simp only [Thread.caught, hsplit, Option.map_none, hall, Thread.orAbort, Thread.abort]
    | some split =>
      rw [hF] at hsplit
      have hmore : unwindFrames (above ++ split.1) t.sto.heap = none := by
        rw [unwindFrames_append, hunwind]
        rfl
      simp only [Thread.caught, hsplit, Option.map_some, hmore, Thread.orAbort, Thread.abort]

/-! ## Continuations -/

/-- A value or an exception reaches the continuations it was evaluated under. -/
theorem Tracks.konts {n : Nat} (hdo : ∀ j, Does ctx en quantum n j) {S : List Val}
    {F : List Frame} (hbase : en.base ≤ F.length) (ks : List Kont) (s : Sto W) (res : Res)
    (r : Run W) (hends : Ends S (ks.map (Kont.frame S.length) ++ F) (s, res) r) :
    Tracks (Run.next ctx en quantum) n r (throughKonts (evalJob ctx en.mode n) ks s res)
      (Ends S F) := by
  induction ks generalizing s res r with
  | nil => exact Tracks.done hends
  | cons k ks ih =>
    have hbase' : en.base ≤ (ks.map (Kont.frame S.length) ++ F).length := by
      rw [List.length_append]
      omega
    cases res with
    | val v =>
      obtain ⟨fuel, hfuel, hr⟩ := hends
      obtain ⟨t, i⟩ := r
      cases hr
      have hrun := hdo (.deliver k v) s S _ _ _ _ (.deliver k v) hbase' fuel i hfuel
      rw [throughKonts_val]
      exact Tracks.bind hrun fun o b hb => ih o.1 o.2 b hb
    | abort =>
      rw [throughKonts_abort, ← throughKonts_abort _ ks]
      exact ih s .abort r hends
    | raise e =>
      obtain ⟨vs, above, h, fuel, hfuel, hr, hvs, huncaught, hunwind⟩ := hends
      obtain ⟨t, i⟩ := r
      cases hr
      by_cases hcatch : k = .tryIn ∧ ∃ v, e = .value v
      · obtain ⟨rfl, v, rfl⟩ := hcatch
        -- the barrier: its frames above are unwound, and the value stack is cut at its mark
        have hcaught := caught_barrier
          (t := ⟨.raised (.value v), vs, above ++ .tryIn S.length ::
            (ks.map (Kont.frame S.length) ++ F), s.setHeap h, fuel⟩)
          (v := v) hbase' (huncaught v rfl) rfl
        rw [show (Sto.setHeap s h).heap = h from rfl, hunwind, Thread.orAbort,
          List.prefix_iff_eq_take.1 hvs |>.symm] at hcaught
        refine Tracks.mono (Tracks.step (congrArg some (congrArg (Run.mk · i) hcaught)) ?_)
          (Nat.le_succ n)
        exact Tracks.orAbort fun hv _ => ih (s.setHeap hv.1) (.val hv.2) _ ⟨fuel, hfuel, rfl⟩
      · rw [throughKonts_raise _ hcatch]
        refine ih s (.raise e) _ ⟨vs, above ++ [k.frame S.length], h, fuel, hfuel, ?_, hvs, ?_, ?_⟩
        · rw [List.append_assoc]
          rfl
        · intro v he mark hmem
          rcases List.mem_append.1 hmem with hmem | hmem
          · exact huncaught v he mark hmem
          · cases k with
            | tryIn => exact hcatch ⟨rfl, v, he⟩
            | _ => exact absurd (List.mem_singleton.1 hmem) (by simp [Kont.frame])
        · rw [unwindFrames_append, hunwind]
          cases k <;> rfl

/-- Evaluation under continuations. -/
theorem Tracks.under {n : Nat} (hdo : ∀ j, Does ctx en quantum n j) (ks : List Kont) {v : Val}
    {s : Sto W} {S : List Val} {F : List Frame} {fuel i : Nat} (hbase : en.base ≤ F.length)
    (hfuel : 0 < fuel) :
    Tracks (Run.next ctx en quantum) n
      (.at (.eval v) S (ks.map (Kont.frame S.length) ++ F) s fuel i)
      (under (evalJob ctx en.mode n) v ks s) (Ends S F) := by
  have hbase' : en.base ≤ (ks.map (Kont.frame S.length) ++ F).length := by
    rw [List.length_append]
    omega
  exact Tracks.bind (hdo (.whnf v) s S _ _ _ _ (.whnf v) hbase' fuel i hfuel)
    fun o b hb => Tracks.konts hdo hbase ks o.1 o.2 b hb

end Enki.Eval
