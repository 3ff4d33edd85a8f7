import Enki.Ops
import Mathlib.Logic.Function.Basic
import Mathlib.Logic.Relation

/-!
# The Memo barrier

`(Memo f x)` of two hashed pins is served from a table shared by all threads
(`op_memo`), and a miss runs the application beneath an `F_MEMO` frame that
remembers the thread's effect epoch; `ret_memo` records a result only if the
epoch has not moved. The epoch is bumped by `op_body_ready` for every op-82 and
op-83 body, and by `Trace`, `Save` and `Ice` themselves. `Install` and `Compile`
change the store as well, and bump nothing.

The evaluator beneath the barrier is a parameter: a deterministic system whose
only contact with the outside is to run the bodies of `effectful` primops. A
thread drives it with explicit frames, so that yields, nested barriers, caught
exceptions and unwinding are steps of their own.
-/

namespace Enki.Memo

/-- The op-66 primops whose body bumps the epoch itself. -/
def bumpNames : List Nat := [OpDesc.mote "Trace", OpDesc.mote "Save", OpDesc.mote "Ice"]

/-- The op-66 primops that change the store and bump nothing. -/
def quietNames : List Nat := [OpDesc.mote "Install", OpDesc.mote "Compile"]

/-- Does running the body of this primop bump the effect epoch? -/
def bumps (op : Nat) : Bool :=
  decide ((plOp op).opset ≥ 82) || (plOp op).opset == 66 && bumpNames.contains (plOp op).name

/-- Does it change the store without bumping the epoch? -/
def quiet (op : Nat) : Bool := (plOp op).opset == 66 && quietNames.contains (plOp op).name

/-- The bodies that change store or host state. -/
def effectful (op : Nat) : Bool := bumps op || quiet op

/-- What a configuration of the evaluator does next. -/
inductive Act (C V E H : Type) where
  | step (c : C)
  /-- Run the body of a primop and continue with what it returns. -/
  | body (op : Nat) (k : V → C)
  /-- Evaluate under a frame. -/
  | force (c : C) (k : V → C)
  /-- `Try` -/
  | tryIn (c : C) (k : V ⊕ E → C)
  /-- `Memo` of two hashed pins. -/
  | memo (f x : H) (k : V → C)
  | done (v : V)
  /-- Raise; runtime errors are not caught by `Try`. -/
  | throw (catchable : Bool) (e : E)

/-- The evaluator. Every primop that is not effectful computes on values only,
and is part of its steps. -/
structure Evaluator (C V E H : Type) where
  next : C → Act C V E H
  /-- The application of the pins with these hashes. -/
  apply : H → H → C
  isNat63 : V → Bool
  body_effectful : ∀ {c op k}, next c = .body op k → effectful op

/-- How an evaluation ends. -/
inductive Result (V E : Type) where
  | val (v : V)
  | exn (catchable : Bool) (e : E)

/-- What a thread is doing. -/
inductive Ctl (C V E : Type) where
  | run (c : C)
  /-- A body is under way: the thread may be blocked, or in the host. -/
  | wait (k : V → C)
  | ret (v : V)
  | raise (catchable : Bool) (e : E)
  /-- Between two runs. -/
  | idle

/-- `pl_frame`, as far as the barrier is concerned: the frames that evaluate on,
the exception barriers, and `F_MEMO` with the epoch at its push. The `mark` is
the number of bodies the thread had run by then. -/
inductive Frame (C V E H : Type) where
  | cont (k : V → C)
  | tryF (k : V ⊕ E → C)
  | memo (f x : H) (epoch mark : Nat)

/-- Deliver a value to a frame, or unwind an exception to it. -/
def Frame.resume {C V E H : Type} : Frame C V E H → Result V E → Ctl C V E
  | .cont k, .val v => .run (k v)
  | .tryF k, .val v => .run (k (.inl v))
  | .tryF k, .exn true e => .run (k (.inr e))
  | .memo .., .val v => .ret v
  | _, .exn b e => .raise b e

section Semantics

variable {C V E H : Type} (M : Evaluator C V E H)

/-- An evaluation that never looks at the table, with the bodies it runs. A body
may return any value, or raise. -/
inductive Evals : Ctl C V E → List Nat → Result V E → Prop where
  | ret {v} : Evals (.ret v) [] (.val v)
  | raise {b e} : Evals (.raise b e) [] (.exn b e)
  | wait {k es r} (v : V) : Evals (.run (k v)) es r → Evals (.wait k) es r
  | waitExn {k} (b : Bool) (e : E) : Evals (.wait k) [] (.exn b e)
  | step {c c' es r} : M.next c = .step c' → Evals (.run c') es r → Evals (.run c) es r
  | done {c v} : M.next c = .done v → Evals (.run c) [] (.val v)
  | throw {c b e} : M.next c = .throw b e → Evals (.run c) [] (.exn b e)
  | body {c op k es r} : M.next c = .body op k → Evals (.wait k) es r →
      Evals (.run c) (op :: es) r
  | force {c c' k es es' r r'} : M.next c = .force c' k → Evals (.run c') es r →
      Evals ((Frame.cont k : Frame C V E H).resume r) es' r' → Evals (.run c) (es ++ es') r'
  | tryIn {c c' k es es' r r'} : M.next c = .tryIn c' k → Evals (.run c') es r →
      Evals ((Frame.tryF k : Frame C V E H).resume r) es' r' → Evals (.run c) (es ++ es') r'
  | memo {c f x k es es' r r'} : M.next c = .memo f x k → Evals (.run (M.apply f x)) es r →
      Evals ((Frame.cont k : Frame C V E H).resume r) es' r' → Evals (.run c) (es ++ es') r'

variable {M}

theorem Frame.resume_ne_wait (fr : Frame C V E H) (r : Result V E) (k : V → C) :
    fr.resume r ≠ .wait k := by
  cases fr with
  | tryF => cases r with
    | val => simp [Frame.resume]
    | exn b => cases b <;> simp [Frame.resume]
  | _ => cases r <;> simp [Frame.resume]

/-- An evaluation that runs no body is the only one. -/
theorem Evals.unique {ctl : Ctl C V E} {r r' : Result V E} {es es' : List Nat}
    (h : Evals M ctl es r) (hes : es = []) (hw : ∀ k, ctl ≠ .wait k) (h' : Evals M ctl es' r') :
    es' = [] ∧ r' = r := by
  induction h generalizing es' r' with
  | ret => cases h'; exact ⟨rfl, rfl⟩
  | raise => cases h'; exact ⟨rfl, rfl⟩
  | wait | waitExn => exact absurd rfl (hw _)
  | body => cases hes
  | step hn _ ih => cases h' <;> grind
  | done hn => cases h' <;> grind
  | throw hn => cases h' <;> grind
  | force hn h1 h2 ih1 ih2 | tryIn hn h1 h2 ih1 ih2 | memo hn h1 h2 ih1 ih2 =>
    obtain ⟨rfl, rfl⟩ := List.append_eq_nil_iff.mp hes
    cases h' <;> grind [Frame.resume_ne_wait]

end Semantics

/-! ## Threads -/

/-- A thread: its control, its frames (the top one first), its effect epoch and
the bodies it has run. -/
structure Thread (C V E H : Type) where
  ctl : Ctl C V E
  frames : List (Frame C V E H)
  epoch : Nat
  log : List Nat

/-- The epochs of the `F_MEMO` frames on a stack. -/
def Frame.epochs {C V E H : Type} (fs : List (Frame C V E H)) : List Nat :=
  fs.filterMap fun
    | .memo _ _ epoch _ => some epoch
    | _ => none

/-- `effect_epoch++` -/
def bump (epoch : Nat) : Nat := (epoch + 1) % 2 ^ 64

/-- The table: every result recorded for a pair of hashes. The in-process map
keeps the first and the persistent layer the last one. -/
abbrev Table (V H : Type) := List ((H × H) × V)

/-- `ret_memo` records a result if it is a nat63 and the epoch has not moved. -/
def recorded {C V E H : Type} (M : Evaluator C V E H) (t : Thread C V E H) :
    Frame C V E H → V → Table V H
  | .memo f x epoch _, v => if M.isNat63 v && epoch == t.epoch then [((f, x), v)] else []
  | _, _ => []

section Machine

variable {C V E H : Type} (M : Evaluator C V E H)

/-- A step of one thread, with what it adds to the table. A yield is no step at
all, and a resumption goes on from the same state. -/
inductive Step (tab : Table V H) : Thread C V E H → Table V H → Thread C V E H → Prop where
  | start {t} (c : C) : t.ctl = .idle → t.frames = [] →
      Step tab t [] { t with ctl := .run c }
  /-- The run ends, or the executor drops it: the stack is unwound. -/
  | abandon {t} : Step tab t [] { t with ctl := .idle, frames := [] }
  | step {t c c'} : t.ctl = .run c → M.next c = .step c' →
      Step tab t [] { t with ctl := .run c' }
  | force {t c c' k} : t.ctl = .run c → M.next c = .force c' k →
      Step tab t [] { t with ctl := .run c', frames := .cont k :: t.frames }
  | tryIn {t c c' k} : t.ctl = .run c → M.next c = .tryIn c' k →
      Step tab t [] { t with ctl := .run c', frames := .tryF k :: t.frames }
  | memoHit {t c f x k v} : t.ctl = .run c → M.next c = .memo f x k → ((f, x), v) ∈ tab →
      Step tab t [] { t with ctl := .run (k v) }
  | memoMiss {t c f x k} : t.ctl = .run c → M.next c = .memo f x k →
      Step tab t [] { t with
        ctl := .run (M.apply f x)
        frames := .memo f x t.epoch t.log.length :: .cont k :: t.frames }
  | body {t c op k} : t.ctl = .run c → M.next c = .body op k →
      Step tab t [] { t with
        ctl := .wait k
        epoch := if bumps op then bump t.epoch else t.epoch
        log := t.log ++ [op] }
  | respond {t k} (v : V) : t.ctl = .wait k → Step tab t [] { t with ctl := .run (k v) }
  | fail {t} {k : V → C} (b : Bool) (e : E) : t.ctl = .wait k →
      Step tab t [] { t with ctl := .raise b e }
  | done {t c v} : t.ctl = .run c → M.next c = .done v → Step tab t [] { t with ctl := .ret v }
  | throw {t c b e} : t.ctl = .run c → M.next c = .throw b e →
      Step tab t [] { t with ctl := .raise b e }
  | deliver {t v fr fs} : t.ctl = .ret v → t.frames = fr :: fs →
      Step tab t (recorded M t fr v) { t with ctl := fr.resume (.val v), frames := fs }
  | unwind {t b e fr fs} : t.ctl = .raise b e → t.frames = fr :: fs →
      Step tab t [] { t with ctl := fr.resume (.exn b e), frames := fs }

/-- The threads of a machine and the table they share. -/
structure World (T C V E H : Type) where
  table : Table V H
  threads : T → Thread C V E H

/-- Every thread idle and nothing recorded. -/
def World.Fresh {T : Type} (w : World T C V E H) : Prop :=
  w.table = [] ∧ ∀ i, (w.threads i).ctl = .idle ∧ (w.threads i).frames = []

/-- What a step must respect for the barrier to hold: a body that bumps nothing
runs under no `F_MEMO` frame, and no bump brings back the epoch of a frame. -/
def Careful (t : Thread C V E H) : Prop :=
  ∀ c op k, t.ctl = .run c → M.next c = .body op k →
    (bumps op = false → Frame.epochs t.frames = []) ∧
    (bumps op = true → bump t.epoch ∉ Frame.epochs t.frames)

variable {T : Type} [DecidableEq T]

/-- One thread steps. -/
inductive World.Step : World T C V E H → World T C V E H → Prop where
  | mk {w : World T C V E H} (i : T) {new : Table V H} {t' : Thread C V E H} :
      Memo.Step M w.table (w.threads i) new t' →
      World.Step w ⟨w.table ++ new, Function.update w.threads i t'⟩

/-- One thread steps, with care. -/
inductive World.CarefulStep : World T C V E H → World T C V E H → Prop where
  | mk {w : World T C V E H} (i : T) {new : Table V H} {t' : Thread C V E H} :
      Careful M (w.threads i) → Memo.Step M w.table (w.threads i) new t' →
      World.CarefulStep w ⟨w.table ++ new, Function.update w.threads i t'⟩

end Machine

/-! ## The invariant -/

section Invariant

variable {C V E H T : Type} {M : Evaluator C V E H}

/-- A control and the frames above some point of a stack evaluate, running no body,
to a result that arrives at that point. -/
def StackEvals (M : Evaluator C V E H) : Ctl C V E → List (Frame C V E H) → Result V E → Prop
  | ctl, [], r => Evals M ctl [] r
  | ctl, fr :: fs, r => ∃ r', Evals M ctl [] r' ∧ StackEvals M (fr.resume r') fs r

/-- What evaluates at the top of a stack may be replaced by what evaluates to it. -/
theorem StackEvals.mono {ctl ctl' : Ctl C V E} (h : ∀ r, Evals M ctl' [] r → Evals M ctl [] r)
    {fs : List (Frame C V E H)} {r : Result V E} (hs : StackEvals M ctl' fs r) :
    StackEvals M ctl fs r := by
  cases fs with
  | nil => exact h r hs
  | cons fr fs =>
    obtain ⟨r', h1, h2⟩ := hs
    exact ⟨r', h r' h1, h2⟩

/-- Undo the push of a frame: it is enough that the control evaluates as the two
together do. -/
theorem StackEvals.of_push {ctl ctl' : Ctl C V E} {fr : Frame C V E H}
    (h : ∀ r r', Evals M ctl' [] r → Evals M (fr.resume r) [] r' → Evals M ctl [] r')
    {fs : List (Frame C V E H)} {r : Result V E} (hs : StackEvals M ctl' (fr :: fs) r) :
    StackEvals M ctl fs r := by
  obtain ⟨r', h1, h2⟩ := hs
  exact StackEvals.mono (fun r'' h3 => h r' r'' h1 h3) h2

/-- The entries of the table are results that an evaluation without it gives,
running no body. -/
def TableSound (M : Evaluator C V E H) (tab : Table V H) : Prop :=
  ∀ f x v, ((f, x), v) ∈ tab → Evals M (.run (M.apply f x)) [] (.val v)

/-- While the epoch is that of an `F_MEMO` frame, the thread has run no body since
its push, and what it computes above the frame is the application of the frame. -/
def Clean (M : Evaluator C V E H) (t : Thread C V E H) : Prop :=
  ∀ above f x mark below, t.frames = above ++ .memo f x t.epoch mark :: below →
    mark = t.log.length ∧
    ∀ r, StackEvals M t.ctl above r → Evals M (.run (M.apply f x)) [] r

variable {t t' : Thread C V E H} {tab new : Table V H}

theorem Clean.ctl (h : Clean M t) {ctl' : Ctl C V E}
    (hc : ∀ r, Evals M ctl' [] r → Evals M t.ctl [] r) : Clean M { t with ctl := ctl' } := by
  intro above f x mark below hfs
  obtain ⟨hmark, hev⟩ := h above f x mark below hfs
  exact ⟨hmark, fun r hr => hev r (hr.mono hc)⟩

theorem Clean.push (h : Clean M t) {ctl' : Ctl C V E} {fr : Frame C V E H}
    (hc : ∀ r r', Evals M ctl' [] r → Evals M (fr.resume r) [] r' → Evals M t.ctl [] r')
    (hfr : ∀ f x mark, fr = .memo f x t.epoch mark →
      mark = t.log.length ∧ ∀ r, Evals M ctl' [] r → Evals M (.run (M.apply f x)) [] r) :
    Clean M { t with ctl := ctl', frames := fr :: t.frames } := by
  intro above f x mark below hfs
  cases above with
  | nil =>
    obtain ⟨hfs, -⟩ := List.cons_eq_cons.mp hfs
    exact hfr f x mark hfs
  | cons fr' above =>
    obtain ⟨rfl, hrest⟩ := List.cons_eq_cons.mp hfs
    obtain ⟨hmark, hev⟩ := h above f x mark below hrest
    exact ⟨hmark, fun r hr => hev r (hr.of_push hc)⟩

theorem Clean.pop (h : Clean M t) {fr : Frame C V E H} {fs : List (Frame C V E H)}
    {r : Result V E} (hfs : t.frames = fr :: fs) (hr : Evals M t.ctl [] r) :
    Clean M { t with ctl := fr.resume r, frames := fs } := by
  intro above f x mark below hfs'
  obtain ⟨hmark, hev⟩ := h (fr :: above) f x mark below (hfs.trans (congrArg _ hfs'))
  exact ⟨hmark, fun r' hr' => hev r' ⟨r, hr, hr'⟩⟩

theorem epoch_mem_epochs {above below : List (Frame C V E H)} {f x : H} {epoch mark : Nat} :
    epoch ∈ Frame.epochs (above ++ .memo f x epoch mark :: below) := by
  simp [Frame.epochs]

/-- A body leaves no frame with the epoch of the thread. -/
theorem Clean.body {c : C} {op : Nat} {k : V → C} (hcare : Careful M t) (hctl : t.ctl = .run c)
    (hn : M.next c = .body op k) :
    Clean M { t with
      ctl := .wait k
      epoch := if bumps op then bump t.epoch else t.epoch
      log := t.log ++ [op] } := by
  intro above f x mark below hfs
  obtain ⟨hquiet, hbump⟩ := hcare c op k hctl hn
  dsimp only at hfs
  exfalso
  cases hb : bumps op with
  | true =>
    apply hbump hb
    rw [hfs, hb]
    exact epoch_mem_epochs
  | false =>
    have := hquiet hb
    rw [hfs, hb] at this
    exact List.ne_nil_of_mem epoch_mem_epochs this

/-- The frame the thread returns to has seen no body, and its application evaluates
to the value returned. -/
theorem Clean.returns (h : Clean M t) {f x : H} {mark : Nat} {fs : List (Frame C V E H)} {v : V}
    (hctl : t.ctl = .ret v) (hfs : t.frames = .memo f x t.epoch mark :: fs) :
    mark = t.log.length ∧ Evals M (.run (M.apply f x)) [] (.val v) := by
  obtain ⟨hmark, hev⟩ := h [] f x mark fs hfs
  refine ⟨hmark, hev _ ?_⟩
  rw [hctl]
  exact Evals.ret

/-- A step of a thread keeps the invariant, and records results that are sound. -/
theorem Step.clean (hs : Step M tab t new t') (hcare : Careful M t) (htab : TableSound M tab)
    (h : Clean M t) : Clean M t' ∧ TableSound M new := by
  have hnil : TableSound M ([] : Table V H) := fun f x v hm => by cases hm
  cases hs with
  | start c hctl hfs =>
    refine ⟨fun above f x mark below hfs' => ?_, hnil⟩
    simp [hfs] at hfs'
  | abandon =>
    refine ⟨fun above f x mark below hfs' => ?_, hnil⟩
    simp at hfs'
  | step hctl hn => exact ⟨h.ctl fun r hr => hctl ▸ .step hn hr, hnil⟩
  | force hctl hn =>
    refine ⟨h.push (fun r r' hr hr' => hctl ▸ .force hn hr hr') ?_, hnil⟩
    intro f x mark hfr
    cases hfr
  | tryIn hctl hn =>
    refine ⟨h.push (fun r r' hr hr' => hctl ▸ .tryIn hn hr hr') ?_, hnil⟩
    intro f x mark hfr
    cases hfr
  | memoHit hctl hn hm =>
    -- without the table the application runs, and gives the recorded value
    exact ⟨h.ctl fun r hr => hctl ▸ .memo hn (htab _ _ _ hm) hr, hnil⟩
  | @memoMiss c f x k hctl hn =>
    have hcont : Clean M { t with ctl := .run (M.apply f x), frames := .cont k :: t.frames } := by
      refine h.push (fun r r' hr hr' => hctl ▸ .memo hn hr hr') ?_
      intro f x mark hfr
      cases hfr
    refine ⟨hcont.push ?_ ?_, hnil⟩
    · intro r r' hr hr'
      cases r <;> cases hr' <;> exact hr
    · intro f' x' mark hfr
      cases hfr
      exact ⟨rfl, fun r hr => hr⟩
  | body hctl hn => exact ⟨.body hcare hctl hn, hnil⟩
  | respond v hctl => exact ⟨h.ctl fun r hr => hctl ▸ .wait v hr, hnil⟩
  | fail b e hctl =>
    refine ⟨h.ctl fun r hr => ?_, hnil⟩
    cases hr
    exact hctl ▸ .waitExn b e
  | done hctl hn =>
    refine ⟨h.ctl fun r hr => ?_, hnil⟩
    cases hr
    exact hctl ▸ .done hn
  | throw hctl hn =>
    refine ⟨h.ctl fun r hr => ?_, hnil⟩
    cases hr
    exact hctl ▸ .throw hn
  | @deliver v fr fs hctl hfs =>
    refine ⟨h.pop hfs (hctl ▸ .ret), ?_⟩
    intro f x v' hm
    cases fr with
    | memo f' x' epoch mark =>
      simp only [recorded] at hm
      split at hm
      · rename_i hrec
        simp only [Bool.and_eq_true, beq_iff_eq] at hrec
        obtain ⟨-, rfl⟩ := hrec
        simp only [List.mem_singleton, Prod.mk.injEq] at hm
        obtain ⟨⟨rfl, rfl⟩, rfl⟩ := hm
        exact (h.returns hctl hfs).2
      · cases hm
    | _ => cases hm
  | unwind hctl hfs => exact ⟨h.pop hfs (hctl ▸ .raise), hnil⟩

/-- The whole invariant. -/
def World.Sound (M : Evaluator C V E H) (w : World T C V E H) : Prop :=
  TableSound M w.table ∧ ∀ i, Clean M (w.threads i)

theorem World.Fresh.sound {w : World T C V E H} (h : w.Fresh) : w.Sound M := by
  refine ⟨fun f x v hm => ?_, fun i above f x mark below hfs => ?_⟩
  · rw [h.1] at hm
    cases hm
  · rw [(h.2 i).2] at hfs
    simp at hfs

theorem World.CarefulStep.sound [DecidableEq T] {w w' : World T C V E H} (hs : World.CarefulStep M w w')
    (h : w.Sound M) : w'.Sound M := by
  cases hs with
  | mk i hcare hs =>
    obtain ⟨hclean, hnew⟩ := hs.clean hcare h.1 (h.2 i)
    refine ⟨fun f x v hm => ?_, fun j => ?_⟩
    · rcases List.mem_append.mp hm with hm | hm
      · exact h.1 f x v hm
      · exact hnew f x v hm
    · rcases eq_or_ne j i with rfl | hj
      · simpa using hclean
      · simpa [hj] using h.2 j

theorem careful_sound [DecidableEq T] {w w' : World T C V E H} (hw : w.Fresh)
    (hrun : Relation.ReflTransGen (World.CarefulStep M) w w') : w'.Sound M := by
  induction hrun with
  | refl => exact hw.sound
  | tail _ hs ih => exact hs.sound ih

/-- Memo skips work, never effects: where `ret_memo` is about to record, no body has
run since the push of its frame; and a value in the table is what an evaluation
that never looks at it returns, running no body. -/
structure Barrier (M : Evaluator C V E H) (w : World T C V E H) : Prop where
  records : ∀ i v f x epoch mark fs, (w.threads i).ctl = .ret v →
    (w.threads i).frames = .memo f x epoch mark :: fs →
    recorded M (w.threads i) (.memo f x epoch mark) v ≠ [] → (w.threads i).log.drop mark = []
  hits : ∀ f x v, ((f, x), v) ∈ w.table → Evals M (.run (M.apply f x)) [] (.val v) ∧
    ∀ es r, Evals M (.run (M.apply f x)) es r → es = [] ∧ r = .val v

theorem World.Sound.barrier {w : World T C V E H} (h : w.Sound M) : Barrier M w := by
  constructor
  · intro i v f x epoch mark fs hctl hfs hrec
    have hepoch : epoch = (w.threads i).epoch := by
      by_contra hne
      simp [recorded, hne] at hrec
    obtain ⟨hmark, -⟩ := (h.2 i).returns hctl (hepoch ▸ hfs)
    rw [hmark, List.drop_length]
  · intro f x v hm
    have hev := h.1 f x v hm
    exact ⟨hev, fun es r hr => hev.unique rfl (fun k => nofun) hr⟩

/-- On every run of any number of threads in which no `Install` or `Compile` body
runs under a barrier, the barrier holds. -/
theorem memo_skips_no_effects [DecidableEq T] {w w' : World T C V E H} (hw : w.Fresh)
    (hrun : Relation.ReflTransGen (World.CarefulStep M) w w') : Barrier M w' :=
  (careful_sound hw hrun).barrier

end Invariant

/-! ## A barrier that `Compile` crosses -/

/-- The application runs the body of one primop, if any, and returns 1. -/
def oneBody (op : Option Nat) (h : ∀ o ∈ op, effectful o) : Evaluator Nat Nat Unit Unit where
  next
    | 0 => .memo () () fun _ => 3
    | 1 => match op with
      | some op => .body op fun _ => 2
      | none => .step 2
    | 2 => .done 1
    | _ => .done 0
  apply _ _ := 1
  isNat63 v := v < 2 ^ 63
  body_effectful := by
    intro c o k hn
    split at hn
    · cases hn
    · cases op with
      | none => cases hn
      | some op =>
        cases hn
        exact h _ rfl
    · cases hn
    · cases hn

/-- A machine of one thread. -/
def solo (tab : Table Nat Unit) (t : Thread Nat Nat Unit Unit) : World Unit Nat Nat Unit Unit :=
  ⟨tab, fun _ => t⟩

theorem solo_update (t t' : Thread Nat Nat Unit Unit) :
    Function.update (fun _ : Unit => t) () t' = fun _ => t' := by
  funext i
  simp

theorem solo_step {M : Evaluator Nat Nat Unit Unit} {tab new : Table Nat Unit}
    {t t' : Thread Nat Nat Unit Unit} (h : Step M tab t new t') :
    World.Step M (solo tab t) (solo (tab ++ new) t') := by
  have hs := World.Step.mk (w := solo tab t) () h
  simpa only [solo, solo_update] using hs

theorem solo_careful {M : Evaluator Nat Nat Unit Unit} {tab new : Table Nat Unit}
    {t t' : Thread Nat Nat Unit Unit} (hc : Careful M t) (h : Step M tab t new t') :
    World.CarefulStep M (solo tab t) (solo (tab ++ new) t') := by
  have hs := World.CarefulStep.mk (w := solo tab t) () hc h
  simpa only [solo, solo_update] using hs

/-- The machine of one thread that has run nothing. -/
def fresh : World Unit Nat Nat Unit Unit := solo [] ⟨.idle, [], 0, []⟩

theorem fresh_fresh : fresh.Fresh := ⟨rfl, fun _ => ⟨rfl, rfl⟩⟩

/-- Without a body the application is recorded, and the barrier holds. -/
theorem pure_memo_recorded : ∃ w', Relation.ReflTransGen
    (World.CarefulStep (oneBody none nofun)) fresh w' ∧ (((), ()), 1) ∈ w'.table ∧
    Barrier (oneBody none nofun) w' := by
  have hrun : Relation.ReflTransGen (World.CarefulStep (oneBody none nofun)) fresh
      (solo [(((), ()), 1)] ⟨.ret 1, [.cont fun _ => 3], 0, []⟩) := by
    have hcare : ∀ t, Careful (oneBody none nofun) t := by
      intro t c op k _ hn
      simp only [oneBody] at hn
      split at hn <;> cases hn
    refine .head (solo_careful (hcare _) (.start 0 rfl rfl)) ?_
    refine .head (solo_careful (hcare _) (.memoMiss rfl rfl)) ?_
    refine .head (solo_careful (hcare _) (.step rfl rfl)) ?_
    refine .head (solo_careful (hcare _) (.done rfl rfl)) ?_
    refine .head (solo_careful (hcare _) (.deliver rfl rfl)) ?_
    exact .refl
  exact ⟨_, hrun, List.mem_singleton.mpr rfl, memo_skips_no_effects fresh_fresh hrun⟩

/-- `Compile` runs under the barrier, and its result is recorded all the same: a
later hit returns 1 and compiles nothing. -/
theorem compile_recorded : ∃ w w', Relation.ReflTransGen
    (World.Step (oneBody (some 104) (by decide))) fresh w ∧
    World.Step (oneBody (some 104) (by decide)) w w' ∧ (((), ()), 1) ∈ w'.table ∧
    ¬ Barrier (oneBody (some 104) (by decide)) w ∧
    ¬ Barrier (oneBody (some 104) (by decide)) w' := by
  refine ⟨solo [] ⟨.ret 1, [.memo () () 0 0, .cont fun _ => 3], 0, [104]⟩,
    _, ?_, solo_step (.deliver rfl rfl), ?_, ?_, ?_⟩
  · refine .head (solo_step (.start 0 rfl rfl)) ?_
    refine .head (solo_step (.memoMiss rfl rfl)) ?_
    refine .head (solo_step (.body rfl rfl)) ?_
    refine .head (solo_step (.respond 1 rfl)) ?_
    refine .head (solo_step (.done rfl rfl)) ?_
    exact .refl
  · exact List.mem_singleton.mpr rfl
  · intro h
    have hrec := h.records () 1 () () 0 0 _ rfl rfl (by decide)
    cases hrec
  · intro h
    obtain ⟨-, honly⟩ := h.hits () () 1 (List.mem_singleton.mpr rfl)
    have hrun := honly [104] (.val 1) (.body rfl (.wait 1 (.done rfl)))
    cases hrun.1

end Enki.Memo
