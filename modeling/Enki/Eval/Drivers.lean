import Enki.Eval.Entries

/-!
# Drivers

An evaluation meets whoever drives the machine only where it makes a request. A C entry below
an executor fails a check there, so an evaluation that it finishes made no request, and ends
alike under an executor, whatever that would have answered, and outside of one.
-/

namespace Enki.Eval

open StateTransition

variable {W : Type}

/-- Where one outcome is a value or an exception, so is the other. -/
def Outcome.Settles (o o' : Outcome W) : Prop :=
  ∀ s res, o = some (s, res) → res ≠ .abort → o' = some (s, res)

namespace Outcome.Settles

variable {o o' : Outcome W}

/-- An outcome settles itself. -/
theorem refl (o : Outcome W) : o.Settles o := fun _ _ h _ => h

/-- A failed check settles nothing. -/
theorem abort (s : Sto W) (o' : Outcome W) : Outcome.Settles (some (s, .abort)) o' := by
  intro s' res h hres
  cases h
  exact absurd rfl hres

/-- What both read from the heap they read alike. -/
theorem orAbort {α : Type} (s : Sto W) (a : Option α) {k k' : α → Outcome W}
    (h : ∀ a, (k a).Settles (k' a)) : Outcome.Settles (s.orAbort a k) (s.orAbort a k') := by
  cases a with
  | none => exact refl _
  | some a => exact h a

/-- A step that leaves a failed check alone. -/
theorem bind (h : o.Settles o') {k k' : Sto W × Res → Outcome W}
    (hk : ∀ p, (k p).Settles (k' p)) (habort : ∀ s, k (s, .abort) = some (s, .abort)) :
    Outcome.Settles (o.bind k) (o'.bind k') := by
  intro s res hres hne
  rcases o with _ | ⟨s₁, res₁⟩
  · cases hres
  · by_cases hres₁ : res₁ = .abort
    · subst hres₁
      rw [Option.bind_some, habort] at hres
      cases hres
      exact absurd rfl hne
    · rw [h s₁ res₁ rfl hres₁]
      exact hk (s₁, res₁) s res hres hne

/-- Values are passed on, exceptions and failed checks are not. -/
theorem andThen (h : o.Settles o') {k k' : Sto W → Val → Outcome W}
    (hk : ∀ s v, (k s v).Settles (k' s v)) : (o.andThen k).Settles (o'.andThen k') := by
  intro s res hres hne
  rcases o with _ | ⟨s₁, v | e | _⟩
  · cases hres
  · rw [h s₁ (.val v) rfl (by simp)]
    exact hk s₁ v s res hres hne
  · rw [h s₁ (.raise e) rfl (by simp)]
    exact hres
  · cases hres
    exact absurd rfl hne

end Outcome.Settles

section

variable {rec rec' : Job → Sto W → Outcome W} (hrec : ∀ j s, (rec j s).Settles (rec' j s))
include hrec

/-- The continuations of a C entry, from the innermost on. By induction on the stack. -/
theorem throughKonts_settles (ks : List Kont) (s : Sto W) (res : Res) :
    (throughKonts rec ks s res).Settles (throughKonts rec' ks s res) := by
  induction ks generalizing s res with
  | nil => exact .refl _
  | cons k ks ih =>
    cases res with
    | val v =>
      rw [throughKonts_val, throughKonts_val]
      exact .bind (hrec _ s) (fun p => ih p.1 p.2) fun s => throughKonts_abort _ ks s
    | abort =>
      rw [throughKonts_abort]
      exact .abort s _
    | raise e =>
      -- a handler is what it was, and anything else is unwound
      by_cases hcatch : k = .tryIn ∧ ∃ v, e = .value v
      · obtain ⟨rfl, v, rfl⟩ := hcatch
        exact .orAbort s _ fun hv => ih _ _
      · rw [throughKonts_raise _ hcatch, throughKonts_raise _ hcatch]
        exact ih s (.raise e)

/-- A job, and then the continuations under it. -/
theorem under_settles (v : Val) (ks : List Kont) (s : Sto W) :
    (under rec v ks s).Settles (under rec' v ks s) :=
  .bind (hrec _ s) (fun p => throughKonts_settles hrec ks p.1 p.2) fun s => throughKonts_abort _ ks s

theorem evalWhnf_settles (v : Val) (s : Sto W) :
    (evalWhnf rec v s).Settles (evalWhnf rec' v s) := by
  unfold evalWhnf
  split
  · exact .refl _
  · split
    · exact hrec _ s
    · exact .refl _
    · exact .bind (hrec _ _) (fun p => .refl _) fun s => rfl
    · exact .refl _
    · exact .refl _

theorem evalExpr_settles (env expr : Val) (s : Sto W) :
    (evalExpr rec env expr s).Settles (evalExpr rec' env expr s) := by
  unfold evalExpr
  split
  · exact .andThen (hrec _ s) fun s v => hrec _ s
  · split
    · refine .orAbort s _ fun slot => ?_
      split
      · exact hrec _ s
      · exact .refl _
    · split
      · exact hrec _ s
      · split
        · exact .orAbort s _ fun hx => .orAbort s _ fun hf => under_settles hrec _ _ _
        · refine .andThen (hrec _ s) fun s x => .orAbort s _ fun hx => ?_
          split
          · refine .andThen (hrec _ _) fun s f => .orAbort s _ fun hf => under_settles hrec _ _ _
          · exact .refl _
      · exact .refl _

theorem evalApplyn_settles (v : Val) (args : List Val) (s : Sto W) :
    (evalApplyn rec v args s).Settles (evalApplyn rec' v args s) := by
  refine .orAbort s _ fun a => ?_
  split
  · exact .refl _
  · exact .bind (hrec _ s) (fun p => throughKonts_settles hrec _ p.1 p.2) fun s =>
      throughKonts_abort _ _ s

theorem evalScan_settles (head : Val) (args : List Val) (node : Val) (binds : List Val)
    (s : Sto W) : (evalScan rec head args node binds s).Settles
      (evalScan rec' head args node binds s) := by
  unfold evalScan
  split
  · exact .andThen (hrec _ s) fun s node => hrec _ s
  · split
    · exact hrec _ s
    · exact hrec _ _

theorem evalLaw_settles (head : Val) (args : List Val) (law : Option Obj) (s : Sto W) :
    (evalLaw rec head args law s).Settles (evalLaw rec' head args law s) := by
  unfold evalLaw
  split
  · split
    · exact hrec _ s
    · exact .refl _
  · exact .refl _

theorem evalPrim_settles (op : Nat) (name : Val) (args : List Val) (k : Nat) (s : Sto W) :
    (evalPrim rec op name args k s).Settles (evalPrim rec' op name args k s) := by
  unfold evalPrim
  split
  · split
    · exact hrec _ s
    · exact .andThen (hrec _ s) fun s v => hrec _ s
  · split
    · exact hrec _ s
    · exact hrec _ s

theorem evalDeep_settles (op : Nat) (name : Val) (args : List Val) (k : Nat) (s : Sto W) :
    (evalDeep rec op name args k s).Settles (evalDeep rec' op name args k s) := by
  unfold evalDeep
  split
  · split
    · exact hrec _ s
    · exact .andThen (under_settles hrec _ _ s) fun s v => hrec _ s
  · exact hrec _ s

theorem evalFields_settles (v : Val) (k : Nat) (s : Sto W) :
    (evalFields rec v k s).Settles (evalFields rec' v k s) := by
  refine .orAbort s _ fun child => .andThen (under_settles hrec _ _ s) fun s child =>
    .orAbort s _ fun h => ?_
  split
  · exact hrec _ _
  · exact .refl _

variable (ctx : Ctx W)

theorem evalDeliver_settles (k : Kont) (v : Val) (s : Sto W) :
    (evalDeliver rec ctx k v s).Settles (evalDeliver rec' ctx k v s) := by
  cases k with
  | apply x =>
    simp only [evalDeliver]
    refine .orAbort s _ fun need => ?_
    split
    · exact .refl _
    · exact hrec _ s
  | seq y => exact hrec _ s
  | nf =>
    simp only [evalDeliver]
    split
    · exact .refl _
    · exact hrec _ s
  | _ => exact .refl _

theorem evalOpent_settles (opset : Nat) (v : Val) (s : Sto W) :
    (evalOpent rec ctx opset v s).Settles (evalOpent rec' ctx opset v s) := by
  unfold evalOpent
  simp only
  split
  · exact .refl _
  · split
    · exact .refl _
    · exact hrec _ _

theorem evalEnter_settles (head : Val) (args : List Val) (s : Sto W) :
    (evalEnter rec ctx head args s).Settles (evalEnter rec' ctx head args s) := by
  unfold evalEnter
  split
  · split
    · split
      · exact .andThen (hrec _ s) fun s v => evalOpent_settles hrec ctx _ v s
      · exact .refl _
    · split
      · exact evalLaw_settles hrec _ _ _ s
      · exact .refl _
  · exact evalLaw_settles hrec _ _ _ s

/-- Only a request tells the drivers apart. -/
theorem evalBody_settles (mode : Mode W) (op : Nat) (name : Val) (args : List Val) (s : Sto W) :
    (evalBody rec ctx .nested op name args s).Settles (evalBody rec' ctx mode op name args s) := by
  unfold evalBody
  simp only
  split
  · exact .abort _ _
  · exact .refl _
  · split
    · -- below an executor a request is a failed check
      rename_i v pushed s' _ _
      rw [show Mode.request .nested v s' = (s', .abort) from rfl, throughKonts_abort]
      exact .abort _ _
    · exact under_settles hrec _ _ _

end

/-- A job that a C entry below an executor finishes ends so under any driver. -/
theorem evalJob_settles (ctx : Ctx W) (mode : Mode W) (n : Nat) (j : Job) (s : Sto W) :
    (evalJob ctx .nested n j s).Settles (evalJob ctx mode n j s) := by
  -- by induction on the depth of the evaluation, one case a job
  induction n generalizing j s with
  | zero => exact .refl none
  | succ n ih =>
    cases j with
    | whnf v => exact evalWhnf_settles ih v s
    | expr env e => exact evalExpr_settles ih env e s
    | deliver k v => exact evalDeliver_settles ih ctx k v s
    | applyn v args => exact evalApplyn_settles ih v args s
    | enter head args => exact evalEnter_settles ih ctx head args s
    | scan head args node binds => exact evalScan_settles ih head args node binds s
    | prim op name args k => exact evalPrim_settles ih op name args k s
    | deep op name args k => exact evalDeep_settles ih op name args k s
    | body op name args => exact evalBody_settles ih ctx mode op name args s
    | fields v k => exact evalFields_settles ih v k s

/-- **Drivers agree.** An evaluation that ends below an executor, with a value or an exception,
ends with it under every driver, in the same heap. -/
theorem drivers_agree {ctx : Ctx W} (mode : Mode W) {S : List Val} {F : List Frame}
    {quantum quantum' : Nat → Nat} (hq : ∀ i, 2 ≤ quantum i) (hq' : ∀ i, 2 ≤ quantum' i)
    (ks : List Kont) (v : Val) (s : Sto W) {fuel fuel' : Nat} (hfuel : 0 < fuel)
    (hfuel' : 0 < fuel') {r : Run W}
    (hr : r ∈ eval (Run.next ctx (.above .nested S F) quantum) (.enter ks v S F s fuel))
    (hne : r.thread.ctl ≠ .abort) (S' : List Val) (F' : List Frame) :
    ∃ r' ∈ eval (Run.next ctx (.above mode S' F') quantum') (.enter ks v S' F' s fuel'),
      r'.thread.ctl = r.thread.ctl ∧ r'.thread.sto = r.thread.sto ∧
        (r'.thread.vstack, r'.thread.frames) = (S', F') := by
  obtain ⟨n, ⟨s', res⟩, hn, hfin, -⟩ := (mem_eval_enter hq ks v s hfuel r).1 hr
  have hres : res ≠ .abort := by
    rintro rfl
    exact hne hfin.1
  -- the evaluation is finite, and settles under the other driver
  have hn' : evalEntry ctx mode n ks v s = some (s', res) :=
    under_settles (evalJob_settles ctx mode n) v ks s s' res hn hres
  obtain ⟨r', hr', hfin'⟩ := exists_end (S := S') (F := F') hq' ks v s hfuel' hn'
  obtain ⟨-, -, hsto⟩ := hfin.2 hres
  obtain ⟨hvs', hfs', hsto'⟩ := hfin'.2 hres
  exact ⟨r', hr', hfin'.1.trans hfin.1.symm, hsto'.trans hsto.symm, by rw [hvs', hfs']⟩

theorem drivers_agree_sample :
    ∃ r ∈ eval (Run.next firstOf (.above .nested [] []) fun _ => 2) (.nf (.ref 5) [] [] sample 1),
    ∃ r' ∈ eval (Run.next firstOf (.above zeroes [] []) fun _ => 2) (.nf (.ref 5) [] [] sample 1),
      r'.thread.ctl = r.thread.ctl ∧ r'.thread.sto = r.thread.sto ∧
        (r'.thread.vstack, r'.thread.frames) = ([], []) := by
  obtain ⟨r, hr, hfin⟩ := sample_nf_run .nested
  have hne : r.thread.ctl ≠ .abort := by
    rw [hfin.1]
    simp [Res.ctl]
  exact ⟨r, hr, drivers_agree zeroes (fun _ => Nat.le_refl 2) (fun _ => Nat.le_refl 2) [.nf]
    (.ref 5) sample Nat.one_pos Nat.one_pos hr hne [] []⟩

end Enki.Eval
