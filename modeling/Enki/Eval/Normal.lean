import Enki.Eval.Flags
import Enki.Eval.Holes

/-!
# Normal forms

What `pl_whnf` returns is in weak head normal form, and nothing is left to evaluate anywhere
below what `pl_nf` returns. An object is normalised field by field, and between one field and
the next anything may be evaluated, the same object included; what carries the proof is that
fields which are normal stay so.
-/

namespace Enki.Eval

open StateTransition

variable {W : Type}

/-! ## Fair outcomes -/

/-- An outcome that keeps the promise of the flags: values are in weak head normal form and,
where that was asked for, normal. -/
def Outcome.Fair (norm : Prop) (h : Heap) (o : Outcome W) : Prop :=
  ∀ s res, o = some (s, res) → res ≠ .abort → s.heap.Sound ∧ h.Grows s.heap ∧
    ∀ v, res = .val v → s.heap.isWhnf v = true ∧ (norm → s.heap.isNormal v = true)

namespace Outcome.Fair

variable {norm norm' : Prop} {h h' : Heap} {s : Sto W} {o : Outcome W}

theorem none (norm : Prop) (h : Heap) : Outcome.Fair norm h (Option.none : Outcome W) := by
  intro s res ho
  cases ho

theorem abort (norm : Prop) (h : Heap) (s : Sto W) : Outcome.Fair norm h (some (s, .abort)) := by
  intro s' res ho hne
  cases ho
  exact absurd rfl hne

theorem val {v : Val} (hs : s.heap.Sound) (hg : h.Grows s.heap) (hv : s.heap.isWhnf v = true)
    (hn : norm → s.heap.isNormal v = true) : Outcome.Fair norm h (some (s, .val v)) := by
  intro s' res ho _
  cases ho
  refine ⟨hs, hg, fun w hw => ?_⟩
  cases hw
  exact ⟨hv, hn⟩

theorem raise {e : Exn} (hs : s.heap.Sound) (hg : h.Grows s.heap) :
    Outcome.Fair norm h (some (s, .raise e)) := by
  intro s' res ho _
  cases ho
  exact ⟨hs, hg, fun w hw => by cases hw⟩

theorem grows (hg : h.Grows h') (hf : Outcome.Fair norm h' o) : Outcome.Fair norm h o := by
  intro s res ho hne
  obtain ⟨hs, hg', hv⟩ := hf s res ho hne
  exact ⟨hs, hg.trans hg', hv⟩

theorem weaken (himp : norm → norm') (hf : Outcome.Fair norm' h o) : Outcome.Fair norm h o := by
  intro s res ho hne
  obtain ⟨hs, hg, hv⟩ := hf s res ho hne
  exact ⟨hs, hg, fun v heq => ⟨(hv v heq).1, fun hn => (hv v heq).2 (himp hn)⟩⟩

theorem orAbort {α : Type} {a : Option α} {k : α → Outcome W}
    (hk : ∀ x, a = some x → Outcome.Fair norm h (k x)) : Outcome.Fair norm h (s.orAbort a k) := by
  cases a with
  | none => exact abort norm h s
  | some x => exact hk x rfl

theorem bind {k : Sto W × Res → Outcome W} (hf : Outcome.Fair norm h o)
    (hk : ∀ s res, res ≠ .abort → s.heap.Sound → h.Grows s.heap →
      (∀ v, res = .val v → s.heap.isWhnf v = true ∧ (norm → s.heap.isNormal v = true)) →
      Outcome.Fair norm' h (k (s, res)))
    (habort : ∀ s, k (s, .abort) = some (s, .abort)) : Outcome.Fair norm' h (o.bind k) := by
  rcases o with _ | ⟨s, res⟩
  · exact none norm' h
  · by_cases hres : res = .abort
    · rw [hres, Option.bind_some, habort]
      exact abort norm' h s
    · obtain ⟨hs, hg, hv⟩ := hf s res rfl hres
      exact hk s res hres hs hg hv

theorem andThen {k : Sto W → Val → Outcome W} (hf : Outcome.Fair norm h o)
    (hk : ∀ s v, s.heap.Sound → h.Grows s.heap → s.heap.isWhnf v = true →
      (norm → s.heap.isNormal v = true) → Outcome.Fair norm' h (k s v)) :
    Outcome.Fair norm' h (o.andThen k) := by
  rcases o with _ | ⟨s, v | e | _⟩
  · exact none norm' h
  · obtain ⟨hs, hg, hv⟩ := hf s _ rfl (by simp)
    exact hk s v hs hg (hv v rfl).1 (hv v rfl).2
  · obtain ⟨hs, hg, -⟩ := hf s _ rfl (by simp)
    exact raise hs hg
  · exact abort norm' h s

end Outcome.Fair

/-- The jobs that normalise. -/
def Job.Normalises : Job → Prop
  | .deliver .nf _ | .fields _ _ => True
  | _ => False

/-- What a job is promised: what goes to a continuation is a value, and the fields that have
been dealt with are normal. -/
def Job.Ready (h : Heap) : Job → Prop
  | .deliver _ v => h.isWhnf v = true
  | .fields v k => h.isWhnf v = true ∧
    ∀ i < k, ∃ c, (h.fields v)[i]? = some c ∧ h.isNormal c = true
  | _ => True

/-- Every job that is ready has a fair outcome. -/
def Fair (rec : Job → Sto W → Outcome W) : Prop :=
  ∀ j s, s.heap.Sound → j.Ready s.heap → (rec j s).Fair j.Normalises s.heap

/-- On with a job that is not to normalise. -/
theorem Fair.plain {rec : Job → Sto W → Outcome W} (hrec : Fair rec) {j : Job} {s : Sto W}
    (hs : s.heap.Sound) (hready : j.Ready s.heap) : (rec j s).Fair False s.heap :=
  .weaken False.elim (hrec j s hs hready)

/-- The last continuation normalises. -/
def EndsInNf (ks : List Kont) : Prop := ks.getLast? = some .nf

section

variable {rec : Job → Sto W → Outcome W} (hrec : Fair rec)
include hrec

theorem throughKonts_fair (norm : Prop) (ks : List Kont) (hks : norm → ks ≠ [] → EndsInNf ks)
    (s : Sto W) (res : Res) (hs : s.heap.Sound)
    (hres : ∀ v, res = .val v → s.heap.isWhnf v = true ∧ (norm → ks = [] → s.heap.isNormal v = true)) :
    (throughKonts rec ks s res).Fair norm s.heap := by
  induction ks generalizing s res with
  | nil =>
    cases res with
    | val v => exact .val hs (.refl _) (hres v rfl).1 fun hn => (hres v rfl).2 hn rfl
    | raise e => exact .raise hs (.refl _)
    | abort => exact .abort norm _ s
  | cons k ks ih =>
    have hks' : norm → ks ≠ [] → EndsInNf ks := by
      intro hn hne
      have hlast := hks hn (List.cons_ne_nil k ks)
      rwa [EndsInNf, List.getLast?_cons_of_ne_nil hne] at hlast
    cases res with
    | abort =>
      rw [throughKonts_abort]
      exact .abort norm _ s
    | val v =>
      rw [throughKonts_val]
      refine Outcome.Fair.bind (hrec (.deliver k v) s hs (hres v rfl).1) ?_
        fun s => throughKonts_abort _ ks s
      intro s' res' _ hs' hg' hv'
      refine .grows hg' (ih hks' s' res' hs' fun w hw => ⟨(hv' w hw).1, fun hn hnil => ?_⟩)
      subst hnil
      have hk : k = .nf := by
        have hlast := hks hn (List.cons_ne_nil k [])
        simpa [EndsInNf] using hlast
      subst hk
      exact (hv' w hw).2 trivial
    | raise e =>
      by_cases hcatch : k = .tryIn ∧ ∃ v, e = .value v
      · obtain ⟨rfl, v, rfl⟩ := hcatch
        refine .orAbort fun hv hmk => ?_
        obtain ⟨hkeeps, hwhnf⟩ := Heap.Keeps.mkAppFrom hmk
        obtain ⟨hs', hg'⟩ := hkeeps hs
        refine .grows hg' (ih hks' (s.setHeap hv.1) (.val hv.2) hs' fun w hw => ?_)
        cases hw
        refine ⟨hwhnf, fun hn hnil => ?_⟩
        subst hnil
        have hlast := hks hn (List.cons_ne_nil _ [])
        simp [EndsInNf] at hlast
      · rw [throughKonts_raise _ hcatch]
        exact ih hks' s (.raise e) hs fun w hw => by cases hw

theorem under_fair (ks : List Kont) (v : Val) (s : Sto W) (hs : s.heap.Sound) :
    (under rec v ks s).Fair (EndsInNf ks) s.heap := by
  refine Outcome.Fair.bind (hrec (.whnf v) s hs trivial) ?_ fun s => throughKonts_abort _ ks s
  intro s' res _ hs' hg' hv'
  refine .grows hg' (throughKonts_fair hrec _ ks (fun hn _ => hn) s' res hs' fun w hw =>
    ⟨(hv' w hw).1, fun hn hnil => ?_⟩)
  subst hnil
  cases hn

theorem evalWhnf_fair (v : Val) (s : Sto W) (hs : s.heap.Sound) :
    (evalWhnf rec v s).Fair False s.heap := by
  unfold evalWhnf
  split
  · exact .val hs (.refl _) rfl False.elim
  · rename_i r
    split
    · exact .weaken False.elim (hrec _ s hs trivial)
    · exact .raise hs (.refl _)
    · rename_i env expr hr
      have hkeeps : s.heap.Keeps (s.heap.set r (.bh env)) := .delayed hr rfl rfl
      obtain ⟨hs', hg'⟩ := hkeeps hs
      refine .grows hg' (Outcome.Fair.bind (hrec (.expr env expr) (s.setHeap _) hs' trivial) ?_
        fun s => rfl)
      intro s₁ res hres hs₁ hg₁ hv₁
      cases res with
      | val w =>
        refine .orAbort fun h hupdate => ?_
        obtain ⟨hs₂, hg₂⟩ := Heap.Keeps.thunkUpdate hupdate hs₁
        exact .val hs₂ (hg₁.trans hg₂) (hg₂.whnf w (hv₁ w rfl).1) False.elim
      | raise e =>
        refine .orAbort fun h hrestore => ?_
        obtain ⟨hs₂, hg₂⟩ := Heap.Keeps.restoreThunk hrestore hs₁
        exact .raise hs₂ (hg₁.trans hg₂)
      | abort => exact .abort _ _ _
    · rename_i o hind hbh hthunk hr
      refine .val hs (.refl _) ?_ False.elim
      rw [Heap.isWhnf_ref, hr]
      cases o <;> simp_all [Obj.delayed]
    · exact .abort _ _ s

theorem evalExpr_fair (env expr : Val) (s : Sto W) (hs : s.heap.Sound) :
    (evalExpr rec env expr s).Fair False s.heap := by
  unfold evalExpr
  split
  · exact Outcome.Fair.andThen (hrec _ s hs trivial) fun s v hs' hg' _ _ =>
      .grows hg' (hrec.plain hs' trivial)
  · rename_i hwhnf
    split
    · refine .orAbort fun slot _ => ?_
      split
      · exact hrec.plain hs trivial
      · exact .val hs (.refl _) rfl False.elim
    · split
      · exact hrec.plain hs trivial
      · split
        · refine .orAbort fun hx hkx => .orAbort fun hf hkf => ?_
          obtain ⟨hs₁, hg₁⟩ := ((Heap.Keeps.kal1 hkx).trans (Heap.Keeps.kal1 hkf)) hs
          exact .grows hg₁ (.weaken False.elim (under_fair hrec _ _ (s.setHeap hf.1) hs₁))
        · refine Outcome.Fair.andThen (hrec _ s hs trivial) fun s₁ x hs₁ hg₁ _ _ => .grows hg₁ ?_
          refine .orAbort fun hx hkx => ?_
          obtain ⟨hs₂, hg₂⟩ := Heap.Keeps.kal1 hkx hs₁
          split
          · refine .grows hg₂ (Outcome.Fair.andThen (hrec _ (s₁.setHeap hx.1) hs₂ trivial)
              fun s₃ f hs₃ hg₃ _ _ => .grows hg₃ (.orAbort fun hf hkf => ?_))
            obtain ⟨hs₄, hg₄⟩ := Heap.Keeps.kal1 hkf hs₃
            exact .grows hg₄ (.weaken False.elim (under_fair hrec _ _ (s₃.setHeap hf.1) hs₄))
          · exact .abort _ _ _
      · refine .val hs (.refl _) ?_ False.elim
        simpa using hwhnf

theorem evalApplyn_fair (v : Val) (args : List Val) (s : Sto W) (hs : s.heap.Sound) :
    (evalApplyn rec v args s).Fair False s.heap := by
  refine .orAbort fun a _ => ?_
  split
  · refine .orAbort fun hv hmk => ?_
    obtain ⟨hkeeps, hwhnf⟩ := Heap.Keeps.mkAppCat hmk
    obtain ⟨hs', hg'⟩ := hkeeps hs
    exact .val hs' hg' hwhnf False.elim
  · refine Outcome.Fair.bind (hrec.plain hs trivial) ?_ fun s => throughKonts_abort _ _ s
    intro s' res _ hs' hg' hv'
    exact .grows hg' (throughKonts_fair hrec False _ False.elim s' res hs' fun w hw =>
      ⟨(hv' w hw).1, False.elim⟩)

theorem evalScan_fair (head : Val) (args : List Val) (node : Val) (binds : List Val) (s : Sto W)
    (hs : s.heap.Sound) : (evalScan rec head args node binds s).Fair False s.heap := by
  unfold evalScan
  split
  · exact Outcome.Fair.andThen (hrec _ s hs trivial) fun s v hs' hg' _ _ =>
      .grows hg' (hrec.plain hs' trivial)
  · split
    · exact hrec.plain hs trivial
    · obtain ⟨hs', hg'⟩ := Heap.Keeps.knot head args binds hs
      exact .grows hg' (hrec.plain (s := s.setHeap _) hs' trivial)

theorem evalLaw_fair (head : Val) (args : List Val) (law : Option Obj) (s : Sto W)
    (hs : s.heap.Sound) : (evalLaw rec head args law s).Fair False s.heap := by
  unfold evalLaw
  split
  · split
    · exact hrec.plain hs trivial
    · exact .abort _ _ _
  · exact .abort _ _ _

theorem evalPrim_fair (op : Nat) (name : Val) (args : List Val) (k : Nat) (s : Sto W)
    (hs : s.heap.Sound) : (evalPrim rec op name args k s).Fair False s.heap := by
  unfold evalPrim
  split
  · split
    · exact hrec.plain hs trivial
    · exact Outcome.Fair.andThen (hrec _ s hs trivial) fun s v hs' hg' _ _ =>
        .grows hg' (hrec.plain hs' trivial)
  · split
    · exact hrec.plain hs trivial
    · exact hrec.plain hs trivial

theorem evalDeep_fair (op : Nat) (name : Val) (args : List Val) (k : Nat) (s : Sto W)
    (hs : s.heap.Sound) : (evalDeep rec op name args k s).Fair False s.heap := by
  unfold evalDeep
  split
  · split
    · exact hrec.plain hs trivial
    · exact Outcome.Fair.andThen (under_fair hrec _ _ s hs) fun s v hs' hg' _ _ =>
        .grows hg' (hrec.plain hs' trivial)
  · exact hrec.plain hs trivial

/-- The loop over the fields: those before the `k`-th are normal. -/
theorem evalFields_fair (v : Val) (k : Nat) (s : Sto W) (hs : s.heap.Sound)
    (hv : s.heap.isWhnf v = true)
    (hk : ∀ i < k, ∃ c, (s.heap.fields v)[i]? = some c ∧ s.heap.isNormal c = true) :
    (evalFields rec v k s).Fair True s.heap := by
  refine .orAbort fun child hchild => ?_
  refine Outcome.Fair.andThen (under_fair hrec [.nf] child s hs) fun s₁ c hs₁ hg₁ _ hn => .grows hg₁ ?_
  refine .orAbort fun h hwrite => ?_
  -- the field is still there, whatever has been evaluated since it was read
  obtain ⟨c₁, hc₁, -⟩ := hg₁.fields v k child (Heap.fields_of_nfField hchild)
  obtain ⟨hkeeps, hget⟩ := Heap.Keeps.nfWriteback hwrite hc₁ (hn rfl)
  obtain ⟨hs₂, hg₂⟩ := hkeeps hs₁
  have hg := hg₁.trans hg₂
  have hbefore : ∀ i < k + 1, ∃ c, (h.fields v)[i]? = some c ∧ h.isNormal c = true := by
    intro i hi
    rcases Nat.lt_or_eq_of_le (Nat.le_of_lt_succ hi) with hlt | rfl
    · obtain ⟨c₀, hc₀, hn₀⟩ := hk i hlt
      obtain ⟨c', hc', himp⟩ := hg.fields v i c₀ hc₀
      exact ⟨c', hc', himp hn₀⟩
    · exact ⟨c, hget, hg₂.normal c (hn rfl)⟩
  refine .grows hg₂ ?_
  split
  · exact .weaken (fun _ => trivial) (hrec (.fields v (k + 1)) (s₁.setHeap h) hs₂
      ⟨hg.whnf v hv, hbefore⟩)
  · rename_i hlast
    rw [Heap.nfNfields_eq] at hlast
    have hne : h.fields v ≠ [] := by
      intro hnil
      rw [hnil] at hget
      cases hget
    obtain ⟨hkeeps₃, hn₃⟩ := Heap.Keeps.setNormal hne fun c' hmem => by
      obtain ⟨i, hi, rfl⟩ := List.mem_iff_getElem.1 hmem
      obtain ⟨c'', hc'', hn''⟩ := hbefore i (by omega)
      rw [List.getElem?_eq_getElem hi] at hc''
      cases hc''
      exact hn''
    obtain ⟨hs₃, hg₃⟩ := hkeeps₃ hs₂
    exact .val hs₃ hg₃ (Heap.isWhnf_of_isNormal hn₃) fun _ => hn₃

variable {ctx : Ctx W}

theorem evalDeliver_fair (k : Kont) (v : Val) (s : Sto W) (hs : s.heap.Sound)
    (hv : s.heap.isWhnf v = true) :
    (evalDeliver rec ctx k v s).Fair (Job.Normalises (.deliver k v)) s.heap := by
  cases k with
  | apply x =>
    simp only [evalDeliver]
    refine .orAbort fun need _ => ?_
    split
    · refine .orAbort fun hv hmk => ?_
      obtain ⟨hkeeps, hwhnf⟩ := Heap.Keeps.mkAppSnoc hmk
      obtain ⟨hs', hg'⟩ := hkeeps hs
      exact .val hs' hg' hwhnf False.elim
    · exact hrec.plain hs trivial
  | seq y => exact hrec.plain hs trivial
  | nf =>
    simp only [evalDeliver]
    split
    · rename_i hnormal
      exact .val hs (.refl _) hv fun _ => hnormal
    · exact .weaken (fun _ => trivial) (hrec (.fields v 0) s hs
        ⟨hv, fun i hi => absurd hi (Nat.not_lt_zero i)⟩)
  | nil => exact .val hs (.refl _) rfl False.elim
  | tryIn =>
    simp only [evalDeliver]
    refine .orAbort fun hv hmk => ?_
    obtain ⟨hkeeps, hwhnf⟩ := Heap.Keeps.mkAppFrom hmk
    obtain ⟨hs', hg'⟩ := hkeeps hs
    exact .val hs' hg' hwhnf False.elim
  | memo f x epoch =>
    have hheap : (Thread.retMemo ctx s f x epoch v).heap = s.heap := by
      unfold Thread.retMemo
      split
      · split <;> rfl
      · rfl
    refine .val ?_ ?_ ?_ False.elim
    · rwa [hheap]
    · rw [hheap]
      exact .refl _
    · rwa [hheap]

theorem evalOpent_fair (opset : Nat) (v : Val) (s : Sto W) (hs : s.heap.Sound) :
    (evalOpent rec ctx opset v s).Fair False s.heap := by
  unfold evalOpent
  simp only
  split
  · exact .raise hs (.refl _)
  · split
    · exact .raise hs (.refl _)
    · rename_i hfound
      obtain ⟨memo, rfl⟩ := Ctx.findOp_sto hfound
      exact hrec.plain hs trivial

theorem evalEnter_fair (head : Val) (args : List Val) (s : Sto W) (hs : s.heap.Sound) :
    (evalEnter rec ctx head args s).Fair False s.heap := by
  unfold evalEnter
  split
  · split
    · split
      · exact Outcome.Fair.andThen (hrec _ s hs trivial) fun s v hs' hg' _ _ =>
          .grows hg' (evalOpent_fair hrec _ v s hs')
      · exact .abort _ _ _
    · split
      · exact evalLaw_fair hrec _ _ _ s hs
      · exact .raise hs (.refl _)
  · exact evalLaw_fair hrec _ _ _ s hs

theorem evalBody_fair (hctx : ctx.Respects Heap.Keeps) {mode : Mode W}
    (hmode : mode.Respects Heap.Keeps) (op : Nat) (name : Val) (args : List Val) (s : Sto W)
    (hs : s.heap.Sound) : (evalBody rec ctx mode op name args s).Fair False s.heap := by
  unfold evalBody
  simp only
  generalize heq : ({ s with epoch := _ } : Sto W) = s₀
  have hheap : s.heap = s₀.heap := by rw [← heq]
  have hbody := hctx op name args s₀
  rw [hheap] at hs ⊢
  split
  · exact .abort _ _ _
  · rename_i e s' hres
    rw [hres] at hbody
    obtain ⟨hs', hg'⟩ := hbody hs
    exact .raise hs' hg'
  · rename_i v pushed s' hres
    rw [hres] at hbody
    obtain ⟨hs', hg'⟩ := hbody hs
    refine .grows hg' ?_
    split
    · cases mode with
      | executor answer =>
        obtain ⟨hs'', hg''⟩ := hmode v s' hs'
        simp only [Mode.request]
        split
        · rename_i hwhnf
          exact .grows hg'' (throughKonts_fair hrec False _ False.elim _ _ hs'' fun w hw => by
            cases hw
            exact ⟨hwhnf, False.elim⟩)
        · rw [throughKonts_abort]
          exact .abort _ _ _
      | host =>
        exact throughKonts_fair hrec False _ False.elim s' _ hs' fun w hw => by cases hw
      | nested =>
        exact throughKonts_fair hrec False _ False.elim s' _ hs' fun w hw => by cases hw
    · exact .weaken False.elim (under_fair hrec _ _ s' hs')

end

/-- Every job has a fair outcome, at every depth. -/
theorem evalJob_fair {ctx : Ctx W} {mode : Mode W} (hctx : ctx.Respects Heap.Keeps)
    (hmode : mode.Respects Heap.Keeps) (n : Nat) : Fair (evalJob ctx mode n) := by
  induction n with
  | zero => exact fun j s _ _ => .none _ _
  | succ n ih =>
    intro j s hs hready
    cases j with
    | whnf v => exact evalWhnf_fair ih v s hs
    | expr env e => exact evalExpr_fair ih env e s hs
    | deliver k v => exact evalDeliver_fair ih k v s hs hready
    | applyn v args => exact evalApplyn_fair ih v args s hs
    | enter head args => exact evalEnter_fair ih head args s hs
    | scan head args node binds => exact evalScan_fair ih head args node binds s hs
    | prim op name args k => exact evalPrim_fair ih op name args k s hs
    | deep op name args k => exact evalDeep_fair ih op name args k s hs
    | body op name args => exact evalBody_fair ih hctx hmode op name args s hs
    | fields v k => exact evalFields_fair ih v k s hs hready.1 hready.2

/-- What can be reached from a value through fields. -/
def Heap.Below (h : Heap) : Val → Val → Prop :=
  Relation.ReflTransGen fun v c => c ∈ h.fields v

/-- Everything below a normal value is normal. -/
theorem Heap.Sound.below {h : Heap} (hs : h.Sound) {v u : Val} (hv : h.isNormal v = true)
    (hu : h.Below v u) : h.isNormal u = true := by
  induction hu with
  | refl => exact hv
  | tail _ hmem ih => exact hs _ ih _ hmem

/-- **Results are values.** A run that ends with a value leaves the flags keeping their promise
and its result in weak head normal form; and if it was to normalise, nothing below the result,
at whatever depth, is left to evaluate. -/
theorem results_are_values {ctx : Ctx W} {mode : Mode W} (hctx : ctx.Respects Heap.Keeps)
    (hmode : mode.Respects Heap.Keeps) {quantum : Nat → Nat} (hq : ∀ i, 2 ≤ quantum i)
    (ks : List Kont) (v : Val) (S : List Val) (F : List Frame) (s : Sto W) (hs : s.heap.Sound)
    {fuel : Nat} (hfuel : 0 < fuel) {r : Run W} {w : Val}
    (hr : r ∈ eval (Run.next ctx (.above mode S F) quantum) (.enter ks v S F s fuel))
    (hw : r.thread.ctl = .done w) :
    r.thread.sto.heap.Sound ∧ s.heap.Grows r.thread.sto.heap ∧
      r.thread.sto.heap.isWhnf w = true ∧
      (EndsInNf ks → ∀ u, r.thread.sto.heap.Below w u → r.thread.sto.heap.isWhnf u = true) := by
  obtain ⟨n, ⟨s', res⟩, hn, hfin, -⟩ := (mem_eval_enter hq ks v s hfuel r).1 hr
  obtain rfl : res = .val w := Res.ctl_inj (hfin.1.symm.trans hw)
  obtain ⟨-, -, hsto⟩ := hfin.2 (by simp)
  obtain ⟨hs', hg', hv'⟩ := under_fair (evalJob_fair hctx hmode n) ks v s hs s' _ hn (by simp)
  rw [hsto]
  refine ⟨hs', hg', (hv' w rfl).1, fun hnf u hu => ?_⟩
  exact Heap.isWhnf_of_isNormal (hs'.below ((hv' w rfl).2 hnf) hu)

theorem results_are_values_sample :
    ∃ r ∈ eval (Run.next firstOf (.above .host [] []) fun _ => 2) (.nf (.ref 5) [] [] sample 1),
      r.thread.sto.heap.Sound ∧ sample.heap.Grows r.thread.sto.heap ∧
        r.thread.sto.heap.isWhnf (.ref 5) = true ∧
        (EndsInNf [.nf] → ∀ u, r.thread.sto.heap.Below (.ref 5) u →
          r.thread.sto.heap.isWhnf u = true) := by
  have hempty : Heap.Sound [] := fun v hv c hc => by cases v <;> cases hc
  have hkeeps : Heap.Keeps [] sample.heap := Heap.Keeps.append (h := []) (by decide)
  have hctx : firstOf.Respects Heap.Keeps := fun _ _ _ s => Heap.Keeps.refl s.heap
  have hmode : Mode.Respects (W := Unit) .host Heap.Keeps := trivial
  obtain ⟨r, hr, hfin⟩ := sample_nf_run .host
  exact ⟨r, hr, results_are_values hctx hmode
    (fun _ => Nat.le_refl 2) [.nf] (.ref 5) [] [] sample (hkeeps hempty).1 Nat.one_pos hr hfin.1⟩

end Enki.Eval
