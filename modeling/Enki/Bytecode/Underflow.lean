import Enki.Bytecode.Readiness

/-!
# Paths that underflow

A path follows the control flow of a stream and counts the operands above the
frame base, taking every arm of a branch and every value as possible; it
underflows where a handler would raise. Executions follow paths. The readiness
analysis rejects a stream only if one of its paths underflows, and rewriting
adds no such path, so a rejected row has one before any rewrite.
-/

namespace Enki.Bytecode

/-- Does the instruction at `pc` lack operands, with `h` above the frame base?
Its handler then raises, or, where the head it adds to the count makes that wrap,
reads below the stack. -/
def underflows (ops : List Word) (pc h : Nat) : Prop :=
  let argc := Word.u32 (slot ops (pc + 1))
  match opAt ops pc with
  -- the count covers the head
  | some .mkThk | some .callKnown | some .callReady | some .tailcall | some .tailReady =>
    argc = 0 ∨ h < argc
  -- the inline way takes two, the slow way as many as the count says
  | some .add | some .sub | some .cmp | some .tailAdd | some .tailSub | some .tailCmp =>
    h < 2 ∨ argc = 0 ∨ h < argc
  | some .mkApp => argc = 0 ∨ h < argc + 1
  -- the count leaves the head out
  | some .callFast | some .callSlow => h < argc + 1
  | some .force | some .forceReady | some .ret | some .retReady | some .br => h = 0
  | some .call | some .tailblk => h < slot ops (pc + 2)
  | _ => False

/-- Where control goes from `pc`, and how many operands are there then. -/
def heights (ops : List Word) (pc h : Nat) : List (Nat × Nat) :=
  let argc := Word.u32 (slot ops (pc + 1))
  let next := pc + width ops pc
  match opAt ops pc with
  | some .pushVar | some .pushLit | some .pushSlot | some .interp => [(next, h + 1)]
  | some .entry | some .nop | some .force | some .forceReady => [(next, h)]
  | some .mkThk | some .callKnown | some .callReady => [(next, h - argc + 1)]
  | some .add | some .sub | some .cmp => [(next, h - 2 + 1), (next, h - argc + 1)]
  | some .mkApp | some .callFast | some .callSlow => [(next, h - (argc + 1) + 1)]
  | some .jmp => [(argc, h)]
  | some .br => (targets ops pc).map fun t => (Word.u32 t, h - 1)
  -- the block starts with its arguments, and the caller waits for one value
  | some .call => [(argc, slot ops (pc + 2)), (next, h - slot ops (pc + 2) + 1)]
  | some .tailblk => [(argc, slot ops (pc + 2))]
  | _ => []

/-- The paths of a code from its entries. -/
inductive Path (c : PlCode) : Nat → Nat → Prop where
  | start : Path c 0 0
  | strict : c.strictEntry ≠ 0 → Path c c.strictEntry 0
  | block {b : LawBlk} : b ∈ c.lawblks → Path c b.target b.arity
  | step {pc h g} : Path c pc h → pc < c.nops → ¬ underflows c.ops pc h →
      g ∈ heights c.ops pc h → Path c g.1 g.2

/-- Some path gets to an instruction with too few operands. -/
def Underflows (c : PlCode) : Prop := ∃ pc h, Path c pc h ∧ pc < c.nops ∧ underflows c.ops pc h

/-- The handlers take every count that a path gets to as it is written. -/
def PathsFit (c : PlCode) : Prop := ∀ pc h, Path c pc h → FitsAt c.ops pc

section Exec

variable {c : PlCode}

/-- The heights an outcome continues with. -/
def Outcome.heights : Outcome → List (Nat × Nat)
  | .next pc stack => [(pc, stack.length)]
  | .build pc stack | .await pc stack => [(pc, stack.length + 1)]
  | .enter target args pc stack => [(target, args.length), (pc, stack.length + 1)]
  | .raise _ | .leave | .give _ => []

/-- What is left below the operands taken. -/
theorem length_below (stack : List Word) (k : Nat) : (below stack k).length = stack.length - k := by
  simp [below]

/-- The handlers raise by one outcome. -/
theorem underflow_raises {os : List Outcome} (h : underflow = some os) :
    .raise "bytecode stack underflow" ∈ os := by
  obtain rfl := Option.some.inj h
  exact List.mem_singleton_self _

/-- The check that the calls of a known function share. -/
theorem execKnown_raises {f : Frame} {os : List Outcome} (h : execKnown c f = some os) :
    .raise "bytecode stack underflow" ∈ os ↔
      Word.u32 (slot c.ops (f.pc + 1)) = 0 ∨ f.stack.length < Word.u32 (slot c.ops (f.pc + 1)) := by
  simp only [execKnown, Option.bind_eq_bind, Option.bind_eq_some_iff] at h
  obtain ⟨argc, hargc, _, -, _, -, h⟩ := h
  obtain rfl := slot_of_getElem? hargc
  split_ifs at h with hu
  · exact iff_of_true (underflow_raises h) hu
  · obtain rfl := Option.some.inj h
    exact iff_of_false (by simp) hu

/-- The tail calls have it too. -/
theorem execTail_raises {f : Frame} {os : List Outcome} (h : execTail c f = some os) :
    .raise "bytecode stack underflow" ∈ os ↔
      Word.u32 (slot c.ops (f.pc + 1)) = 0 ∨ f.stack.length < Word.u32 (slot c.ops (f.pc + 1)) := by
  simp only [execTail, Option.bind_eq_bind, Option.bind_eq_some_iff] at h
  obtain ⟨argc, hargc, _, -, _, -, h⟩ := h
  obtain rfl := slot_of_getElem? hargc
  split_ifs at h with hu
  · exact iff_of_true (underflow_raises h) hu
  · obtain rfl := Option.some.inj h
    exact iff_of_false (by simp) hu
  · obtain rfl := Option.some.inj h
    exact iff_of_false (by simp) hu

/-- A call that leaves its head out of the count checks for one operand more. -/
theorem execHead_raises {next argc : Nat} {stack : List Word} {os : List Outcome}
    (h : execHead next argc stack = some os) :
    .raise "bytecode stack underflow" ∈ os ↔ stack.length < argc + 1 := by
  simp only [execHead] at h
  split_ifs at h with hu hr
  · -- the sum that is checked first is cut to 32 bits
    have hle : Word.u32 (argc + 1) ≤ argc + 1 := Nat.mod_le ..
    exact iff_of_true (underflow_raises h) (by omega)
  · obtain rfl := Option.some.inj h
    exact iff_of_false (by simp) hr

/-- A handler that reads its operands raises exactly where its instruction
underflows. -/
theorem exec_raises_iff {vars : Vars} {f : Frame} {os : List Outcome}
    (h : exec c vars f = some os) :
    .raise "bytecode stack underflow" ∈ os ↔ underflows c.ops f.pc f.stack.length := by
  simp only [exec, Option.bind_eq_bind, Option.bind_eq_some_iff] at h
  obtain ⟨w, hw, h⟩ := h
  have hop : opAt c.ops f.pc = Op.ofWord w := by rw [opAt, slot_of_getElem? hw]
  unfold underflows
  rw [hop]
  cases hc : Op.ofWord w with
  | none => simp [hc] at h
  | some op =>
    simp only [hc] at h
    -- the handlers that read no operand cannot raise, the rest check first
    cases op with
    | pushLit | interp | jmp | entry =>
      obtain ⟨v, -, h⟩ := Option.bind_eq_some_iff.mp h
      obtain rfl := Option.some.inj h
      simp
    | pushVar =>
      obtain ⟨v, -, h⟩ := Option.bind_eq_some_iff.mp h
      cases vars <;> simp only at h <;> split at h <;> obtain rfl := Option.some.inj h <;> simp
    | pushSlot =>
      obtain ⟨v, -, h⟩ := Option.bind_eq_some_iff.mp h
      split at h <;> obtain rfl := Option.some.inj h <;> simp
    | mkThk =>
      obtain ⟨argc, hargc, h⟩ := Option.bind_eq_some_iff.mp h
      obtain ⟨bane, -, h⟩ := Option.bind_eq_some_iff.mp h
      obtain rfl := slot_of_getElem? hargc
      by_cases hu : Word.u32 (slot c.ops (f.pc + 1)) = 0 ∨
          Word.u32 (slot c.ops (f.pc + 1)) > f.stack.length
      · rw [if_pos hu] at h
        exact iff_of_true (underflow_raises h) hu
      · rw [if_neg hu] at h
        refine iff_of_false ?_ hu
        split at h
        · obtain rfl := Option.some.inj h
          simp
        · obtain ⟨_, -, h⟩ := Option.bind_eq_some_iff.mp h
          obtain rfl := Option.some.inj h
          simp
    | force | ret | forceReady =>
      simp only at h
      split_ifs at h with hu
      · exact iff_of_true (underflow_raises h) hu
      · obtain rfl := Option.some.inj h
        exact iff_of_false (by simp) hu
    | retReady =>
      cases hv : f.stack.getLast? with
      | none =>
        simp only [hv] at h
        exact iff_of_true (underflow_raises h) (by simpa using hv)
      | some v =>
        simp only [hv] at h
        obtain rfl := Option.some.inj h
        refine iff_of_false (by simp) fun h0 => ?_
        simp [List.length_eq_zero_iff.mp h0] at hv
    | call | tailblk =>
      obtain ⟨target, -, h⟩ := Option.bind_eq_some_iff.mp h
      obtain ⟨nargs, hn, h⟩ := Option.bind_eq_some_iff.mp h
      obtain rfl := slot_of_getElem? hn
      split_ifs at h with hu
      · exact iff_of_true (underflow_raises h) hu
      · obtain rfl := Option.some.inj h
        exact iff_of_false (by simp) hu
    | tailcall | tailReady => exact execTail_raises h
    | mkApp =>
      obtain ⟨argc, hargc, h⟩ := Option.bind_eq_some_iff.mp h
      obtain rfl := slot_of_getElem? hargc
      split_ifs at h with hu
      · exact iff_of_true (underflow_raises h) (.inl hu)
      · rw [execHead_raises h]
        simp [hu]
    | br =>
      obtain ⟨arms, -, h⟩ := Option.bind_eq_some_iff.mp h
      cases hv : f.stack.getLast? with
      | none =>
        simp only [hv] at h
        exact iff_of_true (underflow_raises h) (by simpa using hv)
      | some v =>
        simp only [hv] at h
        refine iff_of_false ?_ fun h0 => by simp [List.length_eq_zero_iff.mp h0] at hv
        split_ifs at h
        · obtain rfl := Option.some.inj h
          simp
        · obtain rfl := Option.some.inj h
          simp
        · obtain ⟨_, -, h⟩ := Option.bind_eq_some_iff.mp h
          obtain rfl := Option.some.inj h
          simp
    | callKnown | callReady => exact execKnown_raises h
    | callFast =>
      obtain ⟨argc, hargc, h⟩ := Option.bind_eq_some_iff.mp h
      obtain ⟨_, -, h⟩ := Option.bind_eq_some_iff.mp h
      obtain rfl := slot_of_getElem? hargc
      exact execHead_raises h
    | callSlow =>
      obtain ⟨argc, hargc, h⟩ := Option.bind_eq_some_iff.mp h
      obtain rfl := slot_of_getElem? hargc
      exact execHead_raises h
    | add | sub | cmp =>
      simp only [execNumeric] at h
      split_ifs at h with hu
      · exact iff_of_true (underflow_raises h) (.inl hu)
      · simp only [Option.bind_eq_bind, Option.bind_eq_some_iff] at h
        obtain ⟨slow, hslow, h⟩ := h
        obtain rfl := Option.some.inj h
        simp [execKnown_raises hslow, hu]
    | tailAdd | tailSub | tailCmp =>
      simp only at h
      split_ifs at h with hu
      · exact iff_of_true (underflow_raises h) (.inl hu)
      · obtain ⟨os', hos', rfl⟩ := Option.map_eq_some_iff.mp h
        simp [execTail_raises hos', hu]
    | nop =>
      obtain rfl := Option.some.inj h
      simp
    | lawblk => simp at h

/-- What an instruction does to the operands is what its path does. -/
theorem exec_heights {vars : Vars} {f : Frame} {os : List Outcome} {o : Outcome}
    (h : exec c vars f = some os) (ho : o ∈ os) :
    ∀ g ∈ o.heights, g ∈ heights c.ops f.pc f.stack.length := by
  obtain ⟨op, hop, hd⟩ := exec_does h ho
  cases hd with
  | raise | leave | give => simp [Outcome.heights]
  | pushVar | blockVar | pushLit | pushSlot =>
    simp [Outcome.heights, heights, hop, width]
  | stay hmem =>
    simp only [List.mem_cons, List.not_mem_nil, or_false] at hmem
    rcases hmem with rfl | rfl | rfl <;> simp [Outcome.heights, heights, hop]
  | jmp => simp [Outcome.heights, heights, hop]
  | br ht _ =>
    simp only [Outcome.heights, List.mem_singleton, forall_eq, heights, hop, length_below]
    exact List.mem_map.mpr ⟨_, ht, rfl⟩
  | tailblk hle => simp [Outcome.heights, heights, hop, length_above hle]
  | call hle => simp [Outcome.heights, heights, hop, length_above hle, length_below, width]
  | mkThk hle => simp [Outcome.heights, heights, hop, length_below]
  | @await _ k hk hle =>
    simp only [Outcome.heights, List.mem_singleton, forall_eq, length_below]
    cases op with
    | force | forceReady =>
      obtain rfl : k = 1 := by simpa [evalPops] using hk
      simp [heights, hop, Nat.sub_add_cancel hle]
    | interp | mkApp | callFast | callSlow | callKnown | callReady =>
      simp only [evalPops, List.mem_singleton] at hk
      simp [heights, hop, hk]
    | add | sub | cmp =>
      simp only [evalPops, List.mem_cons, List.not_mem_nil, or_false] at hk
      rcases hk with rfl | rfl <;> simp [heights, hop]
    | _ => simp [evalPops] at hk

/-- A path goes where control may go. -/
theorem heights_follows {ops : List Word} {pc h : Nat} {g : Nat × Nat} (hg : g ∈ heights ops pc h) :
    Follows ops pc g.1 := by
  unfold heights at hg
  cases hop : opAt ops pc with
  | none => simp [hop] at hg
  | some op =>
    simp only [hop] at hg
    cases op with
    | jmp | tailblk =>
      obtain rfl := List.mem_singleton.mp hg
      exact .inl ⟨_, by simp [targets, hop], rfl⟩
    | br =>
      obtain ⟨t, ht, rfl⟩ := List.mem_map.mp hg
      exact .inl ⟨t, ht, rfl⟩
    | call =>
      rcases List.mem_cons.mp hg with rfl | hg
      · exact .inl ⟨_, by simp [targets, hop], rfl⟩
      · obtain rfl := List.mem_singleton.mp hg
        exact .inr ⟨by simp [fallsThrough, hop], rfl⟩
    | add | sub | cmp =>
      simp only [List.mem_cons, List.not_mem_nil, or_false] at hg
      rcases hg with rfl | rfl <;> exact .inr ⟨by simp [fallsThrough, hop], rfl⟩
    | pushVar | pushLit | pushSlot | interp | entry | nop | force | forceReady | mkThk | callKnown
    | callReady | mkApp | callFast | callSlow =>
      obtain rfl := List.mem_singleton.mp hg
      exact .inr ⟨by simp [fallsThrough, hop], rfl⟩
    | _ => simp at hg

/-- A path of a closed program stays on its instructions. -/
theorem Path.isStart {flow : Nat → List Nat} (hp : ClosedProgram c flow) {pc h : Nat}
    (h : Path c pc h) : IsStart c.ops c.nops pc := by
  induction h with
  | start => exact hp.layout.zero
  | strict hs => exact hp.strict hs
  | block hb => exact hp.law hb
  | step _ _ _ hg ih => exact hp.follows ih (heights_follows hg)

/-- Executions follow paths, unless some path underflows. -/
theorem reachable_path {flow : Nat → List Nat} (hp : ClosedProgram c flow) {k : Conf}
    (hk : Reachable c k) :
    Underflows c ∨ Path c k.frame.pc k.frame.stack.length ∧
      ∀ g ∈ k.callers, Path c g.pc (g.stack.length + 1) := by
  refine hk.induction (I := fun k => Underflows c ∨ Path c k.frame.pc k.frame.stack.length ∧
    ∀ g ∈ k.callers, Path c g.pc (g.stack.length + 1)) ?_ ?_
  · intro k hk
    cases hk with
    | start => exact .inr ⟨.start, by simp⟩
    | strict hs _ => exact .inr ⟨.strict hs, by simp⟩
    | block hb hargs => exact .inr ⟨by simpa [hargs] using Path.block hb, by simp⟩
  · rintro k k' (hu | ⟨hpath, hcallers⟩) hs
    · exact .inl hu
    · -- an instruction that lacks operands is where a path underflows
      by_cases hu : underflows c.ops k.frame.pc k.frame.stack.length
      · exact .inl ⟨_, _, hpath, (hpath.isStart hp).2, hu⟩
      have hnext : ∀ {os o g}, exec c k.vars k.frame = some os → o ∈ os → g ∈ o.heights →
          Path c g.1 g.2 :=
        fun hx ho hg => .step hpath (hpath.isStart hp).2 hu (exec_heights hx ho _ hg)
      right
      cases hs with
      | next hx ho => exact ⟨hnext hx ho (List.mem_singleton_self _), hcallers⟩
      | build w hx ho | await hx ho =>
        exact ⟨by simpa using hnext hx ho (List.mem_singleton_self _), hcallers⟩
      | enter hx ho =>
        refine ⟨hnext hx ho (List.mem_cons_self ..), fun g hg => ?_⟩
        rcases List.mem_cons.mp hg with rfl | hg
        · exact hnext hx ho (List.mem_cons_of_mem _ (List.mem_singleton_self _))
        · exact hcallers g hg
      -- the caller goes on with one value more, which its path has counted
      | @leave _ _ g | @give _ _ g =>
        refine ⟨by simpa using hcallers g (List.mem_cons_self ..), fun g' hg => ?_⟩
        exact hcallers g' (List.mem_cons_of_mem _ hg)

end Exec

section Reject

variable {c : PlCode} {flow : Nat → List Nat} {s s' : ReadyState}

/-- The depth that is known stays within the slots that are tracked. -/
theorem push_bound {known : Bool} (h : s.depth ≤ readySlots) : (s.push known).depth ≤ readySlots := by
  unfold ReadyState.push
  split_ifs with hneg hfull
  · exact h
  · simp
  · simp only
    omega

theorem pop_bound {k : Nat} (h : s.depth ≤ readySlots) (hp : s.pop k = some s') :
    s'.depth ≤ readySlots := by
  unfold ReadyState.pop at hp
  split_ifs at hp <;> obtain rfl := Option.some.inj hp
  · exact h
  · simp only
    omega

/-- A push counts one more, where the depth is known before and after. -/
theorem push_depth {known : Bool} (h : 0 ≤ (s.push known).depth) :
    0 ≤ s.depth ∧ (s.push known).depth = s.depth + 1 := by
  unfold ReadyState.push at h ⊢
  split_ifs at h ⊢ with hneg hfull
  · omega
  · simp at h
  · exact ⟨by omega, rfl⟩

/-- A pop counts what it takes. -/
theorem pop_depth {k : Nat} (hp : s.pop k = some s') (h : 0 ≤ s'.depth) :
    0 ≤ s.depth ∧ s'.depth = s.depth - k := by
  unfold ReadyState.pop at hp
  split_ifs at hp with hneg hlt <;> obtain rfl := Option.some.inj hp
  · omega
  · exact ⟨by omega, rfl⟩

/-- A pop fails only where the depth is known, and less. -/
theorem pop_none {k : Nat} (hp : s.pop k = none) : 0 ≤ s.depth ∧ s.depth < k := by
  unfold ReadyState.pop at hp
  split_ifs at hp with hneg hlt
  omega

/-- Some path leads here, at the depth that is known, unless one underflows. -/
def OnPath (c : PlCode) (pc : Nat) (s : ReadyState) : Prop :=
  Underflows c ∨ ∃ h, Path c pc h ∧ s.depth ≤ readySlots ∧ (0 ≤ s.depth → s.depth = h)

theorem readyPop_bind_error {k : Nat} {α : Type} {f : ReadyState → Except ReadyResult α}
    {r : ReadyResult} (h : (readyPop s k >>= f) = .error r) (hf : ∀ s', f s' ≠ .error r) :
    s.pop k = none := by
  unfold readyPop at h
  split at h
  · exact absurd h (hf _)
  · assumption

/-- What the analysis takes for a call and its head, which it cuts at the slots it tracks. -/
theorem headCount_eq (argc : Nat) : headCount argc = min argc readySlots + 1 := by
  unfold headCount
  split_ifs <;> omega

/-- A pop that fails is one the handler makes. -/
theorem readyTransfer_underflow {pc : Nat} (hfits : FitsAt c.ops pc)
    (h : readyTransfer c.ops pc s = .error .underflow) :
    0 ≤ s.depth ∧ underflows c.ops pc s.depth.toNat := by
  have hcount : ∀ {op}, opAt c.ops pc = some op → counted op →
      Word.u32 (slot c.ops (pc + 1)) = slot c.ops (pc + 1) :=
    fun hop hc => Word.u32_of_lt (hfits _ hop hc)
  unfold readyTransfer at h
  cases hop : opAt c.ops pc with
  | none => simp [hop] at h
  | some op =>
    simp only [hop, Nat.add_assoc, Nat.reduceAdd] at h
    cases op with
    | force | br | ret =>
      obtain ⟨h0, hlt⟩ := pop_none (readyPop_bind_error h fun _ h' => by cases h')
      exact ⟨h0, by simp only [underflows, hop]; omega⟩
    | call | tailblk =>
      obtain ⟨h0, hlt⟩ := pop_none (readyPop_bind_error h fun _ h' => by cases h')
      refine ⟨h0, ?_⟩
      simp only [underflows, hop]
      omega
    | mkThk | callKnown | add | sub | cmp | tailcall | tailAdd | tailSub | tailCmp =>
      obtain ⟨h0, hlt⟩ := pop_none (readyPop_bind_error h fun _ h' => by cases h')
      refine ⟨h0, ?_⟩
      simp only [underflows, hop, hcount hop rfl]
      omega
    | mkApp | callFast | callSlow =>
      obtain ⟨h0, hlt⟩ := pop_none (readyPop_bind_error h fun _ h' => by cases h')
      refine ⟨h0, ?_⟩
      simp only [underflows, hop, hcount hop rfl]
      -- the cut can only take less than the handler does
      rw [headCount_eq] at hlt
      omega
    | _ => simp at h

theorem blockArgs_bound (argc : Nat) : (ReadyState.blockArgs argc).depth ≤ readySlots := by
  unfold ReadyState.blockArgs
  simp only
  split_ifs <;> omega

/-- A block is entered at the depth of its arguments, or at none that is known. -/
theorem blockArgs_depth {argc : Nat} (h : 0 ≤ (ReadyState.blockArgs argc).depth) :
    (ReadyState.blockArgs argc).depth = argc := by
  unfold ReadyState.blockArgs at h ⊢
  simp only at h ⊢
  split_ifs at h ⊢
  · rfl
  · omega

/-- A visit sends heights along paths. -/
theorem readyTransfer_onPath (hp : ClosedProgram c flow) {pc : Nat} (hpc : IsStart c.ops c.nops pc)
    (hfits : PathsFit c) {fs : List (Nat × ReadyState)} (hs : OnPath c pc s)
    (ht : readyTransfer c.ops pc s = .ok fs) : ∀ f ∈ fs, OnPath c f.1 f.2 := by
  -- if no path underflows, the visit takes a step of the path that leads here
  rcases hs with hu | ⟨h, hpath, hbound, hdepth⟩
  · exact fun _ _ => .inl hu
  by_cases hu : underflows c.ops pc h
  · exact fun _ _ => .inl ⟨pc, h, hpath, hpc.2, hu⟩
  have hnext : ∀ pc' h', (pc', h') ∈ heights c.ops pc h → Path c pc' h' :=
    fun pc' h' hg => .step hpath hpc.2 hu hg
  have hcount : ∀ {op}, opAt c.ops pc = some op → counted op →
      Word.u32 (slot c.ops (pc + 1)) = slot c.ops (pc + 1) :=
    fun hop hc => Word.u32_of_lt (hfits pc h hpath _ hop hc)
  -- targets are below the end, so they fit 32 bits
  have htarget : ∀ t ∈ targets c.ops pc, Word.u32 t = t := by
    intro t ht
    rw [hp.layout.flow_eq hpc] at ht
    exact Word.u32_of_lt (Nat.lt_trans (hp.closed ht) hp.short)
  unfold readyTransfer at ht
  cases hop : opAt c.ops pc with
  | none => simp [hop] at ht
  | some op =>
    simp only [hop, Nat.add_assoc, Nat.reduceAdd] at ht
    cases op with
    | pushVar | pushLit | pushSlot | interp =>
      obtain rfl := Except.ok.inj ht
      simp only [List.mem_singleton, forall_eq]
      refine .inr ⟨h + 1, hnext _ _ (by simp [heights, hop, width]), push_bound hbound, fun h0 => ?_⟩
      obtain ⟨hs0, heq⟩ := push_depth h0
      have := hdepth hs0
      omega
    | entry | nop =>
      obtain rfl := Except.ok.inj ht
      simp only [List.mem_singleton, forall_eq]
      exact .inr ⟨h, hnext _ _ (by simp [heights, hop, width]), hbound, hdepth⟩
    | jmp =>
      obtain rfl := Except.ok.inj ht
      simp only [List.mem_singleton, forall_eq]
      refine .inr ⟨h, hnext _ _ ?_, hbound, hdepth⟩
      simp [heights, hop, htarget (slot c.ops (pc + 1)) (by simp [targets, hop])]
    | force =>
      obtain ⟨s', hpop, ht⟩ := readyPop_bind_ok ht
      obtain rfl := Except.ok.inj ht
      simp only [List.mem_singleton, forall_eq]
      refine .inr ⟨h, hnext _ _ (by simp [heights, hop, width]), push_bound (pop_bound hbound hpop),
        fun h0 => ?_⟩
      obtain ⟨hs', heq⟩ := push_depth h0
      obtain ⟨hs0, heq'⟩ := pop_depth hpop hs'
      have := hdepth hs0
      omega
    | mkThk | callKnown | add | sub | cmp =>
      obtain ⟨s', hpop, ht⟩ := readyPop_bind_ok ht
      obtain rfl := Except.ok.inj ht
      simp only [List.mem_singleton, forall_eq]
      refine .inr ⟨h - slot c.ops (pc + 1) + 1, hnext _ _ ?_, push_bound (pop_bound hbound hpop),
        fun h0 => ?_⟩
      · simp [heights, hop, width, hcount hop rfl]
      · obtain ⟨hs', heq⟩ := push_depth h0
        obtain ⟨hs0, heq'⟩ := pop_depth hpop hs'
        have := hdepth hs0
        omega
    | mkApp | callFast | callSlow =>
      obtain ⟨s', hpop, ht⟩ := readyPop_bind_ok ht
      obtain rfl := Except.ok.inj ht
      simp only [List.mem_singleton, forall_eq]
      refine .inr ⟨h - (slot c.ops (pc + 1) + 1) + 1, hnext _ _ ?_, push_bound (pop_bound hbound hpop),
        fun h0 => ?_⟩
      · simp [heights, hop, width, hcount hop rfl]
      · obtain ⟨hs', heq⟩ := push_depth h0
        obtain ⟨hs0, heq'⟩ := pop_depth hpop hs'
        have := hdepth hs0
        simp only [underflows, hop, hcount hop rfl] at hu
        -- a depth that is known is too small for the cut to matter
        rw [headCount_eq] at heq'
        simp only [readySlots] at heq' hbound
        omega
    | tailblk =>
      obtain ⟨s', -, ht⟩ := readyPop_bind_ok ht
      obtain rfl := Except.ok.inj ht
      simp only [List.mem_singleton, forall_eq]
      refine .inr ⟨slot c.ops (pc + 2), hnext _ _ ?_, blockArgs_bound _, blockArgs_depth⟩
      simp [heights, hop, htarget (slot c.ops (pc + 1)) (by simp [targets, hop])]
    | call =>
      obtain ⟨s', hpop, ht⟩ := readyPop_bind_ok ht
      obtain rfl := Except.ok.inj ht
      simp only [List.mem_cons, List.not_mem_nil, or_false, forall_eq_or_imp, forall_eq]
      refine ⟨.inr ⟨slot c.ops (pc + 2), hnext _ _ ?_, blockArgs_bound _, blockArgs_depth⟩,
        .inr ⟨h - slot c.ops (pc + 2) + 1, hnext _ _ ?_, push_bound (pop_bound hbound hpop),
        fun h0 => ?_⟩⟩
      · simp [heights, hop, htarget (slot c.ops (pc + 1)) (by simp [targets, hop])]
      · simp [heights, hop, width]
      · obtain ⟨hs', heq⟩ := push_depth h0
        obtain ⟨hs0, heq'⟩ := pop_depth hpop hs'
        have := hdepth hs0
        omega
    | br =>
      obtain ⟨s', hpop, ht⟩ := readyPop_bind_ok ht
      obtain rfl := Except.ok.inj ht
      intro f hf
      obtain ⟨k, hk, rfl⟩ := List.mem_map.mp hf
      have hmem : slot c.ops (pc + (1 + (k + 1))) ∈ targets c.ops pc := by
        simp only [targets, hop]
        exact List.mem_map.mpr ⟨k, hk, by congr 1; omega⟩
      refine .inr ⟨h - 1, hnext _ _ ?_, pop_bound hbound hpop, fun h0 => ?_⟩
      · simp only [heights, hop]
        exact List.mem_map.mpr ⟨_, hmem, by rw [htarget _ hmem]⟩
      · simp only at h0 ⊢
        obtain ⟨hs0, heq'⟩ := pop_depth hpop h0
        have := hdepth hs0
        omega
    | ret | tailcall | tailAdd | tailSub | tailCmp =>
      obtain ⟨s', -, ht⟩ := readyPop_bind_ok ht
      obtain rfl := Except.ok.inj ht
      simp
    | _ => cases ht

/-- Only the depth of a state matters, and not knowing it is no claim. -/
theorem OnPath.of_depth {pc : Nat} (h : OnPath c pc s) (hd : s'.depth < 0 ∨ s'.depth = s.depth) :
    OnPath c pc s' := by
  rcases h with hu | ⟨k, hpath, hbound, hdepth⟩
  · exact .inl hu
  · refine .inr ⟨k, hpath, ?_, fun h0 => ?_⟩
    · rcases hd with hneg | heq <;> omega
    · have heq := hd.resolve_left (by omega)
      rw [heq] at h0 ⊢
      exact hdepth h0

theorem onPath_kept (hp : ClosedProgram c flow) (hfits : PathsFit c) :
    Worklist.Kept (readiness c.ops) (fun d => d.depth ≠ -1)
      (fun pc d => (pc < c.nops ∧ (d.depth ≠ -1 → IsStart c.ops c.nops pc)) ∧
        (d.depth ≠ -1 → OnPath c pc d))
      (fun pc s => (pc < c.nops → IsStart c.ops c.nops pc) ∧ OnPath c pc s) where
  joined := merge_depth
  join := by
    intro pc d s d' hd hs h
    refine ⟨(reached_kept hp.toProgram).join hd.1 hs.1 h, fun hseen => ?_⟩
    -- the state that is kept is the new one, none, or the old one
    rcases merge_some h with ⟨-, rfl⟩ | rfl | ⟨-, rfl⟩
    · refine hs.2.of_depth ?_
      unfold ReadyState.normal
      split_ifs
      · exact .inl (by decide)
      · exact .inr rfl
    · exact hs.2.of_depth (.inl (by decide))
    · exact (hd.2 hseen).of_depth (.inr rfl)
  transfer := by
    intro pc d fs hlive hd hfs f hf
    have hpc := hd.1.2 hlive
    exact ⟨(reached_kept hp.toProgram).transfer hlive hd.1 hfs f hf,
      readyTransfer_onPath hp hpc hfits (hd.2 hlive) hfs f hf⟩

/-- The analysis starts where the paths do. -/
theorem readyEntries_onPath : ∀ f ∈ readyEntries c, OnPath c f.1 f.2 := by
  intro f hf
  simp only [readyEntries, List.mem_append, List.mem_singleton, List.mem_map] at hf
  rcases hf with (rfl | hf) | ⟨b, hb, rfl⟩
  · exact .inr ⟨0, .start, by simp, fun _ => rfl⟩
  · split_ifs at hf with hs
    · obtain rfl := List.mem_singleton.mp hf
      exact .inr ⟨0, .strict hs, by simp, fun _ => rfl⟩
    · simp at hf
  · exact .inr ⟨b.arity, .block hb, blockArgs_bound _, blockArgs_depth⟩

/-- The analysis calls a stream underflowing only if one of its paths is. -/
theorem readyAnalyse_underflow (hp : ClosedProgram c flow) (hfits : PathsFit c)
    (h : readyAnalyse c = .error .underflow) : Underflows c := by
  have hk := onPath_kept hp hfits
  have hinit := Worklist.flows_holds hk (readyEntries c) _
    (holds_unseen (c := c) fun pc hlt => ⟨⟨hlt, by simp [ReadyState.unseen]⟩,
      by simp [ReadyState.unseen]⟩)
    fun f hf => ⟨fun _ => readyEntries_start hp.toProgram f hf, readyEntries_onPath f hf⟩
  have hsolve := (Worklist.solve_invariant hk (c.nops * 512) _ hinit).2 .underflow
  simp only [readyAnalyse] at h
  split at h
  · cases h
  · rename_i r hr
    obtain rfl := Except.error.inj h
    obtain ⟨pc, d, ⟨⟨hlt, hstart⟩, hpath⟩, hlive, hfail⟩ := hsolve hr
    rcases hpath hlive with hunder | ⟨k, hk, -, heq⟩
    · exact hunder
    · obtain ⟨h0, hu⟩ := readyTransfer_underflow (hfits pc k hk) hfail
      have hkeq : d.depth.toNat = k := by have := heq h0; omega
      exact ⟨pc, k, hk, hlt, hkeq ▸ hu⟩
  · cases h

end Reject

section Rewrite

variable {c : PlCode} {flow : Nat → List Nat} {ops ops' : List Word} {p : Nat}

/-- An instruction whose slots stay has the same heights. -/
theorem same_heights {q h : Nat} (hsame : ∀ i, q ≤ i → i < q + width ops q → slot ops' i = slot ops i) :
    (underflows ops' q h ↔ underflows ops q h) ∧ heights ops' q h = heights ops q h := by
  obtain ⟨hop, hwidth, htargets, -⟩ := same_instr hsame
  have h1 := hsame (q + 1) (by omega)
  have h2 := hsame (q + 2) (by omega)
  unfold underflows heights
  rw [hop, hwidth, htargets]
  -- only the slots of the instruction are read
  cases hc : opAt ops q with
  | none => simp
  | some op =>
    cases op <;> simp only [width, hc] at h1 h2
    all_goals first
      | (simp; done)
      | (simp [h1 (by omega)]; done)
      | simp [h1 (by split <;> omega)]
      | simp [h1 (by omega), h2 (by omega)]

/-- What a rewrite does to the heights at its instruction: it underflows where
it did, and goes nowhere else, but for the filler. -/
theorem rewrite_heights (hz : SizedAt ops p) (hfits : FitsAt ops p) (hrw : Rewrite ops p ops')
    (hlen : p + width ops p ≤ ops.length) (h : Nat) :
    (underflows ops' p h ↔ underflows ops p h) ∧
      ∀ g ∈ heights ops' p h, g ∈ heights ops p h ∨
        g.1 = p + 4 ∧ opAt ops' (p + 4) = some .nop ∧ (p + 5, g.2) ∈ heights ops p h := by
  have hp : p < ops.length := by have := width_pos ops p; omega
  -- one case a rewrite
  cases hrw with
  | fuse hop =>
    have hop' := opAt_set_self Op.tailcall hp
    have h1 : slot (ops.set p Op.tailcall.code) (p + 1) = slot ops (p + 1) := slot_set_ne (by omega)
    simp [underflows, heights, hop, hop', h1]
  | callFast hint hop hk h2 =>
    have hw := width_mkThk hop
    simp only [hk, Bool.false_eq_true, if_false] at hw
    -- the count loses its head, and is small enough to be read so
    have hcount := hfits _ hop rfl
    have hop' : opAt (((ops.set p Op.callFast.code).set (p + 1) (slot ops (p + 1) - 1)).set
        (p + 2) hint) p = some .callFast := by
      simp [opAt, hp]
    have h1 : slot (((ops.set p Op.callFast.code).set (p + 1) (slot ops (p + 1) - 1)).set
        (p + 2) hint) (p + 1) = slot ops (p + 1) - 1 := by
      rw [slot_set_ne (by omega), slot_set_self (by simp; omega)]
    simp only [underflows, heights, hop, hop', h1, Word.u32_of_lt hcount,
      Word.u32_of_lt (show slot ops (p + 1) - 1 < 2 ^ 32 by omega), hw]
    refine ⟨by omega, fun g hg => .inl ?_⟩
    obtain rfl := List.mem_singleton.mp hg
    simp only [width, hop', List.mem_singleton, Prod.mk.injEq, true_and]
    omega
  | callKnown hop hk =>
    have hw := width_mkThk hop
    simp only [hk, if_true] at hw
    have hop' : opAt ((((ops.set p Op.callKnown.code).set (p + 2) (slot ops (p + 3))).set (p + 3)
        (slot ops (p + 4))).set (p + 4) Op.nop.code) p = some .callKnown := by
      simp [opAt, hp]
    have h1 : slot ((((ops.set p Op.callKnown.code).set (p + 2) (slot ops (p + 3))).set (p + 3)
        (slot ops (p + 4))).set (p + 4) Op.nop.code) (p + 1) = slot ops (p + 1) := by
      simp
    simp only [underflows, heights, hop, hop', h1, hw]
    refine ⟨trivial, fun g hg => .inr ?_⟩
    obtain rfl := List.mem_singleton.mp hg
    refine ⟨by simp [width, hop'], ?_, List.mem_singleton_self _⟩
    rw [opAt, slot_set_self (by simp; omega), Op.ofWord_code]
  | @opcode old new hop hinl hcases =>
    have hop' := opAt_set_self new hp
    have h1 : slot (ops.set p new.code) (p + 1) = slot ops (p + 1) := slot_set_ne (by omega)
    have h2 : slot (ops.set p new.code) (p + 2) = slot ops (p + 2) := slot_set_ne (by omega)
    -- an inlined primop takes two operands, which the count says already
    have htwo : new.inline → slot ops (p + 1) = 2 := by
      intro hi
      obtain ⟨idx, hidx, hargc⟩ := hinl hi
      have hcounted : counted old := by
        rcases hcases with ⟨rfl, -⟩ | ⟨rfl, -⟩ | ⟨rfl, rfl⟩ | ⟨rfl, rfl⟩ <;>
          simp_all [counted, Op.inline]
      rw [← Word.u32_of_lt (hfits _ hop hcounted), ← hz.prim hidx, hargc]
    rcases hcases with ⟨rfl, hn⟩ | ⟨rfl, hn⟩ | ⟨rfl, rfl⟩ | ⟨rfl, rfl⟩
    · simp only [List.mem_cons, List.not_mem_nil, or_false] at hn
      rcases hn with rfl | rfl | rfl | rfl | rfl
      all_goals simp only [Op.inline, Bool.false_eq_true, false_implies, true_implies] at htwo
      all_goals simp [underflows, heights, hop, hop', h1, width, htwo, Word.u32]
    · simp only [List.mem_cons, List.not_mem_nil, or_false] at hn
      rcases hn with rfl | rfl | rfl | rfl | rfl
      all_goals simp only [Op.inline, Bool.false_eq_true, false_implies, true_implies] at htwo
      all_goals simp [underflows, heights, hop, hop', h1, htwo, Word.u32]
    · simp [underflows, heights, hop, hop', width]
    · simp [underflows, heights, hop, hop']

/-- A path of the rewritten stream is one of the stream before, but for the
filler, from where the next instruction is one step away. -/
theorem Path.unrewrite (hp : ClosedProgram c flow) (hz : Sized c.ops c.nops) (hfits : PathsFit c)
    (hstart : IsStart c.ops c.nops p) (hrw : Rewrite c.ops p ops') {pc h : Nat}
    (hpath : Path { c with ops := ops' } pc h) :
    Underflows c ∨ Path c pc h ∨
      pc = p + 4 ∧ opAt ops' pc = some .nop ∧ Path c (p + 5) h := by
  have hlen := Nat.le_trans (hp.layout.fits hstart) hp.layout.length
  induction hpath with
  | start => exact .inr (.inl .start)
  | strict hs => exact .inr (.inl (.strict hs))
  | block hb => exact .inr (.inl (.block hb))
  | @step pc h g _ hlt hu hg ih =>
    rcases ih with hunder | hpath | ⟨rfl, hnop, hpath⟩
    · exact .inl hunder
    · have hpc := hpath.isStart hp
      -- at the rewritten instruction, or at another one
      by_cases hpp : pc = p
      · subst hpp
        obtain ⟨hiff, hsub⟩ := rewrite_heights (hz pc hpc) (hfits pc h hpath) hrw hlen h
        have hu' : ¬ underflows c.ops pc h := fun h' => hu (hiff.mpr h')
        rcases hsub g hg with hold | ⟨hg4, hnop, hold⟩
        · exact .inr (.inl (.step hpath hpc.2 hu' hold))
        · exact .inr (.inr ⟨hg4, hg4 ▸ hnop, .step hpath hpc.2 hu' hold⟩)
      · obtain ⟨hiff, heq⟩ := same_heights (h := h) (hp.layout.rewrite_same hstart hrw hpc hpp)
        exact .inr (.inl (.step hpath hpc.2 (fun h' => hu (hiff.mpr h')) (heq ▸ hg)))
    · -- the filler only moves on
      have hg' : g = (p + 5, h) := by
        simpa [heights, hnop, width] using hg
      rw [hg']
      exact .inr (.inl hpath)

/-- A path that underflows after a rewrite did so before. -/
theorem Underflows.unrewrite (hp : ClosedProgram c flow) (hz : Sized c.ops c.nops)
    (hfits : PathsFit c) (hstart : IsStart c.ops c.nops p) (hrw : Rewrite c.ops p ops')
    (h : Underflows { c with ops := ops' }) : Underflows c := by
  obtain ⟨pc, k, hpath, hlt, hu⟩ := h
  rcases hpath.unrewrite hp hz hfits hstart hrw with hunder | hpath | ⟨rfl, hnop, -⟩
  · exact hunder
  · refine ⟨pc, k, hpath, hlt, ?_⟩
    have hpc := hpath.isStart hp
    by_cases hpp : pc = p
    · subst hpp
      have hlen := Nat.le_trans (hp.layout.fits hpc) hp.layout.length
      exact (rewrite_heights (hz pc hpc) (hfits pc k hpath) hrw hlen k).1.mp hu
    · exact (same_heights (hp.layout.rewrite_same hstart hrw hpc hpp)).1.mp hu
  · simp [underflows, hnop] at hu

/-- Rewriting widens no count that a path gets to. -/
theorem PathsFit.rewrite (hp : ClosedProgram c flow) (hz : Sized c.ops c.nops) (hfits : PathsFit c)
    (hstart : IsStart c.ops c.nops p) (hrw : Rewrite c.ops p ops') :
    Underflows c ∨ PathsFit { c with ops := ops' } := by
  by_cases hunder : Underflows c
  · exact .inl hunder
  refine .inr fun pc h hpath => ?_
  rcases (hpath.unrewrite hp hz hfits hstart hrw).resolve_left hunder with hpath | ⟨-, hnop, -⟩
  · have hpc := hpath.isStart hp
    have hold := hfits pc h hpath
    by_cases hpp : pc = p
    · subst hpp
      exact hold.rewrite hrw (Nat.le_trans (hp.layout.fits hpc) hp.layout.length)
    · exact hold.of_same (hp.layout.rewrite_same hstart hrw hpc hpp)
  · exact fitsAt_nop hnop

/-- Rewriting adds no path that underflows, and widens no count on the others. -/
theorem Chain.underflows {P : Op → Bool} (hc : Chain P c.nops c.ops ops')
    (hp : ClosedProgram c flow) (hz : Sized c.ops c.nops) (hfits : PathsFit c) :
    (Underflows { c with ops := ops' } → Underflows c) ∧
      (Underflows c ∨ PathsFit { c with ops := ops' }) := by
  induction hc with
  | refl => exact ⟨id, .inr hfits⟩
  | step hc hstart hrw _ ih =>
    obtain ⟨hback, hunder | hmid⟩ := ih
    · exact ⟨fun _ => hunder, .inl hunder⟩
    -- the stream in the middle of the chain is as closed and as sized
    have hp' : ClosedProgram _ flow := { hp.toProgram.chain hc with closed := hp.closed, short := hp.short }
    have hz' := hc.sized hp.layout hz
    exact ⟨fun h => hback (h.unrewrite hp' hz' hmid hstart hrw),
      (hmid.rewrite hp' hz' hstart hrw).imp_left hback⟩

end Rewrite

end Enki.Bytecode
