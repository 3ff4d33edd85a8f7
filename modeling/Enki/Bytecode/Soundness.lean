import Enki.Bytecode.Underflow

/-!
# Ingest and the readiness analysis

The states that the last analysis of an ingested row ends with hold in every
execution of its code and the ready variants see values only, provided no jump of
the row leaves its code. A row is rejected for an underflow only if one of its paths
underflows, provided besides that no count on a path is changed by a conversion;
and where an execution underflows, so does a path.
-/

namespace Enki.Bytecode

section Analysed

variable {c : PlCode} {flow : Nat → List Nat}

/-- Rounds that did not end well ended with an analysis. -/
theorem eagerRounds_error {m : Mem} {isTarget : List Nat} {r : ReadyResult} (rounds : Nat) :
    ∀ {c c' : PlCode}, eagerRounds m isTarget rounds c = (c', r) → r ≠ .ok →
      readyAnalyse c' = .error r := by
  induction rounds with
  | zero =>
    intro c c' h hr
    obtain ⟨-, rfl⟩ := Prod.mk.inj h
    exact absurd rfl hr
  | succ rounds ih =>
    intro c c' h hr
    simp only [eagerRounds] at h
    split at h
    · rename_i e he
      obtain ⟨rfl, rfl⟩ := Prod.mk.inj h
      exact he
    · split_ifs at h
      · exact ih h hr
      · obtain ⟨-, rfl⟩ := Prod.mk.inj h
        exact absurd rfl hr

/-- The result of ingest is that of an analysis of the rewritten code: the states
it completed with and the variants they justify, or its failure. -/
theorem bytecodeOptimise_analysed (m : Mem) (isTarget : List Nat) (hp : Program c flow)
    (hall : AllFrom plainOp c.ops c.nops 0) :
    (∀ states, (bytecodeOptimise m c isTarget).states = some states →
      ∃ c', Rewritten (fun _ => true) c c' ∧ readyAnalyse c' = .ok states ∧
        (bytecodeOptimise m c isTarget).code = c'.ready states) ∧
      ((bytecodeOptimise m c isTarget).result = .underflow →
        ∃ c', Rewritten (fun _ => true) c c' ∧ readyAnalyse c' = .error .underflow) := by
  unfold bytecodeOptimise
  split_ifs
  · simp
  · split
    · rename_i c₁ heq
      have hr := specialised_rewritten hp hall heq
      unfold readyVariants
      split
      · rename_i states hs
        refine ⟨fun states' hs' => ?_, by simp⟩
        obtain rfl := Option.some.inj hs'
        exact ⟨_, hr, hs, rfl⟩
      · rename_i r hs
        refine ⟨by simp, fun hu => ⟨_, hr, ?_⟩⟩
        simp only at hu
        rw [hs, hu]
    · rename_i c₁ r hok heq
      have hr := eagerRounds_rewritten m isTarget 64 c hp
      rw [heq] at hr
      refine ⟨by simp, fun hu => ⟨c₁, ⟨hr.1.mono fun _ _ => rfl, hr.2⟩, ?_⟩⟩
      simp only at hu
      subst hu
      exact eagerRounds_error 64 heq (by simp)

end Analysed

/-- What a state of the analysis says where control reaches its point. -/
structure StateHolds (s : ReadyState) (vars : Vars) (stack : List Word) : Prop where
  height : 0 ≤ s.depth → (stack.length : Int) = s.depth
  slots : ∀ k, s.get k → ∃ w, stack[k]? = some w ∧ w.isWhnf
  vars : ∀ v, s.vars.testBit v → ∃ w, vars.get v = some w ∧ w.isWhnf

section Row

variable {m : Mem} {row : List Word}

/-- What holds of every code a row with closed jumps is rewritten to. -/
theorem Rewritten.sound {c c' : PlCode} (h : Rewritten (fun _ => true) c c')
    (hval : Validated row c) (hlen : row.length < 2 ^ 32) (ht : TargetsInCode row) :
    ClosedProgram c' (rowFlow row) ∧ Sized c'.ops c'.nops := by
  have hp := h.program hval.program
  refine ⟨{ hp with closed := fun h' => ?_, short := ?_ }, ?_⟩
  · rw [h.nops, hval.nops]
    exact rowFlow_lt ht h'
  · rw [h.nops]
    exact Nat.lt_of_le_of_lt hval.length hlen
  · rw [h.nops]
    exact h.1.sized hval.program.layout hval.sized

theorem rewriteRow_analysed {c : PlCode} (isTarget : List Nat) (hval : Validated row c) :
    (∀ states, (rewriteRow m c isTarget).states = some states →
      ∃ c', Rewritten (fun _ => true) c c' ∧ readyAnalyse c' = .ok states ∧
        (rewriteRow m c isTarget).code = c'.ready states) ∧
      ((rewriteRow m c isTarget).result = .underflow →
        ∃ c', Rewritten (fun _ => true) c c' ∧ readyAnalyse c' = .error .underflow) := by
  obtain ⟨hfused, hall⟩ := hval.fused isTarget
  obtain ⟨hok, herr⟩ := bytecodeOptimise_analysed m isTarget (hfused.program hval.program) hall
  constructor
  · intro states hs
    obtain ⟨c', hrw, han, hcode⟩ := hok states hs
    exact ⟨c', hfused.trans hrw, han, hcode⟩
  · intro hu
    obtain ⟨c', hrw, han⟩ := herr hu
    exact ⟨c', hfused.trans hrw, han⟩

theorem readiness_sound {val : Word} (hrow : m.appArgs val = some row) (ht : TargetsInCode row) :
    (∀ o states, plBytecodeFromVal m val = .ok o → o.states = some states →
      ∀ k, Reachable o.code k →
        (∃ s, states[k.frame.pc]? = some s ∧ StateHolds s k.vars k.frame.stack) ∧
          OperandsReady o.code.ops k.frame) ∧
      ∀ c isTarget, validate m row = .ok (c, isTarget) →
        (PathsFit c → (rewriteRow m c isTarget).result = .underflow → Underflows c) ∧
          ∀ k os, Reachable c k → exec c k.vars k.frame = some os →
            .raise "bytecode stack underflow" ∈ os → Underflows c := by
  have hlen := m.length_appArgs hrow
  constructor
  · intro o states h hs k hk
    simp only [plBytecodeFromVal, hrow] at h
    obtain ⟨c, isTarget, hval, rfl, -⟩ := decodeRow_ok hlen h
    obtain ⟨c', hrw, han, hcode⟩ := (rewriteRow_analysed isTarget hval).1 states hs
    obtain ⟨hp, hz⟩ := hrw.sound hval hlen ht
    have hsolved := readyAnalyse_solved hp.toProgram han
    rw [hcode] at hk ⊢
    have hknown := reachable_known hp hz hsolved hk
    obtain ⟨s, hs, hd⟩ := hknown.1
    refine ⟨⟨s, hs, hd.height, hd.slots, fun v hv => ?_⟩, operands_ready hp hsolved hknown.1⟩
    by_cases h0 : 0 ≤ s.depth
    · exact hd.vars h0 v hv
    · rw [hsolved.unknown hs (by omega)] at hv
      simp at hv
  · intro c isTarget hv
    have hval := validate_ok hlen hv
    obtain ⟨hp₀, hz₀⟩ := Rewritten.sound ⟨.refl, rfl⟩ hval hlen ht
    refine ⟨fun hfits hu => ?_, fun k os hk hx hraise => ?_⟩
    · obtain ⟨c', hrw, han⟩ := (rewriteRow_analysed isTarget hval).2 hu
      obtain ⟨hp, -⟩ := hrw.sound hval hlen ht
      obtain ⟨hback, hunder | hfits'⟩ := hrw.1.underflows hp₀ hz₀ hfits
      · exact hunder
      · rw [← hrw.2] at hback hfits'
        exact hback (readyAnalyse_underflow hp hfits' han)
    · rcases reachable_path hp₀ hk with hunder | ⟨hpath, -⟩
      · exact hunder
      · exact ⟨_, _, hpath, (hpath.isStart hp₀).2, (exec_raises_iff hx).mp hraise⟩

end Row

/-- `PUSH_LIT 5; FORCE; RET`. -/
def literalRow : List Word := [1, 5, 3, 7]

def literalMem : Mem := rowMem literalRow (by decide)

/-- The literal is a value, so that its force and its return look at no tag. -/
theorem literalRow_ready :
    ∃ o states, plBytecodeFromVal literalMem rowVal = .ok o ∧ o.states = some states ∧
      o.code.ops = [1, 5, 22, 23] ∧
      ∀ k, Reachable o.code k → OperandsReady o.code.ops k.frame := by
  have hok : plBytecodeFromVal literalMem rowVal =
      .ok ⟨⟨[1, 5, 22, 23], 4, 0, 0, 0, []⟩, .ok, some [⟨0, 0, 0⟩, .unseen, ⟨1, 1, 0⟩, ⟨1, 1, 0⟩]⟩ := by
    decide +kernel
  have hrow : literalMem.appArgs rowVal = some literalRow := rfl
  have hsound := (readiness_sound (m := literalMem) hrow (by decide +kernel)).1 _ _ hok rfl
  exact ⟨_, _, hok, rfl, rfl, fun k hk => (hsound k hk).2⟩

/-- `PUSH_LIT 5; PUSH_LIT 6; CALL_KNOWN Add; RET`, with an argument count that is
two only as a `uint32_t`. -/
def wideCountRow : List Word :=
  [1, 5, 1, 6, 13, 2 ^ 32 + 2, Word.make Word.tagPin 2, OpDesc.mote "Add", 7]

def wideCountMem : Mem := rowMem wideCountRow (by decide)

/-- What `wideCountRow` validates to: the primop is resolved with two arguments. -/
def wideCountCode : PlCode := ⟨[1, 5, 1, 6, 13, 2 ^ 32 + 2, 8, 0, 7], 9, 0, 0, 0, []⟩

theorem wideCountCode_paths {pc h : Nat} (hpath : Path wideCountCode pc h) :
    (pc, h) ∈ [(0, 0), (2, 1), (4, 2), (8, 1)] := by
  induction hpath with
  | start => simp
  | strict hs => exact absurd rfl hs
  | block hb => simp [wideCountCode] at hb
  | step _ _ _ hg ih =>
    simp only [List.mem_cons, List.not_mem_nil, or_false, Prod.mk.injEq] at ih
    rcases ih with ⟨rfl, rfl⟩ | ⟨rfl, rfl⟩ | ⟨rfl, rfl⟩ | ⟨rfl, rfl⟩
    · have hnext : heights wideCountCode.ops 0 0 = [(2, 1)] := by decide
      simp_all
    · have hnext : heights wideCountCode.ops 2 1 = [(4, 2)] := by decide
      simp_all
    · have hnext : heights wideCountCode.ops 4 2 = [(8, 1)] := by decide
      simp_all
    · have hnext : heights wideCountCode.ops 8 1 = [] := by decide
      simp_all

/-- The analysis counts more operands than the handler takes, and rejects a row
none of whose paths underflows. -/
theorem wideCountRow_rejected :
    plBytecodeFromVal wideCountMem rowVal = .error (some "operand stack underflow") ∧
      (∃ isTarget, validate wideCountMem wideCountRow = .ok (wideCountCode, isTarget)) ∧
      ¬ Underflows wideCountCode := by
  refine ⟨by decide +kernel, ⟨[], by decide +kernel⟩, ?_⟩
  rintro ⟨pc, h, hpath, -, hu⟩
  have hmem := wideCountCode_paths hpath
  simp only [List.mem_cons, List.not_mem_nil, or_false, Prod.mk.injEq] at hmem
  rcases hmem with ⟨rfl, rfl⟩ | ⟨rfl, rfl⟩ | ⟨rfl, rfl⟩ | ⟨rfl, rfl⟩
  · exact hu
  · exact hu
  · exact absurd hu (by decide : ¬ (2 = 0 ∨ 2 < 2))
  · exact absurd hu (by decide : ¬ 1 = 0)

end Enki.Bytecode
