import Enki.Bytecode.Exec

/-!
# Control flow of decoded streams

The decoder checks a jump target against the length of the whole row, and only
afterwards cuts the law directory off, so that a target inside the directory is
never looked at again. Apart from those targets control flow is sound:
`decodeRow_sound_iff` says that a decoded stream is sound exactly when every
target of the row lies in its code.
-/

namespace Enki.Bytecode

open ExceptState (bind_ok)

/-- Every target, the strict entry and every law block is the first slot of an
instruction of the code, and execution reads whole instructions of it only. -/
structure ControlSound (c : PlCode) : Prop where
  target : ∀ {pc}, IsStart c.ops c.nops pc → ∀ t ∈ targets c.ops pc, IsStart c.ops c.nops t
  strict : c.strictEntry ≠ 0 → IsStart c.ops c.nops c.strictEntry
  law : ∀ {b}, b ∈ c.lawblks → IsStart c.ops c.nops b.target
  run : ∀ {k}, Reachable c k → IsStart c.ops c.nops k.frame.pc ∧
    k.frame.pc + width c.ops k.frame.pc ≤ c.nops

/-- Control goes from `pc` to `pc'`: to a target, as the handlers convert it, or
to the slot behind. -/
def Follows (ops : List Word) (pc pc' : Nat) : Prop :=
  (∃ t ∈ targets ops pc, pc' = Word.u32 t) ∨ fallsThrough ops pc ∧ pc' = pc + width ops pc

/-- Where an outcome continues. -/
def Outcome.succs : Outcome → List Nat
  | .next pc _ | .build pc _ | .await pc _ => [pc]
  | .enter target _ pc _ => [target, pc]
  | .raise _ | .leave | .give _ => []

/-- Execution follows the control flow of the stream. -/
theorem exec_follows {c : PlCode} {vars : Vars} {f : Frame} {os : List Outcome} {o : Outcome}
    (h : exec c vars f = some os) (ho : o ∈ os) : ∀ pc ∈ o.succs, Follows c.ops f.pc pc := by
  obtain ⟨op, hop, hd⟩ := exec_does h ho
  have hfall : ∀ {pc'}, fallsThrough c.ops f.pc → pc' = f.pc + width c.ops f.pc →
      Follows c.ops f.pc pc' := fun hf he => .inr ⟨hf, he⟩
  cases hd with
  | raise | leave | give => simp [Outcome.succs]
  | pushVar | blockVar | pushLit | pushSlot =>
    simp only [Outcome.succs, List.mem_singleton, forall_eq]
    exact hfall (by simp [fallsThrough, hop]) (by simp [width, hop])
  | stay hmem =>
    simp only [Outcome.succs, List.mem_singleton, forall_eq]
    refine hfall ?_ rfl
    simp only [List.mem_cons, List.not_mem_nil, or_false] at hmem
    rcases hmem with rfl | rfl | rfl <;> simp [fallsThrough, hop]
  | jmp | tailblk =>
    simp only [Outcome.succs, List.mem_singleton, forall_eq]
    exact .inl ⟨_, by simp [targets, hop], rfl⟩
  | br ht _ =>
    simp only [Outcome.succs, List.mem_singleton, forall_eq]
    exact .inl ⟨_, ht, rfl⟩
  | call =>
    simp only [Outcome.succs, List.mem_cons, List.not_mem_nil, or_false, forall_eq_or_imp, forall_eq]
    exact ⟨.inl ⟨_, by simp [targets, hop], rfl⟩,
      hfall (by simp [fallsThrough, hop]) (by simp [width, hop])⟩
  | mkThk =>
    simp only [Outcome.succs, List.mem_singleton, forall_eq]
    exact hfall (by simp [fallsThrough, hop]) rfl
  | await hk =>
    simp only [Outcome.succs, List.mem_singleton, forall_eq]
    refine hfall ?_ rfl
    cases op <;> simp_all [evalPops, fallsThrough]

/-- A program whose targets all lie in its code. -/
structure ClosedProgram (c : PlCode) (flow : Nat → List Nat) : Prop extends Program c flow where
  closed : ∀ {pc t}, t ∈ flow pc → t < c.nops
  short : c.nops < 2 ^ 32

namespace ClosedProgram

variable {c : PlCode} {flow : Nat → List Nat}

theorem follows (h : ClosedProgram c flow) {pc pc' : Nat} (hpc : IsStart c.ops c.nops pc)
    (hf : Follows c.ops pc pc') : IsStart c.ops c.nops pc' := by
  rcases hf with ⟨t, ht, rfl⟩ | ⟨hfall, rfl⟩
  · rw [h.layout.flow_eq hpc] at ht
    have hlt := h.closed ht
    rw [Word.u32_of_lt (Nat.lt_trans hlt h.short)]
    exact h.target ht hlt
  · exact h.layout.next hpc (h.layout.falls hpc hfall)

/-- The running frame and every caller stand at instructions of the code. -/
def AtStarts (c : PlCode) (k : Conf) : Prop :=
  IsStart c.ops c.nops k.frame.pc ∧ ∀ g ∈ k.callers, IsStart c.ops c.nops g.pc

theorem entry_atStarts (h : ClosedProgram c flow) {k : Conf} (hk : Entry c k) : AtStarts c k := by
  cases hk with
  | start => exact ⟨h.layout.zero, by simp⟩
  | strict hs _ => exact ⟨h.strict hs, by simp⟩
  | block hb _ => exact ⟨h.law hb, by simp⟩

theorem step_atStarts (h : ClosedProgram c flow) {k k' : Conf} (hk : AtStarts c k)
    (hs : Step c k k') : AtStarts c k' := by
  obtain ⟨hpc, hcallers⟩ := hk
  cases hs with
  | next hx ho | build _ hx ho | await hx ho _ =>
    exact ⟨h.follows hpc (exec_follows hx ho _ (by simp [Outcome.succs])), hcallers⟩
  | enter hx ho =>
    refine ⟨h.follows hpc (exec_follows hx ho _ (by simp [Outcome.succs])), ?_⟩
    intro g hg
    rcases List.mem_cons.mp hg with rfl | hg
    · exact h.follows hpc (exec_follows hx ho _ (by simp [Outcome.succs]))
    · exact hcallers g hg
  | @leave _ _ g | @give _ _ g =>
    exact ⟨hcallers g (List.mem_cons_self ..), fun g' hg => hcallers g' (List.mem_cons_of_mem _ hg)⟩

theorem reachable_atStarts (h : ClosedProgram c flow) {k : Conf} (hk : Reachable c k) :
    AtStarts c k :=
  hk.induction h.entry_atStarts h.step_atStarts

theorem controlSound (h : ClosedProgram c flow) : ControlSound c where
  target := by
    intro pc hpc t ht
    rw [h.layout.flow_eq hpc] at ht
    exact h.target ht (h.closed ht)
  strict := h.strict
  law := h.law
  run := fun hk => ⟨(h.reachable_atStarts hk).1, h.layout.fits (h.reachable_atStarts hk).1⟩

end ClosedProgram

theorem rowOp_plain {op : Op} (h : rowOp op) : plainOp op := by
  simp [plainOp, h]

/-- The code pass 3 hands on is laid out, and holds plain opcodes only. -/
theorem Validated.fused {row : List Word} {c : PlCode} (hval : Validated row c)
    (isTarget : List Nat) :
    Rewritten (fun _ => true) c { c with ops := fuseTails c.nops isTarget c.ops } ∧
      AllFrom plainOp (fuseTails c.nops isTarget c.ops) c.nops 0 := by
  have hfuse := fuseTails_chain isTarget hval.program.layout hval.rowOps
  have hplain : AllFrom plainOp c.ops c.nops 0 := by
    intro q hq hle
    obtain ⟨op, hop, hrow⟩ := hval.rowOps q hq hle
    exact ⟨op, hop, rowOp_plain hrow⟩
  exact ⟨⟨hfuse.mono fun _ _ => rfl, rfl⟩, hfuse.allFrom rfl hval.program.layout hplain⟩

/-- What a decode leaves: the validated code, rewritten in place. -/
theorem decodeRow_ok {m : Mem} {row : List Word} {o : Optimised} (hlen : row.length < 2 ^ 32)
    (h : decodeRow m row = .ok o) :
    ∃ c isTarget, Validated row c ∧ o = rewriteRow m c isTarget ∧
      Rewritten (fun _ => true) c o.code := by
  obtain ⟨⟨c, isTarget⟩, hv, h⟩ := bind_ok.1 h
  obtain ⟨-, h⟩ := failIf_bind_ok.1 h
  obtain rfl := Except.ok.inj h
  have hval := validate_ok hlen hv
  obtain ⟨hfused, hall⟩ := hval.fused isTarget
  exact ⟨c, isTarget, hval, rfl, hfused.trans
    (bytecodeOptimise_rewritten m isTarget (hfused.program hval.program) hall)⟩

section Decode

variable {m : Mem} {row : List Word} {o : Optimised}

/-- The walk of pass 1 over the row finds the targets of the decoded stream. -/
theorem decodeRow_program (hlen : row.length < 2 ^ 32) (h : decodeRow m row = .ok o) :
    Program o.code (rowFlow row) ∧ o.code.nops = codeEnd row ∧ o.code.nops < 2 ^ 32 ∧
      ∀ pc ∈ rowStarts row, IsStart o.code.ops o.code.nops pc := by
  obtain ⟨c, -, hval, -, hrw⟩ := decodeRow_ok hlen h
  refine ⟨hrw.program hval.program, hrw.nops.trans hval.nops, ?_, fun pc hpc => ?_⟩
  · rw [hrw.nops]
    exact Nat.lt_of_le_of_lt hval.length hlen
  · rw [hrw.nops]
    exact (hrw.1.layout hval.program.layout).2 pc ((hval.starts pc).mpr hpc)

theorem rowFlow_lt (h : TargetsInCode row) {pc t : Nat} (ht : t ∈ rowFlow row pc) :
    t < codeEnd row := by
  unfold rowFlow at ht
  split_ifs at ht with hpc
  · exact h pc hpc t ht
  · simp at ht

theorem decodeRow_controlSound (hlen : row.length < 2 ^ 32) (h : decodeRow m row = .ok o) :
    ControlSound o.code ↔ TargetsInCode row := by
  obtain ⟨hp, hnops, hshort, hstarts⟩ := decodeRow_program hlen h
  constructor
  · -- no rewrite changes a target, so one past the code is still there
    intro hs pc hpc t ht
    have hflow : targets o.code.ops pc = targets row pc := by
      rw [hp.layout.flow_eq (hstarts pc hpc), rowFlow, if_pos hpc]
    rw [← hnops]
    exact (hs.target (hstarts pc hpc) t (hflow ▸ ht)).2
  · intro ht
    have hclosed : ClosedProgram o.code (rowFlow row) :=
      { hp with closed := fun h' => hnops ▸ rowFlow_lt ht h', short := hshort }
    exact hclosed.controlSound

/-- An accepted row has sound control flow exactly when no jump, branch arm or
local call of it aims at the law directory. -/
theorem controlSound_iff {val : Word} (hrow : m.appArgs val = some row)
    (h : plBytecodeFromVal m val = .ok o) : ControlSound o.code ↔ TargetsInCode row := by
  simp only [plBytecodeFromVal, hrow] at h
  exact decodeRow_controlSound (m.length_appArgs hrow) h

end Decode

section Rows

/-- A store with a row at address 0, a law of one argument at 1 and the pin of
the op set 66 at 2. -/
def rowMem (row : List Word) (h : row.length < 2 ^ 32) : Mem where
  cell
    | 0 => .app 0 row
    | 1 => .law 1 0 0
    | 2 => .pin none 66
    | _ => .other
  codeMask := fun _ => 0
  headDepth := 1
  args_lt := by
    intro a head args hcell
    split at hcell <;> simp_all

/-- The application at address 0. -/
def rowVal : Word := Word.make Word.tagApp 0

/-- The law at address 1. -/
def rowLaw : Word := Word.make Word.tagLaw 1

/-- `JMP 2; PUSH_LIT 5; RET`, and a directory entry for the block at 2. -/
def closedRow : List Word := [11, 2, 1, 5, 7, 28, rowLaw, 2]

/-- `JMP 5; RET`, and a directory entry for the block at 2: the jump aims at the
target operand of the entry. -/
def openRow : List Word := [11, 5, 7, 28, rowLaw, 2]

def closedMem : Mem := rowMem closedRow (by decide)

def openMem : Mem := rowMem openRow (by decide)

end Rows

/-- The code decoded from `openRow`. -/
def openCode : PlCode := ⟨openRow, 3, 0, 0, 0, [⟨rowLaw, 2, 1⟩]⟩

/-- The directory entry is read as an instruction: the jump leads to slot 5 of a
code of three slots. -/
theorem openRow_leaves_code :
    (∃ o, plBytecodeFromVal openMem rowVal = .ok o ∧ o.code = openCode) ∧
      (∃ k, Reachable openCode k ∧ openCode.nops ≤ k.frame.pc) ∧ ¬ ControlSound openCode := by
  have hjmp : exec openCode (.env []) ⟨0, []⟩ = some [.next 5 []] := rfl
  have hrun : Reachable openCode ⟨.env [], ⟨5, []⟩, []⟩ :=
    ⟨_, .start [], .single (.next hjmp (List.mem_singleton_self _))⟩
  refine ⟨⟨⟨openCode, .ok, some [⟨0, 0, 0⟩, .unseen, ⟨1, 0, 0⟩]⟩, by decide +kernel, rfl⟩,
    ⟨_, hrun, by decide⟩, fun hs => ?_⟩
  have hlt : 5 < openCode.nops := (hs.run hrun).1.2
  exact absurd hlt (by decide)

theorem closedRow_sound : ∃ o, plBytecodeFromVal closedMem rowVal = .ok o ∧ ControlSound o.code := by
  have hok : (plBytecodeFromVal closedMem rowVal).toOption.isSome := by decide +kernel
  cases h : plBytecodeFromVal closedMem rowVal with
  | error e => simp [h, Except.toOption] at hok
  | ok o =>
    have hrow : closedMem.appArgs rowVal = some closedRow := rfl
    exact ⟨o, rfl, (controlSound_iff hrow h).mpr (by decide +kernel)⟩

end Enki.Bytecode
