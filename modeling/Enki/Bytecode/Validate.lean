import Enki.Bytecode.Passes
import Enki.Lib.ExceptState

/-!
# What the validating walk establishes

`ScanInv` is the invariant of pass 1 of `pl_bytecode_from_val` while it is in the
code: the instructions read so far tile the row up to the cursor, each marked
its targets, and resolving a known primop changed no opcode, width or target.
`validate_program` reads the layout off its end.
-/

namespace Enki.Bytecode

open ExceptState (bind_ok)

/-- The instruction starts of a row, before its law directory, and the slot they
end at. -/
def rowWalk (row : List Word) : Nat → Nat → List Nat × Nat
  | 0, i => ([], i)
  | fuel + 1, i =>
    if i ≥ row.length ∨ opAt row i = some .lawblk then ([], i)
    else
      let (starts, e) := rowWalk row fuel (i + width row i)
      (i :: starts, e)

/-- The instruction starts of the code in a row. -/
def rowStarts (row : List Word) : List Nat := (rowWalk row row.length 0).1

/-- Where the code of a row ends: at its first `LAWBLK`, or with the row. -/
def codeEnd (row : List Word) : Nat := (rowWalk row row.length 0).2

/-- Every jump, arm and local call of the row aims below the end of its code. -/
def TargetsInCode (row : List Word) : Prop :=
  ∀ pc ∈ rowStarts row, ∀ t ∈ targets row pc, t < codeEnd row

instance (row : List Word) : Decidable (TargetsInCode row) := by
  unfold TargetsInCode
  infer_instance

/-- A check that passes, -/
theorem failIf_ok {c : Prop} [Decidable c] {msg : String} {u : Unit} :
    failIf c msg = .ok u ↔ ¬ c := by
  unfold failIf fail
  split_ifs with h <;> simp [h]

/-- and what comes behind one. -/
theorem failIf_bind_ok {c : Prop} [Decidable c] {msg : String} {α : Type}
    {f : Unit → Except DecodeError α} {r : α} :
    (failIf c msg >>= f) = .ok r ↔ ¬ c ∧ f () = .ok r := by
  rw [bind_ok]
  constructor
  · rintro ⟨⟨⟩, hc, hf⟩
    exact ⟨failIf_ok.1 hc, hf⟩
  · rintro ⟨hc, hf⟩
    exact ⟨(), failIf_ok.2 hc, hf⟩

/-- A target is marked if the row goes that far. -/
theorem markTarget_ok {n : Nat} {s s' : Scan} {tgt : Nat} (h : markTarget n s tgt = .ok s') :
    tgt < n ∧ s' = { s with isTarget := tgt :: s.isTarget } := by
  obtain ⟨hc, h⟩ := failIf_bind_ok.1 h
  obtain rfl := Except.ok.inj h
  simp only [not_or] at hc
  exact ⟨Nat.lt_of_not_le hc.1, rfl⟩

/-- The arms of a branch, one by one. -/
theorem markTargets_ok {n : Nat} (tgts : List Nat) :
    ∀ {s s' : Scan}, markTargets n s tgts = .ok s' →
      (∀ t ∈ tgts, t < n) ∧ s' = { s with isTarget := tgts.reverse ++ s.isTarget } := by
  unfold markTargets
  induction tgts with
  | nil =>
    intro s s' h
    obtain rfl := Except.ok.inj h
    simp
  | cons t tgts ih =>
    intro s s' h
    rw [List.foldlM_cons, bind_ok] at h
    obtain ⟨s₁, h₁, h⟩ := h
    obtain ⟨ht, rfl⟩ := markTarget_ok h₁
    obtain ⟨hts, rfl⟩ := ih h
    refine ⟨?_, by simp⟩
    rintro u hu
    rcases List.mem_cons.mp hu with rfl | hu
    · exact ht
    · exact hts u hu

/-- What pass 1 does at an instruction of the code: operands may be resolved; the
opcode, the first operand, the width and the targets stay; and the targets are
marked. -/
structure CodeStep (n : Nat) (s s' : Scan) (op : Op) : Prop where
  row : rowOp op
  length : s'.ops.length = s.ops.length
  cursor : s'.i = s.i + width s.ops s.i
  fits : s'.i ≤ n
  outside : ∀ j, j ≤ s.i ∨ s'.i ≤ j → slot s'.ops j = slot s.ops j
  count : slot s'.ops (s.i + 1) = slot s.ops (s.i + 1)
  width : width s'.ops s.i = width s.ops s.i
  targets : targets s'.ops s.i = targets s.ops s.i
  prim : ∀ idx, primIdx s'.ops s.i = some idx → (plOp idx).argc = Word.u32 (slot s.ops (s.i + 1))
  marked : ∀ t ∈ Bytecode.targets s.ops s.i, t < n ∧ t ∈ s'.isTarget
  isTarget : ∀ t ∈ s.isTarget, t ∈ s'.isTarget
  starts : s'.starts = s.starts
  lastOp : s'.lastOp = s.lastOp
  dirAt : s'.dirAt = s.dirAt
  dir : s'.dir = s.dir
  strict : s'.strictEntry = s.strictEntry ∨ op = .entry ∧ s'.strictEntry = Word.u32 (s.i + 2)

/-- An instruction that resolves nothing and marks nothing. -/
theorem CodeStep.skip {n : Nat} {s s' : Scan} {op : Op} {k : Nat} (hrow : rowOp op)
    (hw : Bytecode.width s.ops s.i = 1 + k) (hfits : s.i + 1 + k ≤ n)
    (ht : Bytecode.targets s.ops s.i = []) (hprim : primIdx s.ops s.i = none)
    (hs' : s'.ops = s.ops ∧ s'.i = s.i + 1 + k ∧ s'.isTarget = s.isTarget ∧
      s'.starts = s.starts ∧ s'.lastOp = s.lastOp ∧ s'.dirAt = s.dirAt ∧ s'.dir = s.dir ∧
      (s'.strictEntry = s.strictEntry ∨ op = .entry ∧ s'.strictEntry = Word.u32 (s.i + 2))) :
    CodeStep n s s' op := by
  obtain ⟨hops, hi, hm, hst, hl, hd, hdir, hstrict⟩ := hs'
  exact {
    row := hrow
    length := by rw [hops]
    cursor := by omega
    fits := by omega
    outside := fun j _ => by rw [hops]
    count := by rw [hops]
    width := by rw [hops]
    targets := by rw [hops]
    prim := by simp [hops, hprim]
    marked := by simp [ht]
    isTarget := by simp [hm]
    starts := hst
    lastOp := hl
    dirAt := hd
    dir := hdir
    strict := hstrict }

/-- An instruction that was read lies in the row. -/
theorem truncated_bind_ok {n : Nat} {s : Scan} {k : Nat} {α : Type}
    {f : Unit → Except DecodeError α} {r : α} :
    (truncated n s k >>= f) = .ok r ↔ s.i + 1 + k ≤ n ∧ f () = .ok r := by
  unfold truncated
  rw [failIf_bind_ok, Nat.not_lt]

/-- An instruction that marks its targets. -/
theorem CodeStep.mark {n : Nat} {s : Scan} {op : Op} {k : Nat} {t : List Nat}
    (hrow : rowOp op) (hw : Bytecode.width s.ops s.i = 1 + k) (hfits : s.i + 1 + k ≤ n)
    (ht : Bytecode.targets s.ops s.i = t) (hprim : primIdx s.ops s.i = none)
    (hlt : ∀ x ∈ t, x < n) :
    CodeStep n s ({ s with isTarget := t.reverse ++ s.isTarget }.skip k) op where
  row := hrow
  length := rfl
  cursor := by simp only [Scan.skip]; omega
  fits := by simp only [Scan.skip]; omega
  outside := fun j _ => rfl
  count := rfl
  width := rfl
  targets := rfl
  prim := by simp [Scan.skip, hprim]
  marked := fun x h => by
    rw [ht] at h
    exact ⟨hlt x h, by simp [Scan.skip, h]⟩
  isTarget := fun x h => by simp [Scan.skip, h]
  starts := rfl
  lastOp := rfl
  dirAt := rfl
  dir := rfl
  strict := .inl rfl

/-- An instruction two of whose operands are resolved, at `j` and right behind. -/
theorem CodeStep.resolve {n : Nat} {s : Scan} {op : Op} {k j a b : Nat}
    (hrow : rowOp op) (hw : Bytecode.width s.ops s.i = 1 + k) (hfits : s.i + 1 + k ≤ n)
    (ht : Bytecode.targets s.ops s.i = []) (hj : s.i + 1 < j ∧ j + 1 < s.i + 1 + k)
    (hw' : Bytecode.width ((s.ops.set j a).set (j + 1) b) s.i = 1 + k)
    (ht' : Bytecode.targets ((s.ops.set j a).set (j + 1) b) s.i = [])
    (hprim : primIdx ((s.ops.set j a).set (j + 1) b) s.i = some a)
    (hargc : (plOp a).argc = Word.u32 (slot s.ops (s.i + 1))) :
    CodeStep n s { s.skip k with ops := (s.ops.set j a).set (j + 1) b } op where
  row := hrow
  length := by simp
  cursor := by simp only [Scan.skip]; omega
  fits := by simp only [Scan.skip]; omega
  outside := fun i hi => by
    simp only [Scan.skip] at hi
    rw [slot_set_ne (by omega), slot_set_ne (by omega)]
  count := by rw [slot_set_ne (by omega), slot_set_ne (by omega)]
  width := by rw [hw', hw]
  targets := by rw [ht', ht]
  prim := fun idx hidx => by
    obtain rfl : a = idx := by simpa [hprim] using hidx
    exact hargc
  marked := by simp [ht]
  isTarget := fun t h => h
  starts := rfl
  lastOp := rfl
  dirAt := rfl
  dir := rfl
  strict := .inl rfl

/-- A known primop takes as many arguments as its instruction says. -/
theorem resolveOp_ok {m : Mem} {pin name : Word} {argc idx : Nat}
    (h : resolveOp m pin name argc = .ok idx) : (plOp idx).argc = Word.u32 argc := by
  unfold resolveOp at h
  split at h
  · cases h
  · split_ifs at h
    · cases h
    · split at h
      · cases h
      · rename_i hlookup
        obtain rfl := Except.ok.inj h
        exact (Mem.opLookup_some hlookup).2.2

/-- Inversion of pass 1 at an instruction of the code. -/
theorem scanOp_code {m : Mem} {n : Nat} {s s' : Scan} {op : Op} (h : scanOp m n s = .ok s')
    (hop : opAt s.ops s.i = some op) (hi : s.i < n) (hlen : s.ops.length = n) (hne : op ≠ .lawblk) :
    CodeStep n s s' op := by
  unfold scanOp at h
  simp only [hop] at h
  cases op with
  | pushVar | interp | pushLit | pushSlot =>
    obtain ⟨hfits, h⟩ := truncated_bind_ok.1 h
    obtain rfl := Except.ok.inj h
    exact .skip (k := 1) rfl (by simp [width, hop]) hfits (by simp [targets, hop])
      (by simp [primIdx, hop]) ⟨rfl, rfl, rfl, rfl, rfl, rfl, rfl, .inl rfl⟩
  -- no operands, so nothing to check
  | ret | force =>
    obtain rfl := Except.ok.inj h
    exact .skip (k := 0) rfl (by simp [width, hop]) hi (by simp [targets, hop])
      (by simp [primIdx, hop]) ⟨rfl, rfl, rfl, rfl, rfl, rfl, rfl, .inl rfl⟩
  -- the count is checked, and not looked at again
  | mkApp | callSlow =>
    obtain ⟨hfits, h⟩ := truncated_bind_ok.1 h
    obtain ⟨-, h⟩ := failIf_bind_ok.1 h
    obtain rfl := Except.ok.inj h
    exact .skip (k := 1) rfl (by simp [width, hop]) hfits (by simp [targets, hop])
      (by simp [primIdx, hop]) ⟨rfl, rfl, rfl, rfl, rfl, rfl, rfl, .inl rfl⟩
  | entry =>
    obtain ⟨hfits, h⟩ := truncated_bind_ok.1 h
    obtain ⟨-, h⟩ := failIf_bind_ok.1 h
    obtain rfl := Except.ok.inj h
    exact .skip (k := 1) rfl (by simp [width, hop]) hfits (by simp [targets, hop])
      (by simp [primIdx, hop]) ⟨rfl, rfl, rfl, rfl, rfl, rfl, rfl, .inr ⟨rfl, rfl⟩⟩
  -- one target, marked before the operand is skipped
  | jmp =>
    obtain ⟨hfits, h⟩ := truncated_bind_ok.1 h
    obtain ⟨s₁, hm, h⟩ := bind_ok.1 h
    obtain ⟨hlt, rfl⟩ := markTarget_ok hm
    obtain rfl := Except.ok.inj h
    exact .mark (k := 1) rfl (by simp [width, hop]) hfits (t := [_]) (by simp [targets, hop])
      (by simp [primIdx, hop]) (by simpa using hlt)
  | call | tailblk =>
    obtain ⟨hfits, h⟩ := truncated_bind_ok.1 h
    obtain ⟨s₁, hm, h⟩ := bind_ok.1 h
    obtain ⟨hlt, rfl⟩ := markTarget_ok hm
    obtain rfl := Except.ok.inj h
    exact .mark (k := 2) rfl (by simp [width, hop]) hfits (t := [_]) (by simp [targets, hop])
      (by simp [primIdx, hop]) (by simpa using hlt)
  | callFast =>
    obtain ⟨hfits, h⟩ := truncated_bind_ok.1 h
    obtain ⟨-, h⟩ := failIf_bind_ok.1 h
    obtain rfl := Except.ok.inj h
    exact .skip (k := 2) rfl (by simp [width, hop]) hfits (by simp [targets, hop])
      (by simp [primIdx, hop]) ⟨rfl, rfl, rfl, rfl, rfl, rfl, rfl, .inl rfl⟩
  | callKnown =>
    obtain ⟨hfits, h⟩ := truncated_bind_ok.1 h
    obtain ⟨-, h⟩ := failIf_bind_ok.1 h
    obtain ⟨idx, hidx, h⟩ := bind_ok.1 h
    obtain rfl := Except.ok.inj h
    have hop' : opAt ((s.ops.set (s.i + 1 + 1) idx).set (s.i + 1 + 1 + 1) 0) s.i =
        some .callKnown := by
      rw [opAt, slot_set_ne (by omega), slot_set_ne (by omega)]
      exact hop
    refine .resolve (k := 3) rfl (by simp [width, hop]) hfits (by simp [targets, hop])
      ⟨by omega, by omega⟩ (by simp [width, hop']) (by simp [targets, hop']) ?_ (resolveOp_ok hidx)
    simp only [primIdx, hop']
    rw [slot_set_ne (by omega), slot_set_self (by omega)]
  -- as many targets as the operand says
  | br =>
    obtain ⟨hfits, h⟩ := truncated_bind_ok.1 h
    obtain ⟨harms, h⟩ := failIf_bind_ok.1 h
    obtain ⟨s₁, hm, h⟩ := bind_ok.1 h
    obtain ⟨hlt, rfl⟩ := markTargets_ok _ hm
    obtain rfl := Except.ok.inj h
    simp only [not_or, Nat.not_lt, Nat.add_zero] at harms
    refine .mark (k := 1 + slot s.ops (s.i + 1)) rfl ?_ ?_ ?_ (by simp [primIdx, hop]) hlt
    · simp only [width, hop]
      omega
    · omega
    · simp only [targets, hop]
      refine List.map_congr_left fun k _ => ?_
      congr 1
      omega
  | mkThk =>
    obtain ⟨hfits, h⟩ := truncated_bind_ok.1 h
    obtain ⟨-, h⟩ := failIf_bind_ok.1 h
    obtain ⟨-, h⟩ := failIf_bind_ok.1 h
    -- only a known primop is resolved, and has two operands more
    have hskip : isKnown (slot s.ops (s.i + 2)) = false → (pure (s.skip 2) : Except DecodeError Scan) = .ok s' →
        CodeStep n s s' .mkThk := by
      intro hk h
      obtain rfl := Except.ok.inj h
      exact .skip (k := 2) rfl (by simp [width, hop, hk]) hfits (by simp [targets, hop])
        (by simp [primIdx, hop, hk]) ⟨rfl, rfl, rfl, rfl, rfl, rfl, rfl, .inl rfl⟩
    cases hb : Bane.ofWord (slot s.ops (s.i + 1 + 1)) with
    | none => simp [hb, fail] at h
    | some bane =>
      simp only [hb] at h
      cases bane with
      | primKnown =>
        obtain ⟨hfits, h⟩ := truncated_bind_ok.1 h
        obtain ⟨idx, hidx, h⟩ := bind_ok.1 h
        obtain rfl := Except.ok.inj h
        have hk : isKnown (slot s.ops (s.i + 2)) = true := by simpa [isKnown] using hb
        have hslot : ∀ j, j ≤ s.i + 2 → slot ((s.ops.set (s.i + 1 + 2) idx).set (s.i + 1 + 2 + 1)
            (specCode idx).code) j = slot s.ops j := by
          intro j hj
          rw [slot_set_ne (by omega), slot_set_ne (by omega)]
        have hop' : opAt ((s.ops.set (s.i + 1 + 2) idx).set (s.i + 1 + 2 + 1)
            (specCode idx).code) s.i = some .mkThk := by
          rw [opAt, hslot _ (by omega)]
          exact hop
        refine .resolve (k := 4) rfl (by simp [width, hop, hk]) hfits (by simp [targets, hop])
          ⟨by omega, by omega⟩ ?_ (by simp [targets, hop']) ?_ (resolveOp_ok hidx)
        · rw [width_mkThk hop', hslot _ (by omega), hk]
          rfl
        · simp only [primIdx, hop']
          rw [hslot _ (by omega), if_pos hk, slot_set_ne (by omega), slot_set_self (by omega)]
      | fast | slow | prim =>
        refine hskip ?_ h
        rw [isKnown, hb]
        rfl
  | lawblk => exact absurd rfl hne
  | _ => simp [fail] at h

/-- Inversion of pass 1 at a directory entry. -/
theorem scanOp_lawblk {m : Mem} {n : Nat} {s s' : Scan} (h : scanOp m n s = .ok s')
    (hop : opAt s.ops s.i = some .lawblk) :
    ∃ d : DirEntry, ∃ t : Nat, d.target = Word.u32 t ∧ t < n ∧
      s' = { s with
        i := s.i + 3, isTarget := t :: s.isTarget, dirAt := s.dirAt.or (some s.i),
        dir := s.dir ++ [d] } := by
  unfold scanOp at h
  simp only [hop] at h
  obtain ⟨-, h⟩ := truncated_bind_ok.1 h
  split at h
  · cases h
  · obtain ⟨-, h⟩ := failIf_bind_ok.1 h
    obtain ⟨s₁, hm, h⟩ := bind_ok.1 h
    obtain ⟨hlt, rfl⟩ := markTarget_ok hm
    obtain rfl := Except.ok.inj h
    exact ⟨_, _, rfl, hlt, rfl⟩

/-- The invariant of pass 1 in the code. The starts found so far tile the row up
to the cursor. -/
structure ScanInv (row : List Word) (s : Scan) : Prop where
  length : s.ops.length = row.length
  cursor : s.i ≤ row.length
  ahead : ∀ j, s.i ≤ j → slot s.ops j = slot row j
  first : s.i = 0 ∧ s.starts = [] ∨ 0 ∈ s.starts
  fits : ∀ {pc}, pc ∈ s.starts → pc + width s.ops pc ≤ s.i
  next : ∀ {pc}, pc ∈ s.starts → pc + width s.ops pc < s.i → pc + width s.ops pc ∈ s.starts
  apart : ∀ {pc q}, pc ∈ s.starts → q ∈ s.starts → pc < q → pc + width s.ops pc ≤ q
  isRow : ∀ {pc}, pc ∈ s.starts → ∃ op, opAt s.ops pc = some op ∧ rowOp op
  same : ∀ {pc}, pc ∈ s.starts →
    opAt s.ops pc = opAt row pc ∧ slot s.ops (pc + 1) = slot row (pc + 1)
  targets : ∀ {pc}, pc ∈ s.starts → Bytecode.targets s.ops pc = Bytecode.targets row pc
  prim : ∀ {pc}, pc ∈ s.starts → ∀ idx, primIdx s.ops pc = some idx →
    (plOp idx).argc = Word.u32 (slot s.ops (pc + 1))
  marked : ∀ {pc t}, pc ∈ s.starts → t ∈ Bytecode.targets s.ops pc → t < row.length ∧ t ∈ s.isTarget
  last : s.starts = [] ∧ s.lastOp = none ∨
    ∃ pc ∈ s.starts, pc + width s.ops pc = s.i ∧ opAt s.ops pc = s.lastOp
  strict : s.strictEntry ≠ 0 → ∃ pc ∈ s.starts, opAt s.ops pc = some .entry ∧ s.strictEntry = pc + 2
  dirAt : s.dirAt = none
  dir : s.dir = []

/-- The scan state pass 1 hands to `scanOp`. -/
def Scan.begin (s : Scan) (op : Option Op) : Scan :=
  { s with starts := s.i :: s.starts, lastOp := op }

/-- Pass 1 keeps its invariant at an instruction of the code. -/
theorem ScanInv.step {row : List Word} {s s' : Scan} {op : Op} (h : ScanInv row s)
    (hop : opAt s.ops s.i = some op) (hlen : row.length < 2 ^ 32)
    (hs : CodeStep row.length (s.begin (some op)) s' op) :
    ScanInv row s' ∧ s'.i = s.i + width row s.i := by
  obtain ⟨hrow, hlength, hcur, hfits, hout, hcount, hw, ht, hprim, hmark, hmark', hstarts, hlast, hdirAt,
    hdir, hstrict⟩ := hs
  simp only [Scan.begin] at hlength hcur hout hcount hw ht hprim hmark hmark'
  simp only [Scan.begin] at hstarts hlast hdirAt hdir hstrict
  have hpos := width_pos s.ops s.i
  have hold : ∀ {pc}, pc ∈ s.starts → pc + width s.ops pc ≤ s.i := h.fits
  -- instructions read before keep their slots
  have hsame : ∀ {pc}, pc ∈ s.starts → opAt s'.ops pc = opAt s.ops pc ∧
      width s'.ops pc = width s.ops pc ∧
      Bytecode.targets s'.ops pc = Bytecode.targets s.ops pc ∧
      fallsThrough s'.ops pc = fallsThrough s.ops pc := by
    intro pc hpc
    have := hold hpc
    exact same_instr fun i _ hi => hout i (.inl (by omega))
  have hop' : opAt s'.ops s.i = some op := by
    rw [opAt, hout s.i (.inl (Nat.le_refl _))]
    exact hop
  -- the instruction at the cursor is still the row's
  have hhere : width s.ops s.i = width row s.i ∧ Bytecode.targets s.ops s.i =
      Bytecode.targets row s.i := by
    have := same_instr (q := s.i) fun i hi (_ : i < s.i + width row s.i) => h.ahead i hi
    exact ⟨this.2.1, this.2.2.1⟩
  refine ⟨⟨by rw [hlength, h.length], hfits, ?_, ?_, ?_, ?_, ?_, ?_, ?_, ?_, ?_, ?_, ?_,
    ?_, by rw [hdirAt, h.dirAt], by rw [hdir, h.dir]⟩, by rw [hcur, hhere.1]⟩
  · intro j hj
    rw [hout j (.inr hj)]
    exact h.ahead j (by omega)
  · right
    rw [hstarts]
    rcases h.first with ⟨h0, -⟩ | h0
    · simp [h0]
    · simp [h0]
  · intro pc hpc
    rw [hstarts] at hpc
    rcases List.mem_cons.mp hpc with rfl | hpc
    · omega
    · rw [(hsame hpc).2.1]
      have := hold hpc
      omega
  · intro pc hpc hlt
    rw [hstarts] at hpc ⊢
    rcases List.mem_cons.mp hpc with rfl | hpc
    · omega
    · rw [(hsame hpc).2.1] at hlt ⊢
      rcases Nat.lt_or_ge (pc + width s.ops pc) s.i with hlt' | hge
      · exact List.mem_cons_of_mem _ (h.next hpc hlt')
      · have := hold hpc
        obtain heq : pc + width s.ops pc = s.i := by omega
        simp [heq]
  · intro pc q hpc hq hlt
    rw [hstarts] at hpc hq
    -- the instruction at the cursor is the last one, so it comes behind all others
    rcases List.mem_cons.mp hpc with rfl | hpc <;> rcases List.mem_cons.mp hq with rfl | hq
    · omega
    · have := hold hq
      omega
    · rw [(hsame hpc).2.1]
      exact hold hpc
    · rw [(hsame hpc).2.1]
      exact h.apart hpc hq hlt
  · intro pc hpc
    rw [hstarts] at hpc
    rcases List.mem_cons.mp hpc with rfl | hpc
    · exact ⟨op, hop', hrow⟩
    · rw [(hsame hpc).1]
      exact h.isRow hpc
  · intro pc hpc
    rw [hstarts] at hpc
    rcases List.mem_cons.mp hpc with rfl | hpc
    · rw [hop', hcount, h.ahead _ (by omega), ← hop, opAt, opAt, h.ahead _ (Nat.le_refl _)]
      exact ⟨rfl, rfl⟩
    · rw [(hsame hpc).1, hout _ (.inl (by have := hold hpc; have := width_pos s.ops pc; omega))]
      exact h.same hpc
  · intro pc hpc
    rw [hstarts] at hpc
    rcases List.mem_cons.mp hpc with rfl | hpc
    · rw [ht, hhere.2]
    · rw [(hsame hpc).2.2.1]
      exact h.targets hpc
  · intro pc hpc idx hidx
    rw [hstarts] at hpc
    rcases List.mem_cons.mp hpc with rfl | hpc
    · rw [hcount]
      exact hprim idx hidx
    · have hle := hold hpc
      rw [same_primIdx fun i _ hi => hout i (.inl (by omega))] at hidx
      have hw2 : pc + 1 < pc + width s.ops pc := width_primIdx hidx
      rw [hout (pc + 1) (.inl (by omega))]
      exact h.prim hpc idx hidx
  · intro pc t hpc htgt
    rw [hstarts] at hpc
    rcases List.mem_cons.mp hpc with rfl | hpc
    · rw [ht] at htgt
      exact hmark t htgt
    · rw [(hsame hpc).2.2.1] at htgt
      exact ⟨(h.marked hpc htgt).1, hmark' t (h.marked hpc htgt).2⟩
  · right
    exact ⟨s.i, by simp [hstarts], by rw [hw, hcur], by rw [hop', hlast]⟩
  · intro hne
    rcases hstrict with hstrict | ⟨rfl, hstrict⟩
    · rw [hstrict] at hne ⊢
      obtain ⟨pc, hpc, hentry, heq⟩ := h.strict hne
      exact ⟨pc, by simp [hstarts, hpc], by rw [(hsame hpc).1, hentry], heq⟩
    · refine ⟨s.i, by simp [hstarts], hop', ?_⟩
      have hw2 : width s.ops s.i = 2 := by simp [width, hop]
      rw [hstrict]
      exact Word.u32_of_lt (Nat.lt_of_le_of_lt (m := row.length) (by omega) hlen)

/-- What the walk over the directory keeps. -/
structure DirStep (n : Nat) (s s' : Scan) : Prop where
  ops : s'.ops = s.ops
  lastOp : s'.lastOp = s.lastOp
  strictEntry : s'.strictEntry = s.strictEntry
  dirAt : s'.dirAt = s.dirAt
  starts : ∀ pc, pc < s.i → (pc ∈ s'.starts ↔ pc ∈ s.starts)
  isTarget : ∀ t ∈ s.isTarget, t ∈ s'.isTarget
  dir : ∀ d ∈ s'.dir, d ∈ s.dir ∨ d.target ∈ s'.isTarget

/-- Behind the code there are directory entries only, which mark their targets. By induction on
the fuel. -/
theorem scanRow_dir {m : Mem} {n : Nat} (hn : n < 2 ^ 32) (fuel : Nat) :
    ∀ {s s' : Scan}, s.dirAt.isSome → scanRow m n fuel s = .ok s' → DirStep n s s' := by
  induction fuel with
  | zero =>
    intro s s' _ h
    obtain rfl := Except.ok.inj h
    exact ⟨rfl, rfl, rfl, rfl, fun _ _ => Iff.rfl, fun _ h => h, fun _ h => .inl h⟩
  | succ fuel ih =>
    intro s s' hdir h
    simp only [scanRow] at h
    split at h
    · obtain rfl := Except.ok.inj h
      exact ⟨rfl, rfl, rfl, rfl, fun _ _ => Iff.rfl, fun _ h => h, fun _ h => .inl h⟩
    · obtain ⟨hop, h⟩ := failIf_bind_ok.1 h
      simp only [hdir, true_and, ne_eq, not_not] at hop
      obtain ⟨s₁, hs₁, h⟩ := bind_ok.1 h
      obtain ⟨d, t, hd, ht, rfl⟩ := scanOp_lawblk hs₁ hop
      have hstep := ih (by simp) h
      have hor : s.dirAt.or (some s.i) = s.dirAt := by
        obtain ⟨a, ha⟩ := Option.isSome_iff_exists.mp hdir
        simp [ha]
      refine ⟨hstep.ops, ?_, hstep.strictEntry, by rw [hstep.dirAt]; exact hor, ?_, ?_, ?_⟩
      · rw [hstep.lastOp]
        simp [hop]
      · intro pc hpc
        rw [hstep.starts pc (by simp only; omega)]
        simp only [List.mem_cons]
        constructor
        · rintro (rfl | h')
          · omega
          · exact h'
        · exact .inr
      · intro u hu
        exact hstep.isTarget u (List.mem_cons_of_mem _ hu)
      · intro e he
        rcases hstep.dir e he with he | he
        · rcases List.mem_append.mp he with he | he
          · exact .inl he
          · obtain rfl := List.mem_singleton.mp he
            refine .inr (hstep.isTarget _ ?_)
            rw [hd, Word.u32_of_lt (Nat.lt_trans ht hn)]
            simp
        · exact .inr he

/-- Pass 1 over the code: it ends with the row, or at the first directory entry,
where the walk over the row ends too. -/
theorem scanRow_code {m : Mem} {row : List Word} (hlen : row.length < 2 ^ 32) (fuel : Nat) :
    ∀ {s s' : Scan}, ScanInv row s → row.length ≤ s.i + fuel →
      scanRow m row.length fuel s = .ok s' →
      ∃ t, ScanInv row t ∧ t.starts.reverse = s.starts.reverse ++ (rowWalk row fuel s.i).1 ∧
        t.i = (rowWalk row fuel s.i).2 ∧
        (s' = t ∧ t.i = row.length ∨
          opAt t.ops t.i = some .lawblk ∧ t.i < row.length ∧
            ∃ k, scanRow m row.length (k + 1) t = .ok s') := by
  induction fuel with
  | zero =>
    intro s s' h hfuel hs
    obtain rfl := Except.ok.inj hs
    have := h.cursor
    exact ⟨s, h, by simp [rowWalk], by simp [rowWalk], .inl ⟨rfl, by omega⟩⟩
  | succ fuel ih =>
    intro s s' h hfuel hs
    have hrow : opAt row s.i = opAt s.ops s.i := by
      rw [opAt, opAt, h.ahead _ (Nat.le_refl _)]
    have hcur := h.cursor
    rcases Nat.lt_or_ge s.i row.length with hlt | hge
    · by_cases hlaw : opAt s.ops s.i = some .lawblk
      · have hw : rowWalk row (fuel + 1) s.i = ([], s.i) := by simp [rowWalk, hrow, hlaw]
        exact ⟨s, h, by simp [hw], by simp [hw], .inr ⟨hlaw, hlt, fuel, hs⟩⟩
      · -- one instruction of the code, and then the rest
        simp only [scanRow, Nat.not_le.mpr hlt, if_false, hlaw, ne_eq, not_false_eq_true,
          if_true] at hs
        obtain ⟨-, hs⟩ := failIf_bind_ok.1 hs
        obtain ⟨s₁, hs₁, hs⟩ := bind_ok.1 hs
        cases hop : opAt s.ops s.i with
        | none =>
          rw [scanOp] at hs₁
          simp [hop, fail] at hs₁
        | some op =>
          have hstep : CodeStep row.length (s.begin (some op)) s₁ op := by
            rw [hop] at hs₁
            exact scanOp_code hs₁ hop hlt h.length fun he => hlaw (he ▸ hop)
          obtain ⟨hinv, hi⟩ := h.step hop hlen hstep
          have hpos := width_pos row s.i
          obtain ⟨t, ht, hstarts, hend, hcase⟩ := ih hinv (by omega) hs
          have hw : rowWalk row (fuel + 1) s.i =
              (s.i :: (rowWalk row fuel s₁.i).1, (rowWalk row fuel s₁.i).2) := by
            rw [rowWalk, if_neg (by rw [hrow]; exact not_or.mpr ⟨Nat.not_le.mpr hlt, hlaw⟩), hi]
          refine ⟨t, ht, ?_, by rw [hend, hw], hcase⟩
          rw [hstarts, hw, hstep.starts]
          simp [Scan.begin]
    · have hw : rowWalk row (fuel + 1) s.i = ([], s.i) := by simp [rowWalk, hge]
      rw [scanRow, if_pos hge] at hs
      obtain rfl := Except.ok.inj hs
      exact ⟨s, h, by simp [hw], by simp [hw], .inl ⟨rfl, by omega⟩⟩

/-- A block that is added is that of the entry. -/
theorem mem_lawblkAdd {got : List LawBlk} {law : Word} {d : DirEntry} {b : LawBlk}
    (h : b ∈ lawblkAdd got law d) : b ∈ got ∨ b.target = d.target := by
  unfold lawblkAdd at h
  split_ifs at h
  · exact .inl h
  · rcases List.mem_append.mp h with h | h
    · exact .inl h
    · obtain rfl := List.mem_singleton.mp h
      exact .inr rfl

/-- Every resolved block is that of a directory entry. -/
theorem mem_resolveLawblks {m : Mem} {ops : List Word} {dir : List DirEntry} {lits : List Nat}
    {b : LawBlk} (h : b ∈ resolveLawblks m ops dir lits) : ∃ d ∈ dir, b.target = d.target := by
  -- adding one keeps the property, so both loops do
  have hadd : ∀ {got : List LawBlk} {law : Word} {d : DirEntry}, d ∈ dir →
      (∀ b ∈ got, ∃ d ∈ dir, b.target = d.target) →
      ∀ b ∈ lawblkAdd got law d, ∃ d ∈ dir, b.target = d.target := by
    intro got law d hd hgot b hb
    rcases mem_lawblkAdd hb with hb | hb
    · exact hgot b hb
    · exact ⟨d, hd, hb⟩
  refine List.foldlRecOn (motive := fun got => ∀ b : LawBlk, b ∈ got → ∃ d ∈ dir, b.target = d.target)
    lits _ ?_ (fun got hgot j _ => ?_) b h
  · exact List.foldlRecOn (motive := fun got => ∀ b : LawBlk, b ∈ got → ∃ d ∈ dir,
      b.target = d.target) dir _ (by simp) fun got hgot d hd => hadd hd hgot
  · unfold resolveLit
    split
    · rename_i v d hv
      obtain ⟨w, -, hw⟩ := Option.map_eq_some_iff.mp hv
      obtain ⟨rfl, hfind⟩ := Prod.mk.inj hw
      exact hadd (List.mem_of_find?_eq_some hfind) hgot
    · exact hgot

/-- The scan at the end of the code, and what the directory added to it. -/
structure ScanEnd (row : List Word) (t s : Scan) : Prop where
  inv : ScanInv row t
  starts_eq : t.starts.reverse = rowStarts row
  end_eq : t.i = codeEnd row
  ops : s.ops = t.ops
  lastOp : s.lastOp = t.lastOp
  strictEntry : s.strictEntry = t.strictEntry
  dirAt : s.dirAt.getD t.ops.length = t.i
  starts : ∀ pc, pc < t.i → (pc ∈ s.starts ↔ pc ∈ t.starts)
  isTarget : ∀ x ∈ t.isTarget, x ∈ s.isTarget
  dir : ∀ d ∈ s.dir, d.target ∈ s.isTarget
  noDir : s.dirAt = none → s.dir = []

/-- Pass 1 is over: in the code, or in the directory behind it. -/
theorem scanRow_end {m : Mem} {row : List Word} {s : Scan} (hlen : row.length < 2 ^ 32)
    (h : scanRow m row.length row.length ⟨row, 0, none, none, [], [], [], [], 0, 0, 0⟩ = .ok s) :
    ∃ t, ScanEnd row t s := by
  have hinit : ScanInv row ⟨row, 0, none, none, [], [], [], [], 0, 0, 0⟩ := by
    constructor <;> simp
  obtain ⟨t, ht, hstarts, hend, ⟨rfl, hi⟩ | ⟨hlaw, hlt, k, hk⟩⟩ :=
    scanRow_code hlen row.length hinit (by simp) h
  · refine ⟨s, ht, by simpa [rowStarts] using hstarts, hend, rfl, rfl, rfl, ?_, fun _ _ => Iff.rfl,
      fun _ hx => hx, by simp [ht.dir], fun _ => ht.dir⟩
    simp [ht.dirAt, ht.length, hi]
  · -- the first directory entry fixes the end of the code
    rw [scanRow, if_neg (Nat.not_le.mpr hlt)] at hk
    obtain ⟨-, hk⟩ := failIf_bind_ok.1 hk
    obtain ⟨s₁, hs₁, hk⟩ := bind_ok.1 hk
    obtain ⟨d, u, hd, hu, rfl⟩ := scanOp_lawblk hs₁ hlaw
    have hdir := scanRow_dir hlen k (by simp) hk
    refine ⟨t, ht, by simpa [rowStarts] using hstarts, hend, hdir.ops, ?_, hdir.strictEntry, ?_, ?_, ?_, ?_,
      ?_⟩
    · rw [hdir.lastOp]
      simp [hlaw]
    · rw [hdir.dirAt]
      simp [ht.dirAt]
    · intro pc hpc
      rw [hdir.starts pc (by simp only; omega)]
      simp only [List.mem_cons]
      constructor
      · rintro (rfl | h')
        · omega
        · exact h'
      · exact .inr
    · exact fun x hx => hdir.isTarget x (List.mem_cons_of_mem _ hx)
    · intro e he
      rcases hdir.dir e he with he | he
      · obtain rfl : e = d := by simpa [ht.dir] using he
        refine hdir.isTarget _ ?_
        rw [hd, Word.u32_of_lt (Nat.lt_trans hu hlen)]
        simp
      · exact he
    · intro hnone
      rw [hdir.dirAt] at hnone
      simp [ht.dirAt] at hnone

/-- The targets of the row's instructions. -/
def rowFlow (row : List Word) (pc : Nat) : List Nat :=
  if pc ∈ rowStarts row then targets row pc else []

/-- What validation establishes about the code it cuts out of a row. -/
structure Validated (row : List Word) (c : PlCode) : Prop where
  program : Program c (rowFlow row)
  rowOps : AllFrom rowOp c.ops c.nops 0
  nops : c.nops = codeEnd row
  length : c.nops ≤ row.length
  starts : ∀ pc, IsStart c.ops c.nops pc ↔ pc ∈ rowStarts row
  same : ∀ pc ∈ rowStarts row, opAt c.ops pc = opAt row pc ∧
    slot c.ops (pc + 1) = slot row (pc + 1)
  prim : ∀ pc ∈ rowStarts row, ∀ idx, primIdx c.ops pc = some idx →
    (plOp idx).argc = Word.u32 (slot c.ops (pc + 1))

namespace ScanEnd

variable {row : List Word} {t s : Scan}

theorem mem_starts (h : ScanEnd row t s) {pc : Nat} : pc ∈ t.starts ↔ pc ∈ rowStarts row := by
  rw [← h.starts_eq, List.mem_reverse]

/-- A code that ends in a `RET` is laid out. -/
theorem layout (h : ScanEnd row t s) (hlast : t.lastOp = some .ret) :
    Layout t.ops t.i (· ∈ t.starts) (rowFlow row) := by
  -- the last opcode is a `RET`, so there is one
  have hne : t.starts ≠ [] := by
    intro hnil
    rcases h.inv.last with ⟨-, hl⟩ | ⟨pc, hpc, -⟩
    · simp [hl] at hlast
    · simp [hnil] at hpc
  obtain ⟨e, he, hend, hret⟩ := h.inv.last.resolve_left fun hn => hne hn.1
  rw [hlast] at hret
  refine ⟨by rw [h.inv.length]; exact h.inv.cursor,
    h.inv.first.resolve_left fun hn => hne hn.2, fun {pc} hpc => ?_, h.inv.fits, h.inv.next,
    fun {pc} hpc hf => ?_, h.inv.apart, fun {pc} hpc => ?_, fun {pc} hpc => ?_, fun {pc} hpc => ?_⟩
  · have := h.inv.fits hpc
    have := width_pos t.ops pc
    omega
  · -- only the last instruction ends with the code, and that is a `RET`
    have hfits := h.inv.fits hpc
    rcases Nat.lt_or_eq_of_le hfits with hlt | heq
    · exact hlt
    · exfalso
      rcases Nat.lt_trichotomy pc e with hlt | rfl | hgt
      · have := h.inv.apart hpc he hlt
        have := width_pos t.ops e
        omega
      · simp [fallsThrough, hret] at hf
      · have := h.inv.apart he hpc hgt
        have := width_pos t.ops pc
        omega
  · obtain ⟨op, hop, hrow⟩ := h.inv.isRow hpc
    exact ⟨op, hop, by rintro rfl; simp [rowOp] at hrow⟩
  · rw [h.inv.targets hpc, rowFlow, if_pos (h.mem_starts.mp hpc)]
  · rw [rowFlow, if_neg fun hs => hpc (h.mem_starts.mpr hs)]

end ScanEnd

/-- Inversion of validation. -/
theorem validate_ok {m : Mem} {row : List Word} {c : PlCode} {isTarget : List Nat}
    (hlen : row.length < 2 ^ 32) (h : validate m row = .ok (c, isTarget)) : Validated row c := by
  obtain ⟨s, hs, h⟩ := bind_ok.1 h
  obtain ⟨c', hcut, h⟩ := bind_ok.1 h
  obtain ⟨rfl, -⟩ := Prod.mk.inj (Except.ok.inj h)
  obtain ⟨t, ht⟩ := scanRow_end hlen hs
  obtain ⟨hrange, hcut⟩ := failIf_bind_ok.1 hcut
  obtain ⟨hlast, hcut⟩ := failIf_bind_ok.1 hcut
  obtain ⟨htargets, hcut⟩ := failIf_bind_ok.1 hcut
  obtain rfl := Except.ok.inj hcut
  simp only [ht.ops, ht.dirAt] at hrange htargets
  have hlast : t.lastOp = some .ret := by rw [← ht.lastOp]; exact not_not.mp hlast
  have hlaid := ht.layout hlast
  have hstarts : (· ∈ t.starts) = IsStart t.ops t.i := hlaid.starts_eq
  have hmem : ∀ pc, pc ∈ t.starts ↔ IsStart t.ops t.i pc := fun pc => iff_of_eq (congrFun hstarts pc)
  -- a marked target below the end of the code is a start
  have hmarked : ∀ j ∈ s.isTarget, j < t.i → IsStart t.ops t.i j := by
    intro j hj hlt
    rw [← hmem, ← ht.starts j hlt]
    by_contra hns
    exact htargets ⟨j, hj, hlt, hns⟩
  refine ⟨⟨?_, ?_, ?_, ?_⟩, ?_, by rw [← ht.end_eq, ← ht.dirAt, ht.ops], ?_, ?_, ?_, ?_⟩
  all_goals simp only [ht.ops, ht.dirAt]
  · rw [← hstarts]
    exact hlaid
  · intro pc x hx hlt
    have hpc : pc ∈ t.starts := by
      rw [ht.mem_starts]
      by_contra hn
      simp [rowFlow, hn] at hx
    rw [← hlaid.flow_eq hpc] at hx
    exact hmarked x (ht.isTarget x (ht.inv.marked hpc hx).2) hlt
  · rw [ht.strictEntry]
    intro hne
    obtain ⟨pc, hpc, hentry, heq⟩ := ht.inv.strict hne
    have hw : width t.ops pc = 2 := by simp [width, hentry]
    -- the strict entry is behind an `ENTRY`, which does not end the code
    have hnext := hlaid.next hpc (hlaid.falls hpc (by simp [fallsThrough, hentry]))
    rw [heq, ← hmem]
    rwa [hw] at hnext
  · intro b hb
    -- without a directory there are no blocks, and with one their range was checked
    cases hdir : s.dirAt with
    | none => simp [hdir] at hb
    | some a =>
      simp only [hdir, Option.isSome_some, if_true] at hb
      obtain ⟨d, hd, heq⟩ := mem_resolveLawblks hb
      rw [heq]
      refine hmarked _ (ht.dir d hd) ?_
      by_contra hge
      exact hrange ⟨by simp [hdir], List.any_eq_true.mpr ⟨d, hd, by simpa using hge⟩⟩
  · intro q hq _
    exact ht.inv.isRow ((hmem q).mpr hq)
  · exact ht.inv.cursor
  · intro pc
    rw [← hmem, ht.mem_starts]
  · intro pc hpc
    exact ht.inv.same (ht.mem_starts.mpr hpc)
  · intro pc hpc
    exact ht.inv.prim (ht.mem_starts.mpr hpc)

end Enki.Bytecode
