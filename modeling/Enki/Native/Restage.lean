import Enki.Native.CrashSafe
import Enki.Native.StageGraph

/-!
# A staged PIN is found again

`Later n n'`: what a process does to its store. A PIN that the index has stays there
through every call, a failed one and a checkpoint among them, so that
`pl_native_load` returns it and `pl_native_stage` of its hash changes nothing.
-/

namespace Enki.Native

open Cheney

/-! ## Later stores -/

/-- The stores that calls of a process lead to. -/
inductive Later (n : Store) : Store → Prop where
  | refl : Later n n
  | call {w : World} {p p' : Proc} {c : Call} : Later n p.store → w.proc = some p →
      (w.call p c).2.proc = some p' → Later n p'.store

/-- The index has a PIN for this hash, and its record is what it should be. -/
def Indexes (n : Store) (hash : Key) (off : Nat) : Prop :=
  ∃ h m p, Writing n h m ∧ m false hash = off ∧ n.disk.pin off n.next n.work.nextId = some p ∧
    p.hash = hash

section

variable {n n' : Store} {h : List Super} {m m' : Bool → Key → Nat} {hash : Key} {off : Nat} {p : Pin}

theorem Indexes.ne_zero (h : Indexes n hash off) : off ≠ 0 := by
  obtain ⟨_, _, p, -, -, hp, -⟩ := h
  have hstart := (nbound_iff.1 (Disk.pin_eq_some.1 hp).2.1).1
  unfold start granule at hstart
  omega

theorem Indexes.load (h : Indexes n hash off) : n.load hash = some off := by
  have h0 := h.ne_zero
  obtain ⟨_, m, p, hw, hm, hp, hhash⟩ := h
  have hl : n.workingLookup n.work.objects hash = some (m false hash) := hw.lookup false hash
  unfold Store.load
  rw [hl, hm]
  dsimp only
  rw [if_neg h0, hp]
  dsimp only
  rw [if_pos hhash]

/-- Staging an indexed hash returns its PIN, and writes nothing. -/
theorem Indexes.restage (h : Indexes n hash off) (hw : n.writable = true) (mem : Mem) (body : Nat)
    (subpins : List Nat) :
    n.stageGraph mem hash body subpins = some (some (pinAt off), n, mem) := by
  have h0 := h.ne_zero
  have hload := h.load
  obtain ⟨_, m, p, hwr, hm, -, -⟩ := h
  have hl : n.workingLookup n.work.objects hash = some (m false hash) := hwr.lookup false hash
  unfold Store.stageGraph
  rw [if_neg (by simp [hw]), hl, hm]
  dsimp only
  rw [if_pos h0, hload]
  rfl

/-! ## Calls -/

/-- Calls that append, and keep the index. -/
theorem Indexes.grow (hi : Indexes n hash off)
    (hg : ∀ h m, Writing n h m → Appends n n' ∧ ∃ m', Writing n' h m' ∧ Grows n n' m m') :
    Indexes n' hash off := by
  have h0 := hi.ne_zero
  obtain ⟨h, m, p, hw, hm, hp, hhash⟩ := hi
  obtain ⟨happ, m', hw', hgrow⟩ := hg h m hw
  refine ⟨h, m', p, hw', ?_, ?_, hhash⟩
  · rw [hgrow.kept hash (hm ▸ h0), hm]
  · exact Disk.pin_mono happ.next happ.keeps.disk hgrow.ids hw'.ids.2 hp

theorem Indexes.faults (hi : Indexes n hash off) (fs : List Bool) :
    Indexes { n with faults := fs } hash off := by
  obtain ⟨h, m, p, hw, hm, hp, hhash⟩ := hi
  exact ⟨h, m, p, hw.faults fs, hm, hp, hhash⟩

/-- A poisoned store still has its index. -/
theorem Indexes.poison (hi : Indexes n hash off) (b : Bool) :
    Indexes { n with poisoned := b } hash off := by
  obtain ⟨h, m, p, hw, hm, hp, hhash⟩ := hi
  have ha := hw.indexed.aligned
  refine ⟨h, m, p, ⟨?_, hw.published, hw.work, hw.ids, hw.root, hw.room, hw.cap⟩, hm, hp, hhash⟩
  exact hw.indexed.keep ⟨rfl, le_rfl, fun _ _ hr _ _ => hr⟩ ⟨ha.1, ha.2, ha.3⟩ rfl fun c => by
    cases c <;> rfl

theorem Indexes.stage (hi : Indexes n hash off) (o : Object) : Indexes (n.stage o).2 hash off :=
  hi.grow fun _ _ hw => by
    obtain ⟨happ, m', hw', -, hg⟩ := stage_spec hw (Prod.mk.eta (p := n.stage o)).symm
    exact ⟨happ, m', hw', hg⟩

theorem Indexes.put (hi : Indexes n hash off) (key value : Key) :
    Indexes (n.put key value).2 hash off :=
  hi.grow fun _ _ hw => by
    obtain ⟨happ, m', hw', -, hg⟩ := put_spec hw (Prod.mk.eta (p := n.put key value)).symm
    exact ⟨happ, m', hw', hg⟩

theorem Indexes.seal (hi : Indexes n hash off) : Indexes n.seal.2 hash off :=
  hi.grow fun _ m hw => by
    obtain ⟨happ, hw', -, hwork, -⟩ := seal_spec hw (Prod.mk.eta (p := n.seal)).symm
    exact ⟨happ, m, hw', .same (by rw [hwork])⟩

theorem Indexes.prepare (hi : Indexes n hash off) (root : Key) :
    Indexes (n.prepare root).2 hash off :=
  hi.grow fun _ m hw => by
    obtain ⟨happ, hw', hwork, -⟩ := prepare_spec hw (Prod.mk.eta (p := n.prepare root)).symm
    exact ⟨happ, m, hw', .same (by rw [hwork])⟩

/-- A published checkpoint has the index of the store that prepared it. -/
theorem Indexes.publish {root : Key} {sb : Super} (hi : Indexes n hash off)
    (he : n.prepare root = (.candidate sb, n')) :
    Indexes { n' with committed := sb, work := sb, nodes := [], poisoned := false, faults := [] }
      hash off := by
  obtain ⟨h, m, p, hw, hm, hp, hhash⟩ := hi
  obtain ⟨happ, hw', hwork, -, hcand⟩ := prepare_spec hw he
  obtain ⟨hc, hcar⟩ := hcand sb rfl
  refine ⟨_, m, p, .of_published hc.published rfl hc.hi.symm hc.room ?_ ?_, hm, ?_, hhash⟩
  · show n'.disk.Denotes sb.hi sb.objects (m false)
    rw [hc.hi]
    exact hcar.objects
  · show n'.disk.Denotes sb.hi sb.cache (m true)
    rw [hc.hi]
    exact hcar.cache
  · have hids : n.work.nextId ≤ sb.nextId := by rw [hcar.ids, hwork]
    exact Disk.pin_mono happ.next happ.keeps.disk hids hc.published.ids.2 hp

/-- What the second half of a checkpoint makes of the store. -/
theorem publish_store {w : World} {p : Proc} {sb : Super} {p' : Proc}
    (h : (w.publish p n sb).2.proc = some p') :
    p'.store = { n with faults := [] } ∨ p'.store = { n with poisoned := true, faults := [] } ∨
    p'.store = { n with committed := sb, work := sb, nodes := [], poisoned := false, faults := [] } := by
  unfold World.publish at h
  obtain ⟨ok₁, fs₁, h₁⟩ := points_cases n 3
  rw [h₁] at h
  dsimp only at h
  split at h
  · cases h
    exact .inl rfl
  obtain ⟨ok₂, fs₂, h₂⟩ := points_cases { n with faults := fs₁ } 3
  rw [h₂] at h
  dsimp only at h
  split at h
  · cases h
    exact .inl rfl
  unfold World.writeSuper at h
  obtain ⟨ok₃, fs₃, h₃⟩ := point_cases { n with faults := fs₂, poisoned := true }
  dsimp only at h
  rw [h₃] at h
  dsimp only at h
  split at h
  · cases h
    exact .inr (.inl rfl)
  obtain ⟨ok₄, fs₄, h₄⟩ := points_cases { n with faults := fs₃, poisoned := true } 2
  rw [h₄] at h
  dsimp only at h
  split at h
  · cases h
    exact .inr (.inl rfl)
  obtain ⟨ok₅, fs₅, h₅⟩ := point_cases { n with faults := fs₄, poisoned := true }
  rw [h₅] at h
  dsimp only at h
  split at h
  · cases h
    exact .inr (.inl rfl)
  · cases h
    exact .inr (.inr rfl)

theorem Indexes.checkpoint {w : World} {q q' : Proc} {root : Key} (hi : Indexes n hash off)
    (h : (w.checkpoint q n root).2.proc = some q') : Indexes q'.store hash off := by
  have hprep := hi.prepare root
  unfold World.checkpoint at h
  cases he : n.prepare root with
  | mk r n₁ =>
  rw [he] at h hprep
  dsimp only at h hprep
  cases r with
  | failed =>
    cases h
    exact hprep.faults []
  | settled =>
    cases h
    exact hprep.faults []
  | candidate sb =>
    rcases publish_store h with hs | hs | hs
    · rw [hs]
      exact hprep.faults []
    · rw [hs]
      exact (hprep.poison true).faults []
    · rw [hs]
      exact hi.publish he

/-- A PIN that is in the index stays there. -/
theorem Indexes.later (hi : Indexes n hash off) (hl : Later n n') : Indexes n' hash off := by
  induction hl with
  | refl => exact hi
  | @call w p p' c _ hproc hcall ih =>
    cases c with
    | stage o fs =>
      cases hcall
      exact ((ih.faults fs).stage o).faults []
    | put key value fs =>
      cases hcall
      exact ((ih.faults fs).put key value).faults []
    | sealed fs =>
      cases hcall
      exact (ih.faults fs).seal.faults []
    | checkpoint root fs => exact (ih.faults fs).checkpoint hcall

/-! ## A staged body -/

variable {mem : Mem} {body size : Nat} {subpins : List Nat} {map : CopyMap}

/-- The body lies where `npin` expects it. -/
theorem Source.bodyInside (hs : Source n mem body)
    (hwalk : walk mem [] (bodyStart subpins.length) [body] = some (map, size))
    (hnext : n.next ≤ off) (hoff : off % 8 = 0) (id : Nat) :
    Pin.bodyInside ⟨size, hash, subpins.length, (objectOf mem hash body subpins).bodyAt off, id⟩ off =
      true := by
  unfold Pin.bodyInside Object.bodyAt objectOf
  by_cases hnat : isNat63 body = true
  · simp only [if_pos hnat]
  simp only [if_neg hnat]
  by_cases hpin : tag body = pinTag
  · have hgood : GoodPin n mem body := by
      rcases hs body .body with h | h | h
      · exact absurd h hnat
      · exact h
      · exact absurd hpin h.isNode.2
    obtain ⟨hlo, hhi⟩ := hgood.target
    unfold nptr at hlo hhi
    simp only [if_pos hpin, Bool.and_eq_true, beq_iff_eq, decide_eq_true_eq]
    unfold recordBytes start granule at *
    omega
  · have hn : IsNode body := ⟨by simpa using hnat, hpin⟩
    have hmem : (body, bodyStart subpins.length) ∈ map := by
      have hw := walk_walked hwalk
      obtain ⟨e, he, heq⟩ := hw.mem_map ⟨.body, hn⟩
      have hl := lookup_of_mem hw.nodup e he
      rw [heq, walk_root hwalk hn] at hl
      rwa [← heq, Option.some.inj hl]
    have hlaid := (walk_laid hwalk).1
    have hin := (hlaid.inside _ hmem).2
    have hpos := hlaid.pos _ hmem
    simp only [if_neg hpin, Bool.and_eq_true, beq_iff_eq, decide_eq_true_eq]
    unfold bodyStart recordBytes at *
    omega

/-- The record of a PIN just staged is in order. -/
theorem Stored.indexes (hst : Stored n n' h m off
      ⟨size, hash, subpins.length, (objectOf mem hash body subpins).bodyAt off, n.work.nextId⟩)
    (hw : Writing n h m) (hs : Source n mem body)
    (hwalk : walk mem [] (bodyStart subpins.length) [body] = some (map, size)) :
    Indexes n' hash off := by
  obtain ⟨hnext, hoff⟩ := hst.at_
  have hstart := hw.indexed.aligned.start_le
  have hlaid := (walk_laid hwalk).1
  have hmod : size % 8 = 0 := hlaid.mod (by unfold bodyStart recordBytes; omega)
  have hle := hlaid.le
  have hend := hst.next
  have hids := hst.id
  have hfirst := hw.published.ids.1.trans_le hw.ids.1
  refine ⟨h, _, _, hst.writing, by simp, Disk.pin_eq_some.2 ⟨hst.record, ?_⟩, rfl⟩
  rw [nbound_iff, nbound_iff]
  dsimp only at hend hids ⊢
  refine ⟨?_, ?_, hmod, ?_, ?_, ?_, by omega, by omega, by omega, hs.bodyInside hwalk hnext hoff _⟩
  · unfold bodyStart recordBytes at *
    omega
  · unfold bodyStart at hle
    omega
  · omega
  · unfold bodyStart pinCells at *
    omega
  · unfold bodyStart at hle
    omega

/-- `pl_native_stage` of a normal body over native PINs, on a store whose index is the map
`m`. If it succeeds on a new hash there is a copy of the body in an extent of its own,
which is what every later `pl_native_load` of the hash returns; on a hash that is in the index it
returns the PIN that is there, and changes nothing. -/
theorem staging_copies_body (hw : Writing n h m) (mem : Mem) (hash : Key) (body : Nat)
    (subpins : List Nat) :
    (m false hash = 0 → Source n mem body → ∃ r n' mem',
      n.stageGraph mem hash body subpins = some (r, n', mem') ∧
      n.stage (objectOf mem hash body subpins) = (r.isSome, n') ∧
      ∀ v, r = some v → ∃ off size at_, v = pinAt off ∧
        GraphStaged n n' mem mem' hash body subpins off size at_ ∧
        ∀ n'', Later n' n'' → n''.load hash = some off ∧
          (n''.writable = true → ∀ mem'' body' subpins',
            n''.stageGraph mem'' hash body' subpins' = some (some v, n'', mem''))) ∧
    (m false hash ≠ 0 → n.stageGraph mem hash body subpins =
      some (if n.writable then (n.load hash).map pinAt else none, n, mem)) := by
  have hl : n.workingLookup n.work.objects hash = some (m false hash) := hw.lookup false hash
  constructor
  · intro hnew hs
    obtain ⟨r, n', mem', he, hstage, hcopied⟩ := stageGraph_spec
      hs hw.cap
    refine ⟨r, n', mem', he, hstage, fun v hv => ?_⟩
    obtain ⟨map, size, off, hc⟩ := hcopied (hnew ▸ hl) v hv
    obtain ⟨n₁, hal⟩ := hc.alloc
    have hst : Stored n n' h m off ⟨size, hash, subpins.length,
        (objectOf mem hash body subpins).bodyAt off, n.work.nextId⟩ :=
      stage_new (o := objectOf mem hash body subpins) hw hnew (objectOf_cells hc.walked) hal
        (by rw [hstage, hv]; rfl)
    have hmod : size % 8 = 0 :=
      (walk_laid hc.walked).1.mod (by unfold bodyStart recordBytes; omega)
    have hend := hst.next
    have hidx := hst.indexes hw hs hc.walked
    refine ⟨off, size, place map off, hc.value, ⟨⟨hst.at_.1, hst.at_.2, ?_, hst.writing.cap⟩, hc.frame,
      hc.pin, hc.table, hc.body⟩, fun n'' hlater => ?_⟩
    · dsimp only at hend
      omega
    · have hidx' := hidx.later hlater
      refine ⟨hidx'.load, fun hwr mem'' body' subpins' => ?_⟩
      rw [hidx'.restage hwr, hc.value]
  · intro hold
    unfold Store.stageGraph
    cases hwr : n.writable with
    | false => simp
    | true =>
      rw [if_neg nofun, hl]
      dsimp only
      rw [if_pos hold]
      rfl

end

/-! ## A body with sharing -/

/-- An application whose two fields are the same law. -/
def sharedBody : Nat := make appTag 100

def sharedMem : Mem := fun a =>
  match a with
  | 100 => hdrMake .app 0 1 3
  | 101 => make lawTag 200
  | 102 => make lawTag 200
  | 200 => hdrMake .law 0 0 4
  | 201 => 2
  | 202 => 7
  | 203 => 1
  | _ => 0

theorem walk_shared : walk sharedMem [] (bodyStart 0) [sharedBody] =
    some ([(sharedBody, 104), (make lawTag 200, 128)], 160) := by
  have hbody : Found sharedMem [] 104 sharedBody [make lawTag 200, make lawTag 200] :=
    ⟨by decide, rfl, by decide, by decide, by decide⟩
  have hlaw : Found sharedMem [(sharedBody, 104)] 128 (make lawTag 200) [7, 1] :=
    ⟨by decide, by decide, by decide, by decide, by decide⟩
  have hagain : Passed sharedMem [(sharedBody, 104), (make lawTag 200, 128)] (make lawTag 200) :=
    .inr (.inr (by decide))
  calc walk sharedMem [] 104 [sharedBody]
    _ = walk sharedMem [(sharedBody, 104)] 128 [make lawTag 200, make lawTag 200] := hbody.walk
    _ = walk sharedMem [(sharedBody, 104), (make lawTag 200, 128)] 160 [1, 7, make lawTag 200] :=
      hlaw.walk
    _ = walk sharedMem [(sharedBody, 104), (make lawTag 200, 128)] 160 [] := by
      rw [Passed.walk (.inl (by decide)), Passed.walk (.inl (by decide)), hagain.walk]
    _ = _ := by rw [walk]

theorem writing_empty : Writing emptyStore [] fun _ _ => 0 := by
  have hp : Published emptyStore.disk emptySuper [] := by
    refine ⟨le_rfl, by decide, by decide, by decide, ⟨fun _ => 0, .inl ⟨rfl, fun _ => rfl⟩, .inl rfl⟩,
      ⟨fun _ => 0, .inl ⟨rfl, fun _ => rfl⟩⟩, .inl rfl, rfl, rfl, .inl ⟨rfl, rfl⟩, nofun⟩
  exact .of_published hp rfl rfl le_rfl (.inl ⟨rfl, fun _ => rfl⟩) (.inl ⟨rfl, fun _ => rfl⟩)

theorem source_shared : Source emptyStore sharedMem sharedBody := by
  have hgood : GoodNode emptyStore sharedMem sharedBody :=
    ⟨by decide, ⟨.app, by decide, by decide, by decide⟩, by decide, .inl (by decide)⟩
  have hlaw : GoodNode emptyStore sharedMem (make lawTag 200) :=
    ⟨by decide, ⟨.law, by decide, by decide, by decide⟩, by decide, .inl (by decide)⟩
  have hfields : bodyFields sharedMem sharedBody = some [make lawTag 200, make lawTag 200] := by
    decide
  have hleaf : bodyFields sharedMem (make lawTag 200) = some [7, 1] := by decide
  have hin : ∀ v, InBody sharedMem sharedBody v →
      isNat63 v = true ∨ v = sharedBody ∨ v = make lawTag 200 := by
    intro v hv
    induction hv with
    | body => exact .inr (.inl rfl)
    | @field v w fields _ hn hfs hw ih =>
      rcases ih with hnat | rfl | rfl
      · rw [hn.1] at hnat
        cases hnat
      · rw [hfields] at hfs
        cases hfs
        simp only [List.mem_cons, List.not_mem_nil, or_false, or_self] at hw
        exact .inr (.inr hw)
      · rw [hleaf] at hfs
        cases hfs
        simp only [List.mem_cons, List.not_mem_nil, or_false] at hw
        rcases hw with rfl | rfl
        · exact .inl (by decide)
        · exact .inl (by decide)
  intro v hv
  rcases hin v hv with h | rfl | rfl
  · exact .inl h
  · exact .inr (.inr hgood)
  · exact .inr (.inr hlaw)

theorem staging_copies_shared : ∃ v n' mem' off size at_,
    emptyStore.stageGraph sharedMem zeroKey sharedBody [] = some (some v, n', mem') ∧
      v = pinAt off ∧ GraphStaged emptyStore n' sharedMem mem' zeroKey sharedBody [] off size at_ ∧
      n'.load zeroKey = some off := by
  obtain ⟨r, n', mem', he, hstage, hr⟩ :=
    (staging_copies_body writing_empty sharedMem zeroKey sharedBody []).1 rfl source_shared
  have hobject : objectOf sharedMem zeroKey sharedBody [] = ⟨zeroKey, 0, true, .node, some [3, 4]⟩ := by
    rw [objectOf, List.length_nil, walk_shared]
    rfl
  have hok : (emptyStore.stage ⟨zeroKey, 0, true, .node, some [3, 4]⟩).1 = true := by decide +kernel
  rw [hobject] at hstage
  rw [hstage] at hok
  obtain ⟨v, rfl⟩ := Option.isSome_iff_exists.mp hok
  obtain ⟨off, size, at_, hv, hg, hlater⟩ := hr v rfl
  exact ⟨v, n', mem', off, size, at_, he, hv, hg, (hlater n' .refl).1⟩

end Enki.Native
