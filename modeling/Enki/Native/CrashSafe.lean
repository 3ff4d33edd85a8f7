import Enki.Native.Durable

/-!
# Checkpoints survive crashes

Every call, reopening and crash keeps the invariant, and so the promises of `CrashSafe`
hold at every moment of a run.

What breaks them is a checkpoint with nothing to write: it returns true at once, also on
a store that was reopened on a superblock that no sync has covered.
-/

namespace Enki.Native

/-! ## Calls -/

/-- A call that has nothing to write to a superblock not yet synchronized: these are the
calls that may be made. -/
def SyncedFirst (w : World) (p : Proc) : Call → Prop
  | .checkpoint hash _ => p.store.settled hash = true → ∀ s sb, .super s (some sb) ∉ w.file.writes
  | _ => True

/-- The records before the end of every checkpoint that can be selected are the same. -/
def Unchanged (w w' : World) : Prop :=
  ∀ sb h, w.last = sb :: h ∨ w.begun = some (sb :: h) → ∀ off r, off < sb.hi →
    off + r.len ≤ sb.hi → (w'.file.seen.disk off = some r ↔ w.file.seen.disk off = some r)

/-- A failure before the superblock is written: the process can try again. -/
structure Retryable (w w' : World) (p p' : Proc) : Prop where
  writable : p'.store.poisoned = false
  committed : p'.store.committed = p.store.committed
  slot : p'.slot = p.slot
  slots : w'.file.seen.slots = w.file.seen.slots
  index : ∀ cache key, p'.store.workingLookup (p'.store.rootOf cache) key =
    p.store.workingLookup (p.store.rootOf cache) key

/-- A failure afterwards: the other superblock has been written, which is the only write
since the sync of the data or has been synchronized too. -/
structure Ambiguous (w w' : World) (p p' : Proc) : Prop where
  poisoned : p'.store.poisoned = true
  slots : ∃ x, w'.file.seen.slots = Function.update w.file.seen.slots (!p.slot) x ∧
    (∀ sb, x = some sb → p.store.committed.generation < sb.generation) ∧
    (w'.file.writes = [.super (!p.slot) x] ∨ w'.file.writes = [] ∧ x.isSome)

/-- What a call leaves; the invariant only if the call may be made. -/
structure Called (w : World) (p : Proc) (may : Prop) (r : Bool × World) : Prop where
  inv : may → Inv r.2
  unchanged : Unchanged w r.2
  failed : r.1 = false → ∃ p', r.2.proc = some p' ∧ (Retryable w r.2 p p' ∨ Ambiguous w r.2 p p')

theorem points_eq (n : Store) (k : Nat) :
    (n.points k).2 = { n with faults := (n.points k).2.faults } := by
  induction k generalizing n with
  | zero => rfl
  | succ k ih =>
    have hp := point_eq n
    unfold Store.points
    generalize n.point = q at hp
    obtain ⟨ok, n₁⟩ := q
    dsimp only at hp ⊢
    split
    · exact hp
    · rw [ih n₁, hp]

theorem Durable.withProc {w : World} {slot : Bool} {sb : Super} {h : List Super}
    (hd : Durable w slot sb h) (q : Option Proc) : Durable { w with proc := q } slot sb h := by
  refine ⟨hd.last, hd.safe, hd.synced, hd.seen, hd.older, hd.acked, ?_⟩
  cases hd.beside with
  | idle hb hw ho => exact .idle hb hw ho
  | writing c hb hs hw hm hc => exact .writing c hb hs hw hm hc

/-- A process that can write, its lineage and its index. -/
structure Ready (w : World) (slot : Bool) (p : Proc) (k : List Super) (m : Bool → Key → Nat) :
    Prop where
  durable : ∃ sb h, Durable w slot sb h
  disk : p.store.disk = w.file.seen.disk
  mapped : p.store.mapped = w.file.seen.size
  readonly : p.store.readonly = false
  poisoned : p.store.poisoned = false
  writing : Writing p.store k m
  current : w.begun = none ∧ p.slot = slot ∧ w.last = p.store.committed :: k ∨
    w.begun = some (p.store.committed :: k) ∧ p.slot = !slot

section Calls

variable {w : World} {slot : Bool} {k : List Super} {p : Proc} {n n' : Store}
  {m m' : Bool → Key → Nat} {may : Prop}

theorem Ready.le_next (hr : Ready w slot p k m) :
    ∀ c k', w.last = c :: k' ∨ w.begun = some (c :: k') → c.hi ≤ p.store.next := by
  obtain ⟨sb, h, hd⟩ := hr.durable
  intro c k' hc
  exact (hd.le_current hr.writing.published hr.current c k' hc).trans
    hr.writing.indexed.aligned.committed

/-- The file shows the checkpoint that the process goes on from. -/
theorem Ready.shows (hr : Ready w slot p k m) :
    Shows w w.file.seen p.slot p.store.committed k := by
  obtain ⟨sb, h, hd⟩ := hr.durable
  rcases hr.current with ⟨hb, hslot, hl⟩ | ⟨hb, hslot⟩
  · obtain ⟨rfl, rfl⟩ := List.cons.inj (hd.last.symm.trans hl)
    cases hd.beside with
    | idle _ _ ho =>
      rw [hslot]
      exact ⟨hd.seen, ho, hd.safe.seen, hd.safe.seenSize, .inl hl, hl ▸ List.suffix_refl _⟩
    | writing c hb' =>
      rw [hb] at hb'
      cases hb'
  · cases hd.beside with
    | idle hb' =>
      rw [hb] at hb'
      cases hb'
    | writing c hb' hs _ _ hc =>
      rw [hb] at hb'
      obtain ⟨rfl, rfl⟩ := List.cons.inj (Option.some.inj hb')
      rw [hslot]
      refine ⟨hc, fun a ha => ?_, hs.seen, hs.seenSize, .inr hb, List.suffix_cons ..⟩
      rw [Bool.not_not, hd.seen] at ha
      cases ha
      exact (hs.seen.newer sb (by rw [hd.last]; rfl)).1

theorem Ready.unchanged (hr : Ready w slot p k m) (happ : Appends p.store n') {w' : World}
    (hw' : w'.file.seen.disk = n'.disk) : Unchanged w w' := by
  intro sb h hsel off r hlt hlen
  have hle := hr.le_next sb h hsel
  rw [hw', ← hr.disk]
  exact happ.disk off r (.inl ⟨hlt.trans_le hle, hlen.trans hle⟩)

/-- Writing to the mapping, with some script of failures. -/
theorem Ready.wrote (hr : Ready w slot p k m) {fs : List Bool}
    (happ : Appends { p.store with faults := fs } n') (hw : Writing n' k m') :
    Ready { w with file := w.file.wrote { p.store with faults := fs } n' } slot
      { p with store := n' } k m' := by
  obtain ⟨sb, h, hd⟩ := hr.durable
  refine ⟨⟨sb, h, hd.wrote happ hr.disk hr.mapped hr.le_next⟩, rfl, rfl,
    happ.readonly.trans hr.readonly, happ.poisoned.trans hr.poisoned, hw, ?_⟩
  have hc : n'.committed = p.store.committed := happ.committed
  dsimp only
  rw [hc]
  exact hr.current

/-- The script does not matter. -/
theorem Ready.faults (hr : Ready w slot p k m) (fs : List Bool) :
    Ready w slot { p with store := { p.store with faults := fs } } k m :=
  ⟨hr.durable, hr.disk, hr.mapped, hr.readonly, hr.poisoned, hr.writing.faults fs, hr.current⟩

/-- Between two calls. -/
theorem Ready.inv (hr : Ready w slot p k m) : Inv (w.keep p p.store) := by
  obtain ⟨sb, h, hd⟩ := hr.durable
  refine ⟨slot, sb, h, hd.withProc _, ?_⟩
  rintro _ ⟨⟩
  exact ⟨hr.disk, hr.mapped, hr.readonly, rfl,
    .inr ⟨hr.poisoned, k, m, hr.writing.faults [], hr.current⟩⟩

/-- A failure with the index unchanged. -/
theorem Ready.retryable (hr : Ready w slot p k m) {w' : World} {p' : Proc}
    (hw : Writing p'.store k m) (hok : p'.store.poisoned = false)
    (hc : p'.store.committed = p.store.committed) (hslot : p'.slot = p.slot)
    (hslots : w'.file.seen.slots = w.file.seen.slots) : Retryable w w' p p' :=
  ⟨hok, hc, hslot, hslots, fun cache key =>
    (hw.lookup cache key).trans (hr.writing.lookup cache key).symm⟩

/-- A call that only writes to the mapping. -/
theorem Ready.mapped_called (hr : Ready w slot p k m) {fs : List Bool} {ok : Bool}
    (happ : Appends { p.store with faults := fs } n') (hw : Writing n' k m')
    (hm : ok = false → m' = m) :
    Called w p may (w.mapped p { p.store with faults := fs } (ok, n')) := by
  have hr' := hr.wrote happ hw
  refine ⟨fun _ => hr'.inv, hr.unchanged (Appends.trans (.of_same rfl) happ) rfl, fun hok => ?_⟩
  obtain rfl := hm hok
  exact ⟨_, rfl, .inl (hr.retryable (hw.faults []) hr'.poisoned happ.committed rfl rfl)⟩

theorem Ready.settle (hr : Ready w slot p k m) : Ready (w.settle w.file.seen) p.slot p k m := by
  obtain ⟨sb, h, hd⟩ := hr.durable
  have hd' := hd.settle hr.shows
  exact ⟨⟨_, _, hd'⟩, hr.disk, hr.mapped, hr.readonly, hr.poisoned, hr.writing,
    .inl ⟨rfl, rfl, hd'.last⟩⟩

/-- The superblock beside the durable one is written, or torn. -/
theorem Durable.super {sb : Super} {h : List Super} (hd : Durable w slot sb h)
    (hf : w.file = ⟨w.file.seen, w.file.seen, []⟩) (written : Option Super)
    (hc : ∀ c, written = some c → Published w.file.seen.disk c w.last ∧ c.hi ≤ w.file.seen.size) :
    Durable { w with
      file := w.file.super (!slot) written
      begun := written.map (· :: w.last) } slot sb h := by
  have hsynced : w.file.synced = w.file.seen := by rw [hf]
  have hwrites : w.file.writes = [] := by rw [hf]
  have hsafe : ∀ c k, Published w.file.seen.disk c k → c.hi ≤ w.file.seen.size →
      Safe (w.file.super (!slot) written) c k := by
    intro c k hp hs
    refine ⟨hsynced ▸ hp, hp, hsynced ▸ hs, hs, fun lo hi hmem => ?_, fun b hmem => ?_⟩
    · simp [File.super, hwrites] at hmem
    · simp [File.super, hwrites] at hmem
  have hkeep : Function.update w.file.seen.slots (!slot) written slot = some sb := by
    rw [Function.update_of_ne (by simp)]
    exact hd.seen
  refine ⟨hd.last, hsafe sb h hd.safe.seen hd.safe.seenSize, hd.synced, hkeep, hd.older, hd.acked, ?_⟩
  cases written with
  | none =>
    refine .idle rfl (fun s x hx => ?_) fun a ha => ?_
    · simpa [File.super, hwrites] using hx
    · simp [File.super] at ha
  | some c =>
    obtain ⟨hp, hs⟩ := hc c rfl
    refine .writing c rfl (hsafe c _ hp hs) (fun s x hx => ?_) ?_ ?_
    · simpa [File.super, hwrites] using hx
    · simp [File.super]
    · simp [File.super]

/-- A process whose publication failed. -/
theorem Durable.poisoned {sb : Super} {h : List Super} (hd : Durable w slot sb h)
    (hdisk : n.disk = w.file.seen.disk) (hmapped : n.mapped = w.file.seen.size)
    (hro : n.readonly = false) (hpo : n.poisoned = true) (hp : Published n.disk n.committed k)
    (hsuffix : n.committed :: k <:+ w.last) : Inv (w.keep p n) := by
  refine ⟨slot, sb, h, hd.withProc _, ?_⟩
  rintro _ ⟨⟩
  exact ⟨hdisk, hmapped, hro, rfl, .inl ⟨hpo, k, hp, hsuffix⟩⟩

theorem points_cases (n : Store) (j : Nat) :
    ∃ ok fs, n.points j = (ok, { n with faults := fs }) :=
  ⟨(n.points j).1, (n.points j).2.faults, Prod.ext rfl (points_eq n j)⟩

theorem point_cases (n : Store) : ∃ ok fs, n.point = (ok, { n with faults := fs }) :=
  ⟨n.point.1, n.point.2.faults, Prod.ext rfl (point_eq n)⟩

/-- The superblock of `pl_native_checkpoint`, written by a process that has just
synchronized the data of the candidate `sb`. -/
theorem writeSuper_called {w₀ : World} {p₀ : Proc} (hd : Durable w p₀.slot n.committed k)
    (hdisk : n.disk = w.file.seen.disk) (hmapped : n.mapped = w.file.seen.size)
    (hro : n.readonly = false) (hf : w.file = ⟨w.file.seen, w.file.seen, []⟩)
    (hc : n.committed = p₀.store.committed) (hslots : w.file.seen.slots = w₀.file.seen.slots)
    (hun : ∀ w' : World, w'.file.seen.disk = n.disk → Unchanged w₀ w') {sb : Super}
    (hp : Published n.disk sb (n.committed :: k)) (hhi : sb.hi = n.next)
    (hroom : sb.hi ≤ n.mapped) : Called w₀ p₀ may (w.writeSuper p₀ n sb) := by
  have hgen : n.committed.generation < sb.generation := (hp.newer _ rfl).1
  have hpub : Published n.disk n.committed k := hdisk ▸ hd.safe.seen
  -- a poisoned process, whatever was written
  have hfail : ∀ {w' : World} {fs : List Bool} {s : Bool} {c : Super} {h : List Super}
      (x : Option Super), Durable w' s c h → w'.file.seen.disk = n.disk →
      w'.file.seen.size = n.mapped →
      w'.file.seen.slots = Function.update w₀.file.seen.slots (!p₀.slot) x →
      (∀ c, x = some c → c = sb) →
      (w'.file.writes = [.super (!p₀.slot) x] ∨ w'.file.writes = [] ∧ x.isSome) →
      n.committed :: k <:+ w'.last →
      Called w₀ p₀ may (false, w'.keep p₀ { n with poisoned := true, faults := fs }) := by
    intro w' fs s c h x hd' hdisk' hsize' hslots' hx hwrites' hsuffix
    refine ⟨fun _ => hd'.poisoned hdisk'.symm hsize'.symm hro rfl hpub hsuffix, hun _ hdisk',
      fun _ => ⟨_, rfl, .inr ⟨rfl, x, hslots', fun c hce => ?_, hwrites'⟩⟩⟩
    rw [hx c hce, ← hc]
    exact hgen
  unfold World.writeSuper
  obtain ⟨ok₁, fs₁, h₁⟩ := point_cases { n with poisoned := true }
  dsimp only
  rw [h₁]
  dsimp only
  have hwritten : ∀ c, (if ok₁ = true then some sb else none) = some c → c = sb := by
    intro c hce
    split at hce
    · cases hce
      rfl
    · cases hce
  have hd₁ := hd.super hf (if ok₁ = true then some sb else none) fun c hce => by
    rw [hwritten c hce, ← hdisk, ← hmapped, hd.last]
    exact ⟨hp, hroom⟩
  have hslots₁ : (w.file.super (!p₀.slot) (if ok₁ = true then some sb else none)).seen.slots =
      Function.update w₀.file.seen.slots (!p₀.slot) (if ok₁ = true then some sb else none) := by
    rw [← hslots]
    rfl
  have hwrites₁ : ∀ x, (w.file.super (!p₀.slot) x).writes = [.super (!p₀.slot) x] := by
    intro x
    rw [hf]
    rfl
  split
  · -- a torn superblock: the durable one is selected
    exact hfail _ hd₁ hdisk.symm hmapped.symm hslots₁ hwritten (.inl (hwrites₁ _))
      (hd.last ▸ List.suffix_refl _)
  next hok₁ =>
  obtain rfl : ok₁ = true := by simpa using hok₁
  simp only [if_true, Option.map_some] at hd₁ hslots₁ ⊢
  have hlast₁ : w.last = n.committed :: k := hd.last
  generalize hw₁ : ({ w with
    file := w.file.super (!p₀.slot) (some sb)
    begun := some (sb :: w.last) } : World) = w₁ at hd₁
  have hseen₁ : (w.file.super (!p₀.slot) (some sb)).seen = w₁.file.seen := by
    rw [← hw₁]
  have hdisk₁ : w₁.file.seen.disk = n.disk := by
    rw [← hw₁]
    exact hdisk.symm
  have hsize₁ : w₁.file.seen.size = n.mapped := by
    rw [← hw₁]
    exact hmapped.symm
  replace hslots₁ : w₁.file.seen.slots =
      Function.update w₀.file.seen.slots (!p₀.slot) (some sb) := by
    rw [← hw₁]
    exact hslots₁
  have hsuper₁ : w₁.file.writes = [.super (!p₀.slot) (some sb)] := by
    rw [← hw₁]
    exact hwrites₁ _
  obtain ⟨ok₂, fs₂, h₂⟩ := points_cases { n with faults := fs₁, poisoned := true } 2
  rw [h₂]
  dsimp only
  split
  · exact hfail _ hd₁ hdisk₁ hsize₁ hslots₁ (by simp) (.inl hsuper₁)
      (hd₁.last ▸ List.suffix_refl _)
  -- the sync makes the new checkpoint the durable one
  have hshows : Shows w₁ w₁.file.seen (!p₀.slot) sb (n.committed :: k) := by
    refine ⟨?_, fun a ha => ?_, hdisk₁ ▸ hp, hsize₁ ▸ hroom, ?_, ?_⟩
    · rw [hslots₁, Function.update_self]
    · rw [Bool.not_not, hd₁.seen] at ha
      cases ha
      exact hgen
    · rw [← hw₁, ← hlast₁]
      exact .inr rfl
    · rw [hd₁.last]
      exact List.suffix_cons ..
  have hd₂ := hd₁.settle hshows
  rw [hseen₁]
  obtain ⟨ok₃, fs₃, h₃⟩ := point_cases { n with faults := fs₂, poisoned := true }
  rw [h₃]
  dsimp only
  split
  · refine hfail _ hd₂ hdisk₁ hsize₁ hslots₁ (by simp) (.inr ⟨rfl, rfl⟩) ?_
    rw [hd₂.last]
    exact List.suffix_cons ..
  · refine ⟨fun _ => ?_, hun _ hdisk₁, nofun⟩
    obtain ⟨m', hw'⟩ := Writing.fresh (n := { n with
      committed := sb, work := sb, nodes := [], poisoned := false, faults := [] }) hp rfl
      hhi.symm hroom
    refine ⟨!p₀.slot, sb, n.committed :: k, ?_, ?_⟩
    · refine ⟨hd₂.last, hd₂.safe, hd₂.synced, hd₂.seen, hd₂.older, List.suffix_refl _, ?_⟩
      cases hd₂.beside with
      | idle hb hw ho => exact .idle hb hw ho
      | writing c hb hs hw hm hc => exact .writing c hb hs hw hm hc
    · rintro _ ⟨⟩
      exact ⟨hdisk₁.symm, hsize₁.symm, hro, rfl,
        .inr ⟨rfl, _, m', hw', .inl ⟨rfl, rfl, hd₂.last⟩⟩⟩

/-- The second half of `pl_native_checkpoint`, for the candidate `sb` of a process whose
store was `p₀.store` at the start. -/
theorem publish_called {w₀ : World} {p₀ : Proc} {slot₀ : Bool} (hr₀ : Ready w₀ slot₀ p₀ k m)
    (hr : Ready w slot { p₀ with store := n } k m) (hc : n.committed = p₀.store.committed)
    (hslots : w.file.seen.slots = w₀.file.seen.slots)
    (hun : ∀ w' : World, w'.file.seen.disk = n.disk → Unchanged w₀ w') {sb : Super}
    (hcand : Candidate p₀.store n k sb) : Called w₀ p₀ may (w.publish p₀ n sb) := by
  have hdisk : w.file.seen.disk = n.disk := hr.disk.symm
  have hp : Published n.disk sb (n.committed :: k) := by
    rw [hc]
    exact hcand.published
  unfold World.publish
  obtain ⟨ok₁, fs₁, h₁⟩ := points_cases n 3
  rw [h₁]
  dsimp only
  split
  · -- the data may not be durable, and nothing else has changed
    have hw := hr.writing.faults fs₁
    refine ⟨fun _ => (hr.faults fs₁).inv, hun _ hdisk, fun _ => ⟨_, rfl, .inl ?_⟩⟩
    exact hr₀.retryable (hw.faults []) hr.poisoned hc rfl hslots
  have hr₂ := hr.settle
  obtain ⟨ok₂, fs₂, h₂⟩ := points_cases { n with faults := fs₁ } 3
  rw [h₂]
  dsimp only
  split
  · have hw := hr.writing.faults fs₂
    refine ⟨fun _ => (hr₂.faults fs₂).inv, hun _ hdisk, fun _ => ⟨_, rfl, .inl ?_⟩⟩
    exact hr₀.retryable (hw.faults []) hr.poisoned hc rfl hslots
  · obtain ⟨sb₂, h₂, hd⟩ := hr.durable
    have hd' : Durable (w.settle w.file.seen) p₀.slot n.committed k := hd.settle hr.shows
    exact writeSuper_called (n := { n with faults := fs₂ }) hd' hr.disk hr.mapped hr.readonly rfl hc
      hslots hun hp hcand.hi hcand.room

/-- Every call of a process that can write. -/
theorem Ready.called (hr : Ready w slot p k m) (c : Call) :
    Called w p (SyncedFirst w p c) (w.call p c) := by
  cases c with
  | stage o fs =>
    obtain ⟨happ, m', hw, hm, -⟩ := stage_spec (hr.writing.faults fs) (Prod.mk.eta (p :=
      Store.stage { p.store with faults := fs } o)).symm
    exact hr.mapped_called happ hw hm
  | put key hash fs =>
    obtain ⟨happ, m', hw, hm, -⟩ := put_spec (hr.writing.faults fs) (Prod.mk.eta (p :=
      Store.put { p.store with faults := fs } key hash)).symm
    exact hr.mapped_called happ hw hm
  | sealed fs =>
    obtain ⟨happ, hw, -⟩ := seal_spec (hr.writing.faults fs) (Prod.mk.eta (p :=
      Store.seal { p.store with faults := fs })).symm
    exact hr.mapped_called happ hw fun _ => rfl
  | checkpoint hash fs =>
    simp only [World.call, World.checkpoint]
    cases he : Store.prepare { p.store with faults := fs } hash with
    | mk r n' =>
      obtain ⟨happ, hw, -, hset, hcand⟩ := prepare_spec (hr.writing.faults fs) he
      have hun : ∀ w' : World, w'.file.seen.disk = n'.disk → Unchanged w w' := fun w' =>
        hr.unchanged (Appends.trans (.of_same rfl) happ)
      have hr' := hr.wrote happ hw
      cases r with
      | failed =>
        refine ⟨fun _ => hr'.inv, hun _ rfl, fun _ => ⟨_, rfl, .inl ?_⟩⟩
        exact hr.retryable (hw.faults []) hr'.poisoned happ.committed rfl rfl
      | candidate sb =>
        obtain ⟨⟨hp, hhi, hroom⟩, -⟩ := hcand sb rfl
        exact publish_called hr hr' happ.committed rfl hun ⟨hp, hhi, hroom⟩
      | settled =>
        refine ⟨fun hok => ?_, hun _ rfl, nofun⟩
        obtain ⟨sb, h, hd⟩ := hr'.durable
        -- nothing is being written, so the process has the durable checkpoint
        have hbegun : w.begun = none := by
          obtain ⟨sb₀, h₀, hd₀⟩ := hr.durable
          cases hd₀.beside with
          | idle hb => exact hb
          | writing c _ _ _ hmem _ => exact absurd hmem (hok (hset rfl).2 _ _)
        have hacked : w.lineage n'.committed = w.last := by
          unfold World.lineage
          rw [hbegun]
        refine ⟨slot, sb, h, ?_, ?_⟩
        · refine ⟨hd.last, hd.safe, hd.synced, hd.seen, hd.older, ?_, ?_⟩
          · show w.lineage n'.committed <:+ w.last
            rw [hacked]
          · cases hd.beside with
            | idle hb hw ho => exact .idle hb hw ho
            | writing c hb hs hw hm hc => exact .writing c hb hs hw hm hc
        · rintro _ ⟨⟩
          exact ⟨rfl, rfl, hr'.readonly, rfl, .inr ⟨hr'.poisoned, k, m, hw.faults [], hr'.current⟩⟩

end Calls

theorem Open.ready {w : World} {slot : Bool} {p : Proc} (ho : Open w slot p)
    (hd : ∃ sb h, Durable w slot sb h) (hok : p.store.poisoned = false) :
    ∃ k m, Ready w slot p k m := by
  rcases ho.state with ⟨hp, -⟩ | ⟨-, k, m, hw, hcur⟩
  · rw [hok] at hp
    cases hp
  · exact ⟨k, m, hd, ho.disk, ho.mapped, ho.readonly, hok, hw, hcur⟩

/-- A poisoned store refuses everything, and nothing changes. -/
theorem Open.refuses {w : World} {slot : Bool} {p : Proc} (ho : Open w slot p)
    (hproc : w.proc = some p) (hpo : p.store.poisoned = true) (c : Call) :
    w.call p c = (false, w) := by
  have hno : ∀ fs, Store.writable { p.store with faults := fs } = false := by
    intro fs
    simp [Store.writable, hpo]
  have hsame : ∀ fs (n : Store), n = { p.store with faults := fs } →
      World.keep { w with file := w.file.wrote n n } p n = w := by
    rintro fs n rfl
    have hst : ({ p.store with faults := [] } : Store) = p.store := by rw [← ho.faults]
    simp only [World.keep, File.wrote, if_true, List.nil_append, hst]
    rw [ho.disk, ho.mapped, ← hproc]
  cases c with
  | stage o fs =>
    simp only [World.call, World.mapped, Store.stage, hno, if_true, hsame fs _ rfl]
  | put key hash fs =>
    simp only [World.call, World.mapped, Store.put, hno, if_true, hsame fs _ rfl]
  | sealed fs =>
    simp only [World.call, World.mapped, Store.seal, hno, if_true, hsame fs _ rfl]
  | checkpoint hash fs =>
    simp only [World.call, World.checkpoint, Store.prepare, hno, if_true, hsame fs _ rfl]

/-! ## Reopening -/

section Reopen

variable {w : World} {slot s : Bool} {sb c : Super} {h k : List Super}

/-- The store that `nopen` returns. -/
theorem Shows.nopen {img : Image} (hs : Shows w img s c k) :
    ∃ p, img.nopen = some p ∧ p.slot = s ∧ p.store.committed = c ∧ p.store.work = c ∧
      p.store.next = c.hi ∧ p.store.mapped = c.hi ∧ p.store.disk = img.disk.truncate c.hi ∧
      p.store.readonly = false ∧ p.store.poisoned = false ∧ p.store.faults = [] := by
  unfold Image.nopen
  rw [hs.select]
  exact ⟨_, rfl, rfl, rfl, rfl, rfl, rfl, rfl, rfl, rfl, rfl⟩

/-- The file shows the checkpoint being written, if there is one. -/
theorem Durable.shown_current (hd : Durable w slot sb h) (hs : Shows w w.file.seen s c k) :
    w.begun = none ∧ s = slot ∧ w.last = c :: k ∨ w.begun = some (c :: k) ∧ s = !slot := by
  have hslot : s = slot ∨ s = !slot := by
    cases s <;> cases slot <;> simp
  cases hd.beside with
  | idle hb _ ho =>
    have hl : w.last = c :: k := by
      rcases hs.lineage with hl | hl
      · exact hl
      · rw [hb] at hl
        cases hl
    obtain ⟨rfl, rfl⟩ := List.cons.inj (hd.last.symm.trans hl)
    rcases hslot with rfl | rfl
    · exact .inl ⟨hb, rfl, hl⟩
    · exact absurd (ho _ hs.slots) (lt_irrefl _)
  | writing b hb hsafe _ _ hbs =>
    have hlt := (hsafe.seen.newer sb (by rw [hd.last]; rfl)).1
    rcases hslot with rfl | rfl
    · have hcs : c = sb := Option.some.inj (hs.slots.symm.trans hd.seen)
      have := hs.older b hbs
      rw [hcs] at this
      omega
    · have hcb : c = b := Option.some.inj (hs.slots.symm.trans hbs)
      subst hcb
      rcases hs.lineage with hl | hl
      · rw [hd.last] at hl
        cases hl
        exact absurd hlt (lt_irrefl _)
      · exact .inr ⟨hl, rfl⟩

theorem Safe.opened {f : File} {n : Store} {hi : Nat} (hs : Safe f c k) (hle : c.hi ≤ hi)
    (hnext : n.next = hi) (hdisk : n.disk = f.seen.disk.truncate hi) : Safe (f.opened n) c k := by
  refine ⟨hs.synced, ?_, hs.syncedSize, ?_, fun lo hi' hd => ?_, fun bytes hb => ?_⟩
  · refine hs.seen.mono ?_
    show f.seen.disk.Agrees n.disk c.hi
    rw [hdisk]
    exact agrees_truncate hle
  · exact hle.trans hnext.ge
  · refine hs.data lo hi' ?_
    simpa [File.opened] using hd
  · have hmem : bytes = n.next ∨ .size bytes ∈ f.writes := by
      simpa [File.opened] using hb
    rcases hmem with rfl | hmem
    · exact hle.trans hnext.ge
    · exact hs.size bytes hmem

/-- `nopen` keeps every checkpoint that can be selected. -/
theorem Durable.reopened (hd : Durable w slot sb h) {p : Proc} (hp : w.file.seen.nopen = some p) :
    Inv { w with file := w.file.opened p.store, proc := some p } ∧
      Unchanged w { w with file := w.file.opened p.store, proc := some p } := by
  obtain ⟨s, c, k, hs⟩ := hd.shown
  obtain ⟨p', hp', hslot, hc, hwork, hnext, hmapped, hdisk, hro, hpo, hfs⟩ := hs.nopen
  obtain rfl : p = p' := Option.some.inj (hp.symm.trans hp')
  have hcur := hd.shown_current hs
  have hle := hd.le_current hs.published hcur
  have hpub : Published p.store.disk c k := by
    rw [hdisk]
    exact hs.published.mono (agrees_truncate le_rfl)
  obtain ⟨m, hw⟩ := Writing.fresh (hc.symm ▸ hpub) (hwork.trans hc.symm) (hnext.trans (by rw [hc]))
    (by rw [hmapped, hc])
  constructor
  · refine ⟨slot, sb, h, ?_, ?_⟩
    · refine ⟨hd.last, hd.safe.opened (hle _ _ (.inl hd.last)) hnext hdisk, hd.synced, hd.seen,
        hd.older, hd.acked, ?_⟩
      cases hd.beside with
      | idle hb hwr ho =>
        refine .idle hb (fun s x hx => hwr s x ?_) ho
        simpa [File.opened] using hx
      | writing b hb hsafe hwr hm hbs =>
        refine .writing b hb (hsafe.opened (hle _ _ (.inr hb)) hnext hdisk)
          (fun s x hx => hwr s x ?_) ?_ hbs
        · simpa [File.opened] using hx
        · simpa [File.opened] using hm
    · rintro _ ⟨⟩
      refine ⟨rfl, hmapped.trans hnext.symm, hro, hfs, .inr ⟨hpo, k, m, hw, ?_⟩⟩
      rw [hslot, hc]
      exact hcur
  · intro c' k' hsel off r hlt hlen
    show p.store.disk off = some r ↔ _
    rw [hdisk, Disk.truncate_eq_some]
    exact and_iff_left (hlen.trans (hle c' k' hsel))

end Reopen

/-! ## Runs -/

theorem inv_created : Inv created := by
  have hp : Published createdImage.disk emptySuper [] := by
    refine ⟨le_rfl, by decide, by decide, by decide, ⟨fun _ => 0, .inl ⟨rfl, fun _ => rfl⟩, .inl rfl⟩,
      ⟨fun _ => 0, .inl ⟨rfl, fun _ => rfl⟩⟩, .inl rfl, rfl, rfl, .inl ⟨rfl, rfl⟩, nofun⟩
  refine ⟨false, emptySuper, [], ?_, nofun⟩
  exact ⟨rfl, ⟨hp, hp, le_rfl, le_rfl, nofun, nofun⟩, rfl, rfl, nofun, List.suffix_refl _,
    .idle rfl nofun nofun⟩

theorem Inv.step {w w' : World} (hi : Inv w) (hs : Step SyncedFirst w w') : Inv w' := by
  obtain ⟨slot, sb, h, hd, hopen⟩ := hi
  cases hs with
  | @call p c hproc hok =>
    have ho := hopen p hproc
    cases hpo : p.store.poisoned with
    | true =>
      rw [ho.refuses hproc hpo]
      exact ⟨slot, sb, h, hd, hopen⟩
    | false =>
      obtain ⟨k, m, hr⟩ := ho.ready ⟨sb, h, hd⟩ hpo
      exact (hr.called c).inv hok
  | close => exact ⟨slot, sb, h, hd.withProc none, nofun⟩
  | crash hp =>
    obtain ⟨s, c, k, hshow⟩ := hd.crash hp
    exact ⟨s, c, k, (hd.settle hshow).withProc none, nofun⟩
  | reopen _ hp => exact (hd.reopened hp).1

theorem Reach.inv {w : World} (h : Reach SyncedFirst w) : Inv w := by
  induction h with
  | created => exact inv_created
  | step _ hs ih => exact ih.step hs

/-- What a store promises at every moment of a run. -/
structure CrashSafe (w : World) : Prop where
  /-- After a crash or without one, reopening succeeds and selects the last checkpoint that
  was confirmed, or one after it whose superblock write had begun. -/
  recovers : ∀ img, w.file.Persists img ∨ img = w.file.seen → ∃ q h, img.nopen = some q ∧
    (w.last = q.store.committed :: h ∨ w.begun = some (q.store.committed :: h)) ∧
    w.acked <:+ q.store.committed :: h
  /-- What is written lies after every checkpoint that can be selected, and not in the
  superblock of the durable one. -/
  beyond : ∃ slot, w.file.synced.slots slot = w.last.head? ∧
    (∀ s x, .super s x ∈ w.file.writes → s = !slot) ∧
    ∀ sb h, w.last = sb :: h ∨ w.begun = some (sb :: h) →
      ∀ lo hi, .data lo hi ∈ w.file.writes → sb.hi ≤ lo
  /-- No call and no reopening changes what such a checkpoint holds. -/
  kept : (∀ p c, w.proc = some p → Unchanged w (w.call p c).2) ∧
    ∀ p, w.file.seen.nopen = some p →
      Unchanged w { w with file := w.file.opened p.store, proc := some p }
  /-- A call that fails leaves the store as it was, or else poisoned, and then the other
  superblock has been written. -/
  failed : ∀ p c w', w.proc = some p → p.store.poisoned = false → w.call p c = (false, w') →
    ∃ p', w'.proc = some p' ∧ (Retryable w w' p p' ∨ Ambiguous w w' p p')
  /-- A poisoned store refuses everything. -/
  refuses : ∀ p c, w.proc = some p → p.store.poisoned = true → w.call p c = (false, w)
  /-- The root log has the roots of the checkpoints that were published, numbered from 1. -/
  log : ∀ p, w.proc = some p → ∃ h, (p.store.poisoned = false →
      w.last = p.store.committed :: h ∨ w.begun = some (p.store.committed :: h)) ∧
    (p.store.poisoned = true → p.store.committed :: h <:+ w.last) ∧
    ∀ lo cap, (p.store.log lo cap).map Journal.numbered =
      ((numbered (rootsOf (p.store.committed :: h))).drop (lo - 1)).take cap

/-- In every run where a checkpoint with nothing to write is only asked for when no
superblock is waiting for a sync, the store is crash-safe at every moment. -/
theorem checkpoints_crash_safe {w : World} (h : Reach SyncedFirst w) : CrashSafe w := by
  obtain ⟨slot, sb, k, hd, hopen⟩ := h.inv
  refine ⟨fun img himg => ?_, ⟨slot, ?_, ?_, ?_⟩, ⟨fun p c hproc => ?_, fun p hp => (hd.reopened hp).2⟩,
    fun p c w' hproc hpo hcall => ?_, fun p c hproc hpo => (hopen p hproc).refuses hproc hpo c,
    fun p hproc => ?_⟩
  · have hshow : ∃ s c h, Shows w img s c h := by
      rcases himg with hp | rfl
      · exact hd.crash hp
      · exact hd.shown
    obtain ⟨s, c, h, hs⟩ := hshow
    obtain ⟨q, hq, -, hc, -⟩ := hs.nopen
    rw [← hc] at hs
    exact ⟨q, h, hq, hs.lineage, hd.acked.trans hs.later⟩
  · rw [hd.last]
    exact hd.synced
  · intro s x hx
    cases hd.beside with
    | idle _ hw _ => exact (hw s x hx).1
    | writing c _ _ hw _ _ => exact (hw s x hx).1
  · rintro c h (hl | hb)
    · obtain ⟨rfl, rfl⟩ := List.cons.inj (hd.last.symm.trans hl)
      exact hd.safe.data
    · cases hd.beside with
      | idle hb' =>
        rw [hb] at hb'
        cases hb'
      | writing b hb' hsafe =>
        rw [hb] at hb'
        obtain ⟨rfl, rfl⟩ := List.cons.inj (Option.some.inj hb')
        exact hsafe.data
  · have ho := hopen p hproc
    cases hpo : p.store.poisoned with
    | true =>
      rw [ho.refuses hproc hpo]
      exact fun _ _ _ _ _ _ _ => Iff.rfl
    | false =>
      obtain ⟨h, m, hr⟩ := ho.ready ⟨sb, k, hd⟩ hpo
      exact (hr.called c).unchanged
  · obtain ⟨h, m, hr⟩ := (hopen p hproc).ready ⟨sb, k, hd⟩ hpo
    have hfail := (hr.called c).failed
    rw [hcall] at hfail
    exact hfail rfl
  · have ho := hopen p hproc
    rcases ho.state with ⟨hpo, h, hp, hsuffix⟩ | ⟨hpo, h, m, hw, hcur⟩
    · refine ⟨h, fun hpo' => ?_, fun _ => hsuffix, hp.log⟩
      rw [hpo] at hpo'
      cases hpo'
    · refine ⟨h, fun _ => ?_, fun hpo' => ?_, hw.published.log⟩
      · exact hcur.imp (fun hc => hc.2.2) And.left
      · rw [hpo] at hpo'
        cases hpo'

/-! ## Two runs -/

/-- A process opens the store, if it can. -/
def World.reopened (w : World) : World :=
  match w.file.seen.nopen with
  | some p => { w with file := w.file.opened p.store, proc := some p }
  | none => w

/-- The process makes a call, if there is one. -/
def World.called (w : World) (c : Call) : World :=
  match w.proc with
  | some p => (w.call p c).2
  | none => w

section Runs

variable {allowed : World → Proc → Call → Prop} {w : World}

theorem Reach.reopened (h : Reach allowed w) (hproc : w.proc = none) :
    Reach allowed w.reopened := by
  unfold World.reopened
  split
  · next p hp => exact h.step (.reopen hproc hp)
  · exact h

theorem Reach.called (h : Reach allowed w) {c : Call}
    (hok : ∀ p, w.proc = some p → allowed w p c) : Reach allowed (w.called c) := by
  unfold World.called
  split
  · next p hp => exact h.step (.call hp (hok p hp))
  · exact h

theorem Reach.closed (h : Reach allowed w) : Reach allowed { w with proc := none } :=
  h.step .close

end Runs

/-- The PIN of a small natural. -/
def smallObject (hash : Key) : Object := ⟨hash, 0, true, .nat 7, some []⟩

/-- The script of a checkpoint that fails at `after_superblock`: one index node, one
journal entry, and the points before it. -/
def failsAfterSuper : List Bool := List.replicate 9 false ++ [true]

/-- A PIN is staged, and the publication of its checkpoint fails after the superblock was
written, before the sync. -/
def ambiguous : World :=
  (created.reopened.called (.stage (smallObject zeroKey) [])).called
    (.checkpoint zeroKey failsAfterSuper)

/-- The store is reopened, another PIN staged and a checkpoint made with it. -/
def confirmed : World :=
  (({ ambiguous with proc := none } : World).reopened.called
    (.stage (smallObject (Vector.replicate 32 1)) [])).called
    (.checkpoint (Vector.replicate 32 1) [])

/-- The store is reopened and the same checkpoint asked for again. -/
def askedAgain : World :=
  ({ ambiguous with proc := none } : World).reopened.called (.checkpoint zeroKey [])

theorem unsettled {w : World} {hash : Key} {fs : List Bool}
    (h : w.proc.map (·.store.settled hash) = some false) :
    ∀ p, w.proc = some p → SyncedFirst w p (.checkpoint hash fs) := by
  intro p hp hset
  rw [hp, Option.map_some, hset] at h
  cases h

theorem confirmed_run_safe : confirmed.acked.map (·.generation) = [3, 2, 1] ∧
    CrashSafe confirmed := by
  have h₁ : Reach SyncedFirst ambiguous :=
    ((Reach.created.reopened rfl).called fun _ _ => trivial).called (unsettled (by decide +kernel))
  have h₂ := (h₁.closed.reopened rfl).called
    (c := .stage (smallObject (Vector.replicate 32 1)) []) fun _ _ => trivial
  have h₃ : Reach SyncedFirst confirmed := h₂.called (unsettled (by decide +kernel))
  exact ⟨by decide +kernel, checkpoints_crash_safe h₃⟩

/-- The call returns true, and a crash loses the checkpoint: reopening selects the one
before it. -/
theorem asked_again_lost : ∃ w, Reach (fun _ _ _ => True) w ∧ ¬ CrashSafe w := by
  have h₁ : Reach (fun _ _ _ => True) ambiguous :=
    ((Reach.created.reopened rfl).called fun _ _ => trivial).called fun _ _ => trivial
  refine ⟨askedAgain, (h₁.closed.reopened rfl).called fun _ _ => trivial, fun hs => ?_⟩
  have hlost : askedAgain.file.Persists askedAgain.file.synced :=
    ⟨fun _ => .inl rfl, .inl rfl, fun _ _ _ => Iff.rfl⟩
  obtain ⟨q, h, hq, hsel, hacked⟩ := hs.recovers _ (.inl hlost)
  have hgen : askedAgain.file.synced.nopen.map (·.store.committed.generation) = some 1 := by
    decide +kernel
  have hlast : askedAgain.last.length = 1 := by decide +kernel
  have hbegun : askedAgain.begun.map (·.map (·.generation)) = some [2, 1] := by decide +kernel
  have hlen : askedAgain.acked.length = 2 := by decide +kernel
  rw [hq, Option.map_some] at hgen
  rcases hsel with hsel | hsel
  · have hle := hacked.length_le
    rw [← hsel, hlen, hlast] at hle
    omega
  · rw [hsel] at hbegun
    simp only [Option.map_some, List.map_cons, Option.some.injEq, List.cons.injEq] at hbegun hgen
    omega

end Enki.Native
