import Enki.Pack.Batch
import Mathlib.Logic.Relation

/-!
# Pack extents are immutable

- `BatchOK`: what a batch has put so far is its `view`, the file up to the flushed
  length followed by the buffer; the file before `packStart` is not touched.
- `Inv`: every indexed and every staged extent holds bytes put under its hash, and lies
  before the start of the batch under way, if there is one.
- `extents_immutable`: every run of every number of processes.
-/

namespace Enki.Pack

variable {P H : Type}

/-! ## Bytes -/

/-- The bytes of an extent. -/
def Extent.read (e : Extent) (bytes : List Byte) : List Byte := (bytes.drop e.off).take e.len

/-- The extent lies in the file and holds bytes that were put under the hash. -/
def Extent.Holds (e : Extent) (bytes : List Byte) (puts : List (H × List Byte)) (h : H) : Prop :=
  0 < e.len ∧ e.off + e.len ≤ bytes.length ∧ (h, e.read bytes) ∈ puts

/-- What lies before `n` depends on the first `n` bytes only. -/
theorem Extent.read_take (e : Extent) {n : Nat} (h : e.off + e.len ≤ n) (bytes : List Byte) :
    e.read (bytes.take n) = e.read bytes := by
  unfold Extent.read
  rw [List.drop_take, List.take_take, min_eq_left (by omega)]

theorem Extent.read_congr {e : Extent} {n : Nat} {bytes bytes' : List Byte}
    (h : e.off + e.len ≤ n) (heq : bytes'.take n = bytes.take n) :
    e.read bytes' = e.read bytes := by
  rw [← e.read_take h, heq, e.read_take h]

theorem Extent.Holds.congr {e : Extent} {n : Nat} {bytes bytes' : List Byte}
    {puts puts' : List (H × List Byte)} {h : H} (hh : e.Holds bytes puts h)
    (hn : e.off + e.len ≤ n) (heq : bytes'.take n = bytes.take n) (hp : puts ⊆ puts') :
    e.Holds bytes' puts' h := by
  obtain ⟨hpos, hlen, hmem⟩ := hh
  refine ⟨hpos, ?_, ?_⟩
  · have := congrArg List.length heq
    simp only [List.length_take] at this
    omega
  · rw [Extent.read_congr hn heq]
    exact hp hmem

theorem pwrite_eq {pack bytes : List Byte} {start : Nat} (h : start ≤ pack.length) :
    pwrite pack bytes start = pack.take start ++ bytes ++ pack.drop (start + bytes.length) := by
  simp [pwrite, Nat.sub_eq_zero_of_le h]

/-- A write leaves what lies before it. -/
theorem take_pwrite {pack bytes : List Byte} {start n : Nat} (h : start ≤ pack.length)
    (hn : n ≤ start) : (pwrite pack bytes start).take n = pack.take n := by
  rw [pwrite_eq h, List.append_assoc, List.take_append_of_le_length, List.take_take,
    min_eq_left hn]
  simp only [List.length_take]
  omega

theorem length_pwrite {pack bytes : List Byte} {start : Nat} (h : start ≤ pack.length) :
    pack.length ≤ (pwrite pack bytes start).length ∧
      start + bytes.length ≤ (pwrite pack bytes start).length := by
  rw [pwrite_eq h]
  simp only [List.length_append, List.length_take, List.length_drop]
  omega

/-! ## One batch -/

/-- The bytes a batch has put together: what is in the file, and the buffer. -/
def Batch.view (b : Batch H) (pack : List Byte) : List Byte := pack.take b.packFlushed ++ b.buffer

structure BatchOK (b : Batch H) (pack : List Byte) : Prop where
  start_le : b.packStart ≤ b.packFlushed
  flushed_le : b.packFlushed ≤ pack.length
  hi : b.packEnd = b.packFlushed + b.buffer.length

theorem BatchOK.length_view {b : Batch H} {pack : List Byte} (h : BatchOK b pack) :
    (b.view pack).length = b.packEnd := by
  have := h.flushed_le
  simp only [Batch.view, List.length_append, List.length_take, h.hi]
  omega

/-- What appending does to a batch and to the file: the start and the entries stay, the
file changes after the start only, and the view grows. -/
structure Appends (b b' : Batch H) (pack pack' : List Byte) (added : List Byte) : Prop where
  ok : BatchOK b' pack'
  start : b'.packStart = b.packStart
  pending : b'.pending = b.pending
  keep : pack'.take b.packStart = pack.take b.packStart
  view : b'.view pack' = b.view pack ++ added

theorem Appends.trans {b b₁ b₂ : Batch H} {pack pack₁ pack₂ a₁ a₂ : List Byte}
    (h : Appends b b₁ pack pack₁ a₁) (h' : Appends b₁ b₂ pack₁ pack₂ a₂) :
    Appends b b₂ pack pack₂ (a₁ ++ a₂) where
  ok := h'.ok
  start := h'.start.trans h.start
  pending := h'.pending.trans h.pending
  keep := by
    rw [← h.keep, ← h.start, h'.keep]
  view := by
    rw [h'.view, h.view, List.append_assoc]

theorem Appends.refl {b : Batch H} {pack : List Byte} (h : BatchOK b pack) :
    Appends b b pack pack [] :=
  ⟨h, rfl, rfl, rfl, (List.append_nil _).symm⟩

/-- Flushing moves the buffer to the file, or part of it beyond the flushed length. -/
theorem batchFlush_spec {b b' : Batch H} {pack pack' : List Byte} {fs fs' : Faults} {ok : Bool}
    (h : BatchOK b pack) (hf : batchFlush b pack fs = (ok, b', pack', fs')) :
    Appends b b' pack pack' [] ∧ (ok = true → b'.buffer = []) := by
  have hstart := h.start_le
  have hflushed := h.flushed_le
  unfold batchFlush at hf
  split at hf
  · rename_i hnil
    cases hf
    exact ⟨.refl h, fun _ => hnil⟩
  · split at hf
    · -- the write failed after some bytes
      rename_i k fs₁ _
      cases hf
      refine ⟨⟨⟨hstart, ?_, h.hi⟩, rfl, rfl, take_pwrite hflushed hstart, ?_⟩, nofun⟩
      · exact hflushed.trans (length_pwrite hflushed).1
      · simp [Batch.view, take_pwrite hflushed le_rfl]
    · cases hf
      refine ⟨⟨⟨?_, (length_pwrite hflushed).2, ?_⟩, rfl, rfl, take_pwrite hflushed hstart, ?_⟩,
        fun _ => rfl⟩
      · exact hstart.trans (Nat.le_add_right ..)
      · simpa using h.hi
      · simp only [Batch.view, pwrite_eq hflushed, List.append_nil]
        rw [List.take_append_of_le_length, List.take_of_length_le]
        · simp only [List.length_append, List.length_take]
          omega
        · simp only [List.length_append, List.length_take]
          omega

theorem fill_appends {b : Batch H} {pack : List Byte} (h : BatchOK b pack) (bytes : List Byte) :
    Appends b (b.fill bytes) pack pack bytes := by
  refine ⟨⟨h.start_le, h.flushed_le, ?_⟩, rfl, rfl, rfl, ?_⟩
  · simp only [Batch.fill, h.hi, List.length_append]
    omega
  · simp [Batch.fill, Batch.view]

/-- Appending puts the bytes after everything else; if it fails, some of them. -/
theorem appendLoop_spec {b b' : Batch H} {bytes pack pack' : List Byte} {fs fs' : Faults}
    {ok : Bool} (h : BatchOK b pack) (hf : appendLoop b bytes pack fs = (ok, b', pack', fs')) :
    ∃ added, Appends b b' pack pack' added ∧ (ok = true → added = bytes) := by
  induction hn : bytes.length using Nat.strong_induction_on generalizing b bytes pack fs with
  | _ n ih =>
    subst hn
    unfold appendLoop at hf
    split at hf
    · rename_i hnil
      cases hf
      exact ⟨[], .refl h, fun _ => hnil.symm⟩
    rename_i hne
    have hpos := List.length_pos_iff.mpr hne
    split at hf
    · cases hfl : batchFlush b pack fs with
      | mk ok₁ r₁ =>
        obtain ⟨b₁, pack₁, fs₁⟩ := r₁
        obtain ⟨happ, -⟩ := batchFlush_spec h hfl
        rw [hfl] at hf
        cases ok₁ with
        | false =>
          cases hf
          exact ⟨[], happ, nofun⟩
        | true =>
          dsimp only at hf
          have hfill := fill_appends happ.ok (bytes.take bufferBytes)
          obtain ⟨added, hrest, hok⟩ := ih _ (by
            simp only [List.length_drop]
            unfold bufferBytes
            omega) hfill.ok hf rfl
          refine ⟨_, (happ.trans hfill).trans hrest, fun ho => ?_⟩
          rw [hok ho]
          simp
    · rename_i hroom
      have hfill := fill_appends h (bytes.take (bufferBytes - b.buffer.length))
      obtain ⟨added, hrest, hok⟩ := ih _ (by
        simp only [List.length_drop]
        omega) hfill.ok hf rfl
      refine ⟨_, hfill.trans hrest, fun ho => ?_⟩
      rw [hok ho]
      simp

/-- Entries of a batch stay what they are while it appends. -/
theorem Appends.holds {b b' : Batch H} {pack pack' added : List Byte} (h : Appends b b' pack pack' added)
    {puts puts' : List (H × List Byte)} (hp : puts ⊆ puts') {e : Extent} {k : H}
    (he : e.Holds (b.view pack) puts k) : e.Holds (b'.view pack') puts' k := by
  refine he.congr he.2.1 ?_ hp
  rw [h.view, List.take_append_of_le_length le_rfl]

theorem batchAppend_spec {b b' : Batch H} {bytes pack pack' : List Byte} {fs fs' : Faults}
    {ok : Bool} (h : BatchOK b pack) (hf : batchAppend b bytes pack fs = (ok, b', pack', fs')) :
    ∃ added, Appends b b' pack pack' added ∧ (ok = true → added = bytes) := by
  unfold batchAppend at hf
  split at hf
  · cases hf
    exact ⟨[], .refl h, nofun⟩
  · exact appendLoop_spec h hf

/-- A put adds at most one entry, which holds the bytes put. -/
theorem batchPut_spec [DecidableEq H] {b b' : Batch H} {staged : List (H × Extent)} {index : H → Option Extent}
    {hash : H} {bytes pack pack' : List Byte} {fs : Faults} {ok : Bool}
    {puts : List (H × List Byte)} (h : BatchOK b pack)
    (hpending : ∀ k e, (k, e) ∈ b.pending → e.Holds (b.view pack) puts k)
    (hf : batchPut b staged index hash bytes pack fs = (ok, b', pack')) :
    BatchOK b' pack' ∧ b'.packStart = b.packStart ∧
      pack'.take b.packStart = pack.take b.packStart ∧
      ∀ k e, (k, e) ∈ b'.pending → e.Holds (b'.view pack') (puts ++ [(hash, bytes)]) k := by
  have hsub : puts ⊆ puts ++ [(hash, bytes)] := List.subset_append_left ..
  have hsame : ∀ ok', (ok', b, pack) = (ok, b', pack') → BatchOK b' pack' ∧
      b'.packStart = b.packStart ∧ pack'.take b.packStart = pack.take b.packStart ∧
      ∀ k e, (k, e) ∈ b'.pending → e.Holds (b'.view pack') (puts ++ [(hash, bytes)]) k := by
    rintro ok' ⟨⟩
    exact ⟨h, rfl, rfl, fun k e hm => (hpending k e hm).congr (hpending k e hm).2.1 rfl hsub⟩
  unfold batchPut at hf
  split at hf
  · exact hsame _ hf
  rename_i hne
  split at hf
  · exact hsame _ hf
  · exact hsame _ hf
  · rename_i fs₁ _
    cases hap : batchAppend b bytes pack fs₁ with
    | mk ok₁ r₁ =>
      obtain ⟨b₁, pack₁, fs₂⟩ := r₁
      obtain ⟨added, happ, hadded⟩ := batchAppend_spec h hap
      have hold : ∀ k e, (k, e) ∈ b₁.pending →
          e.Holds (b₁.view pack₁) (puts ++ [(hash, bytes)]) k := by
        intro k e hm
        rw [happ.pending] at hm
        exact happ.holds hsub (hpending k e hm)
      rw [hap] at hf
      cases ok₁ with
      | false =>
        cases hf
        exact ⟨happ.ok, happ.start, happ.keep, hold⟩
      | true =>
        cases hf
        refine ⟨⟨happ.ok.start_le, happ.ok.flushed_le, happ.ok.hi⟩, happ.start, happ.keep, ?_⟩
        intro k e hm
        rcases List.mem_append.mp hm with hm | hm
        · exact hold k e hm
        · -- the new entry begins where the view ended
          obtain ⟨rfl, rfl⟩ := Prod.mk.inj (List.mem_singleton.mp hm)
          have hview : ({ b₁ with pending := b₁.pending ++ [(k, ⟨b.packEnd, bytes.length⟩)]
                                  changed := true } : Batch H).view pack' =
              b.view pack ++ bytes := by
            rw [← hadded rfl]
            exact happ.view
          rw [hview]
          refine ⟨List.length_pos_iff.mpr hne, ?_, ?_⟩
          · simp [h.length_view]
          · have hread : (⟨b.packEnd, bytes.length⟩ : Extent).read (b.view pack ++ bytes) = bytes := by
              simp [Extent.read, ← h.length_view]
            rw [hread]
            simp

/-! ## The invariant -/

/-- The entries that denote an extent: those indexed, and those staged in a process. -/
def Live (w : World P H) (h : H) (e : Extent) : Prop :=
  w.shared.index h = some e ∨ ∃ p, (h, e) ∈ (w.procs p).staged

/-- The root is indexed, and the last one of a journal numbered from 1 on. -/
structure Journaled (s : Shared H) : Prop where
  root : s.root = s.journal.getLast?.map (·.hash)
  indexed : ∀ h, s.root = some h → (s.index h).isSome
  seq : ∀ i e, s.journal[i]? = some e → e.seq = i + 1

structure Inv (w : World P H) : Prop where
  lock : ∀ p q, (w.procs p).batch.isSome → (w.procs q).batch.isSome → p = q
  live : ∀ h e, Live w h e → e.Holds w.shared.pack w.shared.puts h
  ok : ∀ p b, (w.procs p).batch = some b → BatchOK b w.shared.pack
  before : ∀ p b, (w.procs p).batch = some b → ∀ h e, Live w h e → e.off + e.len ≤ b.packStart
  pending : ∀ p b, (w.procs p).batch = some b →
    ∀ h e, (h, e) ∈ b.pending → e.Holds (b.view w.shared.pack) w.shared.puts h
  roots : Journaled w.shared

/-- What an operation of the process that holds the batch `b` may do. -/
structure Moves (w : World P H) (p : P) (b : Batch H) (s : Shared H) (pr : Proc H) : Prop where
  keep : s.pack.take b.packStart = w.shared.pack.take b.packStart
  puts : w.shared.puts ⊆ s.puts
  index : ∀ h e, w.shared.index h = some e → s.index h = some e
  live : ∀ h e, (s.index h = some e ∨ (h, e) ∈ pr.staged) →
    w.shared.index h = some e ∨ (h, e) ∈ (w.procs p).staged ∨
      pr.batch = none ∧ e.Holds s.pack s.puts h
  batch : ∀ b', pr.batch = some b' → b'.packStart = b.packStart ∧ BatchOK b' s.pack ∧
    ∀ h e, (h, e) ∈ b'.pending → e.Holds (b'.view s.pack) s.puts h
  roots : Journaled s

theorem Moves.inv [DecidableEq P] {w : World P H} {p : P} {b : Batch H} {s : Shared H}
    {pr : Proc H} (h : Moves w p b s pr) (hi : Inv w) (hb : (w.procs p).batch = some b) :
    Inv (w.set p s pr) := by
  have hother : ∀ q, q ≠ p → (w.procs q).batch = none := by
    intro q hq
    by_contra hne
    exact hq (hi.lock q p (Option.isSome_iff_ne_none.mpr hne) (by simp [hb]))
  have hlive : ∀ k e, Live (w.set p s pr) k e →
      Live w k e ∨ pr.batch = none ∧ e.Holds s.pack s.puts k := by
    have hmine : ∀ k e, (s.index k = some e ∨ (k, e) ∈ pr.staged) →
        Live w k e ∨ pr.batch = none ∧ e.Holds s.pack s.puts k := by
      intro k e hk
      rcases h.live k e hk with hk | hk | hk
      · exact .inl (.inl hk)
      · exact .inl (.inr ⟨p, hk⟩)
      · exact .inr hk
    rintro k e (hk | ⟨q, hk⟩)
    · exact hmine k e (.inl hk)
    · by_cases hq : q = p
      · subst hq
        exact hmine k e (.inr (by simpa [World.set] using hk))
      · exact .inl (.inr ⟨q, by simpa [World.set, hq] using hk⟩)
  have hbatch : ∀ q b', ((w.set p s pr).procs q).batch = some b' → q = p ∧ pr.batch = some b' := by
    intro q b' hq
    by_cases hqp : q = p
    · subst hqp
      exact ⟨rfl, by simpa [World.set] using hq⟩
    · simp [World.set, hqp, hother q hqp] at hq
  refine ⟨?_, ?_, ?_, ?_, ?_, h.roots⟩
  · intro q q' hq hq'
    obtain ⟨b₁, h₁⟩ := Option.isSome_iff_exists.mp hq
    obtain ⟨b₂, h₂⟩ := Option.isSome_iff_exists.mp hq'
    rw [(hbatch q b₁ h₁).1, (hbatch q' b₂ h₂).1]
  · intro k e hk
    rcases hlive k e hk with hk | hk
    · exact (hi.live k e hk).congr (hi.before p b hb k e hk) h.keep h.puts
    · exact hk.2
  · intro q b' hq
    exact (h.batch b' (hbatch q b' hq).2).2.1
  · intro q b' hq k e hk
    have hb' := (hbatch q b' hq).2
    rw [(h.batch b' hb').1]
    rcases hlive k e hk with hk | hk
    · exact hi.before p b hb k e hk
    · rw [hk.1] at hb'
      cases hb'
  · intro q b' hq
    exact (h.batch b' (hbatch q b' hq).2).2.2

section Operations

variable {w : World P H} {p : P} {b : Batch H}

/-- Dropping the batch cuts the file back to its start at most. -/
theorem take_batchAbort (b : Batch H) (pack : List Byte) (fs : Faults) :
    (batchAbort b pack fs).take b.packStart = pack.take b.packStart := by
  unfold batchAbort
  split
  · split
    · rw [List.take_take, min_self]
    · rfl
  · rfl

/-- What an operation leaves when it fails: another file after the start of the batch. -/
theorem abandon_moves (hi : Inv w) {b' : Batch H} {pack : List Byte} {fs : Faults}
    (hstart : b'.packStart = b.packStart)
    (hkeep : pack.take b.packStart = w.shared.pack.take b.packStart) :
    Moves w p b (abandon { w.shared with pack := pack } (w.procs p) b' fs).2.1
      (abandon { w.shared with pack := pack } (w.procs p) b' fs).2.2 := by
  refine ⟨?_, List.Subset.refl _, fun _ _ h => h, ?_, nofun, ⟨hi.roots.1, hi.roots.2, hi.roots.3⟩⟩
  · simp only [abandon]
    rw [← hstart, take_batchAbort, hstart, hkeep]
  · rintro h e (he | he)
    · exact .inl he
    · exact .inr (.inl he)

theorem abort_moves (hi : Inv w) (fs : Faults) :
    Moves w p b (abandon w.shared (w.procs p) b fs).2.1 (abandon w.shared (w.procs p) b fs).2.2 :=
  abandon_moves hi rfl rfl

/-- Once flushed, the entries of the batch lie in the file. -/
theorem Appends.holds_flushed {b b' : Batch H} {pack pack' : List Byte}
    (h : Appends b b' pack pack' []) (hbuf : b'.buffer = []) {puts : List (H × List Byte)}
    {e : Extent} {k : H} (he : e.Holds (b.view pack) puts k) : e.Holds pack' puts k := by
  have he' := h.holds (List.Subset.refl puts) he
  have hview : b'.view pack' = pack'.take b'.packFlushed := by simp [Batch.view, hbuf]
  rw [hview] at he'
  refine he'.congr he'.2.1 ?_ (List.Subset.refl _)
  simp only [List.length_take, min_eq_left h.ok.flushed_le, List.take_take, min_self]

theorem commitStaged_moves (hi : Inv w) (hb : (w.procs p).batch = some b) (fs : Faults) :
    Moves w p b (commitStaged w.shared (w.procs p) b fs).2.1
      (commitStaged w.shared (w.procs p) b fs).2.2 := by
  unfold commitStaged
  cases hf : batchFlush b w.shared.pack fs with
  | mk ok r =>
    obtain ⟨b', pack', fs'⟩ := r
    obtain ⟨happ, hbuf⟩ := batchFlush_spec (hi.ok p b hb) hf
    cases ok with
    | false => exact abandon_moves hi happ.start happ.keep
    | true =>
      refine ⟨happ.keep, List.Subset.refl _, fun _ _ h => h, ?_, nofun,
        ⟨hi.roots.1, hi.roots.2, hi.roots.3⟩⟩
      rintro h e (he | he)
      · exact .inl he
      · rcases List.mem_append.mp he with he | he
        · exact .inr (.inl he)
        · rw [happ.pending] at he
          exact .inr (.inr ⟨rfl, happ.holds_flushed (hbuf rfl) (hi.pending p b hb h e he)⟩)

theorem Journaled.append {s : Shared H} (h : Journaled s) {root : H} {packBytes : Nat}
    {index : H → Option Extent} (hroot : (index root).isSome) :
    Journaled { s with
      index := index
      root := some root
      journal := journalAppend s.journal root packBytes } := by
  refine ⟨by simp [journalAppend], ?_, ?_⟩
  · rintro k ⟨⟩
    exact hroot
  · intro i e he
    simp only [journalAppend] at he
    rcases Nat.lt_or_ge i s.journal.length with hlt | hge
    · rw [List.getElem?_append_left hlt] at he
      exact h.seq i e he
    · rw [List.getElem?_append_right hge] at he
      obtain ⟨hi, rfl⟩ := List.getElem?_eq_some_iff.mp he
      have hieq : i = s.journal.length := by
        simp only [List.length_singleton] at hi
        omega
      subst hieq
      simp only [Nat.sub_self, List.getElem_singleton]
      cases hl : s.journal.getLast? with
      | none =>
        rw [List.getLast?_eq_none_iff] at hl
        simp [hl]
      | some last =>
        rw [List.getLast?_eq_getElem?] at hl
        have hlast := h.seq _ _ hl
        have hpos : 0 < s.journal.length := by
          by_contra hz
          have : s.journal = [] := List.length_eq_zero_iff.mp (by omega)
          simp [this] at hl
        simp only [hlast]
        omega

section Index

variable [DecidableEq H]

/-- Indexing keeps every entry there is, and adds the others. -/
theorem batchIndex_spec {b : Batch H} {entries : List (H × Extent)} {index index' : H → Option Extent}
    {fs fs' : Faults} (h : batchIndex b entries index fs = (some index', fs')) :
    (∀ k e, index k = some e → index' k = some e) ∧
    (∀ k e, index' k = some e → index k = some e ∨ (k, e) ∈ entries) ∧
    ∀ k e, (k, e) ∈ entries → (index' k).isSome := by
  induction entries generalizing index fs with
  | nil =>
    cases h
    exact ⟨fun _ _ h => h, fun _ _ h => .inl h, nofun⟩
  | cons entry rest ih =>
    obtain ⟨k₀, e₀⟩ := entry
    unfold batchIndex at h
    split at h
    · cases h
    split at h
    · cases h
    split at h
    · rename_i old hold
      split at h
      · cases h
      · obtain ⟨h1, h2, h3⟩ := ih h
        refine ⟨h1, fun k e he => (h2 k e he).imp_right (List.mem_cons_of_mem _), ?_⟩
        intro k e he
        rcases List.mem_cons.mp he with he | he
        · cases he
          rw [h1 _ _ hold]
          rfl
        · exact h3 k e he
    · rename_i hnew
      obtain ⟨h1, h2, h3⟩ := ih h
      have hself : index' k₀ = some e₀ := h1 k₀ e₀ (Function.update_self ..)
      refine ⟨?_, ?_, ?_⟩
      · intro k e he
        refine h1 k e ?_
        rw [Function.update_of_ne]
        · exact he
        · rintro rfl
          rw [hnew] at he
          cases he
      · intro k e he
        by_cases hk : k = k₀
        · subst hk
          rw [hself] at he
          cases he
          exact .inr (List.mem_cons_self ..)
        · rcases h2 k e he with he | he
          · rw [Function.update_of_ne hk] at he
            exact .inl he
          · exact .inr (List.mem_cons_of_mem _ he)
      · intro k e he
        rcases List.mem_cons.mp he with he | he
        · cases he
          rw [hself]
          rfl
        · exact h3 k e he

theorem find_some {m : List (H × Extent)} {h : H} {e : Extent} (hf : find m h = some e) :
    (h, e) ∈ m := by
  unfold find at hf
  obtain ⟨⟨k, e'⟩, hfind, rfl⟩ := Option.map_eq_some_iff.mp hf
  have hk := List.find?_some hfind
  simp only [decide_eq_true_eq] at hk
  subst hk
  exact List.mem_of_find?_eq_some hfind

/-- What the batch contains is pending, staged or indexed. -/
theorem batchContains_true {b : Batch H} {staged : List (H × Extent)}
    {index : H → Option Extent} {hash : H} {fs fs' : Faults}
    (h : batchContains b staged index hash fs = (some true, fs')) :
    (∃ e, (hash, e) ∈ b.pending) ∨ (∃ e, (hash, e) ∈ staged) ∨ (index hash).isSome := by
  unfold batchContains at h
  split at h
  · rename_i e he
    exact .inl ⟨e, find_some he⟩
  split at h
  · rename_i e he
    exact .inr (.inl ⟨e, find_some he⟩)
  split at h
  · cases h
  split at h
  · rename_i e he
    exact .inr (.inr (by rw [he]; rfl))
  · cases h

/-- The transaction leaves the old entries and those of the process, and a root that is
one of them. -/
theorem batchTxn_spec {s s' : Shared H} {p : Proc H} {b : Batch H} {root : H} {fs fs' : Faults}
    (h : batchTxn s p b root fs = (some s', fs')) (hj : Journaled s)
    (hroot : (∃ e, (root, e) ∈ b.pending) ∨ (∃ e, (root, e) ∈ p.staged) ∨
      (s.index root).isSome) :
    s'.pack = s.pack ∧ s'.puts = s.puts ∧ Journaled s' ∧
    (∀ k e, s.index k = some e → s'.index k = some e) ∧
    ∀ k e, s'.index k = some e → s.index k = some e ∨ (k, e) ∈ p.staged ∨ (k, e) ∈ b.pending := by
  unfold batchTxn at h
  split at h
  · cases h
  rename_i index₁ fs₁ h₁
  split at h
  · cases h
  rename_i index₂ fs₂ h₂
  obtain ⟨hold₁, hnew₁, hin₁⟩ := batchIndex_spec h₁
  obtain ⟨hold₂, hnew₂, hin₂⟩ := batchIndex_spec h₂
  have hold : ∀ k e, s.index k = some e → index₂ k = some e :=
    fun k e he => hold₂ k e (hold₁ k e he)
  have hnew : ∀ k e, index₂ k = some e →
      s.index k = some e ∨ (k, e) ∈ p.staged ∨ (k, e) ∈ b.pending := by
    intro k e he
    rcases hnew₂ k e he with he | he
    · rcases hnew₁ k e he with he | he
      · exact .inl he
      · exact .inr (.inl he)
    · exact .inr (.inr he)
  have hsome : ∀ k, (index₁ k).isSome → (index₂ k).isSome := by
    intro k hk
    obtain ⟨e, he⟩ := Option.isSome_iff_exists.mp hk
    rw [hold₂ k e he]
    rfl
  have hindexed : (index₂ root).isSome := by
    rcases hroot with ⟨e, he⟩ | ⟨e, he⟩ | he
    · exact hin₂ root e he
    · exact hsome root (hin₁ root e he)
    · obtain ⟨e, he⟩ := Option.isSome_iff_exists.mp he
      rw [hold root e he]
      rfl
  split at h
  · cases h
  split at h
  · rename_i hsame
    cases h
    refine ⟨rfl, rfl, ⟨hj.root, fun k hk => ?_, hj.seq⟩, hold, hnew⟩
    rw [hsame] at hk
    cases hk
    exact hindexed
  split at h
  · cases h
  · cases h
    exact ⟨rfl, rfl, hj.append hindexed, hold, hnew⟩

theorem commitRoot_moves (hi : Inv w) (hb : (w.procs p).batch = some b) (root : H)
    (fs : Faults) :
    Moves w p b (commitRoot w.shared (w.procs p) b root fs).2.1
      (commitRoot w.shared (w.procs p) b root fs).2.2 := by
  unfold commitRoot
  split
  · exact abort_moves hi _
  · exact abort_moves hi _
  rename_i fs₁ hcontains
  have hroot := batchContains_true hcontains
  split
  · exact abort_moves hi _
  split
  · exact abort_moves hi _
  rename_i fs₂ _ _
  cases hf : batchFlush b w.shared.pack fs₂ with
  | mk ok r =>
    obtain ⟨b', pack', fs₃⟩ := r
    obtain ⟨happ, hbuf⟩ := batchFlush_spec (hi.ok p b hb) hf
    cases ok with
    | false => exact abandon_moves hi happ.start happ.keep
    | true =>
      dsimp only
      split
      · exact abandon_moves hi happ.start happ.keep
      rename_i fs₄ _
      cases ht : batchTxn { w.shared with pack := pack' } (w.procs p) b' root fs₄ with
      | mk r fs₅ =>
        cases r with
        | none => exact abandon_moves hi happ.start happ.keep
        | some s' =>
          dsimp only
          split
          · -- the commit itself failed: nothing is published, the file stays
            refine ⟨happ.keep, List.Subset.refl _, fun _ _ h => h, ?_, nofun,
              ⟨hi.roots.1, hi.roots.2, hi.roots.3⟩⟩
            rintro h e (he | he)
            · exact .inl he
            · exact .inr (.inl he)
          · rw [← happ.pending] at hroot
            obtain ⟨hpack, hputs, hj, hold, hnew⟩ :=
              batchTxn_spec ht ⟨hi.roots.1, hi.roots.2, hi.roots.3⟩ hroot
            refine ⟨?_, ?_, hold, ?_, nofun, hj⟩
            · rw [hpack]
              exact happ.keep
            · rw [hputs]
              exact List.Subset.refl _
            · rintro h e (he | he)
              · rcases hnew h e he with he | he | he
                · exact .inl he
                · exact .inr (.inl he)
                · rw [happ.pending] at he
                  refine .inr (.inr ⟨rfl, ?_⟩)
                  rw [hpack, hputs]
                  exact happ.holds_flushed (hbuf rfl) (hi.pending p b hb h e he)
              · cases he

theorem put_moves (hi : Inv w) (hb : (w.procs p).batch = some b) (hash : H) (bytes : List Byte)
    (fs : Faults) :
    let r := batchPut b (w.procs p).staged w.shared.index hash bytes w.shared.pack fs
    Moves w p b { w.shared with pack := r.2.2, puts := w.shared.puts ++ [(hash, bytes)] }
      { w.procs p with batch := some r.2.1 } := by
  intro r
  have hr : batchPut b (w.procs p).staged w.shared.index hash bytes w.shared.pack fs =
      (r.1, r.2.1, r.2.2) := rfl
  obtain ⟨hok, hstart, hkeep, hpending⟩ := batchPut_spec (hi.ok p b hb) (hi.pending p b hb) hr
  refine ⟨hkeep, List.subset_append_left .., fun _ _ h => h, ?_, ?_,
    ⟨hi.roots.1, hi.roots.2, hi.roots.3⟩⟩
  · rintro h e (he | he)
    · exact .inl he
    · exact .inr (.inl he)
  · rintro b' ⟨⟩
    exact ⟨hstart, hok, hpending⟩

end Index

end Operations

/-! ## Runs -/

theorem World.Fresh.inv {w : World P H} (h : w.Fresh) : Inv w := by
  obtain ⟨hpack, hindex, hroot, hjournal, hprocs⟩ := h
  refine ⟨?_, ?_, ?_, ?_, ?_, ⟨by simp [hroot, hjournal], by simp [hroot], by simp [hjournal]⟩⟩
  · intro p q hp
    simp [hprocs] at hp
  · rintro h e (he | ⟨p, he⟩)
    · simp [hindex] at he
    · simp [hprocs] at he
  all_goals
    intro p b hb
    simp [hprocs] at hb

variable [DecidableEq P]

/-- What a step leaves of the entries there were. -/
structure Keeps (w w' : World P H) : Prop where
  bytes : ∀ h e, Live w h e → e.read w'.shared.pack = e.read w.shared.pack
  index : ∀ h e, w.shared.index h = some e → w'.shared.index h = some e

/-- A step that leaves the file and the environment, and at most drops entries. -/
theorem Inv.of_quiet {w : World P H} (hi : Inv w) {p : P} {pr : Proc H}
    (hstaged : pr.staged ⊆ (w.procs p).staged)
    (hbatch : ∀ b, pr.batch = some b → (w.procs p).batch = some b) :
    Inv (w.set p w.shared pr) := by
  have hlive : ∀ h e, Live (w.set p w.shared pr) h e → Live w h e := by
    rintro h e (he | ⟨q, he⟩)
    · exact .inl he
    · by_cases hq : q = p
      · subst hq
        exact .inr ⟨q, hstaged (by simpa [World.set] using he)⟩
      · exact .inr ⟨q, by simpa [World.set, hq] using he⟩
  have hb : ∀ q b, ((w.set p w.shared pr).procs q).batch = some b → (w.procs q).batch = some b := by
    intro q b hq
    by_cases hqp : q = p
    · subst hqp
      exact hbatch b (by simpa [World.set] using hq)
    · simpa [World.set, hqp] using hq
  refine ⟨?_, fun h e he => hi.live h e (hlive h e he), fun q b hq => hi.ok q b (hb q b hq),
    fun q b hq h e he => hi.before q b (hb q b hq) h e (hlive h e he),
    fun q b hq => hi.pending q b (hb q b hq), hi.roots⟩
  intro q q' hq hq'
  obtain ⟨b₁, h₁⟩ := Option.isSome_iff_exists.mp hq
  obtain ⟨b₂, h₂⟩ := Option.isSome_iff_exists.mp hq'
  exact hi.lock q q' (by simp [hb q b₁ h₁]) (by simp [hb q' b₂ h₂])

theorem Inv.begin {w : World P H} (hi : Inv w) {p : P} (hfree : ∀ q, (w.procs q).batch = none) :
    Inv (w.set p w.shared
      { w.procs p with batch := some (batchBegin w.shared.pack.length) }) := by
  have hlive : ∀ h e, Live (w.set p w.shared
      { w.procs p with batch := some (batchBegin w.shared.pack.length) }) h e → Live w h e := by
    rintro h e (he | ⟨q, he⟩)
    · exact .inl he
    · by_cases hq : q = p
      · subst hq
        exact .inr ⟨q, by simpa [World.set] using he⟩
      · exact .inr ⟨q, by simpa [World.set, hq] using he⟩
  have hb : ∀ q b, ((w.set p w.shared
      { w.procs p with batch := some (batchBegin w.shared.pack.length) }).procs q).batch = some b →
      q = p ∧ b = batchBegin w.shared.pack.length := by
    intro q b hq
    by_cases hqp : q = p
    · subst hqp
      refine ⟨rfl, ?_⟩
      simpa [World.set, eq_comm] using hq
    · simp [World.set, hqp, hfree q] at hq
  refine ⟨?_, fun h e he => hi.live h e (hlive h e he), ?_, ?_, ?_, hi.roots⟩
  · intro q q' hq hq'
    obtain ⟨b₁, h₁⟩ := Option.isSome_iff_exists.mp hq
    obtain ⟨b₂, h₂⟩ := Option.isSome_iff_exists.mp hq'
    rw [(hb q b₁ h₁).1, (hb q' b₂ h₂).1]
  · intro q b hq
    rw [(hb q b hq).2]
    exact ⟨le_rfl, le_rfl, rfl⟩
  · intro q b hq h e he
    rw [(hb q b hq).2]
    exact (hi.live h e (hlive h e he)).2.1
  · intro q b hq h e he
    rw [(hb q b hq).2] at he
    cases he

theorem Moves.keeps {w : World P H} {p : P} {b : Batch H} {s : Shared H} {pr : Proc H}
    (h : Moves w p b s pr) (hi : Inv w) (hb : (w.procs p).batch = some b) :
    Keeps w (w.set p s pr) :=
  ⟨fun k e he => Extent.read_congr (hi.before p b hb k e he) h.keep, h.index⟩

variable [DecidableEq H]

/-- One step of one process keeps the invariant and every entry. -/
theorem Inv.step {w w' : World P H} (hi : Inv w) (hs : Step w w') : Inv w' ∧ Keeps w w' := by
  cases hs with
  | begin p hfree hsize => exact ⟨hi.begin hfree, fun _ _ _ => rfl, fun _ _ h => h⟩
  | put p hash bytes fs hb =>
    have hm := put_moves hi hb hash bytes fs
    exact ⟨hm.inv hi hb, hm.keeps hi hb⟩
  | commitStaged p fs hb =>
    have hm := commitStaged_moves hi hb fs
    exact ⟨hm.inv hi hb, hm.keeps hi hb⟩
  | commitRoot p root fs hb =>
    have hm := commitRoot_moves hi hb root fs
    exact ⟨hm.inv hi hb, hm.keeps hi hb⟩
  | @abort p b fs hb =>
    have hm : Moves w p b _ _ := abort_moves hi fs
    exact ⟨hm.inv hi hb, hm.keeps hi hb⟩
  | kvPut p =>
    exact ⟨hi.of_quiet (List.Subset.refl _) fun _ h => h, fun _ _ _ => rfl, fun _ _ h => h⟩
  | die p => exact ⟨hi.of_quiet nofun nofun, fun _ _ _ => rfl, fun _ _ h => h⟩

theorem run_inv {w w' : World P H} (h : w.Fresh) (hrun : Relation.ReflTransGen Step w w') :
    Inv w' := by
  induction hrun with
  | refl => exact h.inv
  | tail _ hs ih => exact (ih.step hs).1

/-- In every state that any number of processes reach: every indexed extent and every
extent staged in a process lies in the file and holds bytes put under its hash; no step
changes these bytes, or an index entry; the root is indexed and is the last one of a
journal numbered from 1 on. -/
theorem extents_immutable {w w' : World P H} (h : w.Fresh)
    (hrun : Relation.ReflTransGen Step w w') :
    (∀ k e, Live w' k e → e.Holds w'.shared.pack w'.shared.puts k) ∧
    (∀ w'', Step w' w'' → Keeps w' w'') ∧ Journaled w'.shared := by
  have hi := run_inv h hrun
  exact ⟨hi.live, fun w'' hs => (hi.step hs).2, hi.roots⟩

/-- Two processes, of which one may have a batch. -/
def acting (p : Bool) (s : Shared Nat) (b : Option (Batch Nat)) : World Bool Nat :=
  ⟨s, Function.update (fun _ => ⟨[], false, none⟩) p ⟨[], false, b⟩⟩

section TwoProcs

variable {s : Shared Nat} (p : Bool) (hash : Nat) (byte : Byte)

/-- Without a batch it does not matter which. -/
theorem acting_none (q : Bool) (s : Shared Nat) : acting p s none = acting q s none := by
  simp [acting]

theorem acting_set (s' : Shared Nat) (b b' : Option (Batch Nat)) :
    (acting p s b).set p s' ⟨[], false, b'⟩ = acting p s' b' := by
  simp [acting, World.set]

/-- The batch of one new byte. -/
def oneByte (s : Shared Nat) (hash : Nat) (byte : Byte) : Batch Nat :=
  ⟨s.pack.length, s.pack.length, s.pack.length + 1, [byte], true, false,
    [(hash, ⟨s.pack.length, 1⟩)]⟩

/-- A process begins a batch and puts a new byte. -/
theorem acting_puts (hnew : s.index hash = none) (hroom : s.pack.length < int64Max) :
    Relation.ReflTransGen Step (acting p s none)
      (acting p { s with puts := s.puts ++ [(hash, [byte])] } (some (oneByte s hash byte))) := by
  have hbegin := Step.begin (w := acting p s none) p (by simp [acting]) hroom.le
  have hput := Step.put (w := acting p s (some (batchBegin s.pack.length))) p hash [byte] []
    (b := batchBegin s.pack.length) (by simp [acting])
  have hone : batchPut (batchBegin s.pack.length) [] s.index hash [byte] s.pack [] =
      (true, oneByte s hash byte, s.pack) := by
    have hfits : ¬1 > int64Max - s.pack.length := by omega
    simp [batchPut, batchContains, batchBegin, find, hnew, batchAppend, hfits, appendLoop,
      Batch.fill, bufferBytes, Faults.next, oneByte]
  have hself : ∀ b, (acting p s b).procs p = ⟨[], false, b⟩ := by simp [acting]
  simp only [hself, acting_set] at hbegin hput
  rw [show (acting p s (some (batchBegin s.pack.length))).shared = s from rfl, hone] at hput
  exact (Relation.ReflTransGen.single hbegin).tail hput

/-- It publishes the byte as the root. -/
theorem acting_saves (hnew : s.index hash = none) (hroot : s.root ≠ some hash)
    (hroom : s.pack.length < int64Max) :
    ∃ s', Relation.ReflTransGen Step (acting p s none) (acting p s' none) ∧
      s'.pack = s.pack ++ [byte] ∧ s'.root = some hash ∧
      s'.index = Function.update s.index hash (some ⟨s.pack.length, 1⟩) := by
  have hcommit := Step.commitRoot (w := acting p { s with puts := s.puts ++ [(hash, [byte])] }
    (some (oneByte s hash byte))) p (b := oneByte s hash byte) hash [] (by simp [acting])
  have hwithin : (Extent.mk s.pack.length 1).within (s.pack.length + 1) = true := by
    have hone : 1 ≤ int64Max - s.pack.length := by omega
    simp [Extent.within, hroom.le, hone]
  have hwrite : pwrite s.pack [byte] s.pack.length = s.pack ++ [byte] := by simp [pwrite]
  obtain ⟨s', hs', hkeep⟩ : ∃ s', commitRoot { s with puts := s.puts ++ [(hash, [byte])] }
      ⟨[], false, some (oneByte s hash byte)⟩ (oneByte s hash byte) hash [] =
        (true, s', ⟨[], false, none⟩) ∧ s'.pack = s.pack ++ [byte] ∧ s'.root = some hash ∧
        s'.index = Function.update s.index hash (some ⟨s.pack.length, 1⟩) := by
    have hstart : ¬s.pack.length + 1 < s.pack.length := by omega
    simp [commitRoot, batchContains, find, oneByte, hwithin, Faults.next, batchFlush, hwrite, batchTxn,
      batchIndex, hstart, hnew, hroot]
  have hself : ∀ t b, (acting p t b).procs p = ⟨[], false, b⟩ := by simp [acting]
  simp only [hself, show ∀ t b, (acting p t b).shared = t from fun _ _ => rfl, hs', acting_set]
    at hcommit
  exact ⟨s', (acting_puts p hash byte hnew hroom).tail hcommit, hkeep⟩

/-- Or it gives the batch up. -/
theorem acting_aborts (hnew : s.index hash = none) (hroom : s.pack.length < int64Max) :
    Relation.ReflTransGen Step (acting p s none)
      (acting p { s with puts := s.puts ++ [(hash, [byte])] } none) := by
  have habort := Step.abort (w := acting p { s with puts := s.puts ++ [(hash, [byte])] }
    (some (oneByte s hash byte))) p (b := oneByte s hash byte) [] (by simp [acting])
  have hself : ∀ t b, (acting p t b).procs p = ⟨[], false, b⟩ := by simp [acting]
  have hkeep : batchAbort (oneByte s hash byte) s.pack [] = s.pack := by
    simp [batchAbort, oneByte, Faults.next]
  simp only [hself, show ∀ t b, (acting p t b).shared = t from fun _ _ => rfl, abandon, hkeep,
    acting_set] at habort
  exact (acting_puts p hash byte hnew hroom).tail habort

end TwoProcs

/-- One process saves an object, the other gives a batch up and then saves another one behind
it. -/
theorem twoProcs_immutable : ∃ w', Relation.ReflTransGen Step
      (acting false ⟨[], fun _ => none, none, [], []⟩ none) w' ∧
    w'.shared.index 7 = some ⟨0, 1⟩ ∧ w'.shared.index 8 = none ∧
    w'.shared.index 9 = some ⟨1, 1⟩ ∧ w'.shared.pack = [1, 3] ∧
    (∀ k e, Live w' k e → e.Holds w'.shared.pack w'.shared.puts k) ∧
    (∀ w'', Step w' w'' → Keeps w' w'') ∧ Journaled w'.shared := by
  obtain ⟨s₁, h₁, hpack₁, hroot₁, hindex₁⟩ := acting_saves false 7 1
    (s := ⟨[], fun _ => none, none, [], []⟩) rfl nofun (by decide)
  have hmid := acting_aborts (s := s₁) true 8 2 (by simp [hindex₁]) (by simp [hpack₁, int64Max])
  obtain ⟨s₂, h₂, hpack₂, hroot₂, hindex₂⟩ := acting_saves true 9 3
    (s := { s₁ with puts := s₁.puts ++ [(8, [2])] }) (by simp [hindex₁]) (by simp [hroot₁])
    (by simp [hpack₁, int64Max])
  rw [acting_none false true s₁] at h₁
  have hrun := h₁.trans (hmid.trans h₂)
  have hlive := extents_immutable ⟨rfl, fun _ => rfl, rfl, rfl, fun _ => by simp [acting]⟩ hrun
  refine ⟨_, hrun, ?_, ?_, ?_, ?_, hlive⟩ <;> simp [acting, hindex₂, hindex₁, hpack₂, hpack₁]

end Enki.Pack
