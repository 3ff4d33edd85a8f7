import Enki.Native.Published

/-!
# Preparing a checkpoint

`Writing n h m`: a store that is open on a checkpoint, after the checkpoints `h`, and whose
working index is the map `m`. Every operation keeps it, whether it succeeds or not, and
the candidate that `pl_native_checkpoint` prepares extends the lineage (`prepare_spec`).
-/

namespace Enki.Native

open Lib (Patricia)

/-! ## Open stores -/

/-- A store that is open on a checkpoint, after the checkpoints `h`; its working index is
the map `m`. -/
structure Writing (n : Store) (h : List Super) (m : Bool → Key → Nat) : Prop where
  indexed : Indexed n m
  published : Published n.disk n.committed h
  work : n.work = { n.committed with
    objects := n.work.objects, cache := n.work.cache, nextId := n.work.nextId }
  ids : n.committed.nextId ≤ n.work.nextId ∧ n.work.nextId ≤ slotCount
  root : n.committed.root = 0 ∨ m false n.committed.rootHash = n.committed.root
  room : nround n.next ≤ n.mapped
  cap : n.next ≤ nativeBytes

/-- What is before `next` is kept. -/
theorem Appends.keeps {n n' : Store} (h : Appends n n') : Keeps n n' :=
  ⟨h.committed, h.next, fun off r hr hlt hlen => (h.disk off r (.inl ⟨hlt, hlen⟩)).mpr hr⟩

theorem Indexed.keep {n n' : Store} {m : Bool → Key → Nat} (h : Indexed n m) (hk : Keeps n n')
    (ha : Aligned n') (hnodes : n'.nodes = n.nodes) (hroot : ∀ c, n'.rootOf c = n.rootOf c) :
    Indexed n' m := by
  obtain ⟨ha₀, F, hd, hF⟩ := h
  refine ⟨ha, F, hd, fun c => ?_⟩
  rw [hroot]
  exact (hF c).frame hk ha₀ fun j _ => by rw [hnodes]

/-- An operation that only appends keeps all but the working index. -/
theorem Writing.append {n n' : Store} {h : List Super} {m m' : Bool → Key → Nat}
    (hw : Writing n h m) (happ : Appends n n') (hi : Indexed n' m')
    (hwork : n'.work = { n.work with
      objects := n'.work.objects, cache := n'.work.cache, nextId := n'.work.nextId })
    (hids : n.work.nextId ≤ n'.work.nextId ∧ n'.work.nextId ≤ slotCount)
    (hroot : n.committed.root = 0 ∨ m' false n.committed.rootHash = n.committed.root) :
    Writing n' h m' := by
  have hhi := hw.indexed.aligned.committed
  refine ⟨hi, ?_, ?_, ?_, ?_, happ.room hw.room, happ.cap hw.cap⟩
  · rw [happ.committed]
    exact hw.published.mono (happ.keeps.disk.anti hhi)
  · rw [hwork, hw.work, happ.committed]
  · rw [happ.committed]
    exact ⟨hw.ids.1.trans hids.1, hids.2⟩
  · rw [happ.committed]
    exact hroot

section Operations

variable {n n' : Store} {h : List Super} {m : Bool → Key → Nat}

/-- The same index after an operation that only appends. -/
theorem Writing.same (hw : Writing n h m) (happ : Appends n n') (hi : Indexed n' m)
    (hwork : n'.work = n.work) : Writing n' h m := by
  refine hw.append happ hi ?_ ?_ hw.root
  · rw [hwork]
  · rw [hwork]
    exact ⟨le_rfl, hw.ids.2⟩

theorem Writing.alloc {len : Nat} {r : Option Nat} (hw : Writing n h m)
    (ha : n.alloc len = (r, n')) : Writing n' h m := by
  obtain ⟨happ, hnodes, hwork, -⟩ := alloc_appends ha
  have hal := (alloc_spec hw.indexed.aligned ha).2.1
  refine hw.same happ (hw.indexed.keep happ.keeps hal hnodes fun c => ?_) hwork
  unfold Store.rootOf
  rw [hwork]

/-- A record of another kind than an index node. -/
theorem Writing.write {off : Nat} {r : Rec} (hw : Writing n h m)
    (ha : n.alloc r.len = (some off, n')) :
    Writing { n' with disk := n'.disk.write off r } h m := by
  have hstep : n.step (.record r n.faults) = { n' with disk := n'.disk.write off r } := by
    simp only [Store.step]
    rw [ha]
  have hi := (hw.indexed.record r n.faults).1
  rw [hstep] at hi
  exact hw.same (alloc_write ha) hi (alloc_appends ha).2.2.1

theorem Writing.faults (hw : Writing n h m) (fs : List Bool) :
    Writing { n with faults := fs } h m :=
  hw.same (.of_same rfl) (hw.indexed.withFaults fs) rfl

theorem Writing.point (hw : Writing n h m) : Writing n.point.2 h m := by
  rw [point_eq]
  exact hw.faults _

/-- `ninsert` in one of the trees succeeds. -/
theorem Writing.insert (hw : Writing n h m) {c : Bool} {key : Key} {value : Nat}
    (hroot : c = false → n.committed.root = 0 ∨ key ≠ n.committed.rootHash)
    {ok : Bool} {root : Nat} (he : n.insert (n.rootOf c) key value = (ok, root, n')) :
    ok = true ∧ Appends n (n'.setRoot c root) ∧
      Writing (n'.setRoot c root) h (Function.update m c (Function.update (m c) key value)) ∧
      (n'.setRoot c root).work.nextId = n.work.nextId := by
  have hstep : n.step (.insert c key value) = n'.setRoot c root := by
    simp only [Store.step, he]
  have hi := (hw.indexed.insert c key value).1
  rw [hstep] at hi
  obtain ⟨ha, F, -, hF⟩ := hw.indexed
  obtain ⟨root', n₁, F', heq, hext, -⟩ := (hF c).insert ha key value
  rw [he] at heq
  obtain ⟨rfl, hpair⟩ := Prod.mk.inj heq
  obtain ⟨rfl, rfl⟩ := Prod.mk.inj hpair
  have hsame := hext.same
  have happ : Appends n (n'.setRoot c root) := by
    refine .of_same ?_
    rw [setRoot_eq, hsame]
  have hids : (n'.setRoot c root).work.nextId = n.work.nextId := by
    rw [hsame]
    cases c <;> rfl
  refine ⟨rfl, happ, hw.append happ hi ?_ ?_ ?_, hids⟩
  · rw [hsame]
    cases c <;> rfl
  · rw [hids]
    exact ⟨le_rfl, hw.ids.2⟩
  · rcases hw.root with h0 | hr
    · exact .inl h0
    · cases c with
      | true => exact .inr (by simpa using hr)
      | false =>
        rcases hroot rfl with h0 | hne
        · exact .inl h0
        · exact .inr (by simpa [hne.symm] using hr)

/-- The next identifier is taken. -/
theorem Writing.bump (hw : Writing n h m) (hcap : n.work.nextId < slotCount) :
    Writing { n with work := { n.work with nextId := n.work.nextId + 1 } } h m := by
  have happ : Appends n { n with work := { n.work with nextId := n.work.nextId + 1 } } :=
    .of_same rfl
  have ha := hw.indexed.aligned
  refine hw.append happ (hw.indexed.keep happ.keeps ⟨ha.1, ha.2, ha.3⟩ rfl fun c => ?_) rfl
    ⟨Nat.le_succ _, hcap⟩ hw.root
  cases c <;> rfl

theorem Writing.lookup (hw : Writing n h m) (c : Bool) (key : Key) :
    n.workingLookup (n.rootOf c) key = some (m c key) := by
  obtain ⟨-, F, -, hF⟩ := hw.indexed
  exact (hF c).lookup key

/-- Identifiers are not taken back, and a PIN of the index stays. -/
structure Grows (n n' : Store) (m m' : Bool → Key → Nat) : Prop where
  ids : n.work.nextId ≤ n'.work.nextId
  kept : ∀ key, m false key ≠ 0 → m' false key = m false key

/-- The same index. -/
theorem Grows.same (hids : n.work.nextId ≤ n'.work.nextId) : Grows n n' m m := ⟨hids, fun _ _ => rfl⟩

/-- `pl_native_stage` appends, and changes the index only if it succeeds. -/
theorem stage_spec {o : Object} {ok : Bool} (hw : Writing n h m) (he : n.stage o = (ok, n')) :
    Appends n n' ∧ ∃ m', Writing n' h m' ∧ (ok = false → m' = m) ∧ Grows n n' m m' := by
  unfold Store.stage at he
  have hstay : (false, n) = (ok, n') →
      Appends n n' ∧ ∃ m', Writing n' h m' ∧ (ok = false → m' = m) ∧ Grows n n' m m' := by
    rintro ⟨⟩
    exact ⟨.refl n, m, hw, fun _ => rfl, .same le_rfl⟩
  split at he
  · exact hstay he
  have hl : n.workingLookup n.work.objects o.hash = some (m false o.hash) := hw.lookup false o.hash
  rw [hl] at he
  dsimp only at he
  split at he
  · cases he
    exact ⟨.refl n, m, hw, fun _ => rfl, .same le_rfl⟩
  next hfound =>
  split at he
  · exact hstay he
  next hcap =>
  split at he
  · exact hstay he
  split at he
  · exact hstay he
  next size hsize =>
  cases hal : n.alloc size with
  | mk r n₁ =>
    rw [hal] at he
    cases r with
    | none =>
      cases he
      obtain ⟨happ, -, hwork, -⟩ := alloc_appends hal
      exact ⟨happ, m, hw.alloc hal, fun _ => rfl, .same (by rw [hwork])⟩
    | some off =>
      obtain ⟨happ, hnodes, hwork, -⟩ := alloc_appends hal
      dsimp only at he
      generalize hp : (⟨size, o.hash, o.nsub, o.bodyAt off, n₁.work.nextId⟩ : Pin) = pin at he
      have hlen : (Rec.object pin).len = size := by
        rw [← hp]
        rfl
      have hw₁ := hw.write (r := .object pin) (hlen ▸ hal)
      have ha₁ := alloc_write (r := .object pin) (hlen ▸ hal)
      have hid : n₁.work.nextId < slotCount := by
        rw [hwork]
        omega
      have hw₂ := (hw₁.bump hid).point
      have ha₂ := (ha₁.trans (.of_same rfl)).trans (.point { n₁ with
        disk := n₁.disk.write off (.object pin)
        work := { n₁.work with nextId := n₁.work.nextId + 1 } })
      have hids : n.work.nextId ≤ (Store.point { n₁ with
          disk := n₁.disk.write off (.object pin)
          work := { n₁.work with nextId := n₁.work.nextId + 1 } }).2.work.nextId := by
        rw [point_work, hwork]
        exact Nat.le_succ _
      dsimp only at hw₂
      generalize Store.point { n₁ with
        disk := n₁.disk.write off (.object pin)
        work := { n₁.work with nextId := n₁.work.nextId + 1 } } = q at he hw₂ ha₂ hids
      obtain ⟨ok₂, n₂⟩ := q
      dsimp only at he hw₂ ha₂ hids
      split at he
      · cases he
        exact ⟨ha₂, m, hw₂, fun _ => rfl, .same hids⟩
      · cases hins : n₂.insert n₂.work.objects o.hash off with
        | mk ok₃ q =>
          obtain ⟨root, n₃⟩ := q
          rw [hins] at he
          cases he
          -- the hash was not in the index, so it is not that of the committed root
          have hnew : n₂.committed.root = 0 ∨ o.hash ≠ n₂.committed.rootHash := by
            rcases hw₂.root with h0 | hr
            · exact .inl h0
            · by_cases h0 : n₂.committed.root = 0
              · exact .inl h0
              · refine .inr fun heq => h0 ?_
                rw [← hr, ← heq]
                exact not_not.mp hfound
          obtain ⟨rfl, ha₃, hw₃, hid₃⟩ := hw₂.insert (c := false) (fun _ => hnew) hins
          refine ⟨ha₂.trans ha₃, _, hw₃, nofun, hids.trans hid₃.ge, fun key hkey => ?_⟩
          have hne : key ≠ o.hash := fun heq => hkey (heq ▸ not_not.mp hfound)
          rw [Function.update_self, Function.update_of_ne hne]

/-- `nput` appends, and changes the index only if it succeeds. -/
theorem put_spec {key hash : Key} {ok : Bool} (hw : Writing n h m)
    (he : n.put key hash = (ok, n')) :
    Appends n n' ∧ ∃ m', Writing n' h m' ∧ (ok = false → m' = m) ∧ Grows n n' m m' := by
  unfold Store.put at he
  have hstay : (false, n) = (ok, n') →
      Appends n n' ∧ ∃ m', Writing n' h m' ∧ (ok = false → m' = m) ∧ Grows n n' m m' := by
    rintro ⟨⟩
    exact ⟨.refl n, m, hw, fun _ => rfl, .same le_rfl⟩
  split at he
  · exact hstay he
  have hl : n.workingLookup n.work.objects hash = some (m false hash) := hw.lookup false hash
  rw [hl] at he
  dsimp only at he
  split at he
  · exact hstay he
  cases hal : n.alloc (recordBytes + 32) with
  | mk r n₁ =>
    rw [hal] at he
    obtain ⟨happ, -, hwork, -⟩ := alloc_appends hal
    cases r with
    | none =>
      cases he
      exact ⟨happ, m, hw.alloc hal, fun _ => rfl, .same (by rw [hwork])⟩
    | some off =>
      have hw₁ := hw.write (r := .cache hash) hal
      have ha₁ := alloc_write (r := .cache hash) hal
      have hids : n.work.nextId =
          ({ n₁ with disk := n₁.disk.write off (.cache hash) } : Store).work.nextId := by
        rw [← hwork]
      dsimp only at he
      have hroot : n₁.work.cache =
        ({ n₁ with disk := n₁.disk.write off (.cache hash) } : Store).rootOf true := rfl
      generalize ({ n₁ with disk := n₁.disk.write off (.cache hash) } : Store) = n₂
        at he hw₁ ha₁ hroot hids
      rw [hroot] at he
      cases hins : n₂.insert (n₂.rootOf true) key off with
      | mk ok₃ q =>
        obtain ⟨root, n₃⟩ := q
        rw [hins] at he
        cases he
        obtain ⟨rfl, ha₃, hw₃, hid₃⟩ := hw₁.insert (c := true) nofun hins
        refine ⟨ha₁.trans ha₃, _, hw₃, nofun, hids.le.trans hid₃.ge, fun key _ => ?_⟩
        rw [Function.update_of_ne (by simp)]

/-- `pl_native_seal` moves on to the next granule. -/
theorem seal_spec {ok : Bool} (hw : Writing n h m) (he : n.seal = (ok, n')) :
    Appends n n' ∧ Writing n' h m ∧ n'.disk = n.disk ∧ n'.work = n.work ∧
      (ok = true → n'.next = nround n.next) := by
  have hnext : ∀ (s : Nat) (fs : List Bool),
      Appends n { n with next := nround n.next, sealed := s, faults := fs } ∧
      Writing { n with next := nround n.next, sealed := s, faults := fs } h m := by
    intro s fs
    have happ : Appends n { n with next := nround n.next, sealed := s, faults := fs } := by
      refine ⟨le_nround _, le_rfl, fun hr => ?_, nround_le_nativeBytes, fun _ _ _ => Iff.rfl,
        rfl, rfl, rfl⟩
      dsimp only
      rw [nround_eq (nround_granule _)]
      exact hr
    have ha := hw.indexed.aligned
    refine ⟨happ, hw.same happ (hw.indexed.keep happ.keeps ⟨?_, ?_, ?_⟩ rfl fun c => ?_) rfl⟩
    · exact ha.start_le.trans (le_nround _)
    · exact nround_mod _
    · exact ha.committed.trans (le_nround _)
    · cases c <;> rfl
  unfold Store.seal at he
  split at he
  · cases he
    exact ⟨.refl n, hw, rfl, rfl, nofun⟩
  dsimp only at he
  split at he
  · have hp := point_eq { n with next := nround n.next }
    generalize Store.point { n with next := nround n.next } = q at he hp
    obtain ⟨ok', n₁⟩ := q
    dsimp only at he hp
    split at he
    · cases he
      rw [hp]
      exact ⟨(hnext n.sealed n'.faults).1, (hnext n.sealed n'.faults).2, rfl, rfl, nofun⟩
    · cases he
      rw [hp]
      exact ⟨(hnext (nround n.next) n₁.faults).1, (hnext (nround n.next) n₁.faults).2, rfl, rfl,
        fun _ => rfl⟩
  · cases he
    exact ⟨(hnext (nround n.next) n.faults).1, (hnext (nround n.next) n.faults).2, rfl, rfl,
      fun _ => rfl⟩

/-- `nemit` of one of the trees. -/
theorem Writing.emit {c : Bool} {r : Option Nat} (hw : Writing n h m)
    (he : n.emit (n.rootOf c) 0 = (r, n')) :
    Appends n n' ∧ Writing n' h m ∧ n'.work = n.work ∧
      ∀ out, r = some out → n'.disk.Denotes n'.next out (m c) := by
  obtain ⟨happ, hwork⟩ := emit_appends he
  obtain ⟨hi, -, hout⟩ := hw.indexed.emit c he
  exact ⟨happ, hw.same happ hi hwork, hwork, hout⟩

/-- The journal entry, if the root has changed. -/
theorem enter_spec {hash : Key} {cand : Super} {r : Option Super} (hw : Writing n h m)
    (he : n.enter hash cand = (r, n')) :
    Appends n n' ∧ Writing n' h m ∧ n'.work = n.work ∧
      ∀ sb, r = some sb →
        n.changed hash = false ∧ sb = cand ∨
        n.changed hash = true ∧ ∃ off, n.next ≤ off ∧
          n'.disk.journal off n'.next = some ⟨n.committed.journal, cand.sequence + 1, hash,
            nround n'.next, cand.root⟩ ∧
          sb = { cand with sequence := cand.sequence + 1, journal := off } := by
  unfold Store.enter at he
  split at he
  · next hc =>
    cases he
    refine ⟨.refl n, hw, rfl, ?_⟩
    rintro sb ⟨⟩
    exact .inl ⟨hc, rfl⟩
  next hc =>
  split at he
  · cases he
    exact ⟨.refl n, hw, rfl, nofun⟩
  cases hal : n.alloc journalBytes with
  | mk q n₁ =>
    rw [hal] at he
    obtain ⟨happ, -, hwork, hoff⟩ := alloc_appends hal
    cases q with
    | none =>
      cases he
      exact ⟨happ, hw.alloc hal, hwork, nofun⟩
    | some off =>
      obtain ⟨hle, hnext, -⟩ := hoff off rfl
      obtain ⟨-, hmod, -⟩ := (alloc_spec hw.indexed.aligned hal).2.2.2.2 off rfl
      have hstart := hw.indexed.aligned.start_le
      dsimp only at he
      cases he
      generalize hj : (⟨n₁.committed.journal, cand.sequence + 1, hash, nround n₁.next,
        cand.root⟩ : Journal) = j
      refine ⟨alloc_write (r := .journal j) hal, hw.write (r := .journal j) hal, hwork, ?_⟩
      rintro sb ⟨⟩
      refine .inr ⟨by simpa using hc, off, hle, ?_, rfl⟩
      rw [Disk.journal_eq_some, ← happ.committed, hj]
      refine ⟨by simp [Disk.write], ?_⟩
      rw [nbound_iff]
      dsimp only
      have hlen : journalBytes ≤ (journalBytes + 7) / 8 * 8 := by decide
      omega

/-- The candidate that `pl_native_checkpoint` is about to publish: all it refers to is in
the arena, and it comes after the committed checkpoint. -/
structure Candidate (n n' : Store) (h : List Super) (sb : Super) : Prop where
  published : Published n'.disk sb (n.committed :: h)
  hi : sb.hi = n'.next
  room : sb.hi ≤ n'.mapped

/-- The index of the candidate is the working index. -/
structure Carries (n : Store) (sb : Super) (m : Bool → Key → Nat) : Prop where
  objects : n.disk.Denotes n.next sb.objects (m false)
  cache : n.disk.Denotes n.next sb.cache (m true)
  ids : sb.nextId = n.work.nextId

theorem load_spec {hash : Key} {root : Nat} (hw : Writing n h m) (hl : n.load hash = some root) :
    m false hash = root ∧ ∃ p, n.disk.pin root n.next n.work.nextId = some p ∧ p.hash = hash := by
  unfold Store.load at hl
  have hlook : n.workingLookup n.work.objects hash = some (m false hash) := hw.lookup false hash
  rw [hlook] at hl
  dsimp only at hl
  split at hl
  · cases hl
  · split at hl
    · cases hl
    · next p hp =>
      split at hl
      · next hhash =>
        cases hl
        exact ⟨rfl, p, hp, hhash⟩
      · cases hl

/-- The journal of the candidate, with an entry if the root has changed. -/
theorem candidate_chain {d : Disk} {c : Super} (sb : Super) (hash : Key)
    (hp : Published d c h) (hd : d.Agrees n'.disk c.hi) (hle : c.hi ≤ sb.hi)
    (hhash : sb.rootHash = hash)
    (hcase : (c.root ≠ 0 ∧ hash = c.rootHash) ∧ sb.journal = c.journal ∧ sb.sequence = c.sequence ∨
      (c.root = 0 ∨ hash ≠ c.rootHash) ∧ c.hi ≤ sb.journal ∧ sb.sequence = c.sequence + 1 ∧
        ∃ j, n'.disk.journal sb.journal sb.hi = some j ∧ j.hash = hash ∧
          j.seq = c.sequence + 1 ∧ j.previous = c.journal) :
    Chain n'.disk sb.hi sb.journal (rootsOf (sb :: c :: h)) ∧
      sb.sequence = (rootsOf (sb :: c :: h)).length := by
  have hchain := hp.chain.mono hle hd
  rcases hcase with ⟨⟨h0, heq⟩, hj, hs⟩ | ⟨hne, hoff, hs, j, hj, hk, hseq, hprev⟩
  · have hroots : rootsOf (sb :: c :: h) = rootsOf (c :: h) := by
      rw [rootsOf, if_neg (by simp [h0, hhash, heq])]
    rw [hroots, hj, hs]
    exact ⟨hchain, hp.sequence⟩
  · have hroots : rootsOf (sb :: c :: h) = hash :: rootsOf (c :: h) := by
      rw [rootsOf, hhash, if_pos hne]
    rw [hroots, hs, hp.sequence]
    refine ⟨⟨j, hj, hk, hseq.trans (by rw [hp.sequence]), ?_, hprev ▸ hchain⟩, rfl⟩
    rw [hprev]
    have hstart := hp.start_le
    rcases hp.entry with ⟨h0, -⟩ | ⟨j', hj', -⟩
    · unfold start granule at hstart
      omega
    · have := nbound_iff.1 (Disk.journal_eq_some.1 hj').2
      unfold journalBytes at this
      omega

theorem changed_eq_true {hash : Key} :
    n.changed hash = true ↔ n.committed.root = 0 ∨ hash ≠ n.committed.rootHash := by
  simp [Store.changed]

/-- The candidate is published once its index, its journal entry and its root are there. -/
theorem candidate_published {hash : Key} {root objects cache : Nat} {p : Pin} {cand sb : Super}
    (hw : Writing n h m) (hw' : Writing n' h m) (happ : Appends n n')
    (hobj : n'.disk.Denotes n'.next objects (m false))
    (hcache : n'.disk.Denotes n'.next cache (m true)) (hroot : m false hash = root)
    (hpin : n.disk.pin root n.next n.work.nextId = some p) (hphash : p.hash = hash)
    (hcand : cand = { n.work with
      objects := objects
      cache := cache
      generation := n.work.generation + 1
      root := root
      rootHash := hash })
    (hsb : n.changed hash = false ∧ sb = cand ∨
      n.changed hash = true ∧ ∃ off, n.next ≤ off ∧
        n'.disk.journal off n'.next =
          some ⟨n.committed.journal, cand.sequence + 1, hash, n'.next, cand.root⟩ ∧
        sb = { cand with sequence := cand.sequence + 1, journal := off })
    (hwhole : n'.next % granule = 0) : Candidate n n' h { sb with hi := n'.next } := by
  have hwork := hw.work
  have hhi := hw.indexed.aligned.committed
  have hle : n.committed.hi ≤ n'.next := hhi.trans happ.next
  have hd : n.disk.Agrees n'.disk n.committed.hi := happ.keeps.disk.anti hhi
  -- the fields that the journal entry does not touch
  have hfields : sb.objects = objects ∧ sb.cache = cache ∧ sb.root = root ∧ sb.rootHash = hash ∧
      sb.nextId = n.work.nextId ∧ sb.generation = n.committed.generation + 1 := by
    have hgen : n.work.generation = n.committed.generation := by rw [hwork]
    rcases hsb with ⟨-, rfl⟩ | ⟨-, off, -, -, rfl⟩ <;> subst hcand <;> simp [hgen]
  obtain ⟨ho, hc, hr, hh, hid, hgen⟩ := hfields
  have hbound := nbound_iff.1 (Disk.pin_eq_some.1 hpin).2.1
  have hcs : cand.sequence = n.committed.sequence := by
    rw [hcand, hwork]
  have hcj : cand.journal = n.committed.journal := by
    rw [hcand, hwork]
  have hcr : cand.root = root := by
    rw [hcand]
  obtain ⟨hchain, hseq⟩ := candidate_chain { sb with hi := n'.next } hash
    hw.published hd hle hh (by
      rcases hsb with ⟨hch, rfl⟩ | ⟨hch, off, hoff, hj, rfl⟩
      · rw [Bool.eq_false_iff, ne_eq, changed_eq_true] at hch
        exact .inl ⟨by simpa using hch, hcj, hcs⟩
      · exact .inr ⟨changed_eq_true.1 hch, hhi.trans hoff, by simp [hcs], _, hj, rfl, by simp [hcs],
          rfl⟩)
  refine ⟨⟨?_, ?_, ?_, ?_, ⟨m false, ?_, ?_⟩, ⟨m true, ?_⟩, .inr ⟨?_, p, ?_, ?_⟩, hchain, hseq, ?_, ?_⟩,
    rfl, ?_⟩
  · exact hw'.indexed.aligned.start_le
  · exact hw'.cap
  · exact hwhole
  · dsimp only
    rw [hid]
    exact ⟨hw.published.ids.1.trans_le hw.ids.1, hw.ids.2⟩
  · dsimp only
    rw [ho]
    exact hobj
  · dsimp only
    rw [hh, hr, hroot]
    exact .inr rfl
  · dsimp only
    rw [hc]
    exact hcache
  · dsimp only
    rw [hr]
    exact hbound.1
  · dsimp only
    rw [hr, hid]
    exact Disk.pin_mono happ.next happ.keeps.disk le_rfl hw.ids.2 hpin
  · exact hphash.trans hh.symm
  · -- the newest entry is that of this root, written now or before
    rcases hsb with ⟨hch, rfl⟩ | ⟨hch, off, hoff, hj, rfl⟩
    · rw [Bool.eq_false_iff, ne_eq, changed_eq_true, not_or, not_not] at hch
      obtain ⟨h0, heq⟩ := hch
      have hrc : root = n.committed.root := by
        rw [← hroot, heq]
        exact hw.root.resolve_left h0
      rcases hw.published.entry with ⟨-, hz⟩ | ⟨j, hj, hjr, hjh, hpack, hlen⟩
      · exact absurd hz h0
      · dsimp only
        rw [hcj, hcr, hh]
        exact .inr ⟨j, Disk.journal_mono hle hd hj, hjr.trans hrc.symm, hjh.trans heq.symm,
          hpack.trans hle, hlen⟩
    · have hin := nbound_iff.1 (Disk.journal_eq_some.1 hj).2
      exact .inr ⟨_, hj, rfl, hh.symm, le_rfl, hin.2.2⟩
  · rintro q ⟨⟩
    dsimp only
    exact ⟨by omega, hle⟩
  · have hroom := hw'.room
    rwa [nround_eq hwhole] at hroom

/-- The first half of `pl_native_checkpoint`. -/
theorem prepare_spec {hash : Key} {r : Prepared} (hw : Writing n h m)
    (he : n.prepare hash = (r, n')) :
    Appends n n' ∧ Writing n' h m ∧ n'.work = n.work ∧
      (r = .settled → n' = n ∧ n.settled hash = true) ∧
      ∀ sb, r = .candidate sb → Candidate n n' h sb ∧ Carries n' sb m := by
  unfold Store.prepare at he
  split at he
  · cases he
    exact ⟨.refl n, hw, rfl, nofun, nofun⟩
  split at he
  · cases he
    exact ⟨.refl n, hw, rfl, nofun, nofun⟩
  next root hload =>
  obtain ⟨hroot, p, hpin, hphash⟩ := load_spec hw hload
  split at he
  · next hset =>
    cases he
    exact ⟨.refl n, hw, rfl, fun _ => ⟨rfl, hset⟩, nofun⟩
  split at he
  · cases he
    exact ⟨.refl n, hw, rfl, nofun, nofun⟩
  cases he₁ : n.emit n.work.objects 0 with
  | mk q₁ n₁ =>
  rw [he₁] at he
  obtain ⟨ha₁, hw₁, hwork₁, hobj⟩ := hw.emit (c := false) he₁
  cases q₁ with
  | none =>
    cases he
    exact ⟨ha₁, hw₁, hwork₁, nofun, nofun⟩
  | some objects =>
  dsimp only at he
  cases he₂ : n₁.emit n₁.work.cache 0 with
  | mk q₂ n₂ =>
  rw [he₂] at he
  obtain ⟨ha₂, hw₂, hwork₂, hcache⟩ := hw₁.emit (c := true) he₂
  cases q₂ with
  | none =>
    cases he
    exact ⟨ha₁.trans ha₂, hw₂, hwork₂.trans hwork₁, nofun, nofun⟩
  | some cache =>
  dsimp only at he
  generalize hcand : ({ n₂.work with
    objects := objects
    cache := cache
    generation := n₂.work.generation + 1
    root := root
    rootHash := hash } : Super) = cand at he
  cases he₃ : n₂.enter hash cand with
  | mk q₃ n₃ =>
  rw [he₃] at he
  obtain ⟨ha₃, hw₃, hwork₃, henter⟩ := enter_spec hw₂ he₃
  cases q₃ with
  | none =>
    cases he
    exact ⟨(ha₁.trans ha₂).trans ha₃, hw₃, hwork₃.trans (hwork₂.trans hwork₁), nofun, nofun⟩
  | some sb =>
  dsimp only at he
  cases he₄ : n₃.seal with
  | mk ok n₄ =>
  rw [he₄] at he
  obtain ⟨ha₄, hw₄, hdisk₄, hwork₄, hnext₄⟩ := seal_spec hw₃ he₄
  have happ := ((ha₁.trans ha₂).trans ha₃).trans ha₄
  have hworks : n₄.work = n.work := hwork₄.trans (hwork₃.trans (hwork₂.trans hwork₁))
  dsimp only at he
  split at he
  · cases he
    exact ⟨happ, hw₄, hworks, nofun, nofun⟩
  · next hok =>
    cases he
    refine ⟨happ, hw₄, hworks, nofun, ?_⟩
    rintro sb' ⟨⟩
    have hcommitted : n₂.committed = n.committed := (ha₁.trans ha₂).committed
    have hnext : n'.next = nround n₃.next := hnext₄ (by simpa using hok)
    have hk₂ := (ha₂.trans (ha₃.trans ha₄)).keeps
    have hk₃ := (ha₃.trans ha₄).keeps
    rw [hwork₂, hwork₁] at hcand
    have hwhole : n'.next % granule = 0 := by
      rw [hnext]
      exact nround_granule _
    have hobj' := (hobj _ rfl).mono hk₂.next hk₂.disk
    have hcache' := (hcache _ rfl).mono hk₃.next hk₃.disk
    refine ⟨candidate_published hw hw₄ happ hobj' hcache' hroot hpin hphash hcand.symm ?_ hwhole, ?_⟩
    swap
    · -- an entry of the journal changes neither the index nor the identifiers
      have hfields : sb.objects = cand.objects ∧ sb.cache = cand.cache ∧ sb.nextId = cand.nextId := by
        rcases henter sb rfl with ⟨-, rfl⟩ | ⟨-, off, -, -, rfl⟩
        · exact ⟨rfl, rfl, rfl⟩
        · exact ⟨rfl, rfl, rfl⟩
      obtain ⟨ho, hc, hid⟩ := hfields
      rw [← hcand] at ho hc hid
      exact ⟨ho ▸ hobj', hc ▸ hcache', hid.trans (by rw [hworks])⟩
    have hch : n₂.changed hash = n.changed hash := by
      unfold Store.changed
      rw [hcommitted]
    rcases henter sb rfl with ⟨hc, rfl⟩ | ⟨hc, off, hoff, hj, hsb⟩
    · exact .inl ⟨hch ▸ hc, rfl⟩
    · refine .inr ⟨hch ▸ hc, off, (ha₁.trans ha₂).next.trans hoff, ?_, hsb⟩
      rw [hcommitted, ← hnext] at hj
      exact Disk.journal_mono ha₄.next ha₄.keeps.disk hj

end Operations

end Enki.Native
