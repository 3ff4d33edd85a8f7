import Enki.Native.Checkpoint
import Enki.Native.IndexEmit

/-!
# Published checkpoints

- `Appends n n'`: an operation changes the arena only between the two values of `next`.
- `Published d sb h`: the records of `d` hold everything that the checkpoint `sb` refers
  to; `h` are the checkpoints before it. `nsb_valid` then accepts its superblock, and
  `pl_native_log` returns the roots of the lineage.
-/

namespace Enki.Native

open Lib (Patricia)

/-! ## Appending -/

/-- Only the bytes between the two values of `next` are written, and these are mapped. -/
structure Appends (n n' : Store) : Prop where
  next : n.next ≤ n'.next
  mapped : n.mapped ≤ n'.mapped
  room : nround n.next ≤ n.mapped → nround n'.next ≤ n'.mapped
  cap : n.next ≤ nativeBytes → n'.next ≤ nativeBytes
  disk : ∀ off r, off < n.next ∧ off + r.len ≤ n.next ∨ n'.next ≤ off →
    (n'.disk off = some r ↔ n.disk off = some r)
  committed : n'.committed = n.committed
  readonly : n'.readonly = n.readonly
  poisoned : n'.poisoned = n.poisoned

theorem Appends.refl (n : Store) : Appends n n :=
  ⟨le_rfl, le_rfl, id, id, fun _ _ _ => Iff.rfl, rfl, rfl, rfl⟩

theorem Appends.trans {n n₁ n₂ : Store} (h : Appends n n₁) (h' : Appends n₁ n₂) :
    Appends n n₂ := by
  refine ⟨h.next.trans h'.next, h.mapped.trans h'.mapped, h'.room ∘ h.room, h'.cap ∘ h.cap,
    fun off r hoff => ?_, h'.committed.trans h.committed, h'.readonly.trans h.readonly,
    h'.poisoned.trans h.poisoned⟩
  have hn := h.next
  have hn' := h'.next
  rw [h'.disk off r (by omega), h.disk off r (by omega)]

/-- The overlay, the working superblock and the script do not matter. -/
theorem Appends.of_same {n n' : Store} (h : n' = { n with
    nodes := n'.nodes, work := n'.work, faults := n'.faults }) : Appends n n' := by
  rw [h]
  exact ⟨le_rfl, le_rfl, id, id, fun _ _ _ => Iff.rfl, rfl, rfl, rfl⟩

@[simp] theorem point_work (n : Store) : n.point.2.work = n.work := by
  rw [point_eq]

theorem Appends.point (n : Store) : Appends n n.point.2 :=
  .of_same (by rw [point_eq])

/-- Zeroing a range destroys the records that overlap it, and makes none. -/
theorem Disk.erase_eq_some {d : Disk} {off len o : Nat} {r : Rec} :
    d.erase off len o = some r ↔ d o = some r ∧ ¬ (o < off + len ∧ off < o + r.len) := by
  unfold Disk.erase
  cases h : d o with
  | none => simp
  | some r' =>
    dsimp only
    split
    · next hin =>
      refine ⟨nofun, ?_⟩
      rintro ⟨h, hout⟩
      cases h
      exact absurd hin hout
    · next hin =>
      refine ⟨?_, And.left⟩
      intro h
      cases h
      exact ⟨rfl, hin⟩

theorem nround_le_nativeBytes {m : Nat} (h : m ≤ nativeBytes) : nround m ≤ nativeBytes := by
  unfold nround granule nativeBytes at *
  omega

theorem nround_granule (m : Nat) : nround m % granule = 0 := by
  unfold nround
  exact Nat.mul_mod_left ..

theorem nround_eq {m : Nat} (h : m % granule = 0) : nround m = m := by
  unfold nround granule at *
  omega

theorem le_place (n : Store) (len : Nat) : n.next ≤ n.place len := by
  unfold Store.place
  split
  · exact le_nround _
  · exact le_rfl

theorem grow_mapped {n n' : Store} {hi : Nat} {ok : Bool} (h : n.grow hi = (ok, n')) :
    n.mapped ≤ n'.mapped ∧ (ok = true → nround hi ≤ n'.mapped) := by
  unfold Store.grow at h
  split at h
  · next hlt =>
    have hp := point_eq n
    dsimp only at h
    generalize n.point = q at h hp
    obtain ⟨ok', m⟩ := q
    dsimp only at h hp
    cases ok' with
    | true =>
      cases h
      exact ⟨hlt.le, fun _ => le_rfl⟩
    | false =>
      cases h
      rw [hp]
      exact ⟨le_rfl, nofun⟩
  · next hlt =>
    cases h
    exact ⟨le_rfl, fun _ => Nat.le_of_not_lt hlt⟩

/-- `nalloc` zeroes the bytes it takes. -/
theorem alloc_appends {n n' : Store} {len : Nat} {r : Option Nat} (h : n.alloc len = (r, n')) :
    Appends n n' ∧ n'.nodes = n.nodes ∧ n'.work = n.work ∧
    ∀ off, r = some off → n.next ≤ off ∧ n'.next = off + (len + 7) / 8 * 8 ∧
      recordBytes ≤ len := by
  unfold Store.alloc at h
  dsimp only at h
  split at h
  · cases h
    exact ⟨.refl n, rfl, rfl, nofun⟩
  split at h
  · cases h
    exact ⟨.refl n, rfl, rfl, nofun⟩
  next hlen =>
  generalize (len + 7) / 8 * 8 = len' at h ⊢
  have hplace := le_place n len'
  generalize n.place len' = at_ at h hplace
  split at h
  · cases h
    exact ⟨.refl n, rfl, rfl, nofun⟩
  next hcap =>
  have hgrow := grow_eq n (at_ + len')
  cases hg : n.grow (at_ + len') with
  | mk ok m =>
    obtain ⟨hmap, hroom⟩ := grow_mapped hg
    rw [hg] at h hgrow
    dsimp only at h hgrow
    cases ok with
    | false =>
      cases h
      rw [hgrow]
      refine ⟨⟨le_rfl, hmap, fun hr => hr.trans hmap, id, fun _ _ _ => Iff.rfl, rfl, rfl, rfl⟩,
        rfl, rfl, nofun⟩
    | true =>
      cases h
      rw [hgrow]
      refine ⟨⟨hplace.trans (Nat.le_add_right ..), hmap, fun _ => hroom rfl, ?_, ?_, rfl, rfl, rfl⟩,
        rfl, rfl, ?_⟩
      · intro _
        dsimp only
        omega
      · intro off r hoff
        dsimp only at hoff ⊢
        rw [Disk.erase_eq_some]
        exact and_iff_left (by omega)
      · rintro off ⟨⟩
        exact ⟨hplace, rfl, by omega⟩

/-- A record in the space just taken for it. -/
theorem alloc_write {n n' : Store} {off : Nat} {r : Rec} (h : n.alloc r.len = (some off, n')) :
    Appends n { n' with disk := n'.disk.write off r } := by
  obtain ⟨happ, -, -, hoff⟩ := alloc_appends h
  obtain ⟨hle, hnext, hlen⟩ := hoff off rfl
  have hpos : 0 < recordBytes := by decide
  refine ⟨happ.next, happ.mapped, happ.room, happ.cap, fun o r' ho => ?_, happ.committed,
    happ.readonly, happ.poisoned⟩
  dsimp only at ho ⊢
  rw [← happ.disk o r' ho, Disk.write, Function.update_of_ne (by omega), Disk.erase_eq_some]
  exact and_iff_left (by omega)

theorem emitRecord_appends {n n' : Store} {i : Nat} {p : Index} {r : Option Nat}
    (h : n.emitRecord i p = (r, n')) : Appends n n' := by
  unfold Store.emitRecord at h
  cases hal : n.alloc indexBytes with
  | mk q n₁ =>
    rw [hal] at h
    cases q with
    | none =>
      cases h
      exact (alloc_appends hal).1
    | some off =>
      have hw := alloc_write (r := .index p) hal
      cases h
      exact (hw.trans (.of_same rfl)).trans (.point _)

theorem emitRecord_work {n n' : Store} {i : Nat} {p : Index} {r : Option Nat}
    (h : n.emitRecord i p = (r, n')) : n'.work = n.work := by
  unfold Store.emitRecord at h
  cases hal : n.alloc indexBytes with
  | mk q n₁ =>
    rw [hal] at h
    obtain ⟨-, -, hwork, -⟩ := alloc_appends hal
    cases q with
    | none =>
      cases h
      exact hwork
    | some off =>
      obtain ⟨-, rfl⟩ := Prod.mk.inj h
      exact (point_work _).trans hwork

/-- `nemit` only appends. -/
theorem emit_appends {n n' : Store} {ref lo : Nat} {r : Option Nat}
    (h : n.emit ref lo = (r, n')) : Appends n n' ∧ n'.work = n.work := by
  fun_induction Store.emit n ref lo generalizing r n' with
  | case1 | case2 | case3 | case4 | case5 =>
    cases h
    exact ⟨.refl _, rfl⟩
  | case6 _ _ _ _ _ _ _ _ _ _ _ h₁ ih =>
    cases h
    exact ih h₁
  | case7 _ _ _ _ _ _ _ _ _ _ _ _ h₁ _ h₂ ih₁ ih₂ =>
    cases h
    obtain ⟨ha₁, hw₁⟩ := ih₁ h₁
    obtain ⟨ha₂, hw₂⟩ := ih₂ h₂
    exact ⟨ha₁.trans ha₂, hw₂.trans hw₁⟩
  | case8 _ _ _ _ _ _ _ _ _ _ _ _ h₁ _ _ h₂ ih₁ ih₂ =>
    obtain ⟨ha₁, hw₁⟩ := ih₁ h₁
    obtain ⟨ha₂, hw₂⟩ := ih₂ h₂
    exact ⟨(ha₁.trans ha₂).trans (emitRecord_appends h),
      (emitRecord_work h).trans (hw₂.trans hw₁)⟩
  | case9 => exact ⟨emitRecord_appends h, emitRecord_work h⟩

/-! ## Published checkpoints -/

/-- The root of an index in the arena, and the map it denotes. -/
def Disk.Denotes (d : Disk) (hi root : Nat) (m : Key → Nat) : Prop :=
  root = 0 ∧ (∀ k, m k = 0) ∨
  ∃ t, d.Tree hi root t ∧ t.WF nbit 256 0 ∧ ∀ k, m k = (t.lookup nbit k).getD 0

/-- The roots that the checkpoints of a lineage changed to, newest first. -/
def rootsOf : List Super → List Key
  | c :: p :: h =>
    if p.root = 0 ∨ c.rootHash ≠ p.rootHash then c.rootHash :: rootsOf (p :: h)
    else rootsOf (p :: h)
  | _ => []

/-- The journal entries from an offset back are those of these roots, newest first. -/
def Chain (d : Disk) (hi : Nat) : Nat → List Key → Prop
  | off, [] => off = 0
  | off, k :: ks => ∃ j, d.journal off hi = some j ∧ j.hash = k ∧ j.seq = ks.length + 1 ∧
      j.previous < off ∧ Chain d hi j.previous ks

/-- Everything that a superblock refers to is in the arena; `h` are the checkpoints before
it, newest first. -/
structure Published (d : Disk) (sb : Super) (h : List Super) : Prop where
  start_le : start ≤ sb.hi
  cap : sb.hi ≤ nativeBytes
  whole : sb.hi % granule = 0
  ids : 0 < sb.nextId ∧ sb.nextId ≤ slotCount
  objects : ∃ m, d.Denotes sb.hi sb.objects m ∧ (sb.root = 0 ∨ m sb.rootHash = sb.root)
  cache : ∃ m, d.Denotes sb.hi sb.cache m
  root : sb.root = 0 ∨ start ≤ sb.root ∧
    ∃ p, d.pin sb.root sb.hi sb.nextId = some p ∧ p.hash = sb.rootHash
  chain : Chain d sb.hi sb.journal (rootsOf (sb :: h))
  sequence : sb.sequence = (rootsOf (sb :: h)).length
  entry : sb.journal = 0 ∧ sb.root = 0 ∨ ∃ j, d.journal sb.journal sb.hi = some j ∧
    j.root = sb.root ∧ j.hash = sb.rootHash ∧ j.packBytes ≤ sb.hi ∧
    sb.journal + journalBytes ≤ j.packBytes
  newer : ∀ p ∈ h.head?, p.generation < sb.generation ∧ p.hi ≤ sb.hi

section Mono

variable {d d' : Disk} {hi hi' : Nat}

theorem Disk.Denotes.mono {root : Nat} {m : Key → Nat} (hle : hi ≤ hi') (hd : d.Agrees d' hi)
    (h : d.Denotes hi root m) : d'.Denotes hi' root m := by
  rcases h with h | ⟨t, ht, hw, hm⟩
  · exact .inl h
  · exact .inr ⟨t, ht.mono hle hd, hw, hm⟩

theorem Disk.Denotes.lookup {root : Nat} {m : Key → Nat} (h : d.Denotes hi root m) (key : Key) :
    d.lookup root key hi = some (m key) := by
  rcases h with ⟨rfl, hm⟩ | ⟨t, ht, hw, hm⟩
  · rw [hm]
    rfl
  · rw [hm]
    exact Shape.lookupFrom ht hw (Nat.zero_le _) (by simp) le_rfl

/-- The root of an index is a node of the arena. -/
theorem Disk.Denotes.node {root : Nat} {m : Key → Nat} (h : d.Denotes hi root m) :
    root = 0 ∨ (d.node root hi).isSome = true := by
  rcases h with ⟨rfl, -⟩ | ⟨t, ht, -⟩
  · exact .inl rfl
  · cases t with
    | leaf =>
      obtain ⟨-, p, hp, -⟩ := ht
      exact .inr (Option.isSome_iff_exists.mpr ⟨p, hp⟩)
    | branch =>
      obtain ⟨-, p, hp, -⟩ := ht
      exact .inr (Option.isSome_iff_exists.mpr ⟨p, hp⟩)

theorem Disk.journal_eq_some {off : Nat} {j : Journal} :
    d.journal off hi = some j ↔ d off = some (.journal j) ∧ nbound off journalBytes hi = true := by
  unfold Disk.journal
  split
  · next j' hj =>
    rw [hj]
    split
    · next hb => simp [hb]
    · next hb => simp [hb]
  · next hj =>
    refine ⟨nofun, ?_⟩
    rintro ⟨h, -⟩
    exact absurd h (hj j)

theorem Disk.journal_mono (hle : hi ≤ hi') (hd : d.Agrees d' hi) {off : Nat} {j : Journal}
    (h : d.journal off hi = some j) : d'.journal off hi' = some j := by
  rw [Disk.journal_eq_some] at h ⊢
  obtain ⟨hj, hb⟩ := h
  have hin := nbound_iff.1 hb
  have hpos : 0 < journalBytes := by decide
  exact ⟨hd _ _ hj (by omega) hin.2.2, nbound_mono hle hb⟩

theorem Chain.mono (hle : hi ≤ hi') (hd : d.Agrees d' hi) {off : Nat} {ks : List Key}
    (h : Chain d hi off ks) : Chain d' hi' off ks := by
  induction ks generalizing off with
  | nil => exact h
  | cons k ks ih =>
    obtain ⟨j, hj, hk, hs, hp, hc⟩ := h
    exact ⟨j, Disk.journal_mono hle hd hj, hk, hs, hp, ih hc⟩

theorem Disk.pin_eq_some {off ids : Nat} {p : Pin} : d.pin off hi ids = some p ↔
    d off = some (.object p) ∧ nbound off recordBytes hi = true ∧ recordBytes ≤ p.len ∧
    p.len % 8 = 0 ∧ nbound off p.len hi = true ∧ recordBytes + pinCells 0 * 8 ≤ p.len ∧
    pinCells p.npins * 8 ≤ p.len - recordBytes ∧ p.id ≠ 0 ∧ p.id < ids ∧ ids ≤ slotCount ∧
    p.bodyInside off = true := by
  unfold Disk.pin
  split
  · next p' hp =>
    rw [hp]
    split
    · next hc =>
      constructor
      · intro h
        cases h
        exact ⟨rfl, hc⟩
      · rintro ⟨h, -⟩
        cases h
        rfl
    · next hc =>
      refine ⟨nofun, ?_⟩
      rintro ⟨h, h'⟩
      cases h
      exact absurd h' hc
  · next hp =>
    refine ⟨nofun, ?_⟩
    rintro ⟨h, -⟩
    exact absurd h (hp p)

theorem Disk.pin_mono (hle : hi ≤ hi') (hd : d.Agrees d' hi) {off ids ids' : Nat} {p : Pin}
    (hids : ids ≤ ids') (hids' : ids' ≤ slotCount) (h : d.pin off hi ids = some p) :
    d'.pin off hi' ids' = some p := by
  rw [Disk.pin_eq_some] at h ⊢
  obtain ⟨hp, hb, hlen, hmod, hin, h0, hcells, hid, hlt, -, hbody⟩ := h
  have hbound := nbound_iff.1 hin
  have hpos : 0 < recordBytes := by decide
  exact ⟨hd _ _ hp (by omega) hbound.2.2, nbound_mono hle hb, hlen, hmod, nbound_mono hle hin, h0,
    hcells, hid, hlt.trans_le hids, hids', hbody⟩

/-- A checkpoint does not depend on what lies after its end. -/
theorem Published.mono {sb : Super} {h : List Super} (hp : Published d sb h)
    (hd : d.Agrees d' sb.hi) : Published d' sb h := by
  obtain ⟨m, hm, hroot⟩ := hp.objects
  obtain ⟨mc, hmc⟩ := hp.cache
  refine ⟨hp.start_le, hp.cap, hp.whole, hp.ids, ⟨m, hm.mono le_rfl hd, hroot⟩,
    ⟨mc, hmc.mono le_rfl hd⟩, ?_, hp.chain.mono le_rfl hd, hp.sequence, ?_, hp.newer⟩
  · rcases hp.root with h0 | ⟨hs, p, hpin, hhash⟩
    · exact .inl h0
    · exact .inr ⟨hs, p, Disk.pin_mono le_rfl hd le_rfl hp.ids.2 hpin, hhash⟩
  · rcases hp.entry with h0 | ⟨j, hj, hrest⟩
    · exact .inl h0
    · exact .inr ⟨j, Disk.journal_mono le_rfl hd hj, hrest⟩

end Mono

/-- `nsb_valid` accepts the superblock of a published checkpoint. -/
theorem Published.valid {img : Image} {sb : Super} {h : List Super}
    (hp : Published img.disk sb h) (hsize : sb.hi ≤ img.size) : img.valid sb = true := by
  obtain ⟨m, hm, hroot⟩ := hp.objects
  obtain ⟨mc, hmc⟩ := hp.cache
  simp only [Image.valid, Bool.and_eq_true, decide_eq_true_eq, Bool.or_eq_true, beq_iff_eq]
  refine ⟨⟨⟨⟨⟨hp.start_le, hsize, hp.cap, hp.whole, hp.ids.1.ne', hp.ids.2⟩, hm.node⟩,
    hmc.node⟩, ?_⟩, ?_⟩
  · rcases hp.root with h0 | ⟨hs, p, hpin, hhash⟩
    · exact .inl h0
    · rcases hroot with h0 | hroot
      · exact .inl h0
      · refine .inr ⟨⟨hs, by simp [hpin, hhash]⟩, ?_⟩
        rw [hm.lookup, hroot]
  · have hseq := hp.sequence
    have hchain := hp.chain
    split
    · next h0 =>
      -- an empty journal has no roots, and only the first checkpoint has none
      cases hks : rootsOf (sb :: h) with
      | nil =>
        rw [hks] at hseq
        rcases hp.entry with ⟨-, hr⟩ | ⟨j, hj, -⟩
        · simp [hseq, hr]
        · have := nbound_iff.1 (Disk.journal_eq_some.1 hj).2
          unfold start granule at this
          omega
      | cons k ks =>
        rw [hks] at hchain
        obtain ⟨j, -, -, -, hlt, -⟩ := hchain
        omega
    · next h0 =>
      rcases hp.entry with ⟨hj0, -⟩ | ⟨j, hj, hr, hhash, hpack, hlen⟩
      · exact absurd hj0 h0
      · cases hks : rootsOf (sb :: h) with
        | nil =>
          rw [hks] at hchain
          exact absurd hchain h0
        | cons k ks =>
          rw [hks] at hchain hseq
          obtain ⟨j', hj', -, hs, -, -⟩ := hchain
          rw [hj] at hj'
          cases hj'
          simp [hj, hr, hhash, hpack, hlen, hs, hseq]

/-! ## The root log -/

/-- The roots of a lineage with their sequence numbers, oldest first. -/
def numbered : List Key → List (Nat × Key)
  | [] => []
  | k :: ks => numbered ks ++ [(ks.length + 1, k)]

@[simp] theorem length_numbered (ks : List Key) : (numbered ks).length = ks.length := by
  induction ks with
  | nil => rfl
  | cons k ks ih => simp [numbered, ih]

/-- What is read of a journal entry. -/
def Journal.numbered (j : Journal) : Nat × Key := (j.seq, j.hash)

theorem Chain.logFrom {d : Disk} {hi lo cap off : Nat} {ks : List Key} (hlo : 0 < lo)
    (h : Chain d hi off ks) (out : List Journal) :
    (d.logFrom hi lo cap ks.length off out).map Journal.numbered =
      ((Native.numbered ks).drop (lo - 1)).take cap ++ out.map Journal.numbered := by
  induction ks generalizing off out with
  | nil => simp [Disk.logFrom, Native.numbered]
  | cons k ks ih =>
    obtain ⟨j, hj, rfl, hs, hp, hc⟩ := h
    simp only [List.length_cons, Disk.logFrom]
    by_cases hstop : off = 0 ∨ ks.length + 1 < lo
    · rw [if_pos hstop]
      rcases hstop with h0 | hlt
      · omega
      · rw [List.drop_eq_nil_of_le (by simp; omega)]
        simp
    · rw [if_neg hstop, hj]
      dsimp only
      rw [if_neg (by omega), ih hc, Native.numbered,
        List.drop_append_of_le_length (by simp; omega)]
      have hlen : ((Native.numbered ks).drop (lo - 1)).length = ks.length + 1 - lo := by
        simp
        omega
      split
      · next hcap =>
        rw [List.take_of_length_le (by omega), List.take_of_length_le (by simp; omega)]
        simp [Journal.numbered, hs]
      · next hcap =>
        rw [List.take_append_of_le_length (by omega)]

/-- `pl_native_log` returns the roots of the lineage in order, numbered from 1. -/
theorem Published.log {n : Store} {h : List Super} (hp : Published n.disk n.committed h)
    (lo cap : Nat) : (n.log lo cap).map Journal.numbered =
      ((numbered (rootsOf (n.committed :: h))).drop (lo - 1)).take cap := by
  unfold Store.log
  split
  · next h0 => simp [h0]
  · rw [hp.sequence, hp.chain.logFrom (by split <;> omega)]
    by_cases h0 : lo = 0
    · simp [h0]
    · simp [h0]

end Enki.Native
