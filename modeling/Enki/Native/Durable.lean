import Enki.Native.Publish
import Enki.Native.World

/-!
# The invariant of the arena

One of the two superblocks is that of the last durable checkpoint and stays as it is; the
other one is older, torn, or being written. Everything that either of them refers to lies
before the first byte that is still written to (`Durable`). A process goes on from the
checkpoint that the file shows, unless a publication failed (`Open`).
-/

namespace Enki.Native

/-! ## Images -/

/-- `nopen` selects the newer one of the superblocks. -/
theorem select_eq {img : Image} {slot : Bool} {sb : Super} (h : img.slots slot = some sb)
    (hv : img.valid sb = true)
    (holder : ∀ a, img.slots (!slot) = some a → a.generation < sb.generation) :
    img.select = some (slot, sb) := by
  have hu : img.usable slot = some sb := by
    simp [Image.usable, h, hv]
  have ho : ∀ a, img.usable (!slot) = some a → a.generation < sb.generation := by
    intro a ha
    exact holder a (Option.filter_eq_some_iff.mp ha).1
  unfold Image.select
  cases slot with
  | false =>
    rw [hu]
    cases ha : img.usable true with
    | none => rfl
    | some a =>
      have := ho a ha
      dsimp only
      rw [if_neg (by omega)]
  | true =>
    rw [hu]
    cases ha : img.usable false with
    | none => rfl
    | some a =>
      have := ho a ha
      dsimp only
      rw [if_pos this]

theorem Disk.truncate_eq_some {d : Disk} {hi off : Nat} {r : Rec} :
    d.truncate hi off = some r ↔ d off = some r ∧ off + r.len ≤ hi := by
  unfold Disk.truncate
  cases h : d off with
  | none => simp
  | some r' =>
    dsimp only
    split
    · next hle =>
      constructor
      · rintro ⟨⟩
        exact ⟨rfl, hle⟩
      · rintro ⟨⟨⟩, -⟩
        rfl
    · next hle =>
      refine ⟨nofun, ?_⟩
      rintro ⟨⟨⟩, hle'⟩
      exact absurd hle' hle

theorem agrees_truncate {d : Disk} {hi hi' : Nat} (h : hi ≤ hi') :
    d.Agrees (d.truncate hi') hi :=
  fun _ _ hr _ hlen => Disk.truncate_eq_some.2 ⟨hr, hlen.trans h⟩

/-- A store that goes on from a checkpoint, whose index is the map `m`. -/
theorem Writing.of_published {n : Store} {h : List Super} {m : Bool → Key → Nat}
    (hp : Published n.disk n.committed h) (hwork : n.work = n.committed)
    (hnext : n.next = n.committed.hi) (hroom : n.committed.hi ≤ n.mapped)
    (hm₀ : n.disk.Denotes n.committed.hi n.committed.objects (m false))
    (hm₁ : n.disk.Denotes n.committed.hi n.committed.cache (m true)) : Writing n h m := by
  have hroot : n.committed.root = 0 ∨ m false n.committed.rootHash = n.committed.root := by
    obtain ⟨m', hm', hr⟩ := hp.objects
    have hsame := (hm₀.lookup n.committed.rootHash).symm.trans (hm'.lookup n.committed.rootHash)
    rw [Option.some.inj hsame]
    exact hr
  have hholds : ∀ root m, n.disk.Denotes n.committed.hi root m → Holds n root ∅ m := by
    rintro root m (⟨h0, hm⟩ | ⟨t, ht, hw, hm⟩)
    · exact .inl ⟨h0, rfl, hm⟩
    · exact .inr ⟨t, .committed ht, hw, hm⟩
  have hwhole := hp.whole
  refine ⟨⟨⟨?_, ?_, ?_⟩, fun _ => ∅, fun _ _ _ => by simp, ?_⟩, hp, ?_, ?_, hroot, ?_, ?_⟩
  · exact hnext ▸ hp.start_le
  · rw [hnext]
    unfold granule at hwhole
    omega
  · exact hnext.ge
  · intro c
    unfold Store.rootOf
    rw [hwork]
    cases c with
    | false => exact hholds _ _ hm₀
    | true => exact hholds _ _ hm₁
  · rw [hwork]
  · rw [hwork]
    exact ⟨le_rfl, hp.ids.2⟩
  · rw [hnext, nround_eq hwhole]
    exact hroom
  · rw [hnext]
    exact hp.cap

/-- A store that has just selected a checkpoint. -/
theorem Writing.fresh {n : Store} {h : List Super} (hp : Published n.disk n.committed h)
    (hwork : n.work = n.committed) (hnext : n.next = n.committed.hi)
    (hroom : n.committed.hi ≤ n.mapped) : ∃ m, Writing n h m := by
  obtain ⟨m₀, hm₀, -⟩ := hp.objects
  obtain ⟨m₁, hm₁⟩ := hp.cache
  exact ⟨fun c => if c then m₁ else m₀, .of_published hp hwork hnext hroom hm₀ hm₁⟩

/-! ## The invariant -/

/-- A checkpoint whose data no write can reach. -/
structure Safe (f : File) (sb : Super) (h : List Super) : Prop where
  synced : Published f.synced.disk sb h
  seen : Published f.seen.disk sb h
  syncedSize : sb.hi ≤ f.synced.size
  seenSize : sb.hi ≤ f.seen.size
  data : ∀ lo hi, .data lo hi ∈ f.writes → sb.hi ≤ lo
  size : ∀ bytes, .size bytes ∈ f.writes → sb.hi ≤ bytes

/-- The superblock beside that of the last durable checkpoint: an older or a torn one, or
the one that is being written. -/
inductive Beside (w : World) (slot : Bool) (sb : Super) : Prop where
  | idle : w.begun = none → (∀ s x, .super s x ∈ w.file.writes → s = !slot ∧ x = none) →
      (∀ a, w.file.seen.slots (!slot) = some a → a.generation < sb.generation) → Beside w slot sb
  | writing (c : Super) : w.begun = some (c :: w.last) → Safe w.file c w.last →
      (∀ s x, .super s x ∈ w.file.writes → s = !slot ∧ x = some c) →
      .super (!slot) (some c) ∈ w.file.writes → w.file.seen.slots (!slot) = some c →
      Beside w slot sb

/-- The last durable checkpoint `sb`, in the slot `slot`. -/
structure Durable (w : World) (slot : Bool) (sb : Super) (h : List Super) : Prop where
  last : w.last = sb :: h
  safe : Safe w.file sb h
  synced : w.file.synced.slots slot = some sb
  seen : w.file.seen.slots slot = some sb
  older : ∀ a, w.file.synced.slots (!slot) = some a → a.generation < sb.generation
  acked : w.acked <:+ w.last
  beside : Beside w slot sb

/-- The process: it goes on from the checkpoint that the file shows, unless a publication
failed. -/
structure Open (w : World) (slot : Bool) (p : Proc) : Prop where
  disk : p.store.disk = w.file.seen.disk
  mapped : p.store.mapped = w.file.seen.size
  readonly : p.store.readonly = false
  faults : p.store.faults = []
  state : p.store.poisoned = true ∧ (∃ h, Published p.store.disk p.store.committed h ∧
      p.store.committed :: h <:+ w.last) ∨
    p.store.poisoned = false ∧ ∃ h m, Writing p.store h m ∧
      (w.begun = none ∧ p.slot = slot ∧ w.last = p.store.committed :: h ∨
        w.begun = some (p.store.committed :: h) ∧ p.slot = !slot)

/-- The invariant. -/
def Inv (w : World) : Prop :=
  ∃ slot sb h, Durable w slot sb h ∧ ∀ p, w.proc = some p → Open w slot p

/-! ## Recovery -/

theorem Safe.persists {f : File} {img : Image} {sb : Super} {h : List Super} (hs : Safe f sb h)
    (hp : f.Persists img) : Published img.disk sb h ∧ sb.hi ≤ img.size := by
  constructor
  · refine hs.synced.mono fun off r hr hlt hlen => ?_
    refine (hp.disk off r ⟨fun lo hi hd => ?_, fun bytes hb => ?_⟩).mpr hr
    · have := hs.data lo hi hd
      omega
    · have := hs.size bytes hb
      omega
  · rcases hp.size with h' | h'
    · rw [h']
      exact hs.syncedSize
    · exact hs.size _ h'

/-- What an image shows after a crash, or without one. -/
structure Shows (w : World) (img : Image) (slot : Bool) (sb : Super) (h : List Super) : Prop where
  slots : img.slots slot = some sb
  older : ∀ a, img.slots (!slot) = some a → a.generation < sb.generation
  published : Published img.disk sb h
  size : sb.hi ≤ img.size
  lineage : w.last = sb :: h ∨ w.begun = some (sb :: h)
  later : w.last <:+ sb :: h

theorem Shows.select {w : World} {img : Image} {slot : Bool} {sb : Super} {h : List Super}
    (hs : Shows w img slot sb h) : img.select = some (slot, sb) :=
  select_eq hs.slots (hs.published.valid hs.size) hs.older

section Recovery

variable {w : World} {slot : Bool} {sb : Super} {h : List Super}

/-- The newer superblock, if it is there, and else the durable one. -/
theorem Durable.shows_of (hd : Durable w slot sb h) {img : Image} (hslot : img.slots slot = some sb)
    (hsafe : ∀ c k, Safe w.file c k → Published img.disk c k ∧ c.hi ≤ img.size)
    (hother : ∀ a, img.slots (!slot) = some a → a.generation < sb.generation ∨
      w.begun = some (a :: w.last) ∧ Safe w.file a w.last) :
    ∃ s c k, Shows w img s c k := by
  obtain ⟨hp, hsize⟩ := hsafe sb h hd.safe
  by_cases hnew : ∃ a, img.slots (!slot) = some a ∧ w.begun = some (a :: w.last) ∧
      Safe w.file a w.last
  · obtain ⟨a, ha, hb, hs⟩ := hnew
    obtain ⟨hpa, hsa⟩ := hsafe a _ hs
    refine ⟨!slot, a, w.last, ha, fun b hb' => ?_, hpa, hsa, .inr hb, List.suffix_cons ..⟩
    rw [Bool.not_not, hslot] at hb'
    cases hb'
    exact (hpa.newer sb (by rw [hd.last]; rfl)).1
  · refine ⟨slot, sb, h, hslot, fun a ha => ?_, hp, hsize, .inl hd.last, ?_⟩
    · rcases hother a ha with hlt | hb
      · exact hlt
      · exact absurd ⟨a, ha, hb⟩ hnew
    · rw [hd.last]

theorem Durable.crash (hd : Durable w slot sb h) {img : Image} (hp : w.file.Persists img) :
    ∃ s c k, Shows w img s c k := by
  refine hd.shows_of ?_ (fun c k hs => hs.persists hp) fun a ha => ?_
  · rcases hp.slots slot with h' | ⟨x, hx, -⟩
    · rw [h']
      exact hd.synced
    · -- no superblock is written over the durable one
      cases hd.beside with
      | idle _ hw _ => exact absurd (hw _ _ hx).1 (by simp)
      | writing c _ _ hw _ _ => exact absurd (hw _ _ hx).1 (by simp)
  · rcases hp.slots (!slot) with h' | ⟨x, hx, hax⟩
    · exact .inl (hd.older a (h' ▸ ha))
    · cases hd.beside with
      | idle _ hw _ =>
        rw [ha, (hw _ _ hx).2] at hax
        simp at hax
      | writing c hb hs hw _ _ =>
        rw [ha, (hw _ _ hx).2] at hax
        have hac : a = c := by simpa using hax
        exact .inr (hac ▸ ⟨hb, hs⟩)

theorem Durable.shown (hd : Durable w slot sb h) : ∃ s c k, Shows w w.file.seen s c k := by
  refine hd.shows_of hd.seen (fun c k hs => ⟨hs.seen, hs.seenSize⟩) fun a ha => ?_
  cases hd.beside with
  | idle _ _ ho => exact .inl (ho a ha)
  | writing c hb hs _ _ hc =>
    rw [hc] at ha
    cases ha
    exact .inr ⟨hb, hs⟩

/-- The lineage of what an image shows. -/
theorem Durable.lineage_eq (hd : Durable w slot sb h) {img : Image} {s : Bool} {c : Super}
    {k : List Super} (hs : Shows w img s c k) : w.lineage c = c :: k := by
  unfold World.lineage
  cases hd.beside with
  | idle hb =>
    rw [hb]
    rcases hs.lineage with hl | hl
    · exact hl
    · rw [hb] at hl
      cases hl
  | writing b hb hsafe =>
    rw [hb]
    dsimp only
    rcases hs.lineage with hl | hl
    · -- the one being written is newer, so it is another one
      have hlt := (hsafe.synced.newer c (by rw [hl]; rfl)).1
      rw [if_neg, hl]
      rintro ⟨⟩
      exact absurd hlt (lt_irrefl _)
    · rw [hb] at hl
      cases hl
      rw [List.head?_cons, if_pos rfl]

/-- After a sync or a crash the file holds one durable checkpoint. -/
theorem Durable.settle (hd : Durable w slot sb h) {img : Image} {s : Bool} {c : Super}
    {k : List Super} (hs : Shows w img s c k) : Durable (w.settle img) s c k := by
  have hlast : (w.settle img).last = c :: k := by
    simp only [World.settle, hs.select]
    exact hd.lineage_eq hs
  refine ⟨hlast, ⟨hs.published, hs.published, hs.size, hs.size, nofun, nofun⟩, hs.slots, hs.slots,
    hs.older, ?_, .idle rfl nofun hs.older⟩
  rw [hlast]
  exact hd.acked.trans hs.later

end Recovery

/-! ## Writing to the mapping -/

section Wrote

variable {w : World} {slot : Bool} {sb : Super} {h : List Super} {n n' : Store}

theorem super_mem_wrote {f : File} {s : Bool} {x : Option Super} :
    .super s x ∈ (f.wrote n n').writes ↔ .super s x ∈ f.writes := by
  unfold File.wrote
  dsimp only
  split <;> split <;> simp

theorem Safe.wrote {f : File} {c : Super} {k : List Super} (hs : Safe f c k) (happ : Appends n n')
    (hdisk : n.disk = f.seen.disk) (hmapped : n.mapped = f.seen.size) (hle : c.hi ≤ n.next) :
    Safe (f.wrote n n') c k := by
  have hsize : c.hi ≤ n'.mapped := by
    have hseen := hs.seenSize
    rw [← hmapped] at hseen
    exact hseen.trans happ.mapped
  refine ⟨hs.synced, ?_, hs.syncedSize, hsize, fun lo hi hd => ?_, fun bytes hb => ?_⟩
  · refine hs.seen.mono ?_
    rw [← hdisk]
    exact happ.keeps.disk.anti hle
  · have hmem : .data lo hi ∈ f.writes ∨ lo = n.next := by
      unfold File.wrote at hd
      dsimp only at hd
      split at hd <;> split at hd <;> simp at hd <;> tauto
    rcases hmem with hmem | rfl
    · exact hs.data lo hi hmem
    · exact hle
  · have hmem : .size bytes ∈ f.writes ∨ bytes = n'.mapped := by
      unfold File.wrote at hb
      dsimp only at hb
      split at hb <;> split at hb <;> simp at hb <;> tauto
    rcases hmem with hmem | rfl
    · exact hs.size bytes hmem
    · exact hsize

theorem Durable.wrote (hd : Durable w slot sb h) (happ : Appends n n')
    (hdisk : n.disk = w.file.seen.disk) (hmapped : n.mapped = w.file.seen.size)
    (hle : ∀ c k, w.last = c :: k ∨ w.begun = some (c :: k) → c.hi ≤ n.next) :
    Durable { w with file := w.file.wrote n n' } slot sb h := by
  refine ⟨hd.last, hd.safe.wrote happ hdisk hmapped (hle sb h (.inl hd.last)), hd.synced, hd.seen,
    hd.older, hd.acked, ?_⟩
  cases hd.beside with
  | idle hb hw ho => exact .idle hb (fun s x hx => hw s x (super_mem_wrote.1 hx)) ho
  | writing c hb hs hw hm hc =>
    exact .writing c hb (hs.wrote happ hdisk hmapped (hle c _ (.inr hb)))
      (fun s x hx => hw s x (super_mem_wrote.1 hx)) (super_mem_wrote.2 hm) hc

/-- No checkpoint ends after the one that a process goes on from. -/
theorem Durable.le_current (hd : Durable w slot sb h) {d : Disk} {s : Bool} {c : Super}
    {k : List Super} (hp : Published d c k)
    (hcur : w.begun = none ∧ s = slot ∧ w.last = c :: k ∨
      w.begun = some (c :: k) ∧ s = !slot) :
    ∀ c' k', w.last = c' :: k' ∨ w.begun = some (c' :: k') → c'.hi ≤ c.hi := by
  intro c' k' hc
  rcases hcur with ⟨hb, -, hl⟩ | ⟨hb, -⟩
  · rcases hc with hc | hc
    · rw [hl] at hc
      cases hc
      exact le_rfl
    · rw [hb] at hc
      cases hc
  · cases hd.beside with
    | idle hb' =>
      rw [hb] at hb'
      cases hb'
    | writing b hb' =>
      rw [hb] at hb'
      obtain ⟨-, rfl⟩ := List.cons.inj (Option.some.inj hb')
      rcases hc with hc | hc
      · exact (hp.newer c' (by rw [hc]; rfl)).2
      · rw [hb] at hc
        cases hc
        exact le_rfl

end Wrote

end Enki.Native
