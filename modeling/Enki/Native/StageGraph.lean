import Enki.Native.BodyCopy

/-!
# Staging, as memory and as the store have it

A successful `pl_native_stage` of a new hash writes the PIN of the record and a copy of
the body behind it (`GraphStaged`). For the store it is `Store.stage` of the cells that the
traversal finds (`stageGraph_spec`), so that what holds of that holds here.
-/

namespace Enki.Native

open Cheney

/-! ## The PIN -/

/-- The cells of a PIN at `p`. -/
structure PinWritten (mem : Mem) (hash : Key) (body id : Nat) (subpins : List Nat) (p : Nat) :
    Prop where
  header : mem p = hdrMake .pin (normalFlag + hashedFlag) subpins.length (pinCells subpins.length)
  hash : ∀ i < 4, mem (p + 1 + i) = hashCell hash i
  body : mem (p + 5) = body
  id : mem (p + 6) = id
  table : ∀ i (hi : i < subpins.length), mem (p + 7 + i) = subpins[i]

section

variable {mem mem' : Mem} {hash : Key} {body id p lo hi : Nat} {subpins : List Nat}

theorem writePin_written : PinWritten (writePin mem hash body id subpins p) hash body id subpins p := by
  refine ⟨?_, fun i hi => ?_, ?_, ?_, fun i hi => ?_⟩
  · rw [writePin, if_pos rfl]
  · rw [writePin, if_neg (by omega), if_pos (by omega)]
    congr 1
    omega
  · rw [writePin, if_neg (by omega), if_neg (by omega), if_pos rfl]
  · rw [writePin, if_neg (by omega), if_neg (by omega), if_neg (by omega), if_pos rfl]
  · rw [writePin, if_neg (by omega), if_neg (by omega), if_neg (by omega), if_neg (by omega),
      if_pos (by omega), Nat.sub_sub, Nat.add_sub_cancel_left, List.getD_eq_getElem _ _ hi]

theorem writePin_within : Within p (p + pinCells subpins.length) mem
    (writePin mem hash body id subpins p) := by
  intro a ha
  unfold pinCells at ha
  rw [writePin, if_neg (by omega), if_neg (by omega), if_neg (by omega), if_neg (by omega),
    if_neg (by omega)]

theorem zeroed_within {off len : Nat} : Within (nptr off) (nptr (off + len)) mem (zeroed mem off len) := by
  intro a ha
  rw [zeroed, if_neg (by omega)]

/-- What is written behind a PIN leaves it. -/
theorem PinWritten.within (h : PinWritten mem hash body id subpins p) (hw : Within lo hi mem mem')
    (hle : p + pinCells subpins.length ≤ lo) : PinWritten mem' hash body id subpins p := by
  unfold pinCells at hle
  refine ⟨?_, fun i hi => ?_, ?_, ?_, fun i hi => ?_⟩
  · rw [hw _ (by omega), h.header]
  · rw [hw _ (by omega), h.hash i hi]
  · rw [hw _ (by omega), h.body]
  · rw [hw _ (by omega), h.id]
  · rw [hw _ (by omega), h.table i hi]

end

/-! ## The body for the store -/

/-- Where the nodes of a record begin. -/
def bodyStart (nsub : Nat) : Nat := recordBytes + pinCells nsub * 8

/-- The arguments of `Store.stage` for a body in memory. -/
def objectOf (mem : Mem) (hash : Key) (body : Nat) (subpins : List Nat) : Object where
  hash := hash
  nsub := subpins.length
  native := subpins.all fun v => tag v = pinTag ∧ isNative (ptr v)
  body :=
    if isNat63 body then .nat body
    else if tag body = pinTag then .pin ((pinResolved mem (ptr body) - nativeBase) * 8)
    else .node
  cells := (walk mem [] (bodyStart subpins.length) [body]).map fun found => bodyCells mem found.1

section

variable {n : Store} {mem : Mem} {hash : Key} {body : Nat} {subpins : List Nat} {map : CopyMap}
  {lo size off : Nat}

/-- The body itself is the first node. -/
theorem walk_root (h : walk mem [] lo [body] = some (map, size)) (hn : IsNode body) :
    map.lookup body = some lo := by
  have hend := walk_run (P := fun map s todo => map = [] ∧ s = lo ∧ todo = [body] ∨
    map.lookup body = some lo) ?_ ?_ (.inl ⟨rfl, rfl, rfl⟩) h
  · rcases hend with ⟨-, -, hnil⟩ | hroot
    · cases hnil
    · exact hroot
  · rintro map s v todo hp (⟨rfl, rfl, htodo⟩ | hroot)
    · obtain ⟨rfl, rfl⟩ := List.cons.inj htodo
      rcases hp with hnat | ⟨-, hpin, -⟩ | ⟨-, hseen⟩
      · rw [hn.1] at hnat
        cases hnat
      · exact absurd hpin hn.2
      · cases hseen
    · exact .inr hroot
  · rintro map s v todo fields hf (⟨rfl, rfl, htodo⟩ | hroot)
    · obtain ⟨rfl, rfl⟩ := List.cons.inj htodo
      exact .inr (by simp)
    · refine .inr ?_
      rw [List.lookup_append, hroot]
      rfl

theorem objectOf_cells (h : walk mem [] (bodyStart subpins.length) [body] = some (map, size)) :
    (objectOf mem hash body subpins).cells.bind (extent (bodyStart subpins.length)) = some size := by
  rw [objectOf, h]
  exact (walk_laid h).2

/-- The record has the same body. -/
theorem bodyRef_eq (h : walk mem [] (bodyStart subpins.length) [body] = some (map, size)) :
    bodyRef mem map body off = (objectOf mem hash body subpins).bodyAt off := by
  unfold bodyRef Object.bodyAt objectOf
  by_cases hnat : isNat63 body = true
  · simp only [if_pos hnat]
  simp only [if_neg hnat]
  by_cases hpin : tag body = pinTag
  · simp only [if_pos hpin]
  · simp only [if_neg hpin]
    rw [walk_root h ⟨by simpa using hnat, hpin⟩, Option.getD_some, bodyStart, Nat.add_assoc]

theorem Laid.mod : ∀ {map : CopyMap} {s s' : Nat}, Laid mem s map s' → s % 8 = 0 → s' % 8 = 0
  | [], _, _, rfl, h => h
  | _ :: _, _, _, ⟨_, _, hl⟩, h => hl.mod (by omega)

/-! ## The extent -/

/-- A body has been staged in the extent of `size` bytes at `off`, its nodes at `at_`. -/
structure GraphStaged (n n' : Store) (mem mem' : Mem) (hash : Key) (body : Nat)
    (subpins : List Nat) (off size : Nat) (at_ : Nat → Nat) : Prop where
  extent : n.next ≤ off ∧ off % 8 = 0 ∧ n'.next = off + size ∧ n'.next ≤ nativeBytes
  frame : Within (nptr off) (nptr (off + size)) mem mem'
  pin : PinWritten mem' hash (translated mem at_ body) n.work.nextId subpins (nptr (off + recordBytes))
  table : ∀ v ∈ subpins, tag v = pinTag ∧ isNative (ptr v) = true
  body : BodyCopy mem mem' body (nptr (off + bodyStart subpins.length)) (nptr (off + size)) at_

/-- What is written to the extent. -/
theorem Source.written (hs : Source n mem body)
    (hwalk : walk mem [] (bodyStart subpins.length) [body] = some (map, size))
    (hnext : n.next ≤ off) (hcap : off + size ≤ nativeBytes) (id : Nat) :
    ∃ b m', ntranslate (zeroed mem off size) map body off = some b ∧
      map.foldlM (copyNode map off)
        (writePin (zeroed mem off size) hash b id subpins (nptr (off + recordBytes))) = some m' ∧
      Within (nptr off) (nptr (off + size)) mem m' ∧
      PinWritten m' hash (translated mem (place map off) body) id subpins
        (nptr (off + recordBytes)) ∧
      BodyCopy mem m' body (nptr (off + bodyStart subpins.length)) (nptr (off + size))
        (place map off) := by
  have hlo : nptr n.next ≤ nptr off := nptr_mono hnext
  have hhi : nptr (off + size) ≤ nptr nativeBytes := nptr_mono hcap
  have hbody : ntranslate (zeroed mem off size) map body off =
      some (translated mem (place map off) body) :=
    hs.translate (walk_walked hwalk) .body zeroed_within hlo hhi
  have hstart : nptr (off + recordBytes) + pinCells subpins.length =
      nptr (off + bodyStart subpins.length) := by
    rw [bodyStart, ← Nat.add_assoc, Nat.mul_comm, nptr_add]
  have hlast : nptr (off + bodyStart subpins.length) ≤ nptr (off + size) :=
    nptr_mono (Nat.add_le_add_left (walk_laid hwalk).1.le off)
  have hpin : Within (nptr off) (nptr (off + size)) mem (writePin (zeroed mem off size) hash
      (translated mem (place map off) body) id subpins (nptr (off + recordBytes))) :=
    zeroed_within.trans
      (writePin_within.mono (nptr_mono (Nat.le_add_right ..)) (hstart.trans_le hlast))
  obtain ⟨m', hfold, hin, hcopy⟩ := hs.copied hwalk hnext hcap hpin
  exact ⟨_, m', hbody, hfold, hpin.trans (hin.mono (nptr_mono (Nat.le_add_right ..)) le_rfl),
    writePin_written.within hin hstart.le, hcopy⟩

/-- What a successful call has done for a new hash. -/
structure Copied (n : Store) (mem mem' : Mem) (hash : Key) (body : Nat) (subpins : List Nat)
    (v : Nat) (map : CopyMap) (size off : Nat) : Prop where
  value : v = pinAt off
  walked : walk mem [] (bodyStart subpins.length) [body] = some (map, size)
  alloc : ∃ n₁, n.alloc size = (some off, n₁)
  table : ∀ w ∈ subpins, tag w = pinTag ∧ isNative (ptr w) = true
  frame : Within (nptr off) (nptr (off + size)) mem mem'
  pin : PinWritten mem' hash (translated mem (place map off) body) n.work.nextId subpins
    (nptr (off + recordBytes))
  body : BodyCopy mem mem' body (nptr (off + bodyStart subpins.length)) (nptr (off + size))
    (place map off)

/-- `pl_native_stage` of a body in memory, which always comes to an end; to the store it is
`Store.stage`. -/
theorem stageGraph_spec (hs : Source n mem body) (hcap : n.next ≤ nativeBytes) :
    ∃ r n' mem', n.stageGraph mem hash body subpins = some (r, n', mem') ∧
      n.stage (objectOf mem hash body subpins) = (r.isSome, n') ∧
      (n.workingLookup n.work.objects hash = some 0 → ∀ v, r = some v →
        ∃ map size off, Copied n mem mem' hash body subpins v map size off) := by
  -- where it fails before it has written anything
  have hstay : ∀ {x : Option (Option Nat × Store × Mem)} {y : Bool × Store} {new : Prop},
      x = some (none, n, mem) → y = (false, n) → ∃ r n' mem', x = some (r, n', mem') ∧
        y = (r.isSome, n') ∧ (new → ∀ v, r = some v →
          ∃ map size off, Copied n mem mem' hash body subpins v map size off) := by
    rintro _ _ _ rfl rfl
    exact ⟨none, n, mem, rfl, rfl, fun _ _ hv => absurd hv (Option.some_ne_none _).symm⟩
  have hhash : (objectOf mem hash body subpins).hash = hash := rfl
  have hnsub : (objectOf mem hash body subpins).nsub = subpins.length := rfl
  have hnative : (objectOf mem hash body subpins).native =
    subpins.all fun v => tag v = pinTag ∧ isNative (ptr v) := rfl
  have hcells : ∀ k, recordBytes + pinCells k * 8 = bodyStart k := fun _ => rfl
  unfold Store.stageGraph Store.stage
  simp only [hhash, hnsub, hnative, hcells]
  by_cases hwr : n.writable = false
  · rw [if_pos hwr, if_pos hwr]
    exact hstay rfl rfl
  rw [if_neg hwr, if_neg hwr]
  cases hl : n.workingLookup n.work.objects hash with
  | none => exact hstay rfl rfl
  | some found =>
  dsimp only
  by_cases hfound : found ≠ 0
  · rw [if_pos hfound, if_pos hfound]
    refine ⟨_, n, mem, rfl, ?_, fun h0 => absurd (Option.some.inj h0) hfound⟩
    rw [Option.isSome_map]
  rw [if_neg hfound, if_neg hfound]
  by_cases hfull : subpins.length > hdrMetaMax ∨ n.work.nextId ≥ slotCount
  · rw [if_pos hfull, if_pos hfull]
    exact hstay rfl rfl
  rw [if_neg hfull, if_neg hfull]
  by_cases hdep : (subpins.all fun v => tag v = pinTag ∧ isNative (ptr v)) = false
  · rw [if_pos hdep, if_pos hdep]
    exact hstay rfl rfl
  rw [if_neg hdep, if_neg hdep]
  cases hwalk : walk mem [] (bodyStart subpins.length) [body] with
  | none =>
    refine hstay rfl ?_
    rw [objectOf, hwalk]
    rfl
  | some q =>
  obtain ⟨map, size⟩ := q
  rw [objectOf_cells hwalk]
  dsimp only
  cases hal : n.alloc size with
  | mk q n₁ =>
  obtain ⟨happ, -, hwork, hoff⟩ := alloc_appends hal
  cases q with
  | none => exact ⟨none, n₁, mem, rfl, rfl, fun _ _ hv => absurd hv (Option.some_ne_none _).symm⟩
  | some off =>
  obtain ⟨hnext, hend, -⟩ := hoff off rfl
  have hroom : off + size ≤ nativeBytes := by
    have := happ.cap hcap
    omega
  obtain ⟨b, m', hb, hfold, hframe, hpin, hcopy⟩ :=
    @Source.written _ _ hash _ _ _ _ _ hs hwalk hnext hroom n.work.nextId
  dsimp only
  rw [hwork, hb, bodyRef_eq hwalk]
  simp only [Option.bind_eq_bind, Option.bind_some, hfold]
  generalize Store.point _ = q
  obtain ⟨ok, n₂⟩ := q
  dsimp only
  by_cases hok : ok = false
  · rw [if_pos hok, if_pos hok]
    exact ⟨none, n₂, m', rfl, rfl, fun _ _ hv => absurd hv (Option.some_ne_none _).symm⟩
  rw [if_neg hok, if_neg hok]
  refine ⟨_, _, m', rfl, ?_, fun _ v hv => ⟨map, size, off, ?_, hwalk, ⟨n₁, hal⟩, ?_, hframe, hpin, hcopy⟩⟩
  · split
    · next h => rw [h]; rfl
    · next h => rw [Bool.not_eq_true] at h; rw [h]; rfl
  · split at hv
    · exact (Option.some.inj hv).symm
    · cases hv
  · simpa using hdep

end

end Enki.Native
