import Enki.Native.Staged

/-!
# The copy of a whole body

`Source n mem body`: what a normal body looks like in memory before it is staged. The
extent then holds a copy of its graph (`BodyCopy`), and for the store the body was the
list of the cells of its nodes (`stageGraph_stage`).
-/

namespace Enki.Native

open Cheney

/-! ## Headers -/

section

variable (hdr flags : Nat)

theorem hdrCells_setFlag : hdrCells (hdrSetFlag hdr flags) = hdrCells hdr := by
  have hzero : (hdrFlags hdr ||| flags) % 2 ^ 4 * 2 ^ 8 / 2 ^ 32 = 0 := by omega
  rw [hdrCells, hdrSetFlag, Nat.or_div_two_pow, hzero, Nat.or_zero, hdrCells]

theorem hdrKind_setFlag : hdrKind (hdrSetFlag hdr flags) = hdrKind hdr := by
  have hmod : hdrSetFlag hdr flags % 2 ^ 8 = hdr % 2 ^ 8 := by
    rw [hdrSetFlag, Nat.or_mod_two_pow, Nat.mul_mod_left, Nat.or_zero]
  rw [hdrKind, hmod, hdrKind]

theorem hdrMeta_setFlag : hdrMeta (hdrSetFlag hdr flags) = hdrMeta hdr := by
  have hzero : (hdrFlags hdr ||| flags) % 2 ^ 4 * 2 ^ 8 / 2 ^ 12 = 0 := by omega
  rw [hdrMeta, hdrSetFlag, Nat.or_div_two_pow, hzero, Nat.or_zero, hdrMeta]

theorem hdrFlags_setFlag : hdrFlags (hdrSetFlag hdr flags) = hdrFlags hdr ||| flags % 2 ^ 4 := by
  have hflags : hdrFlags hdr % 2 ^ 4 = hdrFlags hdr := by
    unfold hdrFlags
    omega
  rw [hdrFlags, hdrSetFlag, Nat.or_div_two_pow, Nat.mul_div_cancel _ (by decide), Nat.or_mod_two_pow,
    Nat.mod_mod, Nat.or_mod_two_pow, hflags, ← hdrFlags, ← Nat.or_assoc, Nat.or_self]

end

/-! ## Normal bodies -/

/-- A node of a normal body: the word has the tag of the object, and the object lies where
no extent will. -/
structure GoodNode (n : Store) (mem : Mem) (v : Nat) : Prop where
  word : v = make (tag v) (ptr v)
  kind : ∃ k ∈ [Kind.nat, Kind.law, Kind.app], hdrKind (mem (ptr v)) = some k ∧
    tag v = tagForKind (some k)
  law : tag v = lawTag → cellsOf mem v = 4
  away : ptr v + cellsOf mem v ≤ nptr n.next ∨ nptr nativeBytes ≤ ptr v

/-- A PIN whose record is in the arena, itself or by its proxy. -/
structure GoodPin (n : Store) (mem : Mem) (v : Nat) : Prop where
  tag : isNat63 v = false ∧ tag v = pinTag
  target : nptr (start + recordBytes) ≤ pinResolved mem (ptr v) ∧
    pinResolved mem (ptr v) < nptr n.next
  away : ptr v + pinCells 0 ≤ nptr n.next ∨ nptr nativeBytes ≤ ptr v

/-- A normal body over PINs that are native. -/
def Source (n : Store) (mem : Mem) (body : Nat) : Prop :=
  ∀ v, InBody mem body v → isNat63 v = true ∨ GoodPin n mem v ∨ GoodNode n mem v

section

variable {n n₁ : Store} {mem : Mem} {body v w : Nat} {map : CopyMap} {off size : Nat}

theorem GoodNode.tags (h : GoodNode n mem v) : tag v = natTag ∨ tag v = lawTag ∨ tag v = appTag := by
  obtain ⟨k, hk, -, htag⟩ := h.kind
  simp only [List.mem_cons, List.not_mem_nil, or_false] at hk
  rcases hk with rfl | rfl | rfl
  · exact .inl htag
  · exact .inr (.inl htag)
  · exact .inr (.inr htag)

theorem GoodNode.isNode (h : GoodNode n mem v) : IsNode v := by
  have htag : ∀ t, 0x80 ≤ t → tag v = t → isNat63 v = false := by
    rintro _ hle rfl
    unfold tag at hle
    simp only [isNat63, decide_eq_false_iff_not]
    omega
  rcases h.tags with ht | ht | ht
  · exact ⟨htag _ (by decide) ht, ht ▸ by decide⟩
  · exact ⟨htag _ (by decide) ht, ht ▸ by decide⟩
  · exact ⟨htag _ (by decide) ht, ht ▸ by decide⟩

/-- Two words for one node are the same. -/
theorem GoodNode.ptr_inj (hv : GoodNode n mem v) (hw : GoodNode n mem w) (h : ptr v = ptr w) :
    v = w := by
  obtain ⟨k, -, hk, htag⟩ := hv.kind
  obtain ⟨k', -, hk', htag'⟩ := hw.kind
  rw [h, hk'] at hk
  rw [hv.word, hw.word, htag, htag', h, hk]

/-- The cells that are references hold the values that the traversal goes on with. -/
theorem GoodNode.field {j : Nat} (h : GoodNode n mem v) (hj : 1 ≤ j) (hj' : j < cellsOf mem v)
    (hf : isField (tag v) j = true) :
    ∃ fields, bodyFields mem v = some fields ∧ mem (ptr v + j) ∈ fields := by
  simp only [isField, decide_eq_true_eq] at hf
  unfold bodyFields
  rcases h.tags with ht | ht | ht
  · rw [ht] at hf
    rcases hf with happ | ⟨hlaw, -⟩
    · exact absurd happ (by decide)
    · exact absurd hlaw (by decide)
  · have hfour := h.law ht
    rw [ht, if_neg (by decide), if_pos rfl]
    refine ⟨_, rfl, ?_⟩
    obtain rfl | rfl : j = 2 ∨ j = 3 := by
      rcases hf with happ | ⟨-, htwo⟩
      · exact absurd (ht.symm.trans happ) (by decide)
      · omega
    · exact List.mem_cons_self
    · exact List.mem_cons_of_mem _ List.mem_cons_self
  · rw [ht, if_neg (by decide), if_neg (by decide), if_pos rfl]
    refine ⟨_, rfl, List.mem_map.mpr ⟨j, ?_, rfl⟩⟩
    rw [List.mem_range'_1]
    unfold cellsOf at hj'
    omega

theorem GoodNode.inBody {j : Nat} (hn : GoodNode n mem v) (hv : InBody mem body v) (hj : 1 ≤ j) (hj' : j < cellsOf mem v)
    (hf : isField (tag v) j = true) : InBody mem body (mem (ptr v + j)) := by
  obtain ⟨fields, hfields, hmem⟩ := hn.field hj hj' hf
  exact .field hv hn.isNode hfields hmem

/-- A node that the traversal found is one. -/
theorem Source.node (hs : Source n mem body) (hv : InBody mem body v) (hn : IsNode v) :
    GoodNode n mem v := by
  rcases hs v hv with hnat | hpin | hnode
  · rw [hn.1] at hnat
    cases hnat
  · exact absurd hpin.tag.2 hn.2
  · exact hnode

/-- The resolution of a PIN does not look at the extent. -/
theorem GoodPin.resolved {lo hi : Nat} {mem' : Mem} (h : GoodPin n mem v)
    (hw : Within lo hi mem mem') (hlo : nptr n.next ≤ lo) (hhi : hi ≤ nptr nativeBytes) :
    pinResolved mem' (ptr v) = pinResolved mem (ptr v) := by
  have haway := h.away
  unfold pinCells at haway
  unfold pinResolved
  rw [hw (ptr v) (by omega), hw (ptr v + 6) (by omega)]

theorem lookup_of_mem : ∀ {map : CopyMap}, (map.map Prod.fst).Nodup → ∀ e ∈ map,
    map.lookup e.1 = some e.2
  | (k, _) :: map, hd, e, he => by
    rw [List.map_cons, List.nodup_cons] at hd
    rcases List.mem_cons.mp he with rfl | he
    · rw [List.lookup_cons, beq_self_eq_true]
    · have hmem : e.1 ∈ map.map Prod.fst := List.mem_map_of_mem he
      have hne : (e.1 == k) = false := beq_false_of_ne fun heq => hd.1 (heq ▸ hmem)
      rw [List.lookup_cons, hne]
      exact lookup_of_mem hd.2 e he

theorem place_of_mem (hd : (map.map Prod.fst).Nodup) {e : Nat × Nat} (he : e ∈ map) :
    place map off e.1 = nptr (off + e.2) := by
  rw [place, lookup_of_mem hd e he, Option.getD_some]

/-- Translation of a value of the body, whatever has been written to the extent. -/
theorem Source.translate {lo hi : Nat} {mem' : Mem} (hs : Source n mem body)
    (hwalk : Walked mem body map []) (hv : InBody mem body v) (hw : Within lo hi mem mem')
    (hlo : nptr n.next ≤ lo) (hhi : hi ≤ nptr nativeBytes) :
    ntranslate mem' map v off = some (translated mem (place map off) v) := by
  unfold ntranslate translated
  by_cases hnat : isNat63 v = true
  · rw [if_pos hnat, if_pos hnat]
  rw [if_neg hnat, if_neg hnat]
  by_cases hpin : tag v = pinTag
  · have hgood : GoodPin n mem v := by
      rcases hs v hv with h | h | h
      · exact absurd h hnat
      · exact h
      · exact absurd hpin h.isNode.2
    rw [if_pos hpin, if_pos hpin, hgood.resolved hw hlo hhi]
  · rw [if_neg hpin, if_neg hpin, place]
    have hseen : (map.lookup v).isSome = true := by
      rcases hwalk.complete hv with h | ⟨-, h, -⟩ | ⟨-, h⟩
      · exact absurd h hnat
      · exact absurd h hpin
      · exact h
    obtain ⟨o, ho⟩ := Option.isSome_iff_exists.mp hseen
    rw [ho]
    rfl

/-- Every node found can be copied. -/
theorem Source.movable {lo hi : Nat} (hs : Source n mem body) (hwalk : Walked mem body map [])
    (hlo : nptr n.next ≤ lo) (hhi : hi ≤ nptr nativeBytes) :
    ∀ e ∈ map, Movable mem map off lo hi e.1 := by
  intro e he
  obtain ⟨hn, hin, -⟩ := hwalk.found e he
  have hgood := hs.node hin hn
  refine ⟨?_, fun hnat happ => ?_, fun m j hw hj hj' hf => ?_⟩
  · rcases hgood.away with h | h
    · exact .inl (h.trans hlo)
    · exact .inr (hhi.trans h)
  · have ht : tag e.1 = lawTag := (hgood.tags.resolve_left hnat).resolve_right happ
    exact ⟨ht, by rw [hgood.law ht]; decide⟩
  · exact hs.translate hwalk (hgood.inBody hin hj hj' hf) hw hlo hhi

end

/-! ## The copy -/

/-- A node of a body. -/
def BodyNode (mem : Mem) (body v : Nat) : Prop := InBody mem body v ∧ IsNode v

/-- `mem'` has between `lo` and `hi` a copy of the graph of a body, with its nodes at the
addresses `at_`. -/
structure BodyCopy (mem mem' : Mem) (body lo hi : Nat) (at_ : Nat → Nat) : Prop where
  /-- The nodes are in the extent and do not overlap, and a node is not copied twice. -/
  inside : ∀ v, BodyNode mem body v → lo ≤ at_ v ∧ at_ v + cellsOf mem v ≤ hi
  apart : ∀ v w, BodyNode mem body v → BodyNode mem body w → ptr v ≠ ptr w →
    at_ v + cellsOf mem v ≤ at_ w ∨ at_ w + cellsOf mem w ≤ at_ v
  shared : ∀ v w, BodyNode mem body v → BodyNode mem body w → (at_ v = at_ w ↔ ptr v = ptr w)
  /-- Only the flag of a header has changed. -/
  header : ∀ v, BodyNode mem body v →
    hdrKind (mem' (at_ v)) = hdrKind (mem (ptr v)) ∧
    hdrMeta (mem' (at_ v)) = hdrMeta (mem (ptr v)) ∧
    hdrCells (mem' (at_ v)) = hdrCells (mem (ptr v)) ∧
    hdrFlags (mem' (at_ v)) = hdrFlags (mem (ptr v)) ||| normalFlag
  data : ∀ v j, BodyNode mem body v → 1 ≤ j → j < cellsOf mem v → isField (tag v) j = false →
    mem' (at_ v + j) = mem (ptr v + j)
  /-- A reference is that to the copy of the node, and that to the PIN in the arena. -/
  field : ∀ v j, BodyNode mem body v → 1 ≤ j → j < cellsOf mem v → isField (tag v) j = true →
    InBody mem body (mem (ptr v + j)) ∧
    mem' (at_ v + j) = translated mem at_ (mem (ptr v + j))
  pin : ∀ v, InBody mem body v → isNat63 v = false → tag v = pinTag →
    isNative (pinResolved mem (ptr v)) = true

section

variable {n n₁ : Store} {mem m₀ : Mem} {body : Nat} {map : CopyMap} {off size lo : Nat}

theorem Walked.mem_map (h : Walked mem body map []) {v : Nat} (hv : BodyNode mem body v) :
    ∃ e ∈ map, e.1 = v := by
  have hseen : (map.lookup v).isSome = true := by
    rcases h.complete hv.1 with hnat | ⟨-, hpin, -⟩ | ⟨-, hs⟩
    · rw [hv.2.1] at hnat
      cases hnat
    · exact absurd hpin hv.2.2
    · exact hs
  exact List.mem_map.mp (lookup_isSome.1 hseen)

/-- The loop over the nodes makes a copy of the body. -/
theorem Source.copied (hs : Source n mem body) (hwalk : walk mem [] lo [body] = some (map, size))
    (hnext : n.next ≤ off) (hcap : off + size ≤ nativeBytes)
    (hm : Within (nptr off) (nptr (off + size)) mem m₀) :
    ∃ m', map.foldlM (copyNode map off) m₀ = some m' ∧
      Within (nptr (off + lo)) (nptr (off + size)) m₀ m' ∧
      BodyCopy mem m' body (nptr (off + lo)) (nptr (off + size)) (place map off) := by
  have hw := walk_walked hwalk
  have hlaid := (walk_laid hwalk).1
  have hlo : nptr n.next ≤ nptr off := nptr_mono hnext
  have hhi : nptr (off + size) ≤ nptr nativeBytes := nptr_mono hcap
  obtain ⟨m', hfold, hin, hcopied⟩ := copyNodes_ok map hlaid
    (hs.movable hw hlo hhi) (nptr_mono (Nat.le_add_right ..)) le_rfl hm
  -- a node of the body is an entry, and its place is the offset of that
  have hentry : ∀ v, BodyNode mem body v → ∃ o, (v, o) ∈ map ∧ place map off v = nptr (off + o) := by
    intro v hv
    obtain ⟨e, he, rfl⟩ := hw.mem_map hv
    exact ⟨e.2, he, place_of_mem hw.nodup he⟩
  have hcells : ∀ v o, nptr (off + o) + cellsOf mem v = nptr (off + (o + 8 * cellsOf mem v)) := by
    intro v o
    rw [← Nat.add_assoc, nptr_add]
  have hgood : ∀ v, BodyNode mem body v → GoodNode n mem v := fun v hv => hs.node hv.1 hv.2
  have hapart : ∀ v w, BodyNode mem body v → BodyNode mem body w → v ≠ w →
      place map off v + cellsOf mem v ≤ place map off w ∨
      place map off w + cellsOf mem w ≤ place map off v := by
    intro v w hv hv' hne
    obtain ⟨o, ho, hp⟩ := hentry v hv
    obtain ⟨o', ho', hp'⟩ := hentry w hv'
    rw [hp, hp', hcells, hcells]
    rcases hlaid.apart _ ho _ ho' with heq | hle | hle
    · exact absurd (congrArg Prod.fst heq) hne
    · exact .inl (nptr_mono (Nat.add_le_add_left hle off))
    · exact .inr (nptr_mono (Nat.add_le_add_left hle off))
  refine ⟨m', hfold, hin, ?_, ?_, ?_, ?_, ?_, ?_, ?_⟩
  · intro v hv
    obtain ⟨o, ho, hp⟩ := hentry v hv
    obtain ⟨hle, hle'⟩ := hlaid.inside _ ho
    rw [hp, hcells]
    exact ⟨nptr_mono (Nat.add_le_add_left hle off), nptr_mono (Nat.add_le_add_left hle' off)⟩
  · intro v w hv hv' hne
    exact hapart v w hv hv' fun heq => hne (congrArg ptr heq)
  · intro v w hv hv'
    constructor
    · intro heq
      by_contra hne
      have hpos : 1 ≤ cellsOf mem v ∧ 1 ≤ cellsOf mem w := by
        obtain ⟨o, ho, -⟩ := hentry v hv
        obtain ⟨o', ho', -⟩ := hentry w hv'
        exact ⟨hlaid.pos _ ho, hlaid.pos _ ho'⟩
      have := hapart v w hv hv' fun heq => hne (congrArg ptr heq)
      omega
    · intro heq
      rw [(hgood v hv).ptr_inj (hgood w hv') heq]
  · intro v hv
    obtain ⟨o, ho, hp⟩ := hentry v hv
    rw [hp, (hcopied _ ho).header]
    exact ⟨hdrKind_setFlag .., hdrMeta_setFlag .., hdrCells_setFlag .., hdrFlags_setFlag ..⟩
  · intro v j hv hj hj' hf
    obtain ⟨o, ho, hp⟩ := hentry v hv
    rw [hp, (hcopied _ ho).cells j hj hj', hf]
    rfl
  · intro v j hv hj hj' hf
    obtain ⟨o, ho, hp⟩ := hentry v hv
    refine ⟨(hgood v hv).inBody hv.1 hj hj' hf, ?_⟩
    rw [hp, (hcopied _ ho).cells j hj hj', if_pos hf]
  · intro v hv hnat hpin
    rcases hw.complete hv with h | ⟨-, -, h⟩ | ⟨h, -⟩
    · rw [hnat] at h
      cases h
    · exact h
    · exact absurd hpin h.2

end

end Enki.Native
