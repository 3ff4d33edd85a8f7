import Enki.Native.Stage

/-!
# What staging a body leaves

The extent that `pl_native_stage` writes holds a copy of the body: every node once, at its
own place, with its header, its data, and references to the copies of what it refers to.
The PIN of the record is then what the index finds for its hash, then and later.
-/

namespace Enki.Native

open Cheney

/-! ## Bodies -/

/-- A reference to a node of the same body: neither a small natural nor a PIN. -/
def IsNode (v : Nat) : Prop := isNat63 v = false ∧ tag v ≠ pinTag

instance (v : Nat) : Decidable (IsNode v) := inferInstanceAs (Decidable (_ ∧ _))

/-- The cells of a node. -/
def cellsOf (mem : Mem) (v : Nat) : Nat := hdrCells (mem (ptr v))

/-- The values of a body: itself, and the fields of its nodes. -/
inductive InBody (mem : Mem) (body : Nat) : Nat → Prop where
  | body : InBody mem body body
  | field {v w : Nat} {fields : List Nat} : InBody mem body v → IsNode v →
      bodyFields mem v = some fields → w ∈ fields → InBody mem body w

/-- A PIN of a body, and the PIN it stands for is native. -/
def NativePin (mem : Mem) (v : Nat) : Prop :=
  isNat63 v = false ∧ tag v = pinTag ∧ isNative (pinResolved mem (ptr v)) = true

/-! ## The traversal -/

/-- Nodes laid out one after the other, from one offset to another. -/
def Laid (mem : Mem) : Nat → CopyMap → Nat → Prop
  | s, [], s' => s = s'
  | s, e :: rest, s' => e.2 = s ∧ 1 ≤ cellsOf mem e.1 ∧ Laid mem (s + 8 * cellsOf mem e.1) rest s'

section

variable {mem : Mem} {map map' : CopyMap} {size size' body off : Nat} {todo : List Nat}

theorem Laid.le : ∀ {map : CopyMap} {s s' : Nat}, Laid mem s map s' → s ≤ s'
  | [], _, _, h => Nat.le_of_eq h
  | _ :: _, _, _, ⟨_, _, h⟩ => by
    have := Laid.le h
    omega

/-- A node lies within the extent. -/
theorem Laid.inside : ∀ {map : CopyMap} {s s' : Nat}, Laid mem s map s' → ∀ e ∈ map,
    s ≤ e.2 ∧ e.2 + 8 * cellsOf mem e.1 ≤ s'
  | _ :: _, _, _, ⟨ho, _, h⟩, e, he => by
    rcases List.mem_cons.mp he with rfl | he
    · exact ⟨Nat.le_of_eq ho.symm, ho ▸ h.le⟩
    · obtain ⟨hlo, hhi⟩ := h.inside e he
      exact ⟨by omega, hhi⟩

theorem Laid.pos : ∀ {map : CopyMap} {s s' : Nat}, Laid mem s map s' → ∀ e ∈ map,
    1 ≤ cellsOf mem e.1
  | _ :: _, _, _, ⟨_, hc, h⟩, e, he => by
    rcases List.mem_cons.mp he with rfl | he
    · exact hc
    · exact h.pos e he

/-- Two nodes do not overlap. -/
theorem Laid.apart : ∀ {map : CopyMap} {s s' : Nat}, Laid mem s map s' → ∀ e ∈ map, ∀ e' ∈ map,
    e = e' ∨ e.2 + 8 * cellsOf mem e.1 ≤ e'.2 ∨ e'.2 + 8 * cellsOf mem e'.1 ≤ e.2
  | _ :: _, _, _, ⟨ho, _, h⟩, e, he, e', he' => by
    rcases List.mem_cons.mp he with rfl | hin
    · rcases List.mem_cons.mp he' with rfl | hin'
      · exact .inl rfl
      · have := h.inside e' hin'
        omega
    · rcases List.mem_cons.mp he' with rfl | hin'
      · have := h.inside e hin
        omega
      · exact h.apart e hin e' hin'

/-- The list of cells that the record model has of a body. -/
def bodyCells (mem : Mem) (map : CopyMap) : List Nat := map.map fun e => cellsOf mem e.1

/-- The traversal passes over a value: it is no node, or was found before. -/
def Passed (mem : Mem) (map : CopyMap) (v : Nat) : Prop :=
  isNat63 v = true ∨ NativePin mem v ∨ IsNode v ∧ (map.lookup v).isSome = true

/-- The traversal finds a node that fits. -/
structure Found (mem : Mem) (map : CopyMap) (size v : Nat) (fields : List Nat) : Prop where
  node : IsNode v
  fresh : map.lookup v = none
  cells : 1 ≤ cellsOf mem v
  fits : size ≤ nativeBytes - cellsOf mem v * 8
  fields : bodyFields mem v = some fields

theorem Passed.walk {v : Nat} (h : Passed mem map v) :
    walk mem map size (v :: todo) = Native.walk mem map size todo := by
  rw [Native.walk]
  rcases h with hnat | ⟨hnat, hpin, hnative⟩ | ⟨⟨hnat, hpin⟩, hseen⟩
  · rw [if_pos hnat]
  · rw [if_neg (by simp [hnat]), if_pos hpin, if_pos hnative]
  · rw [if_neg (by simp [hnat]), if_neg hpin, if_pos hseen]

theorem Found.walk {v : Nat} {fields : List Nat} (h : Found mem map size v fields) :
    walk mem map size (v :: todo) =
      Native.walk mem (map ++ [(v, size)]) (size + cellsOf mem v * 8) (fields.reverse ++ todo) := by
  obtain ⟨⟨hnat, hpin⟩, hfresh, hcells, hfits, hfields⟩ := h
  unfold cellsOf at hcells hfits
  rw [Native.walk, if_neg (by simp [hnat]), if_neg hpin, if_neg (by simp [hfresh])]
  dsimp only
  rw [if_neg (by omega), hfields]
  rfl

/-- What each step keeps, the whole traversal keeps. -/
theorem walk_run {P : CopyMap → Nat → List Nat → Prop}
    (hpass : ∀ map size v todo, Passed mem map v → P map size (v :: todo) → P map size todo)
    (hfind : ∀ map size v todo fields, Found mem map size v fields → P map size (v :: todo) →
      P (map ++ [(v, size)]) (size + cellsOf mem v * 8) (fields.reverse ++ todo))
    (h0 : P map size todo) (h : walk mem map size todo = some (map', size')) : P map' size' [] := by
  induction map, size, todo using walk.induct mem with
  | case1 map size =>
    rw [walk] at h
    cases h
    exact h0
  | case2 map size v todo hnat ih =>
    rw [walk, if_pos hnat] at h
    exact ih (hpass _ _ _ _ (.inl hnat) h0) h
  | case3 map size v todo hnat hpin hnative ih =>
    rw [walk, if_neg hnat, if_pos hpin, if_pos hnative] at h
    exact ih (hpass _ _ _ _ (.inr (.inl ⟨by simpa using hnat, hpin, hnative⟩)) h0) h
  | case4 map size v todo hnat hpin hnative =>
    rw [walk, if_neg hnat, if_pos hpin, if_neg hnative] at h
    cases h
  | case5 map size v todo hnat hpin hseen ih =>
    rw [walk, if_neg hnat, if_neg hpin, if_pos hseen] at h
    exact ih (hpass _ _ _ _ (.inr (.inr ⟨⟨by simpa using hnat, hpin⟩, hseen⟩)) h0) h
  | case6 map size v todo hnat hpin hseen bytes hbad =>
    rw [walk, if_neg hnat, if_neg hpin, if_neg hseen] at h
    simp only at h
    rw [if_pos hbad] at h
    cases h
  | case7 map size v todo hnat hpin hseen bytes hfits hnone =>
    rw [walk, if_neg hnat, if_neg hpin, if_neg hseen] at h
    simp only at h
    rw [if_neg hfits, hnone] at h
    cases h
  | case8 map size v todo hnat hpin hseen bytes hfits fields hfields ih =>
    rw [walk, if_neg hnat, if_neg hpin, if_neg hseen] at h
    simp only at h
    rw [if_neg hfits, hfields] at h
    refine ih (hfind _ _ _ _ _ ⟨⟨by simpa using hnat, hpin⟩, ?_, ?_, ?_, hfields⟩ h0) h
    · exact Option.not_isSome_iff_eq_none.mp hseen
    · simp only [cellsOf]
      omega
    · simp only [cellsOf]
      omega

theorem Laid.concat : ∀ {map : CopyMap} {s s' : Nat}, Laid mem s map s' → ∀ {v : Nat},
    1 ≤ cellsOf mem v → Laid mem s (map ++ [(v, s')]) (s' + cellsOf mem v * 8)
  | [], _, _, rfl, _, hv => ⟨rfl, hv, by rw [Laid, Nat.mul_comm]⟩
  | _ :: _, _, _, ⟨ho, hc, h⟩, _, hv => ⟨ho, hc, h.concat hv⟩

/-- The nodes come one after the other, and the record model has the same extent. -/
theorem walk_laid (h : walk mem [] size todo = some (map', size')) :
    Laid mem size map' size' ∧ extent size (bodyCells mem map') = some size' := by
  have hextent : ∀ (cells : List Nat) (s t c : Nat), extent s cells = some t → 1 ≤ c →
      t ≤ nativeBytes - c * 8 → extent s (cells ++ [c]) = some (t + c * 8) := by
    intro cells
    induction cells with
    | nil =>
      intro s t c h hc hfits
      cases h
      simp only [List.nil_append, extent]
      rw [if_neg (by omega)]
    | cons d cells ih =>
      intro s t c h hc hfits
      rw [extent] at h
      rw [List.cons_append, extent]
      split_ifs at h ⊢
      exact ih _ _ _ h hc hfits
  refine walk_run (P := fun map s _ =>
    Laid mem size map s ∧ extent size (bodyCells mem map) = some s) ?_ ?_ ?_ h
  · intro map s v todo _ hP
    exact hP
  · intro map s v todo fields hf ⟨hl, he⟩
    refine ⟨hl.concat hf.cells, ?_⟩
    rw [bodyCells, List.map_append]
    exact hextent _ _ _ _ he hf.cells hf.fits
  · exact ⟨rfl, rfl⟩

/-- What the traversal has found, and what it still has to look at. -/
structure Walked (mem : Mem) (body : Nat) (map : CopyMap) (todo : List Nat) : Prop where
  found : ∀ e ∈ map, IsNode e.1 ∧ InBody mem body e.1 ∧ ∃ fields, bodyFields mem e.1 = some fields
  stack : ∀ v ∈ todo, InBody mem body v
  nodup : (map.map Prod.fst).Nodup
  root : Passed mem map body ∨ body ∈ todo
  fields : ∀ e ∈ map, ∀ fields, bodyFields mem e.1 = some fields → ∀ w ∈ fields,
    Passed mem map w ∨ w ∈ todo

theorem lookup_isSome {map : CopyMap} {v : Nat} :
    (map.lookup v).isSome = true ↔ v ∈ map.map Prod.fst := by
  induction map with
  | nil => simp
  | cons e map ih =>
    obtain ⟨k, o⟩ := e
    rw [List.lookup_cons]
    by_cases hk : v = k
    · simp [hk]
    · have hne : (v == k) = false := by simpa using hk
      simp [hne, hk, ih]

theorem Passed.mono {map map' : CopyMap} {v : Nat} (hsub : ∀ e ∈ map, e ∈ map')
    (h : Passed mem map v) : Passed mem map' v := by
  rcases h with h | h | ⟨hn, h⟩
  · exact .inl h
  · exact .inr (.inl h)
  · refine .inr (.inr ⟨hn, ?_⟩)
    rw [lookup_isSome] at h ⊢
    obtain ⟨e, he, rfl⟩ := List.mem_map.mp h
    exact List.mem_map_of_mem (hsub e he)

/-- The traversal finds every node of the body, once, and no transient PIN. -/
theorem walk_walked (h : walk mem [] size [body] = some (map', size')) :
    Walked mem body map' [] := by
  refine walk_run (P := fun map _ todo => Walked mem body map todo) ?_ ?_ ?_ h
  · intro map s v todo hp hw
    -- a value that is passed over was looked at
    have hpop : ∀ w, Passed mem map w ∨ w ∈ v :: todo → Passed mem map w ∨ w ∈ todo := by
      rintro w (hw | hw)
      · exact .inl hw
      · rcases List.mem_cons.mp hw with rfl | hw
        · exact .inl hp
        · exact .inr hw
    exact ⟨hw.found, fun w hin => hw.stack w (List.mem_cons_of_mem _ hin), hw.nodup,
      hpop _ hw.root, fun e he fs hfs w hin => hpop w (hw.fields e he fs hfs w hin)⟩
  · intro map s v todo fields hf hw
    have hin : InBody mem body v := hw.stack v List.mem_cons_self
    have hnew : v ∉ map.map Prod.fst := by
      rw [← lookup_isSome, hf.fresh]
      simp
    have hself : Passed mem (map ++ [(v, s)]) v :=
      .inr (.inr ⟨hf.node, lookup_isSome.2 (by simp)⟩)
    have hpop : ∀ w, Passed mem map w ∨ w ∈ v :: todo →
        Passed mem (map ++ [(v, s)]) w ∨ w ∈ fields.reverse ++ todo := by
      rintro w (hw | hw)
      · exact .inl (hw.mono fun e he => List.mem_append_left _ he)
      · rcases List.mem_cons.mp hw with rfl | hw
        · exact .inl hself
        · exact .inr (List.mem_append_right _ hw)
    refine ⟨?_, ?_, ?_, hpop _ hw.root, ?_⟩
    · intro e he
      rcases List.mem_append.mp he with he | he
      · exact hw.found e he
      · rw [List.mem_singleton] at he
        subst he
        exact ⟨hf.node, hin, fields, hf.fields⟩
    · intro w hmem
      rcases List.mem_append.mp hmem with hmem | hmem
      · exact .field hin hf.node hf.fields (List.mem_reverse.mp hmem)
      · exact hw.stack w (List.mem_cons_of_mem _ hmem)
    · rw [List.map_append, List.nodup_append]
      refine ⟨hw.nodup, by simp, ?_⟩
      rintro a ha b hb rfl
      simp only [List.map_cons, List.map_nil, List.mem_singleton] at hb
      exact hnew (hb ▸ ha)
    · intro e he fs hfs w hmem
      rcases List.mem_append.mp he with he | he
      · exact hpop w (hw.fields e he fs hfs w hmem)
      · rw [List.mem_singleton] at he
        subst he
        rw [hf.fields] at hfs
        cases hfs
        exact .inr (List.mem_append_left _ (List.mem_reverse.mpr hmem))
  · exact ⟨nofun, by simpa using InBody.body, by simp, .inr (by simp), nofun⟩

/-- At the end every value of the body is a small natural, a native PIN, or a node found. -/
theorem Walked.complete (h : Walked mem body map []) {v : Nat} (hv : InBody mem body v) :
    Passed mem map v := by
  induction hv with
  | body => exact h.root.resolve_right (by simp)
  | @field v w fields hv hn hfs hw ih =>
    have hin : v ∈ map.map Prod.fst := by
      rcases ih with hnat | ⟨-, hpin, -⟩ | ⟨-, hseen⟩
      · rw [hn.1] at hnat
        cases hnat
      · exact absurd hpin hn.2
      · exact lookup_isSome.1 hseen
    obtain ⟨e, he, rfl⟩ := List.mem_map.mp hin
    exact (h.fields e he fields hfs w hw).resolve_right (by simp)

end

/-! ## The copy of one node -/

theorem nptr_add (off k : Nat) : nptr (off + 8 * k) = nptr off + k := by
  unfold nptr
  omega

theorem nptr_mono {off off' : Nat} (h : off ≤ off') : nptr off ≤ nptr off' := by
  unfold nptr
  omega

/-- Only cells from `lo` on and before `hi` differ. -/
def Within (lo hi : Nat) (mem mem' : Mem) : Prop := ∀ a, a < lo ∨ hi ≤ a → mem' a = mem a

theorem Within.trans {lo hi : Nat} {mem mem₁ mem₂ : Mem} (h : Within lo hi mem mem₁)
    (h' : Within lo hi mem₁ mem₂) : Within lo hi mem mem₂ := fun a ha =>
  (h' a ha).trans (h a ha)

theorem Within.mono {lo lo' hi hi' : Nat} {mem mem' : Mem} (h : Within lo hi mem mem')
    (hlo : lo' ≤ lo) (hhi : hi ≤ hi') : Within lo' hi' mem mem' := fun a ha => h a (by omega)

/-- Which cells of a node are references. -/
def isField (tag j : Nat) : Bool := tag = appTag ∨ tag = lawTag ∧ 2 ≤ j

/-- Where a node is copied to. -/
def place (map : CopyMap) (off v : Nat) : Nat := nptr (off + (map.lookup v).getD 0)

/-- What a reference becomes, where `at_` says where the nodes are copied to. -/
def translated (mem : Mem) (at_ : Nat → Nat) (w : Nat) : Nat :=
  if isNat63 w then w
  else if tag w = pinTag then make pinTag (pinResolved mem (ptr w))
  else make (tag w) (at_ w)

/-- A node has been copied to `dst`. -/
structure CopiedTo (mem mem' : Mem) (at_ : Nat → Nat) (v dst : Nat) : Prop where
  header : mem' dst = hdrSetFlag (mem (ptr v)) normalFlag
  cells : ∀ j, 1 ≤ j → j < cellsOf mem v → mem' (dst + j) =
    if isField (tag v) j then translated mem at_ (mem (ptr v + j)) else mem (ptr v + j)

section

variable {mem mem₁ : Mem} {map : CopyMap} {off src dst lo hi : Nat}

/-- The loop over the references of a node. -/
theorem translate_fields {g : Nat → Nat} : ∀ (count first : Nat) {m : Mem},
    lo ≤ dst + first → dst + first + count ≤ hi → Within lo hi mem₁ m →
    (∀ m j, Within lo hi mem₁ m → first ≤ j → j < first + count →
      ntranslate m map (m (src + j)) off = some (g j)) →
    ∃ m', (List.range' first count).foldlM (fun m j =>
        (ntranslate m map (m (src + j)) off).map (Function.update m (dst + j))) m = some m' ∧
      Within (dst + first) (dst + first + count) m m' ∧
      ∀ j, first ≤ j → j < first + count → m' (dst + j) = g j
  | 0, first, m, _, _, _, _ => ⟨m, rfl, fun _ _ => rfl, fun j _ _ => by omega⟩
  | count + 1, first, m, hlo, hhi, hm, htr => by
    have hone : Within (dst + first) (dst + first + 1) m (Function.update m (dst + first) (g first)) := by
      intro a ha
      exact Function.update_of_ne (by omega) _ _
    obtain ⟨m', hfold, hin, hg⟩ := translate_fields count (first + 1)
      (m := Function.update m (dst + first) (g first)) (by omega) (by omega)
      (hm.trans (hone.mono (by omega) (by omega))) fun m j hm hj hj' => htr m j hm (by omega) (by omega)
    refine ⟨m', ?_, ?_, ?_⟩
    · rw [List.range'_succ, List.foldlM_cons, htr m first hm le_rfl (by omega)]
      exact hfold
    · exact (hone.mono le_rfl (by omega)).trans (hin.mono (by omega) (by omega))
    · intro j hj hj'
      rcases Nat.eq_or_lt_of_le hj with rfl | hlt
      · rw [hin _ (by omega), Function.update_self]
      · exact hg j (by omega) (by omega)

/-- What `copyNode` makes of a node that is not where it is copied to. -/
theorem copyNode_ok {e : Nat × Nat} (hlo : lo ≤ nptr (off + e.2))
    (hhi : nptr (off + e.2) + cellsOf mem e.1 ≤ hi) (hm : Within lo hi mem mem₁)
    (haway : ptr e.1 + cellsOf mem e.1 ≤ lo ∨ hi ≤ ptr e.1) (hpos : 1 ≤ cellsOf mem e.1)
    (hlaw : tag e.1 ≠ natTag → tag e.1 ≠ appTag → tag e.1 = lawTag ∧ 2 ≤ cellsOf mem e.1)
    (htr : ∀ m j, Within lo hi mem m → 1 ≤ j → j < cellsOf mem e.1 → isField (tag e.1) j = true →
      ntranslate m map (mem (ptr e.1 + j)) off = some (translated mem (place map off) (mem (ptr e.1 + j)))) :
    ∃ mem₂, copyNode map off mem₁ e = some mem₂ ∧
      Within (nptr (off + e.2)) (nptr (off + e.2) + cellsOf mem e.1) mem₁ mem₂ ∧
      CopiedTo mem mem₂ (place map off) e.1 (nptr (off + e.2)) := by
  generalize hdst : nptr (off + e.2) = dst at hlo hhi ⊢
  have hsrc : ∀ m, Within lo hi mem m → ∀ j, j < cellsOf mem e.1 →
      m (ptr e.1 + j) = mem (ptr e.1 + j) := fun m h j hj => h _ (by omega)
  have hhdr : mem₁ (ptr e.1) = mem (ptr e.1) := hsrc mem₁ hm 0 hpos
  have hcells : hdrCells (mem₁ (ptr e.1)) = cellsOf mem e.1 := by rw [hhdr, cellsOf]
  unfold copyNode
  simp only [hdst, hcells]
  -- the cells as they were, and the header with its flag
  generalize hcopy : Function.update (copyCells mem₁ (ptr e.1) dst (cellsOf mem e.1)) dst
    (hdrSetFlag (copyCells mem₁ (ptr e.1) dst (cellsOf mem e.1) dst) normalFlag) = copied
  have hout : Within dst (dst + cellsOf mem e.1) mem₁ copied := by
    intro a ha
    rw [← hcopy, Function.update_of_ne (by omega), copyCells, if_neg (by omega)]
  have hheader : copied dst = hdrSetFlag (mem (ptr e.1)) normalFlag := by
    rw [← hcopy, Function.update_self, copyCells, if_pos (by omega), Nat.sub_self, Nat.add_zero, hhdr]
  have hraw : ∀ j, 1 ≤ j → j < cellsOf mem e.1 → copied (dst + j) = mem (ptr e.1 + j) := by
    intro j hj hj'
    rw [← hcopy, Function.update_of_ne (by omega), copyCells, if_pos (by omega),
      Nat.add_sub_cancel_left, hsrc mem₁ hm j hj']
  by_cases hnat : tag e.1 = natTag
  · rw [if_pos hnat]
    refine ⟨copied, rfl, hout, hheader, fun j hj hj' => ?_⟩
    have hno : isField (tag e.1) j = false := by
      rw [hnat]
      rfl
    rw [hraw j hj hj', hno]
    rfl
  · rw [if_neg hnat]
    generalize hfirst : (if tag e.1 = appTag then 1 else 2) = first
    have hfield : 1 ≤ first ∧ first ≤ cellsOf mem e.1 ∧
        ∀ j, 1 ≤ j → (isField (tag e.1) j = true ↔ first ≤ j) := by
      rw [← hfirst]
      simp only [isField, decide_eq_true_eq]
      by_cases happ : tag e.1 = appTag
      · rw [if_pos happ]
        exact ⟨le_rfl, hpos, fun j hj => ⟨fun _ => hj, fun _ => .inl happ⟩⟩
      · obtain ⟨htag, htwo⟩ := hlaw hnat happ
        rw [if_neg happ]
        exact ⟨by omega, htwo, fun j _ =>
          ⟨fun h => (h.resolve_left happ).2, fun h => .inr ⟨htag, h⟩⟩⟩
    obtain ⟨hone, hle, hiff⟩ := hfield
    obtain ⟨m', hfold, hin, hg⟩ := @translate_fields mem₁ map off (ptr e.1) dst lo hi
      (fun j => translated mem (place map off) (mem (ptr e.1 + j))) (cellsOf mem e.1 - first)
      first copied (by omega) (by omega) (hout.mono hlo hhi) fun m j hm' hj hj' => by
        rw [hsrc m (hm.trans hm') j (by omega)]
        exact htr m j (hm.trans hm') (by omega) (by omega) ((hiff j (by omega)).mpr hj)
    refine ⟨m', hfold, hout.trans (hin.mono (by omega) (by omega)), ?_, fun j hj hj' => ?_⟩
    · rw [hin _ (by omega), hheader]
    · by_cases hf : first ≤ j
      · rw [hg j hf (by omega), if_pos ((hiff j hj).mpr hf)]
      · rw [hin _ (by omega), hraw j hj hj', if_neg (mt (hiff j hj).mp hf)]

/-- A copy is not touched by what is written behind it. -/
theorem CopiedTo.within {v lo' hi' : Nat} {mem₂ : Mem} {at_ : Nat → Nat}
    (h : CopiedTo mem mem₁ at_ v dst)
    (hw : Within lo' hi' mem₁ mem₂) (hpos : 1 ≤ cellsOf mem v)
    (hout : dst + cellsOf mem v ≤ lo' ∨ hi' ≤ dst) : CopiedTo mem mem₂ at_ v dst where
  header := (hw _ (by omega)).trans h.header
  cells := fun j hj hj' => (hw _ (by omega)).trans (h.cells j hj hj')

/-- What the copy relies on: a node lies outside the extent, and its references can be
translated whatever has been written there. -/
structure Movable (mem : Mem) (map : CopyMap) (off lo hi v : Nat) : Prop where
  away : ptr v + cellsOf mem v ≤ lo ∨ hi ≤ ptr v
  law : tag v ≠ natTag → tag v ≠ appTag → tag v = lawTag ∧ 2 ≤ cellsOf mem v
  translate : ∀ m j, Within lo hi mem m → 1 ≤ j → j < cellsOf mem v → isField (tag v) j = true →
    ntranslate m map (mem (ptr v + j)) off = some (translated mem (place map off) (mem (ptr v + j)))

/-- The loop over the nodes. -/
theorem copyNodes_ok : ∀ (rest : CopyMap) {s s' : Nat} {m : Mem}, Laid mem s rest s' →
    (∀ e ∈ rest, Movable mem map off lo hi e.1) → lo ≤ nptr (off + s) → nptr (off + s') ≤ hi →
    Within lo hi mem m → ∃ m', rest.foldlM (copyNode map off) m = some m' ∧
      Within (nptr (off + s)) (nptr (off + s')) m m' ∧
      ∀ e ∈ rest, CopiedTo mem m' (place map off) e.1 (nptr (off + e.2))
  | [], _, _, m, _, _, _, _, _ => ⟨m, rfl, fun _ _ => rfl, nofun⟩
  | e :: rest, s, s', m, ⟨ho, hc, hlaid⟩, hmov, hlo, hhi, hm => by
    subst ho
    have hnext : nptr (off + (e.2 + 8 * cellsOf mem e.1)) = nptr (off + e.2) + cellsOf mem e.1 := by
      rw [← Nat.add_assoc, nptr_add]
    have hend : nptr (off + e.2) + cellsOf mem e.1 ≤ nptr (off + s') := by
      rw [← hnext]
      exact nptr_mono (Nat.add_le_add_left hlaid.le off)
    have he := hmov e List.mem_cons_self
    obtain ⟨m₁, hcopy, hin, hcopied⟩ := copyNode_ok hlo (by omega) hm he.away hc he.law he.translate
    obtain ⟨m', hfold, hin', hrest⟩ := copyNodes_ok rest (m := m₁) hlaid
      (fun e' he' => hmov e' (List.mem_cons_of_mem _ he')) (by omega) hhi
      (hm.trans (hin.mono hlo (by omega)))
    rw [hnext] at hin'
    refine ⟨m', ?_, (hin.mono le_rfl hend).trans (hin'.mono (by omega) le_rfl), fun e' he' => ?_⟩
    · rw [List.foldlM_cons, hcopy]
      exact hfold
    · rcases List.mem_cons.mp he' with rfl | he'
      · exact hcopied.within hin' hc (.inl le_rfl)
      · exact hrest e' he'

end

/-! ## The record -/

section

variable {n n' : Store} {h : List Super} {m : Bool → Key → Nat}

/-- The store after a PIN with a new hash was staged. -/
structure Stored (n n' : Store) (h : List Super) (m : Bool → Key → Nat) (off : Nat) (pin : Pin) :
    Prop where
  appends : Appends n n'
  writing : Writing n' h (Function.update m false (Function.update (m false) pin.hash off))
  at_ : n.next ≤ off ∧ off % 8 = 0
  next : n'.next = off + (pin.len + 7) / 8 * 8
  record : n'.disk off = some (.object pin)
  id : pin.id = n.work.nextId ∧ n'.work.nextId = n.work.nextId + 1 ∧ n.work.nextId < slotCount

/-- A new PIN is a record of its own, and in the index. -/
theorem stage_new {o : Object} {size off : Nat} {n₁ : Store} (hw : Writing n h m)
    (hnew : m false o.hash = 0)
    (hsize : o.cells.bind (extent (recordBytes + pinCells o.nsub * 8)) = some size)
    (hal : n.alloc size = (some off, n₁)) (he : n.stage o = (true, n')) :
    Stored n n' h m off ⟨size, o.hash, o.nsub, o.bodyAt off, n.work.nextId⟩ := by
  have hl : n.workingLookup n.work.objects o.hash = some 0 := by
    rw [← hnew]
    exact hw.lookup false o.hash
  unfold Store.stage at he
  split at he
  · cases he
  rw [hl] at he
  simp only [ne_eq, not_true_eq_false, if_false] at he
  split at he
  · cases he
  next hcap =>
  split at he
  · cases he
  rw [hsize] at he
  simp only [hal] at he
  obtain ⟨happ, hnodes, hwork, hoff⟩ := alloc_appends hal
  obtain ⟨hle, hnext, -⟩ := hoff off rfl
  have hmod := (alloc_spec hw.indexed.aligned hal).2.2.2.2 off rfl
  generalize hp : (⟨size, o.hash, o.nsub, o.bodyAt off, n₁.work.nextId⟩ : Pin) = pin at he
  have hpin : pin = ⟨size, o.hash, o.nsub, o.bodyAt off, n.work.nextId⟩ := by rw [← hp, hwork]
  have hlen : (Rec.object pin).len = size := by
    rw [hpin]
    rfl
  have hw₁ := hw.write (r := .object pin) (hlen ▸ hal)
  have ha₁ := alloc_write (r := .object pin) (hlen ▸ hal)
  have hid : n₁.work.nextId < slotCount := by
    rw [hwork]
    omega
  have hw₂ := (hw₁.bump hid).point
  have ha₂ := (ha₁.trans (.of_same rfl)).trans (.point { n₁ with
    disk := n₁.disk.write off (.object pin)
    work := { n₁.work with nextId := n₁.work.nextId + 1 } })
  have hpt := point_eq { n₁ with
    disk := n₁.disk.write off (.object pin)
    work := { n₁.work with nextId := n₁.work.nextId + 1 } }
  dsimp only at hw₂
  generalize Store.point { n₁ with
    disk := n₁.disk.write off (.object pin)
    work := { n₁.work with nextId := n₁.work.nextId + 1 } } = q at he hw₂ ha₂ hpt
  obtain ⟨ok₂, n₂⟩ := q
  dsimp only at he hw₂ ha₂ hpt
  split at he
  · cases he
  cases hins : n₂.insert n₂.work.objects o.hash off with
  | mk ok₃ q =>
    obtain ⟨root, n₃⟩ := q
    rw [hins] at he
    cases he
    have hroot : n₂.committed.root = 0 ∨ o.hash ≠ n₂.committed.rootHash := by
      rcases hw₂.root with h0 | hr
      · exact .inl h0
      · by_cases h0 : n₂.committed.root = 0
        · exact .inl h0
        · refine .inr fun heq => h0 ?_
          rw [← hr, ← heq, hnew]
    obtain ⟨-, F, -, hF⟩ := hw₂.indexed
    obtain ⟨root', n₄, F', heq, hext, -⟩ := (hF false).insert hw₂.indexed.aligned o.hash off
    rw [show n₂.rootOf false = n₂.work.objects from rfl, hins] at heq
    obtain ⟨-, hpair⟩ := Prod.mk.inj heq
    obtain ⟨-, rfl⟩ := Prod.mk.inj hpair
    have hsame := hext.same
    obtain ⟨-, ha₃, hw₃, -⟩ := hw₂.insert (c := false) (fun _ => hroot) hins
    rw [← hpin]
    refine ⟨ha₂.trans ha₃, ?_, ⟨hle, hmod.2.1⟩, ?_, ?_, ?_⟩
    · rw [hpin]
      exact hw₃
    · rw [hsame, hpt, hpin]
      exact hnext
    · rw [hsame, hpt]
      simp [Disk.write]
    · rw [hsame, hpt, hpin]
      exact ⟨rfl, by simp [hwork], by omega⟩

end

end Enki.Native
