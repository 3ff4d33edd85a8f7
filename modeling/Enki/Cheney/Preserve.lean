import Enki.Cheney.Collect

/-!
# Collecting, growing and trimming

Every collection of a well-formed heap ends, preserves the graph and copies at most the
cells that were in use, each object once. So the other space, of the same size, has room,
and so do the sizes that growing and trimming ask for; and what was asked of
`pl_gc_reserve` is free afterwards.
-/

namespace Enki.Cheney

/-- A space of the heap: its addresses can be tagged, and the store has none of them. -/
structure Space (owns : Nat → Bool) (a cells : Nat) : Prop where
  bound : a + cells ≤ 2 ^ 53
  notOwned : ∀ x, a ≤ x → x < a + cells → owns x = false

/-- Two spaces do not overlap. -/
def SpacesApart (a n b m : Nat) : Prop := a + n ≤ b ∨ b + m ≤ a

/-- A heap between two allocations. -/
structure Heap.OK (owns : Nat → Bool) (h : Heap) (objs : List Nat) : Prop where
  wf : WF owns h.mem h.fromSpace objs h.free
  roots : ∀ v ∈ rootValues h.sources, Valid owns h.mem objs v
  limit : h.limit = h.fromSpace + h.cells
  free : h.free ≤ h.limit
  cells : 0 < h.cells
  fromOK : Space owns h.fromSpace h.cells
  toOK : Space owns h.toSpace h.cells
  apart : SpacesApart h.fromSpace h.cells h.toSpace h.cells

section Fuel

variable {owns : Nat → Bool} {mem : Mem} {start free : Nat} {objs : List Nat}

theorem Enough.mono {n m : Nat} (h : Enough owns mem objs n) (hle : n ≤ m) :
    Enough owns mem objs m := by
  intro v hv
  obtain ⟨t, ht⟩ := h v hv
  exact ⟨t, resolve_mono hle ht⟩

/-- There are finitely many objects, so some fuel is enough for all. -/
theorem WF.enough (h : WF owns mem start objs free) : ∃ n, Enough owns mem objs n := by
  have hlist : ∀ l : List Nat, (∀ p ∈ l, p ∈ objs) → ∃ n, ∀ p ∈ l,
      ∃ t, resolve owns mem n (make (tagForKind (hdrKind (mem p))) p) = some t := by
    intro l
    induction l with
    | nil => exact fun _ => ⟨0, nofun⟩
    | cons p l ih =>
      intro hsub
      obtain ⟨n, hn⟩ := ih fun q hq => hsub q (List.mem_cons_of_mem _ hq)
      obtain ⟨t, m, hm⟩ := h.chains _ (.inr (.inr ⟨p, hsub p (List.mem_cons_self ..), rfl⟩))
      refine ⟨max n m, fun q hq => ?_⟩
      rcases List.mem_cons.mp hq with rfl | hq
      · exact ⟨t, resolve_mono (Nat.le_max_right n m) hm⟩
      · obtain ⟨t', ht'⟩ := hn q hq
        exact ⟨t', resolve_mono (Nat.le_max_left n m) ht'⟩
  obtain ⟨n, hn⟩ := hlist objs fun _ => id
  refine ⟨n + 1, fun v hv => ?_⟩
  rcases hv with hv | hv | ⟨p, hp, rfl⟩
  · exact ⟨.imm v, by rw [resolve, if_pos (.inl hv)]⟩
  · exact ⟨.imm v, by rw [resolve, if_pos (.inr hv)]⟩
  · obtain ⟨t, ht⟩ := hn p hp
    exact ⟨t, resolve_mono (Nat.le_succ n) ht⟩

end Fuel

section Collect

variable {owns : Nat → Bool} {h : Heap} {objs : List Nat} {target fuel : Nat}

/-- The fuel a collection takes. -/
structure FuelOK (owns : Nat → Bool) (h : Heap) (objs : List Nat) (fuel : Nat) : Prop where
  chains : Enough owns h.mem objs fuel
  objects : objs.length ≤ fuel

/-- What a collection does: `l` are the objects that were copied. -/
structure Collected (owns : Nat → Bool) (h : Heap) (target : Nat) (h' : Heap) (l : List Nat)
    (φ : Nat → Nat) : Prop where
  iso : Iso owns h.mem h.sources h'.mem h'.sources φ
  reached : ∀ p, p ∈ l ↔ Reach owns h.mem (rootValues h.sources) p
  once : l.Nodup
  live : h'.live = size h.mem l
  free : h'.free = target + h'.live
  fits : h'.live ≤ h.free - h.fromSpace
  store : ∀ a, owns a = true → h'.mem a = h.mem a

/-- The heap can be collected again. -/
structure Again (owns : Nat → Bool) (target fuel : Nat) (h' : Heap) (objs' : List Nat) : Prop where
  wf : WF owns h'.mem target objs' h'.free
  roots : ∀ v ∈ rootValues h'.sources, Valid owns h'.mem objs' v
  fuel : FuelOK owns h' objs' fuel

theorem collectInto_spec (hs : Setup owns h.mem h.fromSpace objs h.free target)
    (hroots : ∀ v ∈ rootValues h.sources, Valid owns h.mem objs v)
    (hfuel : FuelOK owns h objs fuel) :
    ∃ h₁ l, h.collectInto owns fuel target = some h₁ ∧
      h₁.fromSpace = h.fromSpace ∧ h₁.toSpace = h.toSpace ∧ h₁.cells = h.cells ∧
      h₁.limit = h.limit ∧
      ∀ h' : Heap, h'.sources = h₁.sources → h'.live = h₁.live → h'.free = h₁.free →
        (∀ a, owns a = true ∨ (target ≤ a ∧ a < h₁.free) → h'.mem a = h₁.mem a) →
        Collected owns h target h' l (place h.mem target l) ∧
          Again owns target fuel h' (l.map (place h.mem target l)) := by
  have hinit : Inv owns h.mem h.fromSpace objs h.free target
      (Reach owns h.mem (rootValues h.sources)) [] target ⟨h.mem, target⟩ :=
    ⟨List.nodup_nil, nofun, nofun, nofun, rfl, Nat.le_refl _, nofun, fun _ _ _ _ _ => rfl, nofun,
      nofun, fun _ _ _ => rfl⟩
  have hclosed : ClosedUnder owns h.mem (Reach owns h.mem (rootValues h.sources)) :=
    fun p i q hp hi htraced hres => .field hp hi htraced hres
  obtain ⟨c₀, l₀, sources', h₀, -, hinv₀, hrel₀⟩ := visitSources_spec hs hfuel.chains
    h.sources (fun v hv => ⟨hroots v hv, fun p hres => .root hv hres⟩) hinit
  obtain ⟨c, r, h₁, hinv⟩ := cheneyScan_spec hs hclosed (n := fuel) hfuel.chains []
    (by simpa using hfuel.objects) hinv₀
  rw [List.nil_append] at hinv
  have hrel : List.Forall₂ (Source.Rel (SameIn owns h.mem target (l₀ ++ r))) h.sources sources' :=
    hrel₀.imp fun _ _ hs => hs.imp fun _ _ hv => hv.append
  have hfree := hinv.free_eq
  refine ⟨{ h with mem := c.mem, sources := sources', live := c.free - target, free := c.free },
    l₀ ++ r, ?_, rfl, rfl, rfl, rfl, ?_⟩
  · rw [size_nil, Nat.add_zero] at h₁
    simp [Heap.collectInto, h₀, h₁]
  · intro h' hsources hlive hfree' hagree
    dsimp only at hsources hlive hfree' hagree
    have hfin : Finished owns h.mem h.fromSpace objs h.free target h.sources sources' (l₀ ++ r) c
        h'.mem := ⟨hs, hinv, hrel, hagree⟩
    have hsize := hinv.size_le hs
    refine ⟨⟨hsources ▸ hfin.iso, fun p => ⟨hinv.reach p, hfin.copied_of_reach⟩, hinv.nodup, ?_, ?_,
      ?_, ?_⟩, hfree' ▸ hfin.wf, ?_, (hfin.enough).mono hfuel.chains.pos, ?_⟩
    · omega
    · omega
    · omega
    · intro a ha
      exact (hagree a (.inl ha)).trans (hinv.owned hs ha)
    · intro w hw
      rw [hsources] at hw
      obtain ⟨v, -, hsame⟩ := forall₂_right (rootValues_rel hrel) hw
      exact hfin.valid hsame
    · rw [List.length_map]
      exact (hinv.nodup.subperm fun p hp => hinv.mem_objs p hp).length_le.trans hfuel.objects

/-- `pl_gc_collect`: the other space has room. -/
theorem collect_spec (hok : h.OK owns objs) (hfuel : FuelOK owns h objs fuel) :
    ∃ h' l φ objs', h.collect owns fuel = some h' ∧ Collected owns h h.toSpace h' l φ ∧
      h'.OK owns objs' ∧ FuelOK owns h' objs' fuel ∧ h'.cells = h.cells ∧
      h'.fromSpace = h.toSpace := by
  have hused : h.free ≤ h.fromSpace + h.cells := hok.limit ▸ hok.free
  have hbound := hok.toOK.bound
  have hapart := hok.apart
  have hs : Setup owns h.mem h.fromSpace objs h.free h.toSpace := by
    refine ⟨hok.wf, ?_, by omega, fun a hlo hhi => hok.toOK.notOwned a hlo (by omega)⟩
    unfold SpacesApart at hapart
    omega
  obtain ⟨h₁, l, heq, -, -, hcells, -, hafter⟩ := collectInto_spec hs hok.roots hfuel
  have hroom : h₁.free ≤ h.toSpace + h.cells := by
    have hcol := (hafter h₁ rfl rfl rfl fun _ _ => rfl).1
    have := hcol.free
    have := hcol.fits
    omega
  obtain ⟨h', hh'⟩ : ∃ h', h' = { h₁ with
      fromSpace := h.toSpace
      toSpace := h.fromSpace
      limit := h.toSpace + h.cells
      mem := Heap.discard h₁.mem h.fromSpace h.cells } := ⟨_, rfl⟩
  -- the old space is discarded, and holds nothing that matters
  obtain ⟨hcol, hagain⟩ := hafter h' (by rw [hh']) (by rw [hh']) (by rw [hh']) fun a ha => by
    rw [hh']
    refine if_neg fun hin => ?_
    rcases ha with ha | ha
    · rw [hok.fromOK.notOwned a hin.1 hin.2] at ha
      cases ha
    · unfold SpacesApart at hapart
      omega
  have hcells' : h'.cells = h.cells := by rw [hh', ← hcells]
  have hfrom : h'.fromSpace = h.toSpace := by rw [hh']
  have hto : h'.toSpace = h.fromSpace := by rw [hh']
  have hlimit : h'.limit = h.toSpace + h.cells := by rw [hh']
  refine ⟨h', l, _, _, by simp [Heap.collect, heq, hh'], hcol,
    ⟨by rw [hfrom]; exact hagain.wf, hagain.roots, by rw [hlimit, hfrom, hcells'],
      by rw [hlimit, hh']; exact hroom, hcells' ▸ hok.cells, by rw [hfrom, hcells']; exact hok.toOK,
      by rw [hto, hcells']; exact hok.fromOK, by rw [hfrom, hto, hcells']; exact hapart.symm⟩,
    hagain.fuel, hcells', hfrom⟩

end Collect

/-! ## Growing and trimming -/

theorem sizeFor_spec (goal : Nat) {want : Nat} (hpos : 0 < want) :
    goal ≤ Heap.sizeFor goal want ∧ want ≤ Heap.sizeFor goal want := by
  fun_induction Heap.sizeFor goal want with
  | case1 want hlt ih =>
    have := ih (by omega)
    omega
  | case2 want hge =>
    omega

section Iso

variable {owns : Nat → Bool}

theorem Same.trans {m₀ m₁ : Mem} {φ ψ : Nat → Nat} {u v w : Nat}
    (hobj : ∀ p, Resolves owns m₀ u (.obj p) →
      m₁ (φ p) = m₀ p ∧ φ p < 2 ^ 53 ∧ owns (φ p) = false)
    (h : Same owns m₀ φ u v) (h' : Same owns m₁ ψ v w) : Same owns m₀ (ψ ∘ φ) u w := by
  obtain ⟨t, ht, rfl⟩ := h
  obtain ⟨t', ht', rfl⟩ := h'
  refine ⟨t, ht, ?_⟩
  cases t with
  | imm x =>
    obtain ⟨n, hn⟩ := ht
    cases ht'.unique (resolves_imm (resolve_imm hn))
    rfl
  | obj p =>
    obtain ⟨hhdr, hbound, howns⟩ := hobj p ht
    obtain ⟨n, hn⟩ := ht
    have hptr : ptr (Target.value m₀ φ (.obj p)) = φ p := ptr_make hbound
    have hres : Resolves owns m₁ (Target.value m₀ φ (.obj p)) (.obj (ptr _)) := resolves_obj (by
      rw [hptr, howns, Target.value, isNat63_make]
      simp) (by
      rw [hptr, hhdr]
      exact resolve_obj hn)
    rw [hptr] at hres
    cases ht'.unique hres
    simp only [Target.value, Function.comp, hhdr]

theorem forall₂_trans {α : Type} {S T U : α → α → Prop} {xs ys zs : List α}
    (hST : ∀ x ∈ xs, ∀ y z, S x y → T y z → U x z) (h : List.Forall₂ S xs ys)
    (h' : List.Forall₂ T ys zs) : List.Forall₂ U xs zs := by
  induction h generalizing zs with
  | nil =>
    cases h'
    exact .nil
  | cons hxy _ ih =>
    cases h' with
    | cons hyz h' =>
      exact .cons (hST _ (List.mem_cons_self ..) _ _ hxy hyz)
        (ih (fun x hx => hST x (List.mem_cons_of_mem _ hx)) h')

theorem Source.Rel.trans {S T U : Nat → Nat → Prop} {s s' s'' : Source}
    (hST : ∀ u ∈ s.values, ∀ v w, S u v → T v w → U u w) (h : s.Rel S s') (h' : s'.Rel T s'') :
    s.Rel U s'' := by
  cases h with
  | slots h =>
    cases h' with
    | slots h' => exact .slots (forall₂_trans hST h h')
  | @thread t t' h =>
    cases h' with
    | @thread _ t'' h' =>
      simp only [Source.values, Thread.values, List.mem_append, List.mem_flatMap, List.mem_cons,
        List.not_mem_nil, or_false] at hST
      refine .thread ⟨forall₂_trans (fun u hu => hST u (by simp [hu])) h.vstack h'.vstack,
        forall₂_trans (fun u hu => hST u (by simp [hu])) h.ustack h'.ustack, ?_,
        hST _ (by simp) _ _ h.exn h'.exn, hST _ (by simp) _ _ h.resumeVal h'.resumeVal,
        hST _ (by simp) _ _ h.blockedOn h'.blockedOn, hST _ (by simp) _ _ h.result h'.result,
        forall₂_trans (fun u hu => hST u (by simp [hu])) h.zones h'.zones⟩
      refine forall₂_trans (fun f hf f' f'' hS hT => ⟨?_, ?_⟩) h.frames h'.frames
      · exact hST _ (.inl (.inl (.inr ⟨f, hf, .inl rfl⟩))) _ _ hS.1 hT.1
      · exact hST _ (.inl (.inl (.inr ⟨f, hf, .inr rfl⟩))) _ _ hS.2 hT.2

/-- One collection after another. -/
theorem Iso.trans {m₀ m₁ m₂ : Mem} {s₀ s₁ s₂ : List Source} {φ ψ : Nat → Nat}
    (hpin : ∀ p, Reach owns m₀ (rootValues s₀) p → hdrKind (m₀ p) = some .pin →
      cellsAt m₀ p = proxyCells)
    (h : Iso owns m₀ s₀ m₁ s₁ φ) (h' : Iso owns m₁ s₁ m₂ s₂ ψ) :
    Iso owns m₀ s₀ m₂ s₂ (ψ ∘ φ) := by
  have hstep : ∀ p, Reach owns m₀ (rootValues s₀) p → Reach owns m₁ (rootValues s₁) (φ p) :=
    fun p hp => (h.reach (φ p)).mpr ⟨p, hp, rfl⟩
  have hobj : ∀ u, (∀ p, Resolves owns m₀ u (.obj p) → Reach owns m₀ (rootValues s₀) p) →
      ∀ v w, Same owns m₀ φ u v → Same owns m₁ ψ v w → Same owns m₀ (ψ ∘ φ) u w := by
    intro u hu v w hv hw
    refine hv.trans (fun p hp => ?_) hw
    exact ⟨h.header p (hu p hp), h.place p (hu p hp)⟩
  constructor
  · intro p q hp hq heq
    exact h.injective p q hp hq (h'.injective _ _ (hstep p hp) (hstep q hq) heq)
  · intro q
    rw [h'.reach q]
    constructor
    · rintro ⟨p₁, hp₁, rfl⟩
      obtain ⟨p, hp, rfl⟩ := (h.reach p₁).mp hp₁
      exact ⟨p, hp, rfl⟩
    · rintro ⟨p, hp, rfl⟩
      exact ⟨φ p, hstep p hp, rfl⟩
  · exact fun p hp => h'.place (φ p) (hstep p hp)
  · refine forall₂_trans (fun s hs s' s'' hr hr' => hr.trans (fun u hu => hobj u ?_) hr') h.roots
      h'.roots
    exact fun p hp => .root (List.mem_flatMap.mpr ⟨s, hs, hu⟩) hp
  · intro p hp
    exact (h'.header (φ p) (hstep p hp)).trans (h.header p hp)
  · intro p hp i hi
    have hhdr := h.header p hp
    have hcells : cellsAt m₁ (φ p) = cellsAt m₀ p := congrArg hdrCells hhdr
    have hfield : field m₁ (φ p) i = field m₀ p i := by
      refine field_congr hhdr (fun hk => ?_) i
      have hsix := h.cells p hp 6 (by rw [hpin p hp hk]; decide)
      rwa [SameCell, show field m₀ p 6 = .raw by simp [field, hk]] at hsix
    have hfirst := h.cells p hp i hi
    have hsecond := h'.cells (φ p) (hstep p hp) i (by rwa [hcells])
    unfold SameCell at hfirst hsecond ⊢
    rw [hfield] at hsecond
    split
    · rename_i hf
      rw [hf] at hfirst hsecond
      exact hsecond.trans hfirst
    · rename_i hf
      rw [hf] at hfirst hsecond
      exact hobj _ (fun q hq => .field hp hi hf hq) _ _ hfirst hsecond
    · rename_i hf
      rw [hf] at hsecond
      exact hsecond

end Iso

section Grow

variable {owns : Nat → Bool} {h : Heap} {objs : List Nat} {fuel : Nat}

/-- The spaces that `pl_space_alloc` answers for a new size. -/
structure NewSpaces (owns : Nat → Bool) (h : Heap) (want nfrom nto : Nat) : Prop where
  fromOK : Space owns nfrom want
  toOK : Space owns nto want
  apart : SpacesApart nfrom want nto want
  fresh : SpacesApart h.fromSpace h.cells nfrom want

/-- A collection into a new space that has room for what is in use. -/
theorem resize_spec (hok : h.OK owns objs) (hfuel : FuelOK owns h objs fuel)
    {want nfrom nto : Nat} (hnew : NewSpaces owns h want nfrom nto)
    (hwant : h.free - h.fromSpace ≤ want) (hpos : 0 < want) :
    ∃ h' l φ objs', (h.collectInto owns fuel nfrom).map (fun h' => { h' with
        fromSpace := nfrom, toSpace := nto, cells := want, limit := nfrom + want }) = some h' ∧
      Collected owns h nfrom h' l φ ∧ h'.OK owns objs' ∧ h'.limit = nfrom + want := by
  have hused : h.free ≤ h.fromSpace + h.cells := hok.limit ▸ hok.free
  have hbound := hnew.fromOK.bound
  have hfresh := hnew.fresh
  have hs : Setup owns h.mem h.fromSpace objs h.free nfrom := by
    refine ⟨hok.wf, ?_, by omega, fun a hlo hhi => hnew.fromOK.notOwned a hlo (by omega)⟩
    unfold SpacesApart at hfresh
    omega
  obtain ⟨h₁, l, heq, -, -, -, -, hafter⟩ := collectInto_spec hs hok.roots hfuel
  obtain ⟨hcol, hagain⟩ := hafter { h₁ with
      fromSpace := nfrom, toSpace := nto, cells := want, limit := nfrom + want } rfl rfl rfl
    fun _ _ => rfl
  have hroom : h₁.free ≤ nfrom + want := by
    have hfree : h₁.free = nfrom + h₁.live := hcol.free
    have hfits : h₁.live ≤ h.free - h.fromSpace := hcol.fits
    omega
  exact ⟨_, l, _, _, by rw [heq, Option.map_some], hcol,
    ⟨hagain.wf, hagain.roots, rfl, hroom, hpos, hnew.fromOK, hnew.toOK, hnew.apart⟩, rfl⟩

/-- The size that growing asks for. -/
def growSize (h : Heap) (need : Nat) : Nat :=
  Heap.sizeFor (h.live + need + h.live / 2 + 4096) h.cells

/-- The size that trimming asks for. -/
def trimSize (h : Heap) : Nat := Heap.sizeFor (h.live + 4096) 4096

theorem grow_spec (hok : h.OK owns objs) (hfuel : FuelOK owns h objs fuel)
    (hlive : h.free = h.fromSpace + h.live) {need nfrom nto : Nat}
    (hnew : NewSpaces owns h (growSize h need) nfrom nto) :
    ∃ h' l φ objs', h.grow owns fuel need nfrom nto = some h' ∧ Collected owns h nfrom h' l φ ∧
      h'.OK owns objs' ∧ h'.free + need ≤ h'.limit := by
  obtain ⟨hgoal, hcells⟩ := sizeFor_spec (h.live + need + h.live / 2 + 4096) hok.cells
  have hgrow : growSize h need = Heap.sizeFor (h.live + need + h.live / 2 + 4096) h.cells := rfl
  have hpos := hok.cells
  obtain ⟨h', l, φ, objs', heq, hcol, hok', hlimit⟩ := resize_spec hok hfuel hnew (by omega)
    (by omega)
  refine ⟨h', l, φ, objs', ?_, hcol, hok', ?_⟩
  · rw [← heq, Heap.grow]
    cases h.collectInto owns fuel nfrom <;> rfl
  · have := hcol.free
    have := hcol.fits
    omega

/-- What holds of the heap after a collection or more. -/
structure Preserved (owns : Nat → Bool) (h h' : Heap) : Prop where
  iso : ∃ φ, Iso owns h.mem h.sources h'.mem h'.sources φ
  store : ∀ a, owns a = true → h'.mem a = h.mem a
  ok : ∃ objs', h'.OK owns objs'

theorem WF.resolve_mem {mem : Mem} {start free n v p : Nat} (hwf : WF owns mem start objs free)
    (hv : Valid owns mem objs v) (hn : resolve owns mem n v = some (.obj p)) : p ∈ objs := by
  induction n generalizing v with
  | zero => cases hn
  | succ n ih =>
    unfold resolve at hn
    split at hn
    · cases hn
    · rename_i himm
      have hmem := hv.ptr_mem hwf himm
      split at hn
      · rename_i hind
        have hok := hwf.ok _ hmem
        exact ih (hok.values 1 hok.cells (by simp [field, hind])) hn
      · cases hn
        exact hmem

/-- What can be reached is among the objects. -/
theorem Heap.OK.reach_mem (hok : h.OK owns objs) {p : Nat}
    (hp : Reach owns h.mem (rootValues h.sources) p) : p ∈ objs := by
  induction hp with
  | root hv hres =>
    obtain ⟨n, hn⟩ := hres
    exact hok.wf.resolve_mem (hok.roots _ hv) hn
  | field _ hi htraced hres ih =>
    obtain ⟨n, hn⟩ := hres
    exact hok.wf.resolve_mem ((hok.wf.ok _ ih).values _ hi htraced) hn

theorem Heap.OK.pin_cells (hok : h.OK owns objs) (p : Nat)
    (hp : Reach owns h.mem (rootValues h.sources) p) (hk : hdrKind (h.mem p) = some .pin) :
    cellsAt h.mem p = proxyCells :=
  ((hok.wf.ok p (hok.reach_mem hp)).pin hk).2.2.1

/-- Two collections preserve what each of them does. -/
theorem Collected.then {h₁ h₂ : Heap} {t₁ t₂ : Nat} {l₁ l₂ : List Nat} {φ ψ : Nat → Nat}
    {objs₂ : List Nat} (hok : h.OK owns objs) (hc₁ : Collected owns h t₁ h₁ l₁ φ)
    (hc₂ : Collected owns h₁ t₂ h₂ l₂ ψ) (hok₂ : h₂.OK owns objs₂) : Preserved owns h h₂ where
  iso := ⟨_, hc₁.iso.trans hok.pin_cells hc₂.iso⟩
  store a ha := (hc₂.store a ha).trans (hc₁.store a ha)
  ok := ⟨objs₂, hok₂⟩

/-- `pl_gc_reserve`: what was asked for is free afterwards. -/
theorem reserve_spec (hok : h.OK owns objs) (hfuel : FuelOK owns h objs fuel)
    {cells nfrom nto : Nat} (hnew : ∀ h₁, h.collect owns fuel = some h₁ →
      NewSpaces owns h₁ (growSize h₁ cells) nfrom nto) :
    ∃ h', h.reserve owns fuel cells nfrom nto = some h' ∧ (h' = h ∨ Preserved owns h h') ∧
      h'.free + cells ≤ h'.limit := by
  unfold Heap.reserve
  split
  · rename_i hroom
    exact ⟨h, rfl, .inl rfl, hroom⟩
  · obtain ⟨h₁, l₁, φ, objs₁, heq₁, hc₁, hok₁, hfuel₁, -, hfrom⟩ := collect_spec hok hfuel
    by_cases hroom : h₁.free + cells > h₁.limit
    · obtain ⟨h₂, l₂, ψ, objs₂, heq₂, hc₂, hok₂, hfree⟩ := grow_spec hok₁ hfuel₁
        (by rw [hfrom]; exact hc₁.free) (hnew h₁ heq₁)
      refine ⟨h₂, ?_, .inr (hc₁.then hok hc₂ hok₂), hfree⟩
      simp [heq₁, hroom, heq₂, hfree]
    · refine ⟨h₁, ?_, .inr ⟨⟨φ, hc₁.iso⟩, hc₁.store, objs₁, hok₁⟩, by omega⟩
      have hfree : h₁.free + cells ≤ h₁.limit := by omega
      simp [heq₁, hfree]

/-- `pl_gc_trim`: the smaller spaces have room. -/
theorem trim_spec (hok : h.OK owns objs) (hfuel : FuelOK owns h objs fuel) {next nto : Nat}
    (hnew : ∀ h₁, h.collect owns fuel = some h₁ → NewSpaces owns h₁ (trimSize h₁) next nto) :
    ∃ h', h.trim owns fuel next nto = some h' ∧ Preserved owns h h' := by
  obtain ⟨h₁, l₁, φ, objs₁, heq₁, hc₁, hok₁, hfuel₁, -, hfrom⟩ := collect_spec hok hfuel
  unfold Heap.trim
  rw [heq₁, Option.bind_eq_bind, Option.bind_some]
  by_cases hsize : trimSize h₁ ≥ h₁.cells
  · exact ⟨h₁, if_pos hsize, ⟨φ, hc₁.iso⟩, hc₁.store, objs₁, hok₁⟩
  · obtain ⟨hgoal, -⟩ := sizeFor_spec (h₁.live + 4096) (show 0 < 4096 by omega)
    have htrim : trimSize h₁ = Heap.sizeFor (h₁.live + 4096) 4096 := rfl
    have hlive := hc₁.free
    obtain ⟨h₂, l₂, ψ, objs₂, heq₂, hc₂, hok₂, -⟩ := resize_spec hok₁ hfuel₁ (hnew h₁ heq₁)
      (by omega) (by omega)
    refine ⟨h₂, ?_, hc₁.then hok hc₂ hok₂⟩
    dsimp only
    rw [← htrim, if_neg hsize, ← heq₂]
    cases h₁.collectInto owns fuel next <;> rfl

end Grow

/-- Collecting a well-formed heap ends and preserves its graph: into any space with as much
room as is in use, into the other space, when room is reserved and when it is trimmed. -/
theorem collection_preserves {owns : Nat → Bool} {h : Heap} {objs : List Nat}
    (hok : h.OK owns objs) : ∃ n, ∀ fuel ≥ n,
    (∀ target, Setup owns h.mem h.fromSpace objs h.free target → ∃ h' l φ,
      h.collectInto owns fuel target = some h' ∧ Collected owns h target h' l φ) ∧
    (∃ h' l φ, h.collect owns fuel = some h' ∧ Collected owns h h.toSpace h' l φ ∧
      Preserved owns h h') ∧
    (∀ cells nfrom nto, (∀ h₁, h.collect owns fuel = some h₁ →
        NewSpaces owns h₁ (growSize h₁ cells) nfrom nto) →
      ∃ h', h.reserve owns fuel cells nfrom nto = some h' ∧ (h' = h ∨ Preserved owns h h') ∧
        h'.free + cells ≤ h'.limit) ∧
    (∀ next nto, (∀ h₁, h.collect owns fuel = some h₁ →
        NewSpaces owns h₁ (trimSize h₁) next nto) →
      ∃ h', h.trim owns fuel next nto = some h' ∧ Preserved owns h h') := by
  obtain ⟨n, hn⟩ := hok.wf.enough
  refine ⟨max n objs.length, fun fuel hle => ?_⟩
  have hfuel : FuelOK owns h objs fuel := ⟨hn.mono (by omega), by omega⟩
  refine ⟨fun target hs => ?_, ?_, fun _ _ _ => reserve_spec hok hfuel, fun _ _ => trim_spec hok hfuel⟩
  · obtain ⟨h', l, heq, -, -, -, -, hafter⟩ := collectInto_spec hs hok.roots hfuel
    exact ⟨h', l, _, heq, (hafter h' rfl rfl rfl fun _ _ => rfl).1⟩
  · obtain ⟨h', l, φ, objs', heq, hc, hok', -⟩ := collect_spec hok hfuel
    exact ⟨h', l, φ, heq, hc, ⟨φ, hc.iso⟩, hc.store, objs', hok'⟩

/-- An application to itself, reached through an indirection. -/
def loopMem : Mem
  | 16 => hdrMake .app 0 0 3
  | 17 => make 0x86 19
  | 18 => 5
  | 19 => hdrMake .ind 0 0 3
  | 20 => make 0x82 16
  | _ => 0

def loopHeap : Heap where
  mem := loopMem
  fromSpace := 16
  toSpace := 64
  cells := 16
  free := 22
  limit := 32
  live := 0
  sources := [.slots [make 0x86 19, 7]]

theorem loopHeap_ok : loopHeap.OK (fun _ => false) [16, 19] := by
  have happ : Valid (fun _ => false) loopMem [16, 19] (make 0x82 16) :=
    .inr (.inr ⟨16, by decide, rfl⟩)
  have hind : Valid (fun _ => false) loopMem [16, 19] (make 0x86 19) :=
    .inr (.inr ⟨19, by decide, rfl⟩)
  refine ⟨⟨.cons (.cons .nil), ?_, ?_, by decide, fun _ _ _ => rfl⟩, ?_, rfl, by decide, by decide,
    ⟨by decide, fun _ _ _ => rfl⟩, ⟨by decide, fun _ _ _ => rfl⟩, .inl (by decide)⟩
  · intro p hp
    simp only [List.mem_cons, List.not_mem_nil, or_false] at hp
    rcases hp with rfl | rfl
    · refine ⟨⟨.app, rfl, nofun⟩, by decide, nofun, nofun, nofun, fun i hi htraced => ?_⟩
      match i, hi with
      | 0, _ => cases htraced
      | 1, _ => exact hind
      | 2, _ => exact .inl rfl
    · refine ⟨⟨.ind, rfl, nofun⟩, by decide, nofun, nofun, nofun, fun i hi htraced => ?_⟩
      match i, hi with
      | 0, _ => cases htraced
      | 1, _ => exact happ
      | 2, _ => cases htraced
  · rintro v (hv | hv | ⟨p, hp, rfl⟩)
    · exact ⟨_, resolves_imm (.inl hv)⟩
    · exact ⟨_, resolves_imm (.inr hv)⟩
    · simp only [List.mem_cons, List.not_mem_nil, or_false] at hp
      rcases hp with rfl | rfl
      · exact ⟨_, resolves_obj (by decide) (by decide)⟩
      · obtain ⟨n, hn⟩ : Resolves (fun _ => false) loopMem (make 0x82 16)
            (.obj (ptr (make 0x82 16))) := resolves_obj (by decide) (by decide)
        refine ⟨.obj (ptr (make 0x82 16)), n + 1, ?_⟩
        change resolve _ loopMem (n + 1) (make 0x86 19) = _
        have hnext : loopMem (ptr (make 0x86 19) + 1) = make 0x82 16 := by decide
        rw [resolve, if_neg (by decide), if_pos (by decide), hnext]
        exact hn
  · intro v hv
    simp only [rootValues, loopHeap, List.flatMap_cons, Source.values, List.flatMap_nil,
      List.append_nil, List.mem_cons, List.not_mem_nil, or_false] at hv
    rcases hv with rfl | rfl
    · exact hind
    · exact .inl rfl

/-- The application is copied once, to the other space, and refers to itself. -/
theorem loopHeap_collects : loopHeap.OK (fun _ => false) [16, 19] ∧
    ∃ n h' l φ, loopHeap.collect (fun _ => false) n = some h' ∧
      Collected (fun _ => false) loopHeap 64 h' l φ := by
  obtain ⟨n, hn⟩ := collection_preserves loopHeap_ok
  obtain ⟨-, ⟨h', l, φ, heq, hc, -⟩, -⟩ := hn n (Nat.le_refl n)
  exact ⟨loopHeap_ok, n, h', l, φ, heq, hc⟩

end Enki.Cheney
