import Enki.Cheney.Scan

/-!
# A collection

The roots are forwarded slot by slot, then the copies are scanned. What has been copied
in the end is exactly what could be reached, and where each object went is an isomorphism.
The new space is a well-formed heap again, without indirections.
-/

namespace Enki.Cheney

section Roots

variable {owns : Nat → Bool} {mem : Mem} {start free target : Nat} {objs : List Nat}
  {R : Nat → Prop} {l : List Nat} {scan : Nat} {c : Ctx}

/-- More copies leave the earlier ones where they are. -/
theorem SameIn.mono {l l' : List Nat} (hpre : l <+: l') {v w : Nat}
    (h : SameIn owns mem target l v w) : SameIn owns mem target l' v w := by
  obtain ⟨r, rfl⟩ := hpre
  exact h.append

theorem SameIn.same {v w : Nat} (hv : SameIn owns mem target l v w) :
    Same owns mem (place mem target l) v w := by
  obtain ⟨t, ht, hw, -⟩ := hv
  exact ⟨t, ht, hw⟩

/-- A root: a value that only leads to objects of the set. -/
def RootOK (owns : Nat → Bool) (mem : Mem) (objs : List Nat) (R : Nat → Prop) (v : Nat) : Prop :=
  Valid owns mem objs v ∧ ∀ p, Resolves owns mem v (.obj p) → R p

variable {fuel : Nat}

/-- Forwarding a root: it leads to the place of its object, and the invariant of the scan holds
again. -/
theorem visit_spec (hs : Setup owns mem start objs free target) (hfuel : Enough owns mem objs fuel)
    (h : Inv owns mem start objs free target R l scan c) {v : Nat} (hv : RootOK owns mem objs R v) :
    ∃ c' l' w, forward owns fuel c v = some (c', w) ∧ l <+: l' ∧
      Inv owns mem start objs free target R l' scan c' ∧ SameIn owns mem target l' v w := by
  obtain ⟨t, ht⟩ := hfuel v hv.1
  obtain ⟨c', r, hfwd, hinv, hin⟩ := forward_spec hs (Nat.le_refl fuel) h hv.1 ht
    fun p heq => hv.2 p (heq ▸ ⟨fuel, ht⟩)
  exact ⟨c', l ++ r, _, hfwd, List.prefix_append l r, hinv, t, ⟨fuel, ht⟩, rfl, hin⟩

/-- Skipping a small natural is forwarding it. -/
theorem visitUnlessNat_forward (hfuel : Enough owns mem objs fuel) (c : Ctx) (v : Nat) :
    visitUnlessNat (forward owns fuel) c v = forward owns fuel c v := by
  obtain ⟨fuel, rfl⟩ : ∃ k, fuel = k + 1 := ⟨fuel - 1, by have := hfuel.pos; omega⟩
  unfold visitUnlessNat
  split
  · rename_i hnat
    rw [forward, if_pos hnat]
  · rfl

/-- A run of slots. The copies of the later slots come behind those of the first. -/
theorem visitAll_spec (hs : Setup owns mem start objs free target)
    (hfuel : Enough owns mem objs fuel) (vs : List Nat)
    (hvs : ∀ v ∈ vs, RootOK owns mem objs R v)
    (h : Inv owns mem start objs free target R l scan c) :
    ∃ c' l' ws, visitAll (forward owns fuel) c vs = some (c', ws) ∧ l <+: l' ∧
      Inv owns mem start objs free target R l' scan c' ∧
      List.Forall₂ (SameIn owns mem target l') vs ws := by
  induction vs generalizing l c with
  | nil => exact ⟨c, l, [], rfl, List.prefix_refl l, h, .nil⟩
  | cons v vs ih =>
    obtain ⟨c₁, l₁, w, h₁, hpre₁, hinv₁, hw⟩ := visit_spec hs hfuel h (hvs v (List.mem_cons_self ..))
    obtain ⟨c₂, l₂, ws, h₂, hpre₂, hinv₂, hws⟩ :=
      ih (fun v hm => hvs v (List.mem_cons_of_mem _ hm)) hinv₁
    -- the first slot was forwarded into a shorter list of copies
    refine ⟨c₂, l₂, w :: ws, ?_, hpre₁.trans hpre₂, hinv₂, .cons (hw.mono hpre₂) hws⟩
    rw [visitAll, h₁]
    simp [h₂]

/-- The two values of each frame. -/
theorem visitFrames_spec (hs : Setup owns mem start objs free target)
    (hfuel : Enough owns mem objs fuel) (fs : List Frame)
    (hfs : ∀ f ∈ fs, RootOK owns mem objs R f.a ∧ RootOK owns mem objs R f.b)
    (h : Inv owns mem start objs free target R l scan c) :
    ∃ c' l' fs', visitFrames (forward owns fuel) c fs = some (c', fs') ∧ l <+: l' ∧
      Inv owns mem start objs free target R l' scan c' ∧
      List.Forall₂ (fun f f' => SameIn owns mem target l' f.a f'.a ∧
        SameIn owns mem target l' f.b f'.b) fs fs' := by
  induction fs generalizing l c with
  | nil => exact ⟨c, l, [], rfl, List.prefix_refl l, h, .nil⟩
  | cons f fs ih =>
    obtain ⟨hfa, hfb⟩ := hfs f (List.mem_cons_self ..)
    obtain ⟨c₁, l₁, a, h₁, hpre₁, hinv₁, ha⟩ := visit_spec hs hfuel h hfa
    obtain ⟨c₂, l₂, b, h₂, hpre₂, hinv₂, hb⟩ := visit_spec hs hfuel hinv₁ hfb
    obtain ⟨c₃, l₃, fs', h₃, hpre₃, hinv₃, hfs'⟩ :=
      ih (fun f hm => hfs f (List.mem_cons_of_mem _ hm)) hinv₂
    refine ⟨c₃, l₃, ⟨a, b⟩ :: fs', ?_, (hpre₁.trans hpre₂).trans hpre₃, hinv₃, .cons ?_ hfs'⟩
    · rw [visitFrames, visitUnlessNat_forward hfuel, h₁]
      simp [visitUnlessNat_forward hfuel, h₂, h₃]
    · exact ⟨ha.mono (hpre₂.trans hpre₃), hb.mono hpre₃⟩

theorem forall₂_mono {l l' : List Nat} (hpre : l <+: l') {vs ws : List Nat}
    (h : List.Forall₂ (SameIn owns mem target l) vs ws) :
    List.Forall₂ (SameIn owns mem target l') vs ws :=
  h.imp fun _ _ hv => hv.mono hpre

/-- The roots of a thread in the order of the source: the stacks, the frames, the four single
slots and the zones. -/
theorem threadRoots_spec (hs : Setup owns mem start objs free target)
    (hfuel : Enough owns mem objs fuel) {t : Thread}
    (ht : ∀ v ∈ t.values, RootOK owns mem objs R v)
    (h : Inv owns mem start objs free target R l scan c) :
    ∃ c' l' t', threadRoots (forward owns fuel) c t = some (c', t') ∧ l <+: l' ∧
      Inv owns mem start objs free target R l' scan c' ∧ t.Rel (SameIn owns mem target l') t' := by
  have hskip : visitUnlessNat (forward owns fuel) = forward owns fuel := by
    funext c v
    exact visitUnlessNat_forward hfuel c v
  simp only [Thread.values, List.mem_append, List.mem_flatMap, List.mem_cons, List.not_mem_nil,
    or_false] at ht
  obtain ⟨c₁, l₁, vstack, h₁, hp₁, hi₁, hr₁⟩ := visitAll_spec hs hfuel t.vstack
    (fun v hm => ht v (by simp [hm])) h
  obtain ⟨c₂, l₂, ustack, h₂, hp₂, hi₂, hr₂⟩ := visitAll_spec hs hfuel t.ustack
    (fun v hm => ht v (by simp [hm])) hi₁
  obtain ⟨c₃, l₃, frames, h₃, hp₃, hi₃, hr₃⟩ := visitFrames_spec hs hfuel t.frames
    (fun f hm => ⟨ht f.a (.inl (.inl (.inr ⟨f, hm, .inl rfl⟩))),
      ht f.b (.inl (.inl (.inr ⟨f, hm, .inr rfl⟩)))⟩) hi₂
  obtain ⟨c₄, l₄, exn, h₄, hp₄, hi₄, hr₄⟩ := visit_spec hs hfuel hi₃ (ht t.exn (by simp))
  obtain ⟨c₅, l₅, resumeVal, h₅, hp₅, hi₅, hr₅⟩ :=
    visit_spec hs hfuel hi₄ (ht t.resumeVal (by simp))
  obtain ⟨c₆, l₆, blockedOn, h₆, hp₆, hi₆, hr₆⟩ :=
    visit_spec hs hfuel hi₅ (ht t.blockedOn (by simp))
  obtain ⟨c₇, l₇, result, h₇, hp₇, hi₇, hr₇⟩ := visit_spec hs hfuel hi₆ (ht t.result (by simp))
  obtain ⟨c₈, l₈, zones, h₈, hp₈, hi₈, hr₈⟩ := visitAll_spec hs hfuel t.zones
    (fun v hm => ht v (by simp [hm])) hi₇
  -- what was forwarded at each stage is still in place at the end
  have hp₆₈ := hp₇.trans hp₈
  have hp₅₈ := hp₆.trans hp₆₈
  have hp₄₈ := hp₅.trans hp₅₈
  have hp₃₈ := hp₄.trans hp₄₈
  have hp₂₈ := hp₃.trans hp₃₈
  have hp₁₈ := hp₂.trans hp₂₈
  refine ⟨c₈, l₈, ⟨vstack, ustack, frames, exn, resumeVal, blockedOn, result, zones⟩, ?_,
    hp₁.trans hp₁₈, hi₈, ?_⟩
  · simp [threadRoots, hskip, h₁, h₂, h₃, h₄, h₅, h₆, h₇, h₈]
  · exact ⟨forall₂_mono hp₁₈ hr₁, forall₂_mono hp₂₈ hr₂,
      hr₃.imp fun _ _ hf => ⟨hf.1.mono hp₃₈, hf.2.mono hp₃₈⟩, hr₄.mono hp₄₈, hr₅.mono hp₅₈,
      hr₆.mono hp₆₈, hr₇.mono hp₈, hr₈⟩

theorem Thread.Rel.imp {S T : Nat → Nat → Prop} (hST : ∀ v w, S v w → T v w) {t t' : Thread}
    (h : t.Rel S t') : t.Rel T t' :=
  ⟨h.vstack.imp hST, h.ustack.imp hST,
    h.frames.imp fun _ _ hf => ⟨hST _ _ hf.1, hST _ _ hf.2⟩, hST _ _ h.exn,
    hST _ _ h.resumeVal, hST _ _ h.blockedOn, hST _ _ h.result, h.zones.imp hST⟩

theorem Source.Rel.imp {S T : Nat → Nat → Prop} (hST : ∀ v w, S v w → T v w) {s s' : Source}
    (h : s.Rel S s') : s.Rel T s' := by
  cases h with
  | thread h => exact .thread (h.imp hST)
  | slots h => exact .slots (h.imp hST)

/-- All the sources of roots, threads and plain slots. -/
theorem visitSources_spec (hs : Setup owns mem start objs free target)
    (hfuel : Enough owns mem objs fuel) (sources : List Source)
    (hroots : ∀ v ∈ rootValues sources, RootOK owns mem objs R v)
    (h : Inv owns mem start objs free target R l scan c) :
    ∃ c' l' sources', visitSources (forward owns fuel) c sources = some (c', sources') ∧ l <+: l' ∧
      Inv owns mem start objs free target R l' scan c' ∧
      List.Forall₂ (Source.Rel (SameIn owns mem target l')) sources sources' := by
  induction sources generalizing l c with
  | nil => exact ⟨c, l, [], rfl, List.prefix_refl l, h, .nil⟩
  | cons s ss ih =>
    have hs₁ : ∀ v ∈ s.values, RootOK owns mem objs R v :=
      fun v hm => hroots v (by simp [rootValues, hm])
    obtain ⟨c₁, l₁, s', h₁, hpre₁, hinv₁, hrel₁⟩ : ∃ c' l' s',
        visitSource (forward owns fuel) c s = some (c', s') ∧ l <+: l' ∧
        Inv owns mem start objs free target R l' scan c' ∧
        s.Rel (SameIn owns mem target l') s' := by
      cases s with
      | thread t =>
        obtain ⟨c', l', t', ht, hpre, hinv, hrel⟩ := threadRoots_spec hs hfuel hs₁ h
        exact ⟨c', l', .thread t', by simp [visitSource, ht], hpre, hinv, .thread hrel⟩
      | slots vs =>
        obtain ⟨c', l', ws, hv, hpre, hinv, hrel⟩ := visitAll_spec hs hfuel vs hs₁ h
        exact ⟨c', l', .slots ws, by simp [visitSource, hv], hpre, hinv, .slots hrel⟩
    obtain ⟨c₂, l₂, ss', h₂, hpre₂, hinv₂, hrel₂⟩ :=
      ih (fun v hm => hroots v (by
        rw [rootValues, List.flatMap_cons]
        exact List.mem_append_right _ hm)) hinv₁
    refine ⟨c₂, l₂, s' :: ss', ?_, hpre₁.trans hpre₂, hinv₂,
      .cons (hrel₁.imp fun _ _ hv => hv.mono hpre₂) hrel₂⟩
    rw [visitSources, h₁]
    simp [h₂]

end Roots

/-! ## The end of a collection -/

theorem forall₂_left {α β : Type} {S : α → β → Prop} {xs : List α} {ys : List β}
    (h : List.Forall₂ S xs ys) {x : α} (hx : x ∈ xs) : ∃ y ∈ ys, S x y := by
  induction h with
  | nil => cases hx
  | cons hxy _ ih =>
    rcases List.mem_cons.mp hx with rfl | hx
    · exact ⟨_, List.mem_cons_self .., hxy⟩
    · obtain ⟨y, hy, hS⟩ := ih hx
      exact ⟨y, List.mem_cons_of_mem _ hy, hS⟩

theorem forall₂_right {α β : Type} {S : α → β → Prop} {xs : List α} {ys : List β}
    (h : List.Forall₂ S xs ys) {y : β} (hy : y ∈ ys) : ∃ x ∈ xs, S x y := by
  obtain ⟨x, hx, hS⟩ := forall₂_left h.flip hy
  exact ⟨x, hx, hS⟩

/-- Related sources have related values, slot by slot. -/
theorem Source.Rel.values {S : Nat → Nat → Prop} {s s' : Source} (h : s.Rel S s') :
    List.Forall₂ S s.values s'.values := by
  cases h with
  | slots h => exact h
  | @thread t t' h =>
    -- a frame stands for its two values
    have hframes : List.Forall₂ S (t.frames.flatMap fun f => [f.a, f.b])
        (t'.frames.flatMap fun f => [f.a, f.b]) := by
      have hf := h.frames
      revert hf
      generalize t.frames = fs
      generalize t'.frames = fs'
      intro hf
      induction hf with
      | nil => exact .nil
      | cons hab _ ih => exact .cons hab.1 (.cons hab.2 ih)
    exact List.rel_append (List.rel_append (List.rel_append (List.rel_append h.vstack h.ustack)
      hframes) (.cons h.exn (.cons h.resumeVal (.cons h.blockedOn (.cons h.result .nil))))) h.zones

theorem rootValues_rel {S : Nat → Nat → Prop} {ss ss' : List Source}
    (h : List.Forall₂ (Source.Rel S) ss ss') : List.Forall₂ S (rootValues ss) (rootValues ss') := by
  induction h with
  | nil => exact .nil
  | cons hs _ ih => exact List.rel_append hs.values ih

/-- The copies lie one behind the other, in the order they were made. -/
theorem tiles_place {mem m1 : Mem} {start : Nat} {l : List Nat} (hnodup : l.Nodup)
    (hcells : ∀ p ∈ l, cellsAt m1 (place mem start l p) = cellsAt mem p) :
    Tiles m1 start (l.map (place mem start l)) (start + size mem l) := by
  induction l generalizing start with
  | nil => exact .nil
  | cons x l ih =>
    obtain ⟨hx, hnodup⟩ := List.nodup_cons.mp hnodup
    have hfirst : place mem start (x :: l) x = start := by simp [place]
    -- the others start behind the first copy
    have hrest : ∀ p ∈ l, place mem start (x :: l) p = place mem (start + cellsAt mem x) l p := by
      intro p hp
      have hne : x ≠ p := fun heq => hx (heq ▸ hp)
      simp [place, hne]
    have h0 := hcells x (List.mem_cons_self ..)
    rw [hfirst] at h0
    rw [List.map_cons, hfirst, List.map_congr_left hrest, size_cons, ← Nat.add_assoc]
    refine .cons ?_
    rw [h0]
    exact ih hnodup fun p hp => by rw [← hrest p hp]; exact hcells p (List.mem_cons_of_mem _ hp)

/-- Where following indirections ends there is none. -/
theorem resolve_obj {owns : Nat → Bool} {mem : Mem} {n v p : Nat}
    (h : resolve owns mem n v = some (.obj p)) : hdrKind (mem p) ≠ some .ind := by
  induction n generalizing v with
  | zero => cases h
  | succ n ih =>
    unfold resolve at h
    split at h
    · cases h
    · split at h
      · exact ih h
      · rename_i hind
        cases h
        exact hind

/-- The field of a copy is that of the object. -/
theorem field_congr {mem m1 : Mem} {p q : Nat} (hhdr : m1 q = mem p)
    (hsix : hdrKind (mem p) = some .pin → m1 (q + 6) = mem (p + 6)) (i : Nat) :
    field m1 q i = field mem p i := by
  unfold field
  rw [hhdr]
  split <;> try rfl
  rename_i hpin
  rw [hsix hpin]

section Finished

variable {owns : Nat → Bool} {mem : Mem} {start free target : Nat} {objs : List Nat}
  {sources sources' : List Source} {l : List Nat} {c : Ctx} {m1 : Mem}

/-- What is known when the scan is done. The old space may hold anything now. -/
structure Finished (owns : Nat → Bool) (mem : Mem) (start : Nat) (objs : List Nat)
    (free target : Nat) (sources sources' : List Source) (l : List Nat) (c : Ctx) (m1 : Mem) :
    Prop where
  setup : Setup owns mem start objs free target
  inv : Inv owns mem start objs free target (Reach owns mem (rootValues sources)) l c.free c
  roots : List.Forall₂ (Source.Rel (SameIn owns mem target l)) sources sources'
  agree : ∀ a, owns a = true ∨ (target ≤ a ∧ a < c.free) → m1 a = c.mem a

variable (h : Finished owns mem start objs free target sources sources' l c m1)
include h

/-- Each cell of a copy is done. -/
theorem Finished.cell {p i : Nat} (hp : p ∈ l) (hi : i < cellsAt mem p) :
    DoneCell owns mem target l p i (m1 (place mem target l p + i)) := by
  have hb := place_bounds mem target hp
  have hfree := h.inv.free_eq
  rw [h.agree _ (.inr (by omega))]
  exact h.inv.done p hp i hi (by omega)

/-- A copy has the header of its object. -/
theorem Finished.header {p : Nat} (hp : p ∈ l) : m1 (place mem target l p) = mem p := by
  have hok := h.setup.wf.ok p (h.inv.mem_objs p hp)
  have hcell := h.cell hp (i := 0) (by have := hok.cells; omega)
  have hraw : field mem p 0 = .raw := by
    unfold field
    split <;> rfl
  rw [DoneCell, hraw] at hcell
  exact hcell

/-- And the same layout. -/
theorem Finished.field {p : Nat} (hp : p ∈ l) (i : Nat) :
    field m1 (place mem target l p) i = field mem p i := by
  refine field_congr (h.header hp) (fun hpin => ?_) i
  -- which slots of a pin are traced depends on one of its own cells
  have hseven := ((h.setup.wf.ok p (h.inv.mem_objs p hp)).pin hpin).2.2.1
  have hcell := h.cell hp (i := 6) (by rw [hseven]; decide)
  rw [DoneCell, show Cheney.field mem p 6 = .raw by simp [Cheney.field, hpin]] at hcell
  exact hcell

/-- A place is an address of the new space. -/
theorem Finished.place_ok {p : Nat} (hp : p ∈ l) :
    place mem target l p < 2 ^ 53 ∧ owns (place mem target l p) = false := by
  have hb := place_bounds mem target hp
  have hsize := h.inv.size_le h.setup
  have hcells := (h.setup.wf.ok p (h.inv.mem_objs p hp)).cells
  have := h.setup.bound
  exact ⟨by omega, h.setup.notOwned _ hb.1 (by omega)⟩

/-- A new value stands for the place of the object that the old one stands for. -/
theorem Finished.resolves {v w : Nat} (hv : SameIn owns mem target l v w) :
    (∃ u, Resolves owns mem v (.imm u) ∧ w = u ∧ (isNat63 u = true ∨ owns (ptr u) = true)) ∨
    ∃ p ∈ l, Resolves owns mem v (.obj p) ∧
      w = make (tagForKind (hdrKind (m1 (place mem target l p)))) (place mem target l p) ∧
      Resolves owns m1 w (.obj (place mem target l p)) := by
  obtain ⟨t, ht, hw, hin⟩ := hv
  cases t with
  | imm u =>
    obtain ⟨n, hn⟩ := ht
    exact .inl ⟨u, ⟨n, hn⟩, hw, resolve_imm hn⟩
  | obj p =>
    have hp := hin p rfl
    obtain ⟨hbound, howns⟩ := h.place_ok hp
    have hhdr := h.header hp
    have hptr : ptr w = place mem target l p := by
      rw [hw, Target.value, ptr_make hbound]
    -- the copy is no indirection, and not owned
    have hres : Resolves owns m1 w (.obj (ptr w)) := resolves_obj (by
      rw [hptr, howns, hw, Target.value, isNat63_make]
      simp) (by
      rw [hptr, hhdr]
      exact h.inv.notInd p hp)
    rw [hptr] at hres
    exact .inr ⟨p, hp, ht, by rw [hhdr]; exact hw, hres⟩

/-- What can be reached has been copied, by induction on the way to it. -/
theorem Finished.copied_of_reach {p : Nat} (hp : Reach owns mem (rootValues sources) p) :
    p ∈ l := by
  have hin : ∀ {v w q}, SameIn owns mem target l v w → Resolves owns mem v (.obj q) → q ∈ l := by
    rintro v w q ⟨t, ht, -, hin⟩ hq
    exact hin q (ht.unique hq)
  induction hp with
  | root hv hres =>
    obtain ⟨w, -, hsame⟩ := forall₂_left (rootValues_rel h.roots) hv
    exact hin hsame hres
  | field _ hi htraced hres ih =>
    have hcell := h.cell ih hi
    rw [DoneCell, htraced] at hcell
    exact hin hcell hres

/-- What can be reached in the new space are the places of what could be reached in the old. -/
theorem Finished.reach_iff (q : Nat) : Reach owns m1 (rootValues sources') q ↔
    ∃ p, Reach owns mem (rootValues sources) p ∧ place mem target l p = q := by
  constructor
  · -- Along a way in the new space each value has an old one beside it.
    intro hq
    suffices ∃ p ∈ l, place mem target l p = q by
      obtain ⟨p, hp, heq⟩ := this
      exact ⟨p, h.inv.reach p hp, heq⟩
    have hin : ∀ {v w q}, SameIn owns mem target l v w → Resolves owns m1 w (.obj q) →
        ∃ p ∈ l, place mem target l p = q := by
      intro v w q hsame hres
      rcases h.resolves hsame with ⟨u, -, rfl, himm⟩ | ⟨p, hp, -, -, hp'⟩
      · cases hres.unique (resolves_imm himm)
      · cases hres.unique hp'
        exact ⟨p, hp, rfl⟩
    induction hq with
    | root hw hres =>
      obtain ⟨v, -, hsame⟩ := forall₂_right (rootValues_rel h.roots) hw
      exact hin hsame hres
    | field _ hi htraced hres ih =>
      obtain ⟨p, hp, rfl⟩ := ih
      have hcells : cellsAt m1 (place mem target l p) = cellsAt mem p :=
        congrArg hdrCells (h.header hp)
      rw [hcells] at hi
      rw [h.field hp] at htraced
      have hcell := h.cell hp hi
      rw [DoneCell, htraced] at hcell
      exact hin hcell hres
  · -- And the other way round, with the cells of the copies.
    rintro ⟨p, hp, rfl⟩
    have hin : ∀ {v w q}, SameIn owns mem target l v w → Resolves owns mem v (.obj q) →
        Resolves owns m1 w (.obj (place mem target l q)) := by
      intro v w q hsame hres
      rcases h.resolves hsame with ⟨u, hu, -⟩ | ⟨q', -, hq', -, hres'⟩
      · cases hu.unique hres
      · cases hq'.unique hres
        exact hres'
    induction hp with
    | root hv hres =>
      obtain ⟨w, hw, hsame⟩ := forall₂_left (rootValues_rel h.roots) hv
      exact .root hw (hin hsame hres)
    | @field p i q hp hi htraced hres ih =>
      have hpl := h.copied_of_reach hp
      have hcells : cellsAt m1 (place mem target l p) = cellsAt mem p :=
        congrArg hdrCells (h.header hpl)
      have hcell := h.cell hpl hi
      rw [DoneCell, htraced] at hcell
      refine .field ih (by rwa [hcells]) (by rwa [h.field hpl]) (hin hcell hres)

/-- The graph after the collection is that before it. -/
theorem Finished.iso : Iso owns mem sources m1 sources' (place mem target l) where
  -- two copies at one place would overlap
  injective p q hp hq heq := by
    by_contra hne
    have hpl := h.copied_of_reach hp
    have hql := h.copied_of_reach hq
    have := place_apart mem target hpl hql hne
    have := (h.setup.wf.ok p (h.inv.mem_objs p hpl)).cells
    have := (h.setup.wf.ok q (h.inv.mem_objs q hql)).cells
    omega
  reach := h.reach_iff
  place p hp := h.place_ok (h.copied_of_reach hp)
  roots := h.roots.imp fun _ _ hr => hr.imp fun _ _ hv => hv.same
  header p hp := h.header (h.copied_of_reach hp)
  cells p hp i hi := by
    have hcell := h.cell (h.copied_of_reach hp) hi
    unfold DoneCell at hcell
    unfold SameCell
    split
    · rename_i hf
      rwa [hf] at hcell
    · rename_i hf
      rw [hf] at hcell
      exact SameIn.same hcell
    · rename_i hf
      rwa [hf] at hcell

/-- A new value is a natural, leads outside the heap, or to a copy. -/
theorem Finished.valid {v w : Nat} (hv : SameIn owns mem target l v w) :
    Valid owns m1 (l.map (place mem target l)) w := by
  rcases h.resolves hv with ⟨u, -, rfl, himm⟩ | ⟨p, hp, -, hw, -⟩
  · rcases himm with hnat | howned
    · exact .inl hnat
    · exact .inr (.inl howned)
  · exact .inr (.inr ⟨_, List.mem_map_of_mem hp, hw⟩)

/-- There are no indirections to follow. -/
theorem Finished.enough : Enough owns m1 (l.map (place mem target l)) 1 := by
  intro v hv
  rcases hv with hv | hv | ⟨q, hq, hv⟩
  · exact ⟨.imm v, by rw [resolve, if_pos (.inl hv)]⟩
  · exact ⟨.imm v, by rw [resolve, if_pos (.inr hv)]⟩
  · obtain ⟨p, hp, rfl⟩ := List.mem_map.mp hq
    obtain ⟨hbound, howns⟩ := h.place_ok hp
    have hptr : ptr v = place mem target l p := by rw [hv, ptr_make hbound]
    have hnat : isNat63 v = false := by rw [hv, isNat63_make]
    -- the first step finds an object that is no indirection
    refine ⟨.obj (ptr v), ?_⟩
    rw [resolve, if_neg (by rw [hptr, howns, hnat]; simp), if_neg]
    rw [hptr, h.header hp]
    exact h.inv.notInd p hp

/-- The new space is a well-formed heap. -/
theorem Finished.wf : WF owns m1 target (l.map (place mem target l)) c.free := by
  have hcells : ∀ p ∈ l, cellsAt m1 (place mem target l p) = cellsAt mem p :=
    fun p hp => congrArg hdrCells (h.header hp)
  have hsize := h.inv.size_le h.setup
  have hfree := h.inv.free_eq
  constructor
  · rw [hfree]
    exact tiles_place h.inv.nodup hcells
  · intro q hq
    obtain ⟨p, hp, rfl⟩ := List.mem_map.mp hq
    have hok := h.setup.wf.ok p (h.inv.mem_objs p hp)
    have hhdr := h.header hp
    refine ⟨by rw [hhdr]; exact hok.kind, by rw [hcells p hp]; exact hok.cells,
      by rw [hhdr, hcells p hp]; exact hok.law, by rw [hhdr, hcells p hp]; exact hok.thunk, ?_, ?_⟩
    · -- a proxy still leads to its canonical pin, which is outside and was not moved
      intro hpin
      rw [hhdr] at hpin
      obtain ⟨hproxy, hmeta, hseven, htarget⟩ := hok.pin hpin
      have hcell := h.cell hp (i := 6) (by rw [hseven]; decide)
      rw [DoneCell, show Cheney.field mem p 6 = .raw by simp [Cheney.field, hpin]] at hcell
      rw [hhdr, hcells p hp, hcell]
      refine ⟨hproxy, hmeta, hseven, htarget.imp_right fun hto => ⟨hto.1, ?_⟩⟩
      rw [canonical, h.agree _ (.inl hto.1), h.inv.owned h.setup hto.1]
      exact hto.2
    · intro i hi htraced
      rw [hcells p hp] at hi
      rw [h.field hp] at htraced
      have hcell := h.cell hp hi
      rw [DoneCell, htraced] at hcell
      exact h.valid hcell
  · intro v hv
    obtain ⟨t, ht⟩ := h.enough v hv
    exact ⟨t, 1, ht⟩
  · have := h.setup.bound
    omega
  · intro a hlo hhi
    exact h.setup.notOwned a hlo (by omega)

end Finished

end Enki.Cheney
