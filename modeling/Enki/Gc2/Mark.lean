import Enki.Gc2.Operations

/-!
# Marking

Marking changes nothing but the marks: `clearMarks` of the collector is the same before
and after. When the trace has nothing left to do, everything it has seen refers only to
what it has seen, so that every object of the store that can be reached is marked.
-/

namespace Enki.Gc2

/-! ## Marks do not matter to the lists -/

/-- The free list reads serials and links only. -/
theorem FreeList.mapMarks {slots : List Slot} {f : Slot → Slot} {head : Option Nat} {l : List Nat}
    (hserial : ∀ s, (f s).serial = s.serial) (hnext : ∀ s, (f s).next = s.next)
    (h : FreeList slots head l) : FreeList (slots.map f) head l := by
  induction h with
  | nil => exact .nil
  | @cons i s l hi h0 _ ih =>
    refine .cons (s := f s) (by simp [hi]) ((hserial s).trans h0) ?_
    rw [hnext]
    exact ih

/-- So it is the same list before marks are changed. -/
theorem FreeList.ofMapMarks {slots : List Slot} {f : Slot → Slot} {head : Option Nat} {l : List Nat}
    (hserial : ∀ s, (f s).serial = s.serial) (hnext : ∀ s, (f s).next = s.next)
    (h : FreeList (slots.map f) head l) : FreeList slots head l := by
  induction h with
  | nil => exact .nil
  | cons hi h0 _ ih =>
    rw [List.getElem?_map] at hi
    obtain ⟨s, hs, rfl⟩ := Option.map_eq_some_iff.mp hi
    rw [hnext] at ih
    exact .cons hs ((hserial s).symm.trans h0) ih

/-- The slots with their marks cleared. -/
def Span.unmarked (sp : Span) : Span :=
  { sp with slots := sp.slots.map ({ · with marked := false }) }

/-- A slot with its mark cleared, -/
theorem unmarked_slot {sp : Span} {i : Nat} {s : Slot} (h : sp.slots[i]? = some s) :
    sp.unmarked.slots[i]? = some { s with marked := false } := by
  simp [Span.unmarked, h]

/-- and where it comes from. -/
theorem slot_unmarked {sp : Span} {i : Nat} {s : Slot} (h : sp.unmarked.slots[i]? = some s) :
    ∃ s', sp.slots[i]? = some s' ∧ s = { s' with marked := false } := by
  rw [Span.unmarked, List.getElem?_map] at h
  obtain ⟨s', hs', rfl⟩ := Option.map_eq_some_iff.mp h
  exact ⟨s', hs', rfl⟩

/-- A span is in order whatever its marks are. -/
theorem spanOK_unmarked {sp : Span} : SpanOK sp.unmarked ↔ SpanOK sp := by
  have hcount : sp.unmarked.slots.countP (·.serial != 0) = sp.slots.countP (·.serial != 0) := by
    simp [Span.unmarked, List.countP_map, Function.comp_def]
  constructor
  · intro h
    obtain ⟨l, hl, hnodup, hall⟩ := h.free
    have hl' : FreeList sp.slots sp.freeHead l :=
      FreeList.ofMapMarks (f := ({ · with marked := false })) (fun _ => rfl) (fun _ => rfl) hl
    refine ⟨⟨l, hl', hnodup, ?_⟩, h.used.trans hcount,
      h.stride, h.bytes, by simpa [Span.unmarked] using h.fits⟩
    exact fun i s hs h0 => hall i _ (unmarked_slot hs) h0
  · intro h
    obtain ⟨l, hl, hnodup, hall⟩ := h.free
    refine ⟨⟨l, hl.mapMarks (fun _ => rfl) (fun _ => rfl), hnodup, ?_⟩, h.used.trans hcount.symm,
      h.stride, h.bytes, by simpa [Span.unmarked] using h.fits⟩
    intro i s hs h0
    obtain ⟨s', hs', rfl⟩ := slot_unmarked hs
    exact hall i s' hs' h0

theorem clearMarks_span (g : Collector) (off : Nat) :
    g.clearMarks.span off = (g.span off).map Span.unmarked := rfl

theorem span_clearMarks {g : Collector} {off : Nat} {sp : Span} (h : g.span off = some sp) :
    g.clearMarks.span off = some sp.unmarked := by
  rw [clearMarks_span, h]
  rfl

theorem consistent_clearMarks {g : Collector} : Consistent g.clearMarks ↔ Consistent g := by
  constructor
  · intro h
    refine ⟨fun off => ?_, h.nodup, fun off sp hsp => ?_, ?_, fun k off => ?_, h.listNodup, ?_,
      fun off hm => ?_, h.workNodup, ?_⟩
    · exact (h.spans off).trans (by simp [clearMarks_span])
    · exact spanOK_unmarked.1 (h.ok off _ (span_clearMarks hsp))
    · intro off off' sp sp' hsp hsp'
      exact h.apart off off' sp.unmarked sp'.unmarked (span_clearMarks hsp) (span_clearMarks hsp')
    · refine (h.listed k off).trans ?_
      rw [clearMarks_span]
      cases g.span off <;> simp [Span.unmarked]
    · exact fun off sp hsp ha => h.room off sp.unmarked (span_clearMarks hsp) ha
    · obtain ⟨sp, hsp, ha⟩ := h.queued off hm
      obtain ⟨sp', hsp', rfl⟩ := Option.map_eq_some_iff.mp hsp
      exact ⟨sp', hsp', ha⟩
    · rintro off i s ⟨sp, hsp, hs⟩
      exact h.serial off i { s with marked := false } ⟨_, span_clearMarks hsp, unmarked_slot hs⟩
  · intro h
    have hof : ∀ {off sp}, g.clearMarks.span off = some sp →
        ∃ sp', g.span off = some sp' ∧ sp = sp'.unmarked := by
      intro off sp hsp
      obtain ⟨sp', hsp', rfl⟩ := Option.map_eq_some_iff.mp hsp
      exact ⟨sp', hsp', rfl⟩
    refine ⟨fun off => ?_, h.nodup, fun off sp hsp => ?_, ?_, fun k off => ?_, h.listNodup, ?_,
      fun off hm => ?_, h.workNodup, ?_⟩
    · exact (h.spans off).trans (by simp [clearMarks_span])
    · obtain ⟨sp', hsp', rfl⟩ := hof hsp
      exact spanOK_unmarked.2 (h.ok off sp' hsp')
    · intro off off' sp sp' hsp hsp'
      obtain ⟨t, ht, rfl⟩ := hof hsp
      obtain ⟨t', ht', rfl⟩ := hof hsp'
      exact h.apart off off' t t' ht ht'
    · refine (h.listed k off).trans ?_
      rw [clearMarks_span]
      cases g.span off <;> simp [Span.unmarked]
    · intro off sp hsp ha
      obtain ⟨sp', hsp', rfl⟩ := hof hsp
      exact h.room off sp' hsp' ha
    · obtain ⟨sp, hsp, ha⟩ := h.queued off hm
      exact ⟨_, span_clearMarks hsp, ha⟩
    · rintro off i s ⟨sp, hsp, hs⟩
      obtain ⟨sp', hsp', rfl⟩ := hof hsp
      obtain ⟨s', hs', rfl⟩ := slot_unmarked hs
      exact h.serial off i s' ⟨sp', hsp', hs'⟩

theorem clearMarks_setMark (g : Collector) (off i : Nat) :
    (g.setMark off i).clearMarks = g.clearMarks := by
  have hspan : (g.setMark off i).clearMarks.span = g.clearMarks.span := by
    funext off'
    rw [clearMarks_span, clearMarks_span]
    by_cases heq : off' = off
    · subst heq
      cases hsp : g.span off' with
      | none => simp [Collector.setMark, Collector.update, hsp]
      | some sp =>
        simp only [Collector.setMark, Collector.update, hsp, Function.update_self, Option.map_some,
          Span.unmarked, Option.some.injEq, Span.mk.injEq, true_and]
        apply List.ext_getElem?
        intro j
        by_cases hj : j = i
        · subst hj
          cases hs : sp.slots[j]? <;> simp [hs]
        · simp [List.getElem?_modify_ne _ _ (Ne.symm hj)]
    · rw [Collector.setMark, span_update_other _ heq]
  unfold Collector.clearMarks at hspan ⊢
  simp only [Collector.mk.injEq]
  exact ⟨hspan, rfl, rfl, rfl, rfl⟩

theorem clearMarks_clearMarks (g : Collector) : g.clearMarks.clearMarks = g.clearMarks := by
  have hspan : g.clearMarks.clearMarks.span = g.clearMarks.span := by
    funext off
    rw [clearMarks_span, clearMarks_span]
    cases g.span off <;> simp [Span.unmarked]
  unfold Collector.clearMarks at hspan ⊢
  simp only [Collector.mk.injEq]
  exact ⟨hspan, trivial, trivial, trivial, trivial⟩

/-! ## Finding slots -/

/-- The object at an address. -/
def Collector.Holds (g : Collector) (a off i : Nat) (s : Slot) : Prop :=
  ∃ sp, g.span off = some sp ∧ sp.slots[i]? = some s ∧ s.serial ≠ 0 ∧ a = off + i * sp.stride

/-- A slot lies in its span. -/
theorem SpanOK.inside {sp : Span} (h : SpanOK sp) {i : Nat} {s : Slot}
    (hs : sp.slots[i]? = some s) : i * sp.stride < sp.bytes := by
  have hi := (List.getElem?_eq_some_iff.mp hs).1
  calc i * sp.stride < (i + 1) * sp.stride := by
        rw [Nat.succ_mul]
        exact Nat.lt_add_of_pos_right h.stride
    _ ≤ sp.slots.length * sp.stride := Nat.mul_le_mul_right _ hi
    _ ≤ sp.bytes := h.fits

/-- No two slots have the same address. -/
theorem Consistent.holds_unique {g : Collector} (h : Consistent g) {a off off' i i' : Nat}
    {s s' : Slot} (hs : g.Holds a off i s) (hs' : g.Holds a off' i' s') :
    off' = off ∧ i' = i ∧ s' = s := by
  obtain ⟨sp, hsp, hi, -, ha⟩ := hs
  obtain ⟨sp', hsp', hi', -, ha'⟩ := hs'
  have hin := (h.ok off sp hsp).inside hi
  have hin' := (h.ok off' sp' hsp').inside hi'
  have hoff : off' = off := by
    by_contra hne
    have := h.apart off off' sp sp' hsp hsp' (Ne.symm hne)
    omega
  subst hoff
  rw [hsp] at hsp'
  cases hsp'
  have hmul : i' * sp.stride = i * sp.stride := by omega
  have hidx := Nat.eq_of_mul_eq_mul_right (h.ok off' sp hsp).stride hmul
  subst hidx
  rw [hi] at hi'
  exact ⟨rfl, rfl, (Option.some.inj hi').symm⟩

theorem Consistent.cover {g : Collector} (h : Consistent g) {a off : Nat} {sp : Span}
    (hsp : g.span off = some sp) (hlo : off ≤ a) (hhi : a < off + sp.bytes) :
    g.cover a = some off := by
  cases hc : g.cover a with
  | none =>
    have := List.find?_eq_none.mp hc off ((h.spans off).mpr (by simp [hsp]))
    simp [hsp, hlo, hhi] at this
  | some off' =>
    have hin := List.find?_some hc
    simp only [Option.any_eq_true, decide_eq_true_eq] at hin
    obtain ⟨sp', hsp', hlo', hhi'⟩ := hin
    by_contra hne
    have hne' : off ≠ off' := fun heq => hne (by rw [heq])
    have := h.apart off off' sp sp' hsp hsp' hne'
    omega

theorem Consistent.findSlot_iff {g : Collector} (h : Consistent g) {a off i : Nat} {s : Slot} :
    g.findSlot a = some (off, i, s) ↔ g.Holds a off i s := by
  constructor
  · intro hf
    unfold Collector.findSlot at hf
    split at hf
    · cases hf
    · rename_i off' hc
      have hin := List.find?_some hc
      simp only [Option.any_eq_true, decide_eq_true_eq] at hin
      obtain ⟨sp', hsp', hlo, -⟩ := hin
      simp only [hsp'] at hf
      split at hf
      · cases hf
      -- the offset is a multiple of the stride
      · rename_i hmod
        split at hf
        · cases hf
        · rename_i s' hs'
          split at hf
          · cases hf
          · rename_i h0
            cases hf
            refine ⟨sp', hsp', hs', h0, ?_⟩
            have hdvd : sp'.stride ∣ a - off := Nat.dvd_of_mod_eq_zero (by simpa using hmod)
            rw [Nat.div_mul_cancel hdvd]
            omega
  · rintro ⟨sp, hsp, hs, h0, rfl⟩
    have hok := h.ok off sp hsp
    have hc := h.cover hsp (Nat.le_add_right off (i * sp.stride))
      (Nat.add_lt_add_left (hok.inside hs) off)
    have hdiv : i * sp.stride / sp.stride = i := Nat.mul_div_cancel i hok.stride
    simp [Collector.findSlot, hc, hsp, hdiv, hs, h0]

/-- Setting a mark changes one slot. -/
theorem holds_setMark {g : Collector} {a off i off' i' : Nat} {s : Slot} (h : g.Holds a off' i' s) :
    (g.setMark off i).Holds a off' i'
      (if off' = off ∧ i' = i then { s with marked := true } else s) := by
  obtain ⟨sp, hsp, hs, h0, ha⟩ := h
  by_cases hoff : off' = off
  · subst hoff
    refine ⟨_, span_update_self _ hsp, ?_, ?_, ha⟩
    · by_cases hi : i' = i
      · subst hi
        simp [hs]
      · simpa [hi] using (getElem?_modify_other _ hi).trans hs
    · split <;> exact h0
  · refine ⟨sp, (span_update_other _ hoff).trans hsp, ?_, ?_, ha⟩
    · simpa [hoff] using hs
    · split <;> exact h0

theorem of_holds_setMark {g : Collector} {a off i off' i' : Nat} {s' : Slot}
    (h : (g.setMark off i).Holds a off' i' s') :
    ∃ s, g.Holds a off' i' s ∧ ((off' = off ∧ i' = i) ∨ s' = s) := by
  obtain ⟨sp', hsp', hs', h0, ha⟩ := h
  by_cases hoff : off' = off
  · subst hoff
    have hself : (g.setMark off' i).span off' = _ := Function.update_self ..
    rw [hsp'] at hself
    obtain ⟨sp, hsp, rfl⟩ := Option.map_eq_some_iff.mp hself.symm
    by_cases hi : i' = i
    · subst hi
      simp only [List.getElem?_modify_eq, Option.map_eq_map, Option.map_eq_some_iff] at hs'
      obtain ⟨s, hs, rfl⟩ := hs'
      exact ⟨s, ⟨sp, hsp, hs, h0, ha⟩, .inl ⟨rfl, rfl⟩⟩
    · exact ⟨s', ⟨sp, hsp, (getElem?_modify_other _ hi).symm.trans hs', h0, ha⟩, .inr rfl⟩
  · exact ⟨s', ⟨sp', (span_update_other _ hoff).symm.trans hsp', hs', h0, ha⟩, .inr rfl⟩

/-! ## The trace -/

section Trace

variable {m : Memory}

/-- The trace has seen the object. -/
def Trace.Traced (m : Memory) (tr : Trace) (a : Nat) : Prop :=
  if m.inHeap a then a ∈ tr.seen else ∃ off i s, tr.gc.Holds a off i s ∧ s.marked = true

/-- The trace went on: it forgot nothing, and what it has seen since is still to do. -/
structure Grows (m : Memory) (tr tr' : Trace) : Prop where
  clear : tr'.gc.clearMarks = tr.gc.clearMarks
  mono : ∀ a, tr.Traced m a → tr'.Traced m a
  new : ∀ a, tr'.Traced m a → tr.Traced m a ∨ a ∈ tr'.todo
  todo : tr.todo ⊆ tr'.todo

/-- Doing nothing. -/
theorem Grows.refl (tr : Trace) : Grows m tr tr :=
  ⟨rfl, fun _ => id, fun _ => .inl, List.Subset.refl _⟩

/-- What the first part put on the list is still there, or was seen to be new. -/
theorem Grows.trans {tr tr₁ tr₂ : Trace} (h : Grows m tr tr₁) (h' : Grows m tr₁ tr₂) :
    Grows m tr tr₂ where
  clear := h'.clear.trans h.clear
  mono a ha := h'.mono a (h.mono a ha)
  new a ha := by
    rcases h'.new a ha with ha | ha
    · exact (h.new a ha).imp_right fun hm => h'.todo hm
    · exact .inr ha
  todo := List.Subset.trans h.todo h'.todo

/-- Marks do not matter to the lists. -/
theorem Grows.consistent {tr tr' : Trace} (h : Grows m tr tr') (hc : Consistent tr.gc) :
    Consistent tr'.gc :=
  consistent_clearMarks.1 (h.clear ▸ consistent_clearMarks.2 hc)

/-- A value that is an object has been seen. -/
def Trace.Visited (m : Memory) (tr : Trace) (v : Val) : Prop := ∀ a, v = .ptr a → tr.Traced m a

theorem Trace.Visited.grows {tr tr' : Trace} {v : Val} (h : tr.Visited m v)
    (hg : Grows m tr tr') : tr'.Visited m v := fun a ha => hg.mono a (h a ha)

/-- Marking an object of the store and putting it on the list. -/
theorem grows_setMark {tr : Trace} {a off i : Nat} {s : Slot}
    (hheap : m.inHeap a = false) (hs : tr.gc.Holds a off i s) :
    Grows m tr { tr with gc := tr.gc.setMark off i, todo := a :: tr.todo } ∧
      Trace.Traced m { tr with gc := tr.gc.setMark off i, todo := a :: tr.todo } a := by
  refine ⟨⟨clearMarks_setMark _ off i, ?_, ?_, List.subset_cons_self ..⟩, ?_⟩
  · intro b hb
    unfold Trace.Traced at hb ⊢
    split
    · rename_i hin
      rwa [if_pos hin] at hb
    · rename_i hin
      rw [if_neg hin] at hb
      obtain ⟨off', i', s', hs', hm⟩ := hb
      refine ⟨off', i', _, holds_setMark hs', ?_⟩
      split
      · rfl
      · exact hm
  · intro b hb
    unfold Trace.Traced at hb ⊢
    split
    · rename_i hin
      rw [if_pos hin] at hb
      exact .inl hb
    · rename_i hin
      rw [if_neg hin] at hb
      obtain ⟨off', i', s', hs', hm⟩ := hb
      obtain ⟨s₀, hs₀, ⟨rfl, rfl⟩ | rfl⟩ := of_holds_setMark hs'
      · -- the slot is that of the object
        obtain ⟨sp, hsp, -, -, ha⟩ := hs
        obtain ⟨sp', hsp', -, -, hb⟩ := hs₀
        rw [hsp] at hsp'
        cases hsp'
        exact .inr (by rw [hb, ← ha]; exact List.mem_cons_self ..)
      · exact .inl ⟨off', i', s', hs₀, hm⟩
  · unfold Trace.Traced
    rw [if_neg (by simp [hheap])]
    exact ⟨off, i, _, holds_setMark hs, by simp⟩

theorem visit_spec {tr tr' : Trace} {v : Val} (hc : Consistent tr.gc)
    (h : tr.visit m v = some tr') :
    Grows m tr tr' ∧ tr'.codes = tr.codes ∧ tr'.Visited m v := by
  cases v with
  | atom =>
    cases h
    exact ⟨.refl tr, rfl, nofun⟩
  | ptr a =>
    have hvisited : ∀ {tr : Trace}, tr.Traced m a → tr.Visited m (.ptr a) := by
      rintro tr hm b heq
      cases heq
      exact hm
    simp only [Trace.visit] at h
    -- in the heap of the thread: the addresses seen are kept in a list
    split at h
    · rename_i hin
      split at h
      · rename_i hseen
        cases h
        exact ⟨.refl tr, rfl, hvisited (by rw [Trace.Traced, if_pos hin]; exact hseen)⟩
      · cases h
        refine ⟨⟨rfl, fun b hb => ?_, fun b hb => ?_, List.subset_cons_self ..⟩, rfl, ?_⟩
        · unfold Trace.Traced at hb ⊢
          split
          · rename_i hb'
            rw [if_pos hb'] at hb
            exact List.mem_cons_of_mem _ hb
          · rename_i hb'
            rwa [if_neg hb'] at hb
        · unfold Trace.Traced at hb ⊢
          split
          · rename_i hb'
            rw [if_pos hb'] at hb
            rcases List.mem_cons.mp hb with rfl | hb
            · exact .inr (List.mem_cons_self ..)
            · exact .inl hb
          · rename_i hb'
            rw [if_neg hb'] at hb
            exact .inl hb
        · refine hvisited ?_
          rw [Trace.Traced, if_pos hin]
          exact List.mem_cons_self ..
    · rename_i hin
      split at h
      · cases h
      · rename_i off i s hfind
        -- in the store: the slot carries the mark
        have hs := hc.findSlot_iff.mp hfind
        split at h
        · rename_i hmark
          cases h
          exact ⟨.refl tr, rfl, hvisited (by
            rw [Trace.Traced, if_neg hin]
            exact ⟨off, i, s, hs, hmark⟩)⟩
        · cases h
          obtain ⟨hg, ht⟩ := grows_setMark (by simpa using hin) hs
          exact ⟨hg, rfl, hvisited ht⟩

/-- Visiting a row of values. By induction on it. -/
theorem visitAll_spec {vs : List Val} {tr tr' : Trace} (hc : Consistent tr.gc)
    (h : tr.visitAll m vs = some tr') :
    Grows m tr tr' ∧ tr'.codes = tr.codes ∧ ∀ v ∈ vs, tr'.Visited m v := by
  induction vs generalizing tr with
  | nil =>
    cases h
    exact ⟨.refl _, rfl, nofun⟩
  | cons v vs ih =>
    obtain ⟨tr₁, h₁, h⟩ := Option.bind_eq_some_iff.mp h
    obtain ⟨hg₁, hcodes₁, hv⟩ := visit_spec hc h₁
    obtain ⟨hg, hcodes, hvs⟩ := ih (hg₁.consistent hc) h
    refine ⟨hg₁.trans hg, hcodes.trans hcodes₁, fun v' hm => ?_⟩
    rcases List.mem_cons.mp hm with rfl | hm
    · exact hv.grows hg
    · exact hvs v' hm

/-- The values of the codes that were looked at have been seen. -/
def Trace.CodesSeen (m : Memory) (tr : Trace) : Prop :=
  ∀ c ∈ tr.codes, ∀ v ∈ m.codeVals c, tr.Visited m v

theorem Trace.CodesSeen.grows {tr tr' : Trace} (h : tr.CodesSeen m) (hg : Grows m tr tr')
    (hcodes : tr'.codes = tr.codes) : tr'.CodesSeen m :=
  fun c hm v hv => (h c (hcodes ▸ hm) v hv).grows hg

/-- A code is entered among the codes seen before its values are visited. -/
theorem visitCode_spec {c : Nat} {tr tr' : Trace} (hc : Consistent tr.gc)
    (hseen : tr.CodesSeen m) (h : tr.visitCode m c = some tr') :
    Grows m tr tr' ∧ tr'.CodesSeen m ∧ ∀ v ∈ m.codeVals c, tr'.Visited m v := by
  unfold Trace.visitCode at h
  split at h
  · rename_i hm
    cases h
    exact ⟨.refl tr, hseen, hseen c hm⟩
  · obtain ⟨hg, hcodes, hvs⟩ := @visitAll_spec m _ { tr with codes := c :: tr.codes } _ hc h
    have hg' : Grows m tr tr' := ⟨hg.clear, hg.mono, hg.new, hg.todo⟩
    refine ⟨hg', fun c' hm v hv => ?_, hvs⟩
    rw [hcodes] at hm
    rcases List.mem_cons.mp hm with rfl | hm
    · exact hvs v hv
    · exact (hseen c' hm v hv).grows hg'

/-- What has been seen is still to do, or refers only to what has been seen. -/
structure Trace.Closed (m : Memory) (tr : Trace) : Prop where
  consistent : Consistent tr.gc
  codes : tr.CodesSeen m
  objects : ∀ a, tr.Traced m a → a ∈ tr.todo ∨ ∀ v ∈ m.succ a, tr.Visited m v

/-- Anything that lets the trace grow keeps it closed. -/
theorem Trace.Closed.grows {tr tr' : Trace} (h : tr.Closed m) (hg : Grows m tr tr')
    (hcodes : tr'.CodesSeen m) : tr'.Closed m where
  consistent := hg.consistent h.consistent
  codes := hcodes
  objects a ha := by
    rcases hg.new a ha with ha | ha
    · exact (h.objects a ha).imp (fun hm => hg.todo hm) fun hs v hv => (hs v hv).grows hg
    · exact .inl ha

/-- One round of the trace. -/
theorem drainStep_spec {tr tr' : Trace} (h : tr.Closed m) (hstep : tr.drainStep m = some tr') :
    tr'.Closed m ∧ (∀ a, tr.Traced m a → tr'.Traced m a) ∧
      tr'.gc.clearMarks = tr.gc.clearMarks := by
  unfold Trace.drainStep at hstep
  split at hstep
  · cases hstep
    exact ⟨h, fun _ => id, rfl⟩
  · rename_i a rest htodo
    obtain ⟨tr₁, h₁, hstep⟩ := Option.bind_eq_some_iff.mp hstep
    obtain ⟨tr₂, h₂, h₃⟩ := Option.bind_eq_some_iff.mp hstep
    obtain ⟨hg₁, hcodes₁, hfirst⟩ := @visitAll_spec m _ { tr with todo := rest } _ h.consistent h₁
    have hseen₁ : tr₁.CodesSeen m :=
      (show Trace.CodesSeen m { tr with todo := rest } from h.codes).grows hg₁ hcodes₁
    have hc₁ := hg₁.consistent h.consistent
    -- the code, if there is any
    obtain ⟨hg₂, hseen₂, hcode⟩ : Grows m tr₁ tr₂ ∧ tr₂.CodesSeen m ∧
        ∀ v ∈ ((m.obj a).codeOf.map m.codeVals).getD [], tr₂.Visited m v := by
      split at h₂
      · rename_i hnone
        cases h₂
        exact ⟨.refl _, hseen₁, by simp [hnone]⟩
      · rename_i c hsome
        obtain ⟨hg, hseen, hvs⟩ := visitCode_spec hc₁ hseen₁ h₂
        exact ⟨hg, hseen, by simpa [hsome] using hvs⟩
    obtain ⟨hg₃, hcodes₃, hrest⟩ := visitAll_spec (hg₂.consistent hc₁) h₃
    have hg := (hg₁.trans hg₂).trans hg₃
    refine ⟨⟨hg.consistent h.consistent, hseen₂.grows hg₃ hcodes₃, fun b hb => ?_⟩, hg.mono,
      hg.clear⟩
    -- seen before: to be done, done now, or done; seen now: to be done
    rcases hg.new b hb with hb | hb
    · rcases h.objects b hb with hm | hs
      · rw [htodo] at hm
        rcases List.mem_cons.mp hm with rfl | hm
        · right
          intro v hv
          rcases List.mem_append.mp hv with hv | hv
          · rcases List.mem_append.mp hv with hv | hv
            · exact (hfirst v hv).grows (hg₂.trans hg₃)
            · exact (hcode v hv).grows hg₃
          · exact hrest v hv
        · exact .inl (hg.todo hm)
      · right
        intro v hv a ha
        exact hg.mono a (hs v hv a ha)
    · exact .inl hb

/-- Any number of rounds. -/
theorem drains_spec {tr tr' : Trace} (h : tr.Closed m) (hd : Trace.Drains m tr tr') :
    tr'.Closed m ∧ (∀ a, tr.Traced m a → tr'.Traced m a) ∧
      tr'.gc.clearMarks = tr.gc.clearMarks := by
  induction hd with
  | refl => exact ⟨h, fun _ => id, rfl⟩
  | step _ _ hstep ih =>
    obtain ⟨hclosed, hmono, hclear⟩ := ih
    obtain ⟨hclosed', hmono', hclear'⟩ := drainStep_spec hclosed hstep
    exact ⟨hclosed', fun a ha => hmono' a (hmono a ha), hclear'.trans hclear⟩

/-- What a root refers to has been seen. -/
def Trace.RootSeen (m : Memory) (tr : Trace) : Root → Prop
  | .val v => tr.Visited m v
  | .code c => ∀ v ∈ m.codeVals c, tr.Visited m v

theorem Trace.RootSeen.grows {tr tr' : Trace} {r : Root} (h : tr.RootSeen m r)
    (hg : Grows m tr tr') : tr'.RootSeen m r := by
  cases r with
  | val v => exact Trace.Visited.grows h hg
  | code c => exact fun v hv => (h v hv).grows hg

/-- Visiting the roots, from a trace that has seen nothing yet. -/
theorem roots_spec {roots : List Root} {tr tr' : Trace} (h : tr.Closed m)
    (heq : roots.foldlM (Trace.visitRoot m) tr = some tr') :
    tr'.Closed m ∧ Grows m tr tr' ∧ ∀ r ∈ roots, tr'.RootSeen m r := by
  induction roots generalizing tr with
  | nil =>
    cases heq
    exact ⟨h, .refl _, nofun⟩
  | cons r roots ih =>
    obtain ⟨tr₁, h₁, heq⟩ := Option.bind_eq_some_iff.mp heq
    obtain ⟨hclosed₁, hg₁, hr⟩ : tr₁.Closed m ∧ Grows m tr tr₁ ∧ tr₁.RootSeen m r := by
      cases r with
      | val v =>
        obtain ⟨hg, hcodes, hv⟩ := visit_spec h.consistent h₁
        exact ⟨h.grows hg (h.codes.grows hg hcodes), hg, hv⟩
      | code c =>
        obtain ⟨hg, hseen, hvs⟩ := visitCode_spec h.consistent h.codes h₁
        exact ⟨h.grows hg hseen, hg, hvs⟩
    obtain ⟨hclosed, hg, hrs⟩ := ih hclosed₁ heq
    refine ⟨hclosed, hg₁.trans hg, fun r' hm => ?_⟩
    rcases List.mem_cons.mp hm with rfl | hm
    · exact hr.grows hg
    · exact hrs r' hm

/-- A marked slot has its mark cleared. -/
theorem clearMarks_unmarked {g : Collector} {a off i : Nat} {s : Slot}
    (h : g.clearMarks.Holds a off i s) : s.marked = false := by
  obtain ⟨sp, hsp, hs, -⟩ := h
  obtain ⟨sp', -, rfl⟩ := Option.map_eq_some_iff.mp hsp
  obtain ⟨s', -, rfl⟩ := slot_unmarked hs
  rfl

/-- A mark changes nothing but the marks, and marks every object of the store that can be
reached. -/
theorem marks_spec {g g' : Collector} (hc : Consistent g) (h : Marks m g g') :
    g'.clearMarks = g.clearMarks ∧
      ∀ a, m.Reach a → m.inHeap a = false → ∃ off i s, g'.Holds a off i s ∧ s.marked = true := by
  obtain ⟨tr, tr', hstart, hd, hempty, rfl⟩ := h
  -- no slot is marked at the start, so nothing has been seen
  have hinit : (Trace.mk g.clearMarks [] [] []).Closed m := by
    refine ⟨consistent_clearMarks.2 hc, nofun, fun a ha => ?_⟩
    unfold Trace.Traced at ha
    split at ha
    · cases ha
    · obtain ⟨off, i, s, hs, hm⟩ := ha
      rw [clearMarks_unmarked hs] at hm
      cases hm
  obtain ⟨hclosed, hg, hroots⟩ := roots_spec hinit hstart
  obtain ⟨hclosed', hmono, hclear⟩ := drains_spec hclosed hd
  refine ⟨hclear.trans (hg.clear.trans (clearMarks_clearMarks g)), fun a hreach hheap => ?_⟩
  -- by induction on how the object is reached
  have hall : ∀ a, m.Reach a → tr'.Traced m a := by
    intro a hreach
    induction hreach with
    | root hm => exact hmono _ (hroots _ hm _ rfl)
    | code hm hv => exact hmono _ (hroots _ hm _ hv _ rfl)
    | succ _ hv ih =>
      rcases hclosed'.objects _ ih with hm | hs
      · rw [hempty] at hm
        cases hm
      · exact hs _ hv _ rfl
  have ht := hall a hreach
  rwa [Trace.Traced, if_neg (by simp [hheap])] at ht

end Trace

/-! ## Queueing every span -/

/-- The span is on no list of spans with room. -/
def Collector.Unlisted (g : Collector) (off : Nat) : Prop :=
  ∀ sp, g.span off = some sp → sp.available = false

/-- Taking spans off their lists puts none on one. -/
theorem Collector.Unlisted.unavailable {g : Collector} {off : Nat} (h : g.Unlisted off)
    (off' : Nat) : (g.unavailable off').Unlisted off := by
  intro sp hsp
  by_cases heq : off = off'
  · subst heq
    exact unavailable_flag g off hsp
  · unfold Collector.unavailable at hsp
    split at hsp
    · exact h sp hsp
    · split at hsp
      · exact h sp ((span_update_other _ heq).symm.trans hsp)
      · exact h sp hsp

/-- A row of spans taken off their lists. By induction on it. -/
theorem unavailable_all (l : List Nat) {g : Collector} (h : Consistent g) :
    Consistent (l.foldl Collector.unavailable g) ∧
    Relisted g (l.foldl Collector.unavailable g) ∧
    (l.foldl Collector.unavailable g).spans = g.spans ∧
    ∀ off, off ∈ l ∨ g.Unlisted off → (l.foldl Collector.unavailable g).Unlisted off := by
  induction l generalizing g with
  | nil => exact ⟨h, .refl g, rfl, fun off hm => hm.resolve_left List.not_mem_nil⟩
  | cons off l ih =>
    obtain ⟨hc, hrel, hspans, hflag⟩ := ih (h.unavailable off)
    refine ⟨hc, (unavailable_relisted g off).trans hrel, hspans.trans (unavailable_spans g off),
      fun off' hm => hflag off' ?_⟩
    rcases hm with hm | hm
    · rcases List.mem_cons.mp hm with rfl | hm
      · exact .inr fun sp hsp => unavailable_flag g off' hsp
      · exact .inl hm
    · exact .inr (hm.unavailable off)

/-- Every span is queued, none is on another list, and nothing else changed. -/
theorem Consistent.queueAll {g : Collector} (h : Consistent g) :
    Consistent g.queueAll ∧ Relisted g g.queueAll := by
  obtain ⟨hc, hrel, hspans, hflag⟩ := unavailable_all g.spans h
  refine ⟨{ hc with queued := fun off hm => ?_, workNodup := List.nodup_reverse.mpr h.nodup }, hrel⟩
  have hm' : off ∈ g.spans := List.mem_reverse.mp hm
  obtain ⟨sp, hsp⟩ := Option.isSome_iff_exists.mp ((hc.spans off).mp (by rwa [hspans]))
  exact ⟨sp, hsp, hflag off (.inl hm') sp hsp⟩

end Enki.Gc2
