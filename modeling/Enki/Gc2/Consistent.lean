import Enki.Gc2.Model

/-!
# The lists of the collector

`Consistent` relates the spans, the lists of spans with room and the sweep queue.
Every operation on a span keeps it, and says which allocated slots are still there
afterwards: `Survives` and `Origin` are the two directions.
-/

namespace Enki.Gc2

/-- A slot of a span. -/
def Collector.At (g : Collector) (off i : Nat) (s : Slot) : Prop :=
  ∃ sp, g.span off = some sp ∧ sp.slots[i]? = some s

/-- Every span is in order and apart from the others; those on the list of a class are the ones
of the class that have room and are not queued. -/
structure Consistent (g : Collector) : Prop where
  spans : ∀ off, off ∈ g.spans ↔ (g.span off).isSome
  nodup : g.spans.Nodup
  ok : ∀ off sp, g.span off = some sp → SpanOK sp
  apart : ∀ off off' sp sp', g.span off = some sp → g.span off' = some sp' → off ≠ off' →
    off + sp.bytes ≤ off' ∨ off' + sp'.bytes ≤ off
  listed : ∀ k off, off ∈ g.available k ↔
    ∃ sp, g.span off = some sp ∧ sp.available = true ∧ sp.klass = k
  listNodup : ∀ k, (g.available k).Nodup
  room : ∀ off sp, g.span off = some sp → sp.available = true → sp.freeHead ≠ none
  queued : ∀ off ∈ g.work, ∃ sp, g.span off = some sp ∧ sp.available = false
  workNodup : g.work.Nodup
  serial : ∀ off i s, g.At off i s → s.serial ≤ g.serial

/-- The allocated slots that satisfy a condition are still there, at the same address. -/
def Survives (p : Nat → Slot → Prop) (g g' : Collector) : Prop :=
  ∀ (off : Nat) (sp : Span) (i : Nat) (s : Slot), g.span off = some sp → sp.slots[i]? = some s →
    s.serial ≠ 0 → p off s →
    ∃ sp', g'.span off = some sp' ∧ sp'.stride = sp.stride ∧ sp'.slots[i]? = some s

/-- The allocated slots were there before. -/
def Origin (g g' : Collector) : Prop := ∀ off i s, g'.At off i s → s.serial ≠ 0 → g.At off i s

/-- Nothing is lost where nothing happens. -/
theorem Survives.refl {p : Nat → Slot → Prop} (g : Collector) : Survives p g g :=
  fun _ sp _ _ hsp hs _ _ => ⟨sp, hsp, rfl, hs⟩

/-- What survives both operations survives them in a row. -/
theorem Survives.trans {p q : Nat → Slot → Prop} {g g₁ g₂ : Collector} (h : Survives p g g₁)
    (h' : Survives q g₁ g₂) : Survives (fun off s => p off s ∧ q off s) g g₂ := by
  intro off sp i s hsp hs h0 hpq
  obtain ⟨sp₁, hsp₁, hstride₁, hs₁⟩ := h off sp i s hsp hs h0 hpq.1
  obtain ⟨sp₂, hsp₂, hstride₂, hs₂⟩ := h' off sp₁ i s hsp₁ hs₁ h0 hpq.2
  exact ⟨sp₂, hsp₂, hstride₂.trans hstride₁, hs₂⟩

/-- Fewer slots survive as well. -/
theorem Survives.mono {p q : Nat → Slot → Prop} {g g' : Collector} (h : Survives p g g')
    (hpq : ∀ off s, q off s → p off s) : Survives q g g' :=
  fun off sp i s hsp hs h0 hq => h off sp i s hsp hs h0 (hpq off s hq)

theorem Origin.refl (g : Collector) : Origin g g := fun _ _ _ h _ => h

/-- Slots that were there before the second operation were there before the first one. -/
theorem Origin.trans {g g₁ g₂ : Collector} (h : Origin g g₁) (h' : Origin g₁ g₂) : Origin g g₂ :=
  fun off i s hs h0 => h off i s (h' off i s hs h0) h0

/-- A span with a free slot has a free list. -/
theorem SpanOK.freeHead_ne {sp : Span} (h : SpanOK sp) {i : Nat} {s : Slot}
    (hs : sp.slots[i]? = some s) (h0 : s.serial = 0) : sp.freeHead ≠ none := by
  intro hnone
  obtain ⟨l, hl, -, hall⟩ := h.free
  rw [hnone] at hl
  cases hl
  cases hall i s hs h0

/-- The head of a free list is a free slot. -/
theorem SpanOK.head_free {sp : Span} (h : SpanOK sp) {i : Nat} (hi : sp.freeHead = some i) :
    ∃ s, sp.slots[i]? = some s ∧ s.serial = 0 := by
  obtain ⟨l, hl, -, -⟩ := h.free
  rw [hi] at hl
  cases hl with
  | cons hs h0 _ => exact ⟨_, hs, h0⟩

section Span

variable {g : Collector} {off : Nat} {sp : Span}

/-- A change in place is read at its span, -/
theorem span_update_self (f : Span → Span) (h : g.span off = some sp) :
    (g.update off f).span off = some (f sp) := by
  simp [Collector.update, h]

/-- and nowhere else. -/
theorem span_update_other (f : Span → Span) {off' : Nat} (h : off' ≠ off) :
    (g.update off f).span off' = g.span off' := by
  simp [Collector.update, h]

/-- A span is changed in place, and stays on the lists it is on. -/
theorem Consistent.update (h : Consistent g) {f : Span → Span} (hsp : g.span off = some sp)
    (hok : SpanOK (f sp)) (hbytes : (f sp).bytes = sp.bytes) (hklass : (f sp).klass = sp.klass)
    (havail : (f sp).available = sp.available)
    (hroom : sp.available = true → (f sp).freeHead ≠ none)
    (hserial : ∀ (i : Nat) (s : Slot), (f sp).slots[i]? = some s → s.serial ≤ g.serial) :
    Consistent (g.update off f) := by
  have hself := span_update_self f hsp
  -- a span afterwards is the changed one, or an old one elsewhere
  have hof : ∀ off' sp', (g.update off f).span off' = some sp' →
      (off' = off ∧ sp' = f sp) ∨ (off' ≠ off ∧ g.span off' = some sp') := by
    intro off' sp' h'
    by_cases heq : off' = off
    · subst heq
      rw [hself] at h'
      exact .inl ⟨rfl, (Option.some.inj h').symm⟩
    · rw [span_update_other f heq] at h'
      exact .inr ⟨heq, h'⟩
  refine ⟨?_, h.nodup, ?_, ?_, ?_, h.listNodup, ?_, ?_, h.workNodup, ?_⟩
  · intro off'
    by_cases heq : off' = off
    · subst heq
      have hin := h.spans off'
      rw [hsp] at hin
      rw [hself]
      exact hin
    · rw [span_update_other f heq]
      exact h.spans off'
  · intro off' sp' h'
    rcases hof off' sp' h' with ⟨rfl, rfl⟩ | ⟨-, h'⟩
    · exact hok
    · exact h.ok off' sp' h'
  · intro o₁ o₂ s₁ s₂ h₁ h₂ hne
    -- the changed span takes as many bytes as before
    rcases hof o₁ s₁ h₁ with ⟨rfl, rfl⟩ | ⟨-, g₁⟩ <;> rcases hof o₂ s₂ h₂ with ⟨rfl, rfl⟩ | ⟨-, g₂⟩
    · exact absurd rfl hne
    · rw [hbytes]
      exact h.apart _ _ _ _ hsp g₂ hne
    · rw [hbytes]
      exact h.apart _ _ _ _ g₁ hsp hne
    · exact h.apart _ _ _ _ g₁ g₂ hne
  · intro k off'
    refine (h.listed k off').trans ?_
    by_cases heq : off' = off
    · subst heq
      simp [hself, hsp, havail, hklass]
    · rw [span_update_other f heq]
  · intro off' sp' h' ha
    rcases hof off' sp' h' with ⟨rfl, rfl⟩ | ⟨-, h'⟩
    · exact hroom (havail ▸ ha)
    · exact h.room off' sp' h' ha
  · intro off' hw
    obtain ⟨sp', h', ha⟩ := h.queued off' hw
    by_cases heq : off' = off
    · subst heq
      rw [hsp] at h'
      cases h'
      exact ⟨f sp, hself, havail.trans ha⟩
    · exact ⟨sp', (span_update_other f heq).trans h', ha⟩
  · rintro off' i s ⟨sp', h', hs⟩
    rcases hof off' sp' h' with ⟨rfl, rfl⟩ | ⟨-, h'⟩
    · exact hserial i s hs
    · exact h.serial off' i s ⟨sp', h', hs⟩

end Span

/-! ## On and off the lists -/

/-- The spans are the same but for their place on the lists. -/
def Relisted (g g' : Collector) : Prop :=
  ∀ off, (g'.span off).map ({ · with available := false }) =
    (g.span off).map ({ · with available := false })

theorem Relisted.refl (g : Collector) : Relisted g g := fun _ => rfl

theorem Relisted.trans {g g₁ g₂ : Collector} (h : Relisted g g₁) (h' : Relisted g₁ g₂) :
    Relisted g g₂ := fun off => (h' off).trans (h off)

theorem Relisted.symm {g g' : Collector} (h : Relisted g g') : Relisted g' g :=
  fun off => (h off).symm

/-- Only the flag of a span may differ. -/
theorem Relisted.span {g g' : Collector} (h : Relisted g g') {off : Nat} {sp : Span}
    (hsp : g.span off = some sp) :
    ∃ sp', g'.span off = some sp' ∧ sp' = { sp with available := sp'.available } := by
  have heq := h off
  rw [hsp] at heq
  obtain ⟨sp', hsp', he⟩ := Option.map_eq_some_iff.mp heq
  refine ⟨sp', hsp', ?_⟩
  cases sp
  cases sp'
  simp only [Span.mk.injEq] at he ⊢
  tauto

/-- No slot is lost by changing lists, -/
theorem Relisted.survives {g g' : Collector} (h : Relisted g g') (p : Nat → Slot → Prop) :
    Survives p g g' := by
  intro off sp i s hsp hs _ _
  obtain ⟨sp', hsp', he⟩ := h.span hsp
  exact ⟨sp', hsp', by rw [he], by rw [he]; exact hs⟩

/-- and none appears. -/
theorem Relisted.origin {g g' : Collector} (h : Relisted g g') : Origin g g' := by
  rintro off i s ⟨sp', hsp', hs⟩ _
  obtain ⟨sp, hsp, he⟩ := h.symm.span hsp'
  exact ⟨sp, hsp, by rw [he]; exact hs⟩

section Lists

variable {g : Collector} {off : Nat} {sp : Span}

/-- Setting a flag, whatever the lists become. -/
theorem relisted_flag (hsp : g.span off = some sp) (b : Bool) (lists : Nat → List Nat) :
    Relisted g { g.update off ({ · with available := b }) with available := lists } := by
  intro off'
  by_cases heq : off' = off
  · subst heq
    simp [Collector.update, hsp]
  · simp [Collector.update, heq]

/-- Taking a span off its list changes no slot, -/
theorem unavailable_relisted (g : Collector) (off : Nat) : Relisted g (g.unavailable off) := by
  unfold Collector.unavailable
  split
  · exact .refl g
  · rename_i sp hsp
    split
    · exact relisted_flag hsp false _
    · exact .refl g

/-- nor does putting it on one. -/
theorem makeAvailable_relisted (g : Collector) (off : Nat) : Relisted g (g.makeAvailable off) := by
  unfold Collector.makeAvailable
  split
  · exact .refl g
  · rename_i sp hsp
    split
    · exact .refl g
    · exact relisted_flag hsp true _

/-- The flag of a span is changed together with the list of its class. -/
theorem Consistent.relist (h : Consistent g) (hsp : g.span off = some sp) {b : Bool}
    {list : List Nat} (hlist : ∀ off', off' ∈ list ↔
      if off' = off then b = true else off' ∈ g.available sp.klass)
    (hnodup : list.Nodup) (hroom : b = true → sp.freeHead ≠ none ∧ off ∉ g.work) :
    Consistent { g.update off ({ · with available := b }) with
      available := Function.update g.available sp.klass list } := by
  have hrel := relisted_flag hsp b (Function.update g.available sp.klass list)
  have hself : (g.update off ({ · with available := b })).span off =
      some { sp with available := b } := span_update_self _ hsp
  have hother : ∀ off', off' ≠ off →
      (g.update off ({ · with available := b })).span off' = g.span off' :=
    fun off' hne => span_update_other _ hne
  -- from here on by its fields only
  generalize hg' : ({ g.update off ({ · with available := b }) with
      available := Function.update g.available sp.klass list } : Collector) = g' at hrel
  have hspan : g'.span = (g.update off ({ · with available := b })).span := by rw [← hg']
  have hlists : g'.available = Function.update g.available sp.klass list := by rw [← hg']
  have hspans : g'.spans = g.spans := by rw [← hg']; rfl
  have hwork : g'.work = g.work := by rw [← hg']; rfl
  have hser : g'.serial = g.serial := by rw [← hg']; rfl
  refine ⟨?_, hspans ▸ h.nodup, ?_, ?_, ?_, ?_, ?_, ?_, hwork ▸ h.workNodup, ?_⟩
  · intro off'
    rw [hspans, h.spans off']
    have := congrArg Option.isSome (hrel off')
    simp only [Option.isSome_map] at this
    rw [this]
  · intro off' sp' h'
    obtain ⟨sp₀, h₀, he⟩ := hrel.symm.span h'
    have hok := h.ok off' sp₀ h₀
    rw [he] at hok
    exact ⟨hok.free, hok.used, hok.stride, hok.bytes, hok.fits⟩
  · intro o₁ o₂ s₁ s₂ h₁ h₂ hne
    obtain ⟨t₁, g₁, e₁⟩ := hrel.symm.span h₁
    obtain ⟨t₂, g₂, e₂⟩ := hrel.symm.span h₂
    have := h.apart o₁ o₂ t₁ t₂ g₁ g₂ hne
    rwa [e₁, e₂] at this
  · intro k off'
    rw [hlists, hspan]
    -- the list of another class is as it was
    by_cases hk : k = sp.klass
    · subst hk
      rw [Function.update_self, hlist]
      by_cases heq : off' = off
      · subst heq
        simp [hself]
      · rw [if_neg heq, hother off' heq]
        exact h.listed _ off'
    · rw [Function.update_of_ne hk, h.listed k off']
      by_cases heq : off' = off
      · subst heq
        simp [hself, hsp, Ne.symm hk]
      · rw [hother off' heq]
  · intro k
    rw [hlists]
    by_cases hk : k = sp.klass
    · subst hk
      rwa [Function.update_self]
    · rw [Function.update_of_ne hk]
      exact h.listNodup k
  · intro off' sp' h' ha
    rw [hspan] at h'
    by_cases heq : off' = off
    · subst heq
      rw [hself] at h'
      cases h'
      exact (hroom ha).1
    · rw [hother off' heq] at h'
      exact h.room off' sp' h' ha
  · intro off' hw
    rw [hwork] at hw
    obtain ⟨sp', h', ha⟩ := h.queued off' hw
    rw [hspan]
    by_cases heq : off' = off
    · subst heq
      refine ⟨_, hself, ?_⟩
      -- a span that is listed from now on is not queued
      by_contra hb
      exact (hroom (by simpa using hb)).2 hw
    · exact ⟨sp', (hother off' heq).trans h', ha⟩
  · rintro off' i s ⟨sp', h', hs⟩
    obtain ⟨sp₀, h₀, he⟩ := hrel.symm.span h'
    rw [hser]
    exact h.serial off' i s ⟨sp₀, h₀, by rw [he]; exact hs⟩

/-- A span that leaves its list leaves a consistent collector. -/
theorem Consistent.unavailable (h : Consistent g) (off : Nat) : Consistent (g.unavailable off) := by
  unfold Collector.unavailable
  split
  · exact h
  · rename_i sp hsp
    split
    · refine h.relist hsp (fun off' => ?_) ((h.listNodup _).erase off) nofun
      rw [(h.listNodup _).mem_erase_iff]
      by_cases heq : off' = off
      · simp [heq]
      · simp [heq]
    · exact h

/-- So does one that is not queued and is put on its list, if it has room. -/
theorem Consistent.makeAvailable (h : Consistent g) (hw : off ∉ g.work) :
    Consistent (g.makeAvailable off) := by
  unfold Collector.makeAvailable
  split
  · exact h
  · rename_i sp hsp
    split
    · exact h
    · rename_i hno
      simp only [not_or] at hno
      -- its flag is down, so it is not listed yet
      have hnot : off ∉ g.available sp.klass := by
        rw [h.listed]
        rintro ⟨sp', h', ha, -⟩
        rw [hsp] at h'
        cases h'
        exact hno.2.1 ha
      refine h.relist hsp (fun off' => ?_) (List.nodup_cons.mpr ⟨hnot, h.listNodup _⟩)
        fun _ => ⟨hno.2.2, hw⟩
      by_cases heq : off' = off
      · simp [heq]
      · simp [heq]

end Lists

end Enki.Gc2
