import Enki.Gc2.Consistent

/-!
# Sweeping, allocating and rolling back

What each operation of the collector keeps. A sweep only frees unmarked slots of
queued spans, a rollback only frees slots younger than its checkpoint, and neither
leaves a slot allocated that was not. An allocation adds one slot, which was free.
-/

namespace Enki.Gc2

/-! ## Freeing slots of a span -/

/-- A slot that is allocated after slots were freed was allocated before, as it is. -/
theorem Freed.origin {p : Nat → Slot → Prop} {sp sp' : Span} (h : Freed p sp sp') {i : Nat}
    {s : Slot} (hs : sp'.slots[i]? = some s) (h0 : s.serial ≠ 0) : sp.slots[i]? = some s := by
  have hlt := (List.getElem?_eq_some_iff.mp hs).1
  rw [h.length] at hlt
  obtain ⟨s', hs'⟩ : ∃ s', sp.slots[i]? = some s' := ⟨_, List.getElem?_eq_getElem hlt⟩
  -- a freed slot has no serial, so this one was kept
  by_cases hp : p i s'
  · obtain ⟨s'', hs'', h0''⟩ := h.freed i s' hs' hp
    rw [hs] at hs''
    cases hs''
    exact absurd h0'' h0
  · have hkept := h.kept i s' hs' hp
    rw [hs] at hkept
    cases hkept
    exact hs'

/-- A span that counts no used slot has none. -/
theorem SpanOK.empty {sp : Span} (h : SpanOK sp) (hu : sp.used = 0) {i : Nat} {s : Slot}
    (hs : sp.slots[i]? = some s) : s.serial = 0 := by
  have hcount := h.used
  rw [hu] at hcount
  have := List.countP_eq_zero.mp hcount.symm s (List.mem_of_getElem? hs)
  simpa using this

/-- An operation that frees slots: the lists are kept, the slots that satisfy `p` survive,
no slot becomes allocated and no span is queued. -/
structure Frees (p : Nat → Slot → Prop) (g g' : Collector) : Prop where
  consistent : Consistent g'
  survives : Survives p g g'
  origin : Origin g g'
  serial : g'.serial = g.serial
  work : g'.work ⊆ g.work

/-- Doing nothing frees slots. -/
theorem Frees.refl {p : Nat → Slot → Prop} {g : Collector} (h : Consistent g) : Frees p g g :=
  ⟨h, .refl g, .refl g, rfl, List.Subset.refl _⟩

/-- One after the other, if the second one keeps what the first one does. -/
theorem Frees.trans {p q : Nat → Slot → Prop} {g g₁ g₂ : Collector} (h : Frees p g g₁)
    (h' : Frees q g₁ g₂) (hpq : ∀ off s, p off s → q off s) : Frees p g g₂ where
  consistent := h'.consistent
  survives := (h.survives.trans h'.survives).mono fun off s hp => ⟨hp, hpq off s hp⟩
  origin := h.origin.trans h'.origin
  serial := h'.serial.trans h.serial
  work := List.Subset.trans h'.work h.work

/-- Fewer slots may be asked to survive. -/
theorem Frees.mono {p q : Nat → Slot → Prop} {g g' : Collector} (h : Frees p g g')
    (hqp : ∀ off s, q off s → p off s) : Frees q g g' :=
  { h with survives := h.survives.mono hqp }

theorem unavailable_spans (g : Collector) (off : Nat) : (g.unavailable off).spans = g.spans := by
  unfold Collector.unavailable
  split
  · rfl
  · split <;> rfl

theorem unavailable_work (g : Collector) (off : Nat) : (g.unavailable off).work = g.work := by
  unfold Collector.unavailable
  split
  · rfl
  · split <;> rfl

theorem unavailable_serial (g : Collector) (off : Nat) :
    (g.unavailable off).serial = g.serial := by
  unfold Collector.unavailable
  split
  · rfl
  · split <;> rfl

theorem makeAvailable_work (g : Collector) (off : Nat) : (g.makeAvailable off).work = g.work := by
  unfold Collector.makeAvailable
  split
  · rfl
  · split <;> rfl

theorem makeAvailable_serial (g : Collector) (off : Nat) :
    (g.makeAvailable off).serial = g.serial := by
  unfold Collector.makeAvailable
  split
  · rfl
  · split <;> rfl

/-- Afterwards the span is on no list. -/
theorem unavailable_flag (g : Collector) (off : Nat) {sp : Span}
    (h : (g.unavailable off).span off = some sp) : sp.available = false := by
  unfold Collector.unavailable at h
  split at h
  · rename_i hnone
    rw [hnone] at h
    cases h
  · rename_i sp₀ hsp
    split at h
    · have hself := span_update_self ({ · with available := false }) hsp
      have heq := Option.some.inj (hself.symm.trans h)
      rw [← heq]
    · rename_i hflag
      rw [hsp] at h
      cases h
      simpa using hflag

section Operations

variable {g : Collector} {off : Nat}

/-- Returning an empty span that is not queued. -/
theorem Frees.spanFree (h : Consistent g) (hw : off ∉ g.work)
    (hempty : ∀ i s, g.At off i s → s.serial = 0) (p : Nat → Slot → Prop) :
    Frees p g (g.spanFree off) := by
  have hu := h.unavailable off
  have hrel := unavailable_relisted g off
  have hself : (g.spanFree off).span off = none := by simp [Collector.spanFree]
  have hother : ∀ off', off' ≠ off →
      (g.spanFree off).span off' = (g.unavailable off).span off' :=
    fun off' hne => by simp [Collector.spanFree, hne]
  -- the other spans are those after the list was left
  have hof : ∀ off' sp, (g.spanFree off).span off' = some sp →
      off' ≠ off ∧ (g.unavailable off).span off' = some sp := by
    intro off' sp hsp
    have hne : off' ≠ off := by
      rintro rfl
      rw [hself] at hsp
      cases hsp
    exact ⟨hne, (hother off' hne).symm.trans hsp⟩
  have hwork : (g.spanFree off).work = g.work := unavailable_work g off
  constructor
  · refine ⟨?_, hu.nodup.erase off, ?_, ?_, ?_, hu.listNodup, ?_, ?_, hwork ▸ h.workNodup, ?_⟩
    · intro off'
      change off' ∈ (g.unavailable off).spans.erase off ↔ _
      rw [hu.nodup.mem_erase_iff, hu.spans off']
      by_cases heq : off' = off
      · subst heq
        simp [hself]
      · simp [heq, hother off' heq]
    · intro off' sp hsp
      exact hu.ok off' sp (hof off' sp hsp).2
    · intro o₁ o₂ s₁ s₂ h₁ h₂ hne
      exact hu.apart o₁ o₂ s₁ s₂ (hof o₁ s₁ h₁).2 (hof o₂ s₂ h₂).2 hne
    · intro k off'
      change off' ∈ (g.unavailable off).available k ↔ _
      rw [hu.listed k off']
      by_cases heq : off' = off
      · subst heq
        -- the span left its list before it went
        rw [hself]
        constructor
        · rintro ⟨sp, hsp, ha, -⟩
          rw [unavailable_flag g off' hsp] at ha
          cases ha
        · rintro ⟨sp, hsp, -⟩
          cases hsp
      · rw [hother off' heq]
    · intro off' sp hsp
      exact hu.room off' sp (hof off' sp hsp).2
    · intro off' hm
      rw [hwork] at hm
      have hne : off' ≠ off := fun heq => hw (heq ▸ hm)
      rw [hother off' hne]
      exact hu.queued off' (by rwa [unavailable_work])
    · rintro off' i s ⟨sp, hsp, hs⟩
      exact hu.serial off' i s ⟨sp, (hof off' sp hsp).2, hs⟩
  · intro off' sp i s hsp hs h0 hp
    have hne : off' ≠ off := by
      rintro rfl
      exact h0 (hempty i s ⟨sp, hsp, hs⟩)
    rw [hother off' hne]
    exact hrel.survives p off' sp i s hsp hs h0 hp
  · rintro off' i s ⟨sp, hsp, hs⟩ h0
    exact hrel.origin off' i s ⟨sp, (hof off' sp hsp).2, hs⟩ h0
  · exact unavailable_serial g off
  · rw [hwork]
    exact List.Subset.refl _

/-- `gc2_settle` returns an empty span and lists one that has room. -/
theorem Frees.settle (h : Consistent g) (hw : off ∉ g.work) (p : Nat → Slot → Prop) :
    Frees p g (g.settle off) := by
  unfold Collector.settle
  split
  · exact .refl h
  · rename_i sp hsp
    split
    · rename_i hu
      -- no used slot is counted, and the count is right
      refine .spanFree h hw (fun i s hs => ?_) p
      obtain ⟨sp', hsp', hs⟩ := hs
      rw [hsp] at hsp'
      cases hsp'
      exact (h.ok off sp hsp).empty hu hs
    · have hrel := makeAvailable_relisted g off
      exact ⟨h.makeAvailable hw, hrel.survives p, hrel.origin, makeAvailable_serial g off,
        by rw [makeAvailable_work]; exact List.Subset.refl _⟩

/-- Freeing slots of a span, before the lists are looked at. -/
theorem Frees.freeWhere (h : Consistent g) (off : Nat) {p : Slot → Bool}
    (hp : ∀ s, p s = true → s.serial ≠ 0) :
    Frees (fun off' s => off' = off → p s = false) g (g.update off (·.freeWhere p)) ∧
      ∀ i s, (g.update off (·.freeWhere p)).At off i s → p s = false := by
  cases hsp : g.span off with
  | none =>
    have hsame : g.update off (·.freeWhere p) = g := by
      have hnone : (g.span off).map (·.freeWhere p) = g.span off := by rw [hsp]; rfl
      unfold Collector.update
      rw [hnone, Function.update_eq_self]
    rw [hsame]
    refine ⟨.refl h, fun i s hs => ?_⟩
    obtain ⟨sp, hsp', -⟩ := hs
    rw [hsp] at hsp'
    cases hsp'
  | some sp =>
    obtain ⟨hok, hfreed⟩ := (h.ok off sp hsp).freeWhere hp
    have hself := span_update_self (g := g) (·.freeWhere p) hsp
    refine ⟨⟨h.update hsp hok hfreed.bytes hfreed.klass hfreed.available ?_ ?_, ?_, ?_, rfl,
      List.Subset.refl _⟩, ?_⟩
    · -- a free slot of the span is still free
      intro ha
      obtain ⟨i, hi⟩ := Option.ne_none_iff_exists'.mp (h.room off sp hsp ha)
      obtain ⟨s, hs, h0⟩ := (h.ok off sp hsp).head_free hi
      exact hok.freeHead_ne (hfreed.kept i s hs fun hps => hp s hps h0) h0
    · intro i s hs
      by_cases h0 : s.serial = 0
      · omega
      · exact h.serial off i s ⟨sp, hsp, hfreed.origin hs h0⟩
    · intro off' sp' i s hsp' hs _ hps
      by_cases heq : off' = off
      · subst heq
        rw [hsp] at hsp'
        cases hsp'
        refine ⟨_, hself, hfreed.stride, hfreed.kept i s hs ?_⟩
        rw [hps rfl]
        exact Bool.false_ne_true
      · exact ⟨sp', (span_update_other _ heq).trans hsp', rfl, hs⟩
    · rintro off' i s ⟨sp', hsp', hs⟩ h0
      by_cases heq : off' = off
      · subst heq
        rw [hself] at hsp'
        cases hsp'
        exact ⟨sp, hsp, hfreed.origin hs h0⟩
      · exact ⟨sp', (span_update_other _ heq).symm.trans hsp', hs⟩
    · rintro i s ⟨sp', hsp', hs⟩
      rw [hself] at hsp'
      cases hsp'
      by_contra hps
      rw [Bool.not_eq_false] at hps
      obtain ⟨s', hs', h0⟩ := hfreed.freed i s (hfreed.origin hs (hp s hps)) hps
      rw [hs] at hs'
      cases hs'
      exact hp s hps h0

/-- Freeing slots of a span that is not queued. -/
theorem Frees.freeSettle (h : Consistent g) (hw : off ∉ g.work) {p : Slot → Bool}
    (hp : ∀ s, p s = true → s.serial ≠ 0) :
    Frees (fun off' s => off' = off → p s = false) g
      ((g.update off (·.freeWhere p)).settle off) ∧
      ∀ i s, ((g.update off (·.freeWhere p)).settle off).At off i s → p s = false := by
  obtain ⟨hstep, hnone⟩ := Frees.freeWhere h off hp
  have hsettle := Frees.settle hstep.consistent hw fun _ _ => True
  refine ⟨hstep.trans hsettle fun _ _ _ => trivial, fun i s hs => ?_⟩
  by_contra hps
  exact hps (hnone i s (hsettle.origin off i s hs (hp s (by simpa using hps))))

/-! ## Sweeping -/

/-- A slot that the rest of the sweep keeps. -/
def Safe (g : Collector) (off : Nat) (s : Slot) : Prop := off ∈ g.work → s.marked = true

/-- One step of the sweep frees the unmarked slots of the span it takes off the queue. -/
theorem Frees.sweepNext (h : Consistent g) : Frees (Safe g) g g.sweepNext := by
  unfold Collector.sweepNext
  split
  · exact .refl h
  · rename_i off rest hwork
    have hnodup := h.workNodup
    rw [hwork] at hnodup
    obtain ⟨hnot, hnodup⟩ := List.nodup_cons.mp hnodup
    have hsub : rest ⊆ g.work := by
      rw [hwork]
      exact List.subset_cons_self off rest
    -- off the queue first: the span may then be listed or returned
    have hpop : Frees (Safe g) g { g with work := rest } :=
      ⟨{ h with queued := fun off' hm => h.queued off' (hsub hm), workNodup := hnodup },
        .refl g, .refl g, rfl, hsub⟩
    refine hpop.trans (Frees.freeSettle hpop.consistent hnot garbage_serial).1 ?_
    rintro off' s hsafe rfl
    have hm := hsafe (by rw [hwork]; exact List.mem_cons_self ..)
    simp [Slot.garbage, hm]

/-- An allocation sweeps until there is room in its class. By induction on the steps it may
take. -/
theorem Frees.assist (h : Consistent g) (klass n : Nat) :
    Frees (Safe g) g (Collector.assist klass n g) := by
  induction n generalizing g with
  | zero => exact .refl h
  | succ n ih =>
    unfold Collector.assist
    split
    · exact .refl h
    · have hstep := Frees.sweepNext h
      exact hstep.trans (ih hstep.consistent) fun off s hsafe hm => hsafe (hstep.work hm)

/-! ## Allocating -/

/-- The serial can be any that no slot exceeds. -/
theorem Consistent.withSerial (h : Consistent g) {n : Nat}
    (hn : ∀ off i s, g.At off i s → s.serial ≤ n) : Consistent { g with serial := n } :=
  { h with serial := hn }

/-- An extent apart from every span is listed as one. -/
theorem Consistent.addSpan (h : Consistent g) {sp : Span} (hok : SpanOK sp)
    (havail : sp.available = false) (hapart : Apart g off sp.bytes) (hnone : g.span off = none)
    (hserial : ∀ (i : Nat) (s : Slot), sp.slots[i]? = some s → s.serial = 0) :
    Consistent { g with span := Function.update g.span off (some sp), spans := off :: g.spans } := by
  have hof : ∀ off' sp', Function.update g.span off (some sp) off' = some sp' →
      (off' = off ∧ sp' = sp) ∨ (off' ≠ off ∧ g.span off' = some sp') := by
    intro off' sp' h'
    by_cases heq : off' = off
    · subst heq
      rw [Function.update_self] at h'
      exact .inl ⟨rfl, (Option.some.inj h').symm⟩
    · rw [Function.update_of_ne heq] at h'
      exact .inr ⟨heq, h'⟩
  refine ⟨?_, List.nodup_cons.mpr ⟨?_, h.nodup⟩, ?_, ?_, ?_, h.listNodup, ?_, ?_, h.workNodup, ?_⟩
  · intro off'
    by_cases heq : off' = off
    · subst heq
      simp
    · simp [heq, h.spans off']
  · rw [h.spans off, hnone]
    exact Bool.false_ne_true
  · intro off' sp' h'
    rcases hof off' sp' h' with ⟨rfl, rfl⟩ | ⟨-, h'⟩
    · exact hok
    · exact h.ok off' sp' h'
  · intro o₁ o₂ s₁ s₂ h₁ h₂ hne
    -- two old spans, or the new one and one it is apart from
    rcases hof o₁ s₁ h₁ with ⟨rfl, rfl⟩ | ⟨-, g₁⟩ <;> rcases hof o₂ s₂ h₂ with ⟨rfl, rfl⟩ | ⟨-, g₂⟩
    · exact absurd rfl hne
    · exact hapart.2 o₂ s₂ g₂
    · exact (hapart.2 o₁ s₁ g₁).symm
    · exact h.apart _ _ _ _ g₁ g₂ hne
  · intro k off'
    refine (h.listed k off').trans ?_
    by_cases heq : off' = off
    · subst heq
      simp [hnone, havail]
    · simp [heq]
  · intro off' sp' h' ha
    rcases hof off' sp' h' with ⟨rfl, rfl⟩ | ⟨-, h'⟩
    · rw [havail] at ha
      cases ha
    · exact h.room off' sp' h' ha
  · intro off' hw
    obtain ⟨sp', h', ha⟩ := h.queued off' hw
    have hne : off' ≠ off := by
      rintro rfl
      rw [hnone] at h'
      cases h'
    exact ⟨sp', (Function.update_of_ne hne ..).trans h', ha⟩
  · rintro off' i s ⟨sp', h', hs⟩
    rcases hof off' sp' h' with ⟨rfl, rfl⟩ | ⟨-, h'⟩
    · rw [hserial i s hs]
      exact Nat.zero_le _
    · exact h.serial off' i s ⟨sp', h', hs⟩

/-- A new span has free slots only. -/
theorem new_free {bytes stride klass i : Nat} {s : Slot}
    (hs : (Span.new bytes stride klass).slots[i]? = some s) : s.serial = 0 := by
  have hi := (List.getElem?_eq_some_iff.mp hs).1
  simp only [Span.new, List.length_map, List.length_range] at hi
  rw [new_slot hi] at hs
  cases hs
  rfl

/-- A new span holds nothing, and the others are as they were. -/
theorem Consistent.newSpan (h : Consistent g) {bytes klass : Nat} (hapart : Apart g off bytes)
    (hstride : 0 < classes.getD klass bytes) (hle : classes.getD klass bytes ≤ bytes) :
    Frees (fun _ _ => True) g (g.newSpan off bytes klass) ∧ off ∉ g.work ∧
      ∃ sp, (g.newSpan off bytes klass).span off = some sp ∧ sp.freeHead = some 0 := by
  -- no span begins where the extent does
  have hnone : g.span off = none := by
    by_contra hne
    obtain ⟨sp, hsp⟩ := Option.ne_none_iff_exists'.mp hne
    have := hapart.2 off sp hsp
    have := (h.ok off sp hsp).bytes
    have := hapart.1
    omega
  have hwork : off ∉ g.work := by
    intro hm
    obtain ⟨sp, hsp, -⟩ := h.queued off hm
    rw [hnone] at hsp
    cases hsp
  have hok : SpanOK (Span.new bytes (classes.getD klass bytes) klass) := .new hstride hle
  have hadd := h.addSpan hok rfl hapart hnone fun i s => new_free
  have hrel := makeAvailable_relisted
    { g with
      span := Function.update g.span off (some (Span.new bytes (classes.getD klass bytes) klass))
      spans := off :: g.spans } off
  refine ⟨⟨hadd.makeAvailable hwork, ?_, ?_, makeAvailable_serial _ off, ?_⟩, hwork, ?_⟩
  · intro off' sp i s hsp hs h0 hp
    refine hrel.survives (fun _ _ => True) off' sp i s ?_ hs h0 hp
    have hne : off' ≠ off := by
      rintro rfl
      rw [hnone] at hsp
      cases hsp
    exact (Function.update_of_ne hne ..).trans hsp
  · intro off' i s hs h0
    obtain ⟨sp, hsp, hs⟩ := hrel.origin off' i s hs h0
    by_cases heq : off' = off
    · subst heq
      have hself : Function.update g.span off' (some (Span.new bytes (classes.getD klass bytes) klass))
          off' = some sp := hsp
      rw [Function.update_self] at hself
      cases hself
      exact absurd (new_free hs) h0
    · exact ⟨sp, (Function.update_of_ne heq ..).symm.trans hsp, hs⟩
  · have hsame : (g.newSpan off bytes klass).work = g.work := makeAvailable_work _ off
    rw [hsame]
    exact List.Subset.refl _
  · obtain ⟨sp, hsp, he⟩ := hrel.span (Function.update_self ..)
    exact ⟨sp, hsp, by rw [he]; rfl⟩

/-- The flag does not matter to a change of the slots. -/
theorem unavailable_update (g : Collector) (off : Nat) {f : Span → Span} {n : Nat}
    (hklass : ∀ sp, (f sp).klass = sp.klass) (havail : ∀ sp, (f sp).available = sp.available)
    (hflag : ∀ sp, f { sp with available := false } = { f sp with available := false }) :
    { g.update off f with serial := n }.unavailable off =
      { (g.unavailable off).update off f with serial := n } := by
  unfold Collector.unavailable
  cases hsp : g.span off with
  | none =>
    have hnone : (g.update off f).span off = none := by simp [Collector.update, hsp]
    simp only [hnone]
  | some sp =>
    have hself : (g.update off f).span off = some (f sp) := span_update_self f hsp
    simp only [hself, havail, hklass]
    split
    · simp [Collector.update, hsp, hflag]
    · rfl

/-- One slot became allocated, in a span that is not queued. -/
structure Takes (p : Nat → Slot → Prop) (g g' : Collector) (a birth : Nat) : Prop where
  consistent : Consistent g'
  survives : Survives p g g'
  work : g'.work ⊆ g.work
  slot : ∃ off sp i s, g'.span off = some sp ∧ sp.slots[i]? = some s ∧ s.serial ≠ 0 ∧
    s.birth = birth ∧ a = off + i * sp.stride ∧ off ∉ g'.work ∧
    ∀ off' i' s', g'.At off' i' s' → s'.serial ≠ 0 → (s' = s ∧ off' = off) ∨ g.At off' i' s'

/-- Sweeping first does not change what an allocation gives. -/
theorem Frees.takes {p q : Nat → Slot → Prop} {g₁ g' : Collector} {a birth : Nat}
    (h : Frees p g g₁) (h' : Takes q g₁ g' a birth) (hpq : ∀ off s, p off s → q off s) :
    Takes p g g' a birth where
  consistent := h'.consistent
  survives := (h.survives.trans h'.survives).mono fun off s hp => ⟨hp, hpq off s hp⟩
  work := List.Subset.trans h'.work h.work
  slot := by
    obtain ⟨off, sp, i, s, hsp, hs, h0, hb, ha, hw, hof⟩ := h'.slot
    refine ⟨off, sp, i, s, hsp, hs, h0, hb, ha, hw, fun off' i' s' hs' h0' => ?_⟩
    exact (hof off' i' s' hs' h0').imp_right fun hat => h.origin off' i' s' hat h0'

/-- Taking a slot, before the lists are looked at. -/
theorem Consistent.updateTake (h : Consistent g) (birth : Nat) {sp : Span} {i : Nat}
    (hsp : g.span off = some sp) (hi : sp.freeHead = some i)
    (hroom : sp.available = true → (sp.takeSlot i (g.serial + 1) birth).freeHead ≠ none)
    (hw : off ∉ g.work) :
    Takes (fun _ _ => True) g
      { g.update off (·.takeSlot i (g.serial + 1) birth) with serial := g.serial + 1 }
      (off + i * sp.stride) birth := by
  have hok := h.ok off sp hsp
  obtain ⟨s, hs, h0⟩ := hok.head_free hi
  -- the serial is raised first, so that the new slot does not exceed it
  have hraise : Consistent { g with serial := g.serial + 1 } :=
    h.withSerial fun off i s hat => (h.serial off i s hat).trans (Nat.le_succ _)
  have hnew : (sp.takeSlot i (g.serial + 1) birth).slots[i]? =
      some { s with serial := g.serial + 1, marked := false, birth := birth } :=
    getElem?_modify_self _ hs
  -- the other slots of the span stay
  have hold : ∀ j, j ≠ i →
      (sp.takeSlot i (g.serial + 1) birth).slots[j]? = sp.slots[j]? :=
    fun j hj => getElem?_modify_other _ hj
  have hself := span_update_self (g := g) (·.takeSlot i (g.serial + 1) birth) hsp
  constructor
  · refine hraise.update (f := (·.takeSlot i (g.serial + 1) birth)) hsp
      (hok.takeSlot hi (Nat.succ_ne_zero _)) rfl rfl rfl hroom ?_
    intro j s' hs'
    by_cases hj : j = i
    · subst hj
      rw [hnew] at hs'
      cases hs'
      exact Nat.le_refl _
    · rw [hold j hj] at hs'
      exact (h.serial off j s' ⟨sp, hsp, hs'⟩).trans (Nat.le_succ _)
  · intro off' sp' j s' hsp' hs' h0' _
    by_cases heq : off' = off
    · subst heq
      rw [hsp] at hsp'
      cases hsp'
      have hj : j ≠ i := by
        rintro rfl
        rw [hs] at hs'
        cases hs'
        exact h0' h0
      exact ⟨_, hself, rfl, (hold j hj).trans hs'⟩
    · exact ⟨sp', (span_update_other _ heq).trans hsp', rfl, hs'⟩
  · exact List.Subset.refl _
  · refine ⟨off, _, i, _, hself, hnew, Nat.succ_ne_zero _, rfl, rfl, hw, ?_⟩
    rintro off' j s' ⟨sp', hsp', hs'⟩ _
    by_cases heq : off' = off
    · subst heq
      have he := Option.some.inj (hself.symm.trans hsp')
      rw [← he] at hs'
      by_cases hj : j = i
      · subst hj
        exact .inl ⟨(Option.some.inj (hnew.symm.trans hs')).symm, rfl⟩
      · exact .inr ⟨sp, hsp, (hold j hj).symm.trans hs'⟩
    · exact .inr ⟨sp', (span_update_other _ heq).symm.trans hsp', hs'⟩

/-- `pl_gc2_span_take`, from a span with or without more room afterwards. -/
theorem Consistent.take (h : Consistent g) {birth a : Nat} {g' : Collector} (hw : off ∉ g.work)
    (heq : g.take off birth = (some a, g')) : Takes (fun _ _ => True) g g' a birth := by
  unfold Collector.take at heq
  split at heq
  · cases heq
  · rename_i sp hsp
    split at heq
    · cases heq
    · rename_i i hi
      split at heq
      · simp only [Prod.mk.injEq, Option.some.injEq] at heq
        obtain ⟨rfl, rfl⟩ := heq
        split
        · -- a span without room leaves its list: first, as far as the slots go
          have hcomm := unavailable_update g off (f := (·.takeSlot i (g.serial + 1) birth))
            (n := g.serial + 1) (fun _ => rfl) (fun _ => rfl) fun _ => rfl
          dsimp only at hcomm
          rw [hcomm]
          have hrel := unavailable_relisted g off
          obtain ⟨sp', hsp', he⟩ := hrel.span hsp
          have hfree : Frees (fun _ _ => True) g (g.unavailable off) :=
            ⟨h.unavailable off, hrel.survives _, hrel.origin, unavailable_serial g off,
              by rw [unavailable_work]; exact List.Subset.refl _⟩
          have hflag := unavailable_flag g off hsp'
          have htake := hfree.consistent.updateTake birth hsp' (by rw [he]; exact hi)
            (by rw [hflag]; nofun) (by rwa [unavailable_work])
          rw [unavailable_serial, show sp'.stride = sp.stride by rw [he]] at htake
          exact hfree.takes htake fun _ _ => id
        · rename_i hfull
          exact h.updateTake birth hsp hi (fun _ => hfull) hw
      · cases heq

/-- The size classes are positive and fit a page. -/
theorem mem_classes_le {n : Nat} (h : n ∈ classes) : 0 < n ∧ n ≤ page := by
  revert n
  decide

/-- The stride of a new span fits its extent. -/
theorem stride_fits (klass : Nat) {bytes size : Nat} (hpos : 0 < bytes)
    (hle : Collector.extentBytes size ≤ bytes) :
    0 < classes.getD klass bytes ∧ classes.getD klass bytes ≤ bytes := by
  have hpage : page ≤ bytes := by
    refine Nat.le_trans ?_ hle
    unfold Collector.extentBytes
    split <;> omega
  -- a span of a size class, or one of its own size
  by_cases hk : klass < classes.length
  · rw [List.getD_eq_getElem?_getD, List.getElem?_eq_getElem hk, Option.getD_some]
    obtain ⟨h0, h1⟩ := mem_classes_le (List.getElem_mem hk)
    exact ⟨h0, h1.trans hpage⟩
  · rw [List.getD_eq_getElem?_getD, List.getElem?_eq_none (by omega), Option.getD_none]
    exact ⟨hpos, Nat.le_refl _⟩

/-- A span on a list of spans with room is not queued. -/
theorem Consistent.head_notQueued (h : Consistent g) {klass : Nat}
    (hhead : g.head klass = some off) : off ∉ g.work := by
  unfold Collector.head at hhead
  split at hhead
  · intro hm
    obtain ⟨sp, hsp, ha, -⟩ := (h.listed klass off).mp (List.mem_of_mem_head? hhead)
    obtain ⟨sp', hsp', ha'⟩ := h.queued off hm
    rw [hsp] at hsp'
    cases hsp'
    rw [ha] at ha'
    cases ha'
  · cases hhead

/-- `pl_gc2_alloc` gives a slot that is not queued and keeps what the sweep must keep. -/
theorem Consistent.alloc (h : Consistent g) {cells birth a : Nat} {block : Option (Nat × Nat)}
    {g' : Collector} (hbuddy : BuddyOK g cells block)
    (heq : g.alloc cells birth block = (some a, g')) : Takes (Safe g) g g' a birth := by
  unfold Collector.alloc at heq
  split at heq
  · cases heq
  · -- the span is looked for only after the sweep has gone far enough
    have hassist := Frees.assist h (Collector.classOf (cells * 8)) g.work.length
    simp only at heq
    split at heq
    · rename_i off hhead
      exact hassist.takes (hassist.consistent.take (hassist.consistent.head_notQueued hhead) heq)
        fun _ _ _ => trivial
    · split at heq
      · cases heq
      · rename_i off bytes
        -- no span has room, so one is added
        obtain ⟨hbytes, hapart⟩ := hbuddy
        obtain ⟨hpos, hle⟩ := stride_fits (Collector.classOf (cells * 8)) hapart.1 hbytes
        obtain ⟨hnew, hw, -⟩ := hassist.consistent.newSpan hapart hpos hle
        have htake := hnew.consistent.take (fun hm => hw (hnew.work hm)) heq
        exact (hassist.trans hnew fun _ _ _ => trivial).takes htake fun _ _ _ => trivial

/-- A failed allocation may have swept. -/
theorem Consistent.allocFails (h : Consistent g) {cells birth : Nat} {block : Option (Nat × Nat)}
    {g' : Collector} (hbuddy : BuddyOK g cells block)
    (heq : g.alloc cells birth block = (none, g')) : Frees (Safe g) g g' := by
  -- a span that refuses leaves the collector as the sweep left it
  have hnot : ∀ {g₁ : Collector} {off : Nat}, Frees (Safe g) g g₁ →
      g₁.take off birth = (none, g') → Frees (Safe g) g g' := by
    intro g₁ off hfree htake
    unfold Collector.take at htake
    split at htake
    · cases htake
      exact hfree
    · split at htake
      · cases htake
        exact hfree
      · split at htake
        · cases htake
        · cases htake
          exact hfree
  unfold Collector.alloc at heq
  split at heq
  · cases heq
    exact .refl h
  · have hassist := Frees.assist h (Collector.classOf (cells * 8)) g.work.length
    simp only at heq
    split at heq
    · exact hnot hassist heq
    · split at heq
      · cases heq
        exact hassist
      · obtain ⟨hbytes, hapart⟩ := hbuddy
        obtain ⟨hpos, hle⟩ := stride_fits (Collector.classOf (cells * 8)) hapart.1 hbytes
        obtain ⟨hnew, -, -⟩ := hassist.consistent.newSpan hapart hpos hle
        exact hnot (hassist.trans hnew fun _ _ _ => trivial) heq

/-! ## Rolling back -/

/-- Every queued slot is as old as the checkpoint. -/
def QueueOlder (g : Collector) (checkpoint : Nat) : Prop :=
  ∀ off ∈ g.work, ∀ i s, g.At off i s → s.serial ≤ checkpoint

/-- The slots of a span are as old as the checkpoint. -/
def Collector.Older (g : Collector) (checkpoint off : Nat) : Prop :=
  ∀ i s, g.At off i s → s.serial ≤ checkpoint

/-- Freeing slots makes none younger. -/
theorem Collector.Older.origin {checkpoint : Nat} {g' : Collector} (h : g.Older checkpoint off)
    (hof : Origin g g') : g'.Older checkpoint off := by
  intro i s hs
  by_cases h0 : s.serial = 0
  · omega
  · exact h i s (hof off i s hs h0)

/-- Nor does it queue a span. -/
theorem QueueOlder.frees {checkpoint : Nat} {p : Nat → Slot → Prop} {g' : Collector}
    (h : QueueOlder g checkpoint) (hfree : Frees p g g') : QueueOlder g' checkpoint :=
  fun off hm => Collector.Older.origin (h off (hfree.work hm)) hfree.origin

/-- Rolling back one span frees its younger slots and keeps the rest. -/
theorem rollbackSpan_spec {checkpoint : Nat} (h : Consistent g) (hq : QueueOlder g checkpoint)
    (off : Nat) :
    Frees (fun _ s => s.serial ≤ checkpoint) g (Collector.rollbackSpan checkpoint g off) ∧
      (Collector.rollbackSpan checkpoint g off).Older checkpoint off := by
  unfold Collector.rollbackSpan
  split
  · rename_i hnone
    refine ⟨.refl h, fun i s hs => ?_⟩
    obtain ⟨sp, hsp, -⟩ := hs
    rw [hnone] at hsp
    cases hsp
  · rename_i sp hsp
    split
    · rename_i hany
      -- a span with a younger slot is not queued
      have hw : off ∉ g.work := by
        intro hm
        obtain ⟨s, hs, hafter⟩ := List.any_eq_true.mp hany
        obtain ⟨i, hi⟩ := List.mem_iff_getElem?.mp hs
        have hle := hq off hm i s ⟨sp, hsp, hi⟩
        simp only [Slot.after, decide_eq_true_eq] at hafter
        omega
      obtain ⟨hfree, hnone⟩ := Frees.freeSettle h hw (@after_serial checkpoint)
      refine ⟨hfree.mono fun _ s hle _ => by simpa [Slot.after] using hle, fun i s hs => ?_⟩
      simpa [Slot.after] using hnone i s hs
    · rename_i hany
      refine ⟨.refl h, fun i s hs => ?_⟩
      obtain ⟨sp', hsp', hs⟩ := hs
      rw [hsp] at hsp'
      cases hsp'
      by_contra hlt
      exact hany (List.any_eq_true.mpr ⟨s, List.mem_of_getElem? hs, by
        simpa [Slot.after] using hlt⟩)

/-- And so for a list of spans. By induction on it. -/
theorem rollback_spans {checkpoint : Nat} (l : List Nat) (h : Consistent g)
    (hq : QueueOlder g checkpoint) :
    Frees (fun _ s => s.serial ≤ checkpoint) g
        (l.foldl (Collector.rollbackSpan checkpoint) g) ∧
      ∀ off ∈ l, (l.foldl (Collector.rollbackSpan checkpoint) g).Older checkpoint off := by
  induction l generalizing g with
  | nil => exact ⟨.refl h, nofun⟩
  | cons off l ih =>
    obtain ⟨hfree, hold⟩ := rollbackSpan_spec h hq off
    obtain ⟨hrest, holder⟩ := ih hfree.consistent (hq.frees hfree)
    refine ⟨hfree.trans hrest fun _ _ => id, fun off' hm => ?_⟩
    rcases List.mem_cons.mp hm with rfl | hm
    · exact hold.origin hrest.origin
    · exact holder off' hm

/-- `pl_gc2_rollback` keeps every slot that is as old as its checkpoint. -/
theorem Consistent.rollback {checkpoint : Nat} (h : Consistent g) (hq : QueueOlder g checkpoint) :
    Consistent (g.rollback checkpoint) ∧
    Survives (fun _ s => s.serial ≤ checkpoint) g (g.rollback checkpoint) ∧
    Origin g (g.rollback checkpoint) ∧ (g.rollback checkpoint).work ⊆ g.work := by
  obtain ⟨hfree, hold⟩ := rollback_spans g.spans h hq
  -- every span is listed, so no slot is younger than the serial that comes back
  refine ⟨hfree.consistent.withSerial fun off i s hs => ?_, hfree.survives, hfree.origin,
    hfree.work⟩
  by_cases h0 : s.serial = 0
  · omega
  · obtain ⟨sp, hsp, -⟩ := hfree.origin off i s hs h0
    exact hold off ((h.spans off).mpr (by simp [hsp])) i s hs

end Operations

end Enki.Gc2
