import Enki.Canon.Fresh

/-!
# Tags take turns

The PINs are named in the order of their tags, and each takes the first name that is left.
Names of different tags meet in one place only: what the buffer leaves of a tag (`cut`) may
be the name of a PIN with a tag before it. So what decides whether a tag runs out of names is
how many PINs have it, how many of its candidates the laws have left, and whether its own
name is already lost.
-/

namespace Enki.Canon

/-! ## First come -/

section

variable {α : Type*} [DecidableEq α] {turn : α → Nat} {free held : Finset α}

/-- Where the first ones are taken first, one is taken if fewer come before it than there
are takers. -/
theorem mem_iff_ahead (hsub : held ⊆ free) (hinj : Set.InjOn turn free)
    (hfirst : ∀ n ∈ held, ∀ m ∈ free, turn m < turn n → m ∈ held) {n : α} (hn : n ∈ free) :
    n ∈ held ↔ (free.filter fun m => turn m < turn n).card < held.card := by
  constructor
  · intro hin
    have hss : free.filter (fun m => turn m < turn n) ⊂ held := by
      refine (Finset.ssubset_iff_of_subset fun m hm => ?_).2 ⟨n, hin, by simp⟩
      rw [Finset.mem_filter] at hm
      exact hfirst n hin m hm.1 hm.2
    exact Finset.card_lt_card hss
  · intro hlt
    by_contra hnot
    refine absurd (Finset.card_le_card fun h hh => ?_) (Nat.not_le.mpr hlt)
    rw [Finset.mem_filter]
    refine ⟨hsub hh, ?_⟩
    rcases Nat.lt_trichotomy (turn h) (turn n) with hl | he | hg
    · exact hl
    · exact absurd (hinj (hsub hh) hn he ▸ hh) hnot
    · exact absurd (hfirst h hh n hn hg) hnot

end

/-! ## The order of tags -/

section

variable {s t : Name}

/-- A tag comes before the tags that go on after it. -/
theorem lt_append (s : Name) {u : Name} (hu : u ≠ []) : s < s ++ u := by
  induction s with
  | nil =>
    cases u with
    | nil => exact absurd rfl hu
    | cons b u => exact List.Lex.nil
  | cons b s ih => exact List.Lex.cons ih

theorem lt_of_initial (h : s <+: t) (hne : s ≠ t) : s < t := by
  obtain ⟨u, rfl⟩ := h
  refine lt_append s ?_
  rintro rfl
  simp at hne

end

/-! ## Names in turn -/

/-- The names that `cn_fresh_name` tries, in its order. -/
def tries (base : Name) : List Name :=
  base :: (List.range' 2 suffixCount).map (suffixed base)

/-- When a name is tried. -/
def turn (base name : Name) : Nat := (tries base).idxOf name

/-- The candidates of a tag that are no names of laws. -/
def left (used : List Name) (base : Name) : Finset Name := candidates base \ used.toFinset

/-- What the buffer leaves of a tag. -/
def cut (t : Name) : Name := t.take 255

section

variable {used : List Name} {base name s t n : Name}

theorem mem_tries : n ∈ tries base ↔ n ∈ candidates base := by
  unfold tries candidates suffixCount
  simp only [List.mem_cons, List.mem_map, List.mem_range', Finset.mem_insert, Finset.mem_image,
    Finset.mem_Icc]
  refine or_congr_right ⟨?_, ?_⟩
  · rintro ⟨_, ⟨i, hi, rfl⟩, rfl⟩
    exact ⟨2 + 1 * i, ⟨by omega, by omega⟩, rfl⟩
  · rintro ⟨j, ⟨hj, hj'⟩, rfl⟩
    exact ⟨j, ⟨j - 2, by omega, by omega⟩, rfl⟩

theorem turn_injOn (used : List Name) (base : Name) : Set.InjOn (turn base) (left used base) := by
  intro m hm n _ h
  have hm' : m ∈ tries base := mem_tries.2 (Finset.mem_sdiff.mp hm).1
  exact (List.idxOf_inj hm').1 h

theorem suffixFrom_eq (count i : Nat) : suffixFrom used base count i =
    ((List.range' i count).map (suffixed base)).find? fun n => decide (n ∉ used) := by
  induction count generalizing i with
  | zero => rfl
  | succ count ih =>
    rw [suffixFrom, List.range'_succ, List.map_cons, List.find?_cons]
    by_cases h : suffixed base i ∈ used
    · simp [h, ih]
    · simp [h]

theorem freshName_eq : freshName used base = (tries base).find? fun n => decide (n ∉ used) := by
  rw [freshName, tries, List.find?_cons, suffixFrom_eq]
  by_cases h : base ∈ used <;> simp [h]

/-- Whatever is tried before the name that is taken is in use. -/
theorem freshName_first (h : freshName used base = some name) {m : Name}
    (hlt : turn base m < turn base name) : m ∈ used := by
  rw [freshName_eq, List.find?_eq_some_iff_append] at h
  obtain ⟨hname, pre, post, heq, hpre⟩ := h
  have hnot : name ∉ pre := by
    intro hin
    have := hpre name hin
    rw [hname] at this
    cases this
  unfold turn at hlt
  rw [heq, List.idxOf_append_of_notMem hnot, List.idxOf_cons_self, Nat.add_zero] at hlt
  have hin : m ∈ pre := by
    by_contra hm'
    rw [List.idxOf_append_of_notMem hm'] at hlt
    omega
  simpa using hpre m hin

theorem cut_mem (t : Name) : cut t ∈ candidates t := by
  unfold candidates
  by_cases h : t.length ≤ 255
  · rw [cut, List.take_of_length_le h]
    exact Finset.mem_insert_self ..
  · refine Finset.mem_insert_of_mem (Finset.mem_image.mpr ⟨2, by simp, ?_⟩)
    rw [suffixed, cut, List.take_append_of_le_length (by omega)]

theorem length_cut (t : Name) : (cut t).length ≤ 255 := by
  unfold cut
  rw [List.length_take]
  omega

/-- The candidates of a tag that is too long for the buffer. -/
theorem mem_candidates_long (h : 255 ≤ t.length) (hn : n ∈ candidates t) : n = t ∨ n = cut t := by
  rcases Finset.mem_insert.mp hn with rfl | hn
  · exact .inl rfl
  · obtain ⟨i, -, rfl⟩ := Finset.mem_image.mp hn
    exact .inr (List.take_append_of_le_length h)

theorem decimal_no_underscore (i : Nat) : '_'.toUInt8 ∉ decimal i := fun h =>
  absurd (mem_decimal h) (by decide)

/-- The other candidates of a tag that fits are the tag, an underscore, and something without
one. -/
theorem mem_candidates_short (h : t.length < 255) (hn : n ∈ candidates t) (hne : n ≠ t) :
    ∃ u, n = t ++ '_'.toUInt8 :: u ∧ '_'.toUInt8 ∉ u := by
  obtain ⟨i, -, rfl⟩ := Finset.mem_image.mp ((Finset.mem_insert.mp hn).resolve_left hne)
  refine ⟨(decimal i).take (254 - t.length), ?_, fun hu => decimal_no_underscore i (List.mem_of_mem_take hu)⟩
  rw [suffixed, List.take_append, List.take_of_length_le (by omega),
    show 255 - t.length = (254 - t.length) + 1 by omega, List.take_succ_cons]

/-- What stands before the last underscore. -/
theorem underscore_inj {a b u v : List UInt8} {c : UInt8} (hu : c ∉ u) (hv : c ∉ v)
    (h : a ++ c :: u = b ++ c :: v) : a = b := by
  rcases List.append_eq_append_iff.mp h with ⟨w, rfl, hw⟩ | ⟨w, rfl, hw⟩
  · cases w with
    | nil => simp
    | cons x w =>
      have : c ∈ u := by
        rw [(List.cons.inj hw).2]
        simp
      exact absurd this hu
  · cases w with
    | nil => simp
    | cons x w =>
      have : c ∈ v := by
        rw [(List.cons.inj hw).2]
        simp
      exact absurd this hv

theorem length_le_of_ne (hn : n ∈ candidates t) (hne : n ≠ t) : n.length ≤ 255 := by
  obtain ⟨i, -, rfl⟩ := Finset.mem_image.mp ((Finset.mem_insert.mp hn).resolve_left hne)
  exact length_cut _

/-- A name that two tags have in common is what the buffer leaves of the later one. -/
theorem eq_cut (hlt : s < t) (hs : n ∈ candidates s) (ht : n ∈ candidates t) : n = cut t := by
  have hne : s ≠ t := fun h => List.lt_irrefl t (h ▸ hlt)
  have hpre : ¬ t <+: s := fun h =>
    List.lt_irrefl s (List.lt_trans hlt (lt_of_initial h (Ne.symm hne)))
  by_cases hlen : t.length < 255
  · have hcut : cut t = t := List.take_of_length_le (by omega)
    rw [hcut]
    by_contra hnt
    -- the name is the tag, an underscore and digits: the tag is a prefix of the other one, or
    -- they are equal
    obtain ⟨u, rfl, hu⟩ := mem_candidates_short hlen ht hnt
    by_cases hns : t ++ '_'.toUInt8 :: u = s
    · exact hpre ⟨_, hns⟩
    · by_cases hslen : s.length < 255
      · obtain ⟨v, he, hv⟩ := mem_candidates_short hslen hs hns
        exact hne (underscore_inj hu hv he).symm
      · have he := (mem_candidates_long (by omega) hs).resolve_left hns
        have hcuts : t <+: cut s := ⟨_, he⟩
        exact hpre (hcuts.trans (List.take_prefix ..))
  · rcases mem_candidates_long (by omega) ht with rfl | he
    · have := length_le_of_ne hs (Ne.symm hne)
      exact (List.take_of_length_le this).symm
    · exact he

/-- A tag's own name comes before the names it has in common with later tags. -/
theorem turn_cut_lt (hs : cut t ∈ candidates s) (hne : cut t ≠ cut s) :
    turn s (cut s) < turn s (cut t) := by
  have hst : cut t ≠ s := by
    intro h
    have : cut s = s := List.take_of_length_le (h ▸ length_cut t)
    exact hne (h.trans this.symm)
  by_cases hlen : s.length < 255
  · have hcut : cut s = s := List.take_of_length_le (by omega)
    unfold turn tries
    rw [hcut, List.idxOf_cons_self, List.idxOf_cons_ne _ (Ne.symm hst)]
    exact Nat.succ_pos _
  · exact absurd ((mem_candidates_long (by omega) hs).resolve_left hst) hne

end

/-! ## Runs -/

/-- Tags with the names they got, one after the other, no tag before an earlier one. -/
inductive Turns (used : List Name) : List (Name × Name) → Prop where
  | nil : Turns used []
  | snoc {run : List (Name × Name)} {t n : Name} : Turns used run → (∀ e ∈ run, e.1 ≤ t) →
      freshName (used ++ run.map Prod.snd) t = some n → Turns used (run ++ [(t, n)])

/-- The names that PINs of tag `t` got. -/
def held (run : List (Name × Name)) (t : Name) : Finset Name :=
  ((run.filter fun e => decide (e.1 = t)).map Prod.snd).toFinset

/-- The names that PINs of tags before `t` got. -/
def before (run : List (Name × Name)) (t : Name) : Finset Name :=
  ((run.filter fun e => decide (e.1 < t)).map Prod.snd).toFinset

section

variable {used : List Name} {run : List (Name × Name)} {s t n m : Name}

theorem mem_held : n ∈ held run t ↔ (t, n) ∈ run := by
  unfold held
  simp only [List.mem_toFinset, List.mem_map, List.mem_filter, decide_eq_true_eq]
  constructor
  · rintro ⟨⟨t', n'⟩, ⟨h, rfl⟩, rfl⟩
    exact h
  · exact fun h => ⟨(t, n), ⟨h, rfl⟩, rfl⟩

theorem mem_before : n ∈ before run t ↔ ∃ s, s < t ∧ (s, n) ∈ run := by
  unfold before
  simp only [List.mem_toFinset, List.mem_map, List.mem_filter, decide_eq_true_eq]
  constructor
  · rintro ⟨⟨s, n'⟩, ⟨h, hlt⟩, rfl⟩
    exact ⟨s, hlt, h⟩
  · exact fun ⟨s, hlt, h⟩ => ⟨(s, n), ⟨h, hlt⟩, rfl⟩

namespace Turns

/-- Everyone gets a candidate of its own, no name of a law. -/
theorem mem_left (h : Turns used run) (hin : (t, n) ∈ run) : n ∈ left used t := by
  induction h with
  | nil => cases hin
  | snoc _ _ hf ih =>
    rcases List.mem_append.mp hin with hin | hin
    · exact ih hin
    · cases List.mem_singleton.mp hin
      obtain ⟨hfree, hcand⟩ := freshName_some hf
      rw [List.mem_append, not_or] at hfree
      rw [left, Finset.mem_sdiff, List.mem_toFinset]
      exact ⟨hcand, hfree.1⟩

theorem nodup (h : Turns used run) : (run.map Prod.snd).Nodup := by
  induction h with
  | nil => exact List.nodup_nil
  | snoc _ _ hf ih =>
    obtain ⟨hfree, -⟩ := freshName_some hf
    rw [List.mem_append, not_or] at hfree
    rw [List.map_append, List.map_singleton, List.nodup_append]
    refine ⟨ih, List.nodup_singleton _, ?_⟩
    rintro a ha b hb rfl
    obtain rfl := List.mem_singleton.mp hb
    exact hfree.2 ha

theorem unique (h : Turns used run) (hs : (s, n) ∈ run) (ht : (t, n) ∈ run) : s = t :=
  congrArg Prod.fst (List.inj_on_of_nodup_map h.nodup hs ht rfl)

/-- A name that would have been tried earlier had been taken before. -/
theorem earlier (h : Turns used run) (hin : (t, n) ∈ run) (hm : m ∈ left used t)
    (hlt : turn t m < turn t n) : ∃ s, s ≤ t ∧ (s, m) ∈ run := by
  induction h with
  | nil => cases hin
  | @snoc run t' n' _ hle hf ih =>
    rcases List.mem_append.mp hin with hin | hin
    · obtain ⟨s, hs, hms⟩ := ih hin
      exact ⟨s, hs, List.mem_append_left _ hms⟩
    · cases List.mem_singleton.mp hin
      have hin := freshName_first hf hlt
      rw [left, Finset.mem_sdiff, List.mem_toFinset] at hm
      obtain ⟨⟨s, m'⟩, hms, rfl⟩ := List.mem_map.mp ((List.mem_append.mp hin).resolve_left hm.2)
      exact ⟨s, hle _ hms, List.mem_append_left _ hms⟩

theorem card_held (h : Turns used run) (t : Name) : (held run t).card = (run.map Prod.fst).count t := by
  have hnodup : ((run.filter fun e => decide (e.1 = t)).map Prod.snd).Nodup :=
    h.nodup.sublist (List.filter_sublist.map _)
  rw [held, List.toFinset_card_of_nodup hnodup, List.length_map, List.count, List.countP_map,
    List.countP_eq_length_filter]
  refine congrArg List.length (List.filter_congr fun e _ => ?_)
  simp [beq_eq_decide]

theorem disjoint (h : Turns used run) (t : Name) : Disjoint (held run t) (before run t) := by
  rw [Finset.disjoint_left]
  intro n hn hb
  obtain ⟨s, hlt, hs⟩ := mem_before.1 hb
  exact List.lt_irrefl t (h.unique hs (mem_held.1 hn) ▸ hlt)

/-- The PINs of a tag have the first names that the laws and the tags before it left. -/
theorem held_iff (h : Turns used run) (hn : n ∈ left used t) (hb : n ∉ before run t) :
    n ∈ held run t ↔ ((left used t \ before run t).filter fun m => turn t m < turn t n).card <
      (run.map Prod.fst).count t := by
  rw [← h.card_held t]
  refine mem_iff_ahead (fun m hm => ?_) ((turn_injOn used t).mono ?_) (fun n hn m hm hlt => ?_)
    (Finset.mem_sdiff.mpr ⟨hn, hb⟩)
  · exact Finset.mem_sdiff.mpr ⟨h.mem_left (mem_held.1 hm),
      Finset.disjoint_left.mp (h.disjoint t) hm⟩
  · exact Finset.coe_subset.mpr Finset.sdiff_subset
  · obtain ⟨hm, hmb⟩ := Finset.mem_sdiff.mp hm
    obtain ⟨s, hle, hs⟩ := h.earlier (mem_held.1 hn) hm hlt
    by_cases he : s = t
    · exact mem_held.2 (he ▸ hs)
    · exact absurd (mem_before.2 ⟨s, List.not_le.mp fun hge => he (List.le_antisymm hle hge), hs⟩) hmb

/-- Only one name of a tag can go to the tags before it. -/
theorem before_eq_cut (h : Turns used run) (hn : n ∈ left used t) (hb : n ∈ before run t) :
    n = cut t := by
  obtain ⟨s, hlt, hs⟩ := mem_before.1 hb
  exact eq_cut hlt (Finset.mem_sdiff.mp (h.mem_left hs)).1 (Finset.mem_sdiff.mp hn).1

end Turns

end

/-! ## Lost names -/

/-- The candidates of a tag that the laws left and that are tried before a name. -/
def ahead (used : List Name) (base name : Name) : Finset Name :=
  (left used base).filter fun m => turn base m < turn base name

/-- A tag loses its own name to an earlier tag `s`. -/
inductive Lost (used tags : List Name) : Name → Prop where
  /-- There are more PINs of `s` than candidates before that name. -/
  | taken {s t : Name} : s ∈ tags → s < t → cut t ∈ left used s →
      (ahead used s (cut t)).card < tags.count s → Lost used tags t
  /-- One more PIN of `s` gets that far where `s` has lost its own name. -/
  | pushed {s t : Name} : Lost used tags s → s ∈ tags → s < t → cut t ∈ left used s →
      (ahead used s (cut t)).card ≤ tags.count s → Lost used tags t

/-- Every tag has a candidate for each of its PINs, those not counted that are names of laws
or lost. -/
def Placed (used tags : List Name) : Prop :=
  ∀ t ∈ tags, tags.count t ≤ (left used t).card ∧
    (Lost used tags t → tags.count t < (left used t).card)

/-- All PINs with tags before `t` have their names. -/
def Served (tags : List Name) (run : List (Name × Name)) (t : Name) : Prop :=
  ∀ s, s < t → (run.map Prod.fst).count s = tags.count s

section

variable {used tags : List Name} {run : List (Name × Name)} {s t n : Name}

theorem Served.mono (h : Served tags run t) (hlt : s < t) : Served tags run s :=
  fun r hr => h r (List.lt_trans hr hlt)

theorem Lost.not_used (h : Lost used tags t) : cut t ∉ used := by
  have hleft : ∃ s, cut t ∈ left used s := by
    cases h with
    | taken _ _ hl _ | pushed _ _ _ hl _ => exact ⟨_, hl⟩
  obtain ⟨s, hs⟩ := hleft
  exact fun hin => (Finset.mem_sdiff.mp hs).2 (List.mem_toFinset.mpr hin)

theorem cut_mem_left (h : cut t ∉ used) : cut t ∈ left used t :=
  Finset.mem_sdiff.mpr ⟨cut_mem t, fun hin => h (List.mem_toFinset.mp hin)⟩

namespace Turns

/-- Where `s` has its own name, all that come before a name are free for it. -/
theorem ahead_of_kept (h : Turns used run) (hs : cut s ∉ before run s) (n : Name) :
    (left used s \ before run s).filter (fun m => turn s m < turn s n) = ahead used s n := by
  have : left used s \ before run s = left used s := by
    refine Finset.sdiff_eq_self_of_disjoint (Finset.disjoint_left.mpr fun m hm hb => hs ?_)
    exact h.before_eq_cut hm hb ▸ hb
  rw [this, ahead]

/-- Where it has lost it, the others are. -/
theorem ahead_of_lost (h : Turns used run) (hs : cut s ∈ before run s) (n : Name) :
    (left used s \ before run s).filter (fun m => turn s m < turn s n) =
      (ahead used s n).erase (cut s) := by
  ext m
  simp only [Finset.mem_filter, Finset.mem_sdiff, Finset.mem_erase, ahead]
  constructor
  · rintro ⟨⟨hm, hb⟩, hlt⟩
    exact ⟨fun he => hb (he ▸ hs), hm, hlt⟩
  · rintro ⟨hne, hm, hlt⟩
    exact ⟨⟨hm, fun hb => hne (h.before_eq_cut hm hb)⟩, hlt⟩

/-- A lost name has gone to an earlier tag by the time the tag's turn comes. -/
theorem before_of_lost (h : Turns used run) (hl : Lost used tags t) (hd : Served tags run t) :
    cut t ∈ before run t := by
  induction hl with
  | @taken s t _ hlt hleft hcard =>
    by_cases hs : cut s ∈ before run s
    · by_cases he : cut t = cut s
      · obtain ⟨r, hr, hin⟩ := mem_before.1 hs
        exact mem_before.2 ⟨r, List.lt_trans hr hlt, he ▸ hin⟩
      · have hb : cut t ∉ before run s := fun hb => he (h.before_eq_cut hleft hb)
        refine mem_before.2 ⟨s, hlt, mem_held.1 ((h.held_iff hleft hb).2 ?_)⟩
        rw [h.ahead_of_lost hs, hd s hlt]
        exact (Finset.card_le_card (Finset.erase_subset ..)).trans_lt hcard
    · have hb : cut t ∉ before run s := fun hb => hs (h.before_eq_cut hleft hb ▸ hb)
      refine mem_before.2 ⟨s, hlt, mem_held.1 ((h.held_iff hleft hb).2 ?_)⟩
      rw [h.ahead_of_kept hs, hd s hlt]
      exact hcard
  | @pushed s t hl _ hlt hleft hcard ih =>
    have hs := ih (hd.mono hlt)
    by_cases he : cut t = cut s
    · obtain ⟨r, hr, hin⟩ := mem_before.1 hs
      exact mem_before.2 ⟨r, List.lt_trans hr hlt, he ▸ hin⟩
    · have hb : cut t ∉ before run s := fun hb => he (h.before_eq_cut hleft hb)
      have hmem : cut s ∈ ahead used s (cut t) :=
        Finset.mem_filter.mpr ⟨cut_mem_left hl.not_used,
          turn_cut_lt (Finset.mem_sdiff.mp hleft).1 he⟩
      refine mem_before.2 ⟨s, hlt, mem_held.1 ((h.held_iff hleft hb).2 ?_)⟩
      rw [h.ahead_of_lost hs, hd s hlt, Finset.card_erase_of_mem hmem]
      have := Finset.card_pos.mpr ⟨_, hmem⟩
      omega

/-- A name that has gone to an earlier tag is lost. -/
theorem lost_of_before (h : Turns used run) (hsub : ∀ e ∈ run, e.1 ∈ tags) (hd : Served tags run t)
    (hb : cut t ∈ before run t) : Lost used tags t := by
  -- the induction is on how many tags are before
  induction hk : (tags.toFinset.filter fun s => s < t).card using Nat.strong_induction_on
    generalizing t with
  | h k ih =>
    obtain ⟨s, hlt, hin⟩ := mem_before.1 hb
    have hleft := h.mem_left hin
    have htags : s ∈ tags := hsub _ hin
    have hnb : cut t ∉ before run s :=
      Finset.disjoint_left.mp (h.disjoint s) (mem_held.2 hin)
    have hrank := (h.held_iff hleft hnb).1 (mem_held.2 hin)
    rw [hd s hlt] at hrank
    by_cases hs : cut s ∈ before run s
    · have hfewer : (tags.toFinset.filter fun r => r < s).card < k := by
        rw [← hk]
        refine Finset.card_lt_card ((Finset.ssubset_iff_of_subset fun r hr => ?_).2 ⟨s, ?_, ?_⟩)
        · rw [Finset.mem_filter] at hr ⊢
          exact ⟨hr.1, List.lt_trans hr.2 hlt⟩
        · exact Finset.mem_filter.mpr ⟨List.mem_toFinset.mpr htags, hlt⟩
        · exact fun hs => List.lt_irrefl s (Finset.mem_filter.mp hs).2
      have hls := ih _ hfewer (hd.mono hlt) hs rfl
      refine .pushed hls htags hlt hleft ?_
      rw [h.ahead_of_lost hs] at hrank
      have := Finset.pred_card_le_card_erase (s := ahead used s (cut t)) (a := cut s)
      omega
    · rw [h.ahead_of_kept hs] at hrank
      exact .taken htags hlt hleft hrank

end Turns

end

/-! ## Placed tags -/

section

variable {used tags : List Name} {run : List (Name × Name)} {t : Name}

/-- The PINs of a tag that got names are no more than its candidates. -/
theorem Turns.placed (h : Turns used run) : Placed used (run.map Prod.fst) := by
  intro t _
  have hsub : held run t ⊆ left used t := fun n hn => h.mem_left (mem_held.1 hn)
  rw [← h.card_held t]
  refine ⟨Finset.card_le_card hsub, fun hl => Finset.card_lt_card ?_⟩
  have hb := h.before_of_lost hl fun _ _ => rfl
  exact (Finset.ssubset_iff_of_subset hsub).2 ⟨cut t, cut_mem_left hl.not_used, fun hh =>
    Finset.disjoint_left.mp (h.disjoint t) hh hb⟩

/-- Where all tags are placed, the next PIN gets a name. -/
theorem Turns.next (h : Turns used run) {post : List Name}
    (htags : tags = run.map Prod.fst ++ t :: post) (hsorted : tags.Pairwise (· ≤ ·))
    (hp : Placed used tags) : freshName (used ++ run.map Prod.snd) t ≠ none := by
  intro hnone
  have hin : t ∈ tags := by simp [htags]
  obtain ⟨hle, hlt⟩ := hp t hin
  -- PINs with tags before `t` have had their turn
  have hserved : Served tags run t := by
    intro s hs
    have hpost : (t :: post).count s = 0 := by
      rw [List.count_eq_zero]
      intro hmem
      rw [htags, List.pairwise_append] at hsorted
      rcases List.mem_cons.mp hmem with rfl | hmem
      · exact List.lt_irrefl s hs
      · exact List.not_lt.mpr ((List.pairwise_cons.mp hsorted.2.1).1 s hmem) hs
    rw [htags, List.count_append, hpost, Nat.add_zero]
  have hcount : (run.map Prod.fst).count t < tags.count t := by
    rw [htags, List.count_append, List.count_cons_self]
    omega
  have hsub : left used t ⊆ held run t ∪ (left used t ∩ before run t) := by
    intro n hn
    obtain ⟨hc, hu⟩ := Finset.mem_sdiff.mp hn
    have hmem := (List.mem_append.mp (freshName_none.1 hnone n hc)).resolve_left fun h =>
      hu (List.mem_toFinset.mpr h)
    obtain ⟨⟨s, n'⟩, hs, rfl⟩ := List.mem_map.mp hmem
    have hst : s ≤ t := by
      rw [htags, List.pairwise_append] at hsorted
      exact hsorted.2.2 s (List.mem_map_of_mem hs) t List.mem_cons_self
    by_cases he : s = t
    · exact Finset.mem_union_left _ (mem_held.2 (he ▸ hs))
    · refine Finset.mem_union_right _ (Finset.mem_inter.mpr ⟨hn, mem_before.2 ⟨s, ?_, hs⟩⟩)
      exact List.not_le.mp fun hge => he (List.le_antisymm hst hge)
  have hcard := (Finset.card_le_card hsub).trans (Finset.card_union_le ..)
  rw [h.card_held t] at hcard
  by_cases hb : cut t ∈ before run t
  · have hlost : Lost used tags t := by
      refine h.lost_of_before (fun e he => ?_) hserved hb
      rw [htags]
      exact List.mem_append_left _ (List.mem_map_of_mem he)
    have hone : (left used t ∩ before run t).card ≤ 1 := by
      refine Finset.card_le_one.mpr fun a ha b hb => ?_
      obtain ⟨hal, hab⟩ := Finset.mem_inter.mp ha
      obtain ⟨hbl, hbb⟩ := Finset.mem_inter.mp hb
      exact (h.before_eq_cut hal hab).trans (h.before_eq_cut hbl hbb).symm
    have := hlt hlost
    omega
  · have hnone : left used t ∩ before run t = ∅ := by
      refine Finset.eq_empty_of_forall_notMem fun n hn => hb ?_
      obtain ⟨hl, hn⟩ := Finset.mem_inter.mp hn
      exact h.before_eq_cut hl hn ▸ hn
    rw [hnone, Finset.card_empty] at hcard
    omega

/-- One run after another. -/
theorem nameEach_append {bs bs' : List (PinRef × Name)} :
    nameEach used (bs ++ bs') = (nameEach used bs).bind fun r =>
      (nameEach r.2 bs').map fun r' => (r.1 ++ r'.1, r'.2) := by
  induction bs generalizing used with
  | nil => simp [nameEach]
  | cons b bs ih =>
    obtain ⟨p, base⟩ := b
    simp only [List.cons_append, nameEach, ih, Option.bind_eq_bind, Option.pure_def]
    cases freshName used base with
    | none => rfl
    | some n =>
      simp only [Option.bind_some]
      cases nameEach (used ++ [n]) bs with
      | none => rfl
      | some r => cases hr : nameEach r.2 bs' <;> simp [hr]

/-- PINs that come in the order of their tags take turns, and all get names if and only if
their tags are placed. -/
theorem Turns.nameEach_iff (h : Turns used run) {bs : List (PinRef × Name)}
    (hsorted : (run.map Prod.fst ++ bs.map Prod.snd).Pairwise (· ≤ ·)) :
    (nameEach (used ++ run.map Prod.snd) bs).isSome ↔
      Placed used (run.map Prod.fst ++ bs.map Prod.snd) := by
  induction bs generalizing run with
  | nil =>
    rw [List.map_nil, List.append_nil]
    exact iff_of_true rfl h.placed
  | cons b bs ih =>
    obtain ⟨p, t⟩ := b
    rw [nameEach]
    cases hf : freshName (used ++ run.map Prod.snd) t with
    | none => exact iff_of_false (by simp) fun hp => h.next rfl hsorted hp hf
    | some n =>
      have hle : ∀ e ∈ run, e.1 ≤ t := fun e he =>
        (List.pairwise_append.mp hsorted).2.2 e.1 (List.mem_map_of_mem he) t List.mem_cons_self
      have hrest := ih (h.snoc hle hf) (by simpa using hsorted)
      simp only [List.map_append, List.map_cons, List.map_nil, List.append_assoc,
        List.singleton_append] at hrest
      rw [List.map_cons, ← hrest]
      simp only [Option.bind_eq_bind, Option.bind_some, Option.pure_def, List.append_assoc]
      cases nameEach (used ++ (run.map Prod.snd ++ [n])) bs <;> simp

/-! ## Sufficient conditions -/

theorem Lost.perm {tags' : List Name} (hp : tags.Perm tags') (h : Lost used tags t) :
    Lost used tags' t := by
  induction h with
  | taken hs hlt hl hc => exact .taken (hp.mem_iff.1 hs) hlt hl (hp.count_eq _ ▸ hc)
  | pushed _ hs hlt hl hc ih => exact .pushed ih (hp.mem_iff.1 hs) hlt hl (hp.count_eq _ ▸ hc)

theorem Placed.perm {tags' : List Name} (hp : tags.Perm tags') (h : Placed used tags) :
    Placed used tags' := by
  intro t ht
  obtain ⟨hle, hlt⟩ := h t (hp.mem_iff.2 ht)
  rw [← hp.count_eq]
  exact ⟨hle, fun hl => hlt (hl.perm hp.symm)⟩

/-- Where all tags are different, only one that does not fit the buffer can lose its name. -/
theorem Lost.cut_ne (hd : tags.Nodup) (hfree : ∀ t ∈ tags, t ∉ used) (h : Lost used tags t) :
    cut t ≠ t := by
  induction h with
  | @taken s t hs hlt hl hc =>
    rw [List.count_eq_one_of_mem hd hs, Nat.lt_one_iff, Finset.card_eq_zero] at hc
    -- nothing comes before the name, and it is `s`
    have hcut : cut t = s := by
      by_contra hne
      have hmem : s ∈ ahead used s (cut t) := by
        refine Finset.mem_filter.mpr ⟨Finset.mem_sdiff.mpr ⟨Finset.mem_insert_self .., fun hin =>
          hfree s hs (List.mem_toFinset.mp hin)⟩, ?_⟩
        unfold turn tries
        rw [List.idxOf_cons_self, List.idxOf_cons_ne _ (Ne.symm hne)]
        exact Nat.succ_pos _
      rw [hc] at hmem
      exact absurd hmem (Finset.notMem_empty _)
    exact fun he => List.lt_irrefl s ((hcut.symm.trans he) ▸ hlt)
  | @pushed s t _ hs hlt hl _ ih =>
    intro he
    have hlong : 255 ≤ s.length := by
      by_contra hlen
      exact ih (List.take_of_length_le (by omega))
    have hts : t <+: s := by
      rcases mem_candidates_long hlong (Finset.mem_sdiff.mp hl).1 with hc | hc
      · exact absurd (List.lt_irrefl s) (by rw [← he, hc] at hlt; exact fun h => h hlt)
      · rw [← he, hc]
        exact List.take_prefix ..
    by_cases hne : t = s
    · exact List.lt_irrefl s (hne ▸ hlt)
    · exact List.lt_irrefl s (List.lt_trans hlt (lt_of_initial hts hne))

/-- Different tags that are no names of laws are placed, however long they are. -/
theorem placed_of_distinct (hd : tags.Nodup) (hfree : ∀ t ∈ tags, t ∉ used) : Placed used tags := by
  intro t ht
  have hself : t ∈ left used t := Finset.mem_sdiff.mpr ⟨Finset.mem_insert_self .., fun hin =>
    hfree t ht (List.mem_toFinset.mp hin)⟩
  rw [List.count_eq_one_of_mem hd ht]
  refine ⟨Finset.card_pos.mpr ⟨t, hself⟩, fun hl => ?_⟩
  exact Finset.one_lt_card.mpr ⟨cut t, cut_mem_left hl.not_used, t, hself, hl.cut_ne hd hfree⟩

end

end Enki.Canon
