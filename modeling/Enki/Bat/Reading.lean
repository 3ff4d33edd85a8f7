import Enki.Bat.Layout

/-!
# Reading a byte tree

A cursor that stands at some byte of what a tree denotes: `seek` moves it to any byte,
`read` takes the next bytes from there and is short only where they end. The operators
on byte trees follow.
-/

namespace Enki.Bat

open LittleEndian Silo

/-- The cursor is on spans with the bytes `b`, and `rest` is what is left to read. -/
structure Cursor.At (c : Cursor) (b rest : List UInt8) : Prop where
  holds : c.Holds b
  index : c.index ≤ c.spans.length
  within : ∀ h : c.index < c.spans.length, c.within < c.spans[c.index].length
  done : c.index = c.spans.length → c.within = 0
  rest : (allBytes (c.spans.drop c.index)).drop c.within = rest

/-! ## Seeking -/

theorem seekLoop_spec (spans : List Span) {offset : Nat} (index : Nat)
    (h : offset ≤ spansLength spans) :
    ∃ i within, seekLoop spans offset index = (index + i, within) ∧ i ≤ spans.length ∧
      (∀ hi : i < spans.length, within < spans[i].length) ∧ (i = spans.length → within = 0) ∧
      (allBytes (spans.drop i)).drop within = (allBytes spans).drop offset := by
  induction spans generalizing offset index with
  | nil =>
    have hzero : offset = 0 := by simpa [spansLength] using h
    subst hzero
    exact ⟨0, 0, rfl, le_rfl, by simp, fun _ => rfl, rfl⟩
  | cons s spans ih =>
    rw [seekLoop]
    split_ifs with hskip
    · -- past this span
      have hrest : offset - s.length ≤ spansLength spans := by
        simp only [spansLength, List.map_cons, List.sum_cons] at h ⊢
        omega
      obtain ⟨i, within, heq, hi, hin, hdone, hbytes⟩ := ih (index + 1) hrest
      refine ⟨i + 1, within, by rw [heq, Nat.add_right_comm, Nat.add_assoc], by simpa using hi,
        fun h => hin (by simpa using h), fun h => hdone (by simpa using h), ?_⟩
      have hall : s.all.drop offset = [] := List.drop_of_length_le (by simpa using hskip)
      rw [List.drop_succ_cons, hbytes, allBytes_cons, List.drop_append, hall, List.nil_append,
        Span.length_all]
    · refine ⟨0, offset, rfl, Nat.zero_le _, fun _ => ?_, fun h => ?_, rfl⟩
      · simpa using hskip
      · simp at h

theorem seek_spec {c : Cursor} {b : List UInt8} (hc : c.Holds b) {k : Nat} (hk : k ≤ b.length) :
    ∃ c', seek c k = some c' ∧ c'.At b (b.drop k) := by
  have hle : k ≤ spansLength c.spans := by rwa [← length_allBytes, hc.bytes]
  obtain ⟨i, within, heq, hi, hin, hdone, hbytes⟩ := seekLoop_spec c.spans 0 hle
  rw [Nat.zero_add] at heq
  rw [seek, if_neg (by rw [hc.length]; omega), heq]
  exact ⟨_, rfl, ⟨hc.bytes, hc.length, hc.ok⟩, hi, hin, hdone, by rw [hbytes, hc.bytes]⟩

/-- An opened cursor is at the first byte. -/
theorem Cursor.Opened.at_start {c : Cursor} {b : List UInt8} (hc : c.Opened b) : c.At b b where
  holds := hc.toHolds
  index := by
    rw [hc.index]
    exact Nat.zero_le _
  within := fun h => by
    rw [hc.within]
    exact (hc.ok _ (List.getElem_mem h)).pos
  done := fun _ => hc.within
  rest := by rw [hc.index, hc.within, List.drop_zero, List.drop_zero, hc.bytes]

/-! ## Reading -/

/-- `read` takes the next bytes; there are fewer only at the end. -/
theorem read_spec {c : Cursor} {b rest : List UInt8} (h : c.At b rest) (size : Nat) :
    (read c size).2 = rest.take size ∧ (read c size).1.At b (rest.drop size) := by
  induction hn : c.spans.length - c.index using Nat.strongRecOn generalizing c rest size with
  | _ n ih =>
    subst hn
    rw [read]
    split
    · next hin =>
      obtain ⟨hpos, hlt⟩ := hin
      have hwithin := h.within hlt
      have hok := h.holds.ok _ (List.getElem_mem hlt)
      generalize hs : c.spans[c.index] = s at hwithin hok
      have hspans : c.spans.drop c.index = s :: c.spans.drop (c.index + 1) := by
        rw [← hs, List.drop_eq_getElem_cons hlt]
      have hrest : rest = s.all.drop c.within ++ allBytes (c.spans.drop (c.index + 1)) := by
        rw [← h.rest, hspans, allBytes_cons, List.drop_append_of_le_length (by simp; omega)]
      have hleft : (s.all.drop c.within).length = s.length - c.within := by simp
      simp only
      by_cases hshort : s.length - c.within < size
      · -- the span is used up, and there is room for more
        have hbytes : s.bytes c.within (s.length - c.within) = s.all.drop c.within := by
          rw [Span.bytes_eq s (by omega), List.take_of_length_le (by omega)]
        have hnext : Cursor.At
            { c with position := c.position + (s.length - c.within), index := c.index + 1,
                     within := 0 } b (allBytes (c.spans.drop (c.index + 1))) :=
          ⟨⟨h.holds.bytes, h.holds.length, h.holds.ok⟩, hlt,
            fun hlt' => (h.holds.ok _ (List.getElem_mem hlt')).pos, fun _ => rfl, rfl⟩
        rw [if_pos hshort, if_pos (by omega)]
        obtain ⟨htake, hdrop⟩ := ih _ (by simp only; omega) hnext (size - (s.length - c.within)) rfl
        rw [hbytes, htake, hrest, List.take_append, List.drop_append, hleft,
          List.take_of_length_le (l := s.all.drop c.within) (by omega),
          List.drop_of_length_le (l := s.all.drop c.within) (by omega)]
        exact ⟨rfl, hdrop⟩
      · -- the output is full
        have hbytes : s.bytes c.within size = (s.all.drop c.within).take size :=
          Span.bytes_eq s (by omega)
        have htake : rest.take size = (s.all.drop c.within).take size := by
          rw [hrest, List.take_append_of_le_length (by omega)]
        rw [if_neg hshort]
        split_ifs with hfull
        · -- and so is the span
          have hnext : Cursor.At
              { c with position := c.position + size, index := c.index + 1, within := 0 } b
              (allBytes (c.spans.drop (c.index + 1))) :=
            ⟨⟨h.holds.bytes, h.holds.length, h.holds.ok⟩, hlt,
              fun hlt' => (h.holds.ok _ (List.getElem_mem hlt')).pos, fun _ => rfl, rfl⟩
          obtain ⟨hnil, hdrop⟩ := ih _ (by simp only; omega) hnext (size - size) rfl
          have hend : rest.drop size = allBytes (c.spans.drop (c.index + 1)) := by
            rw [hrest, List.drop_left' (by omega)]
          rw [Nat.sub_self, List.drop_zero] at hdrop
          rw [Nat.sub_self, List.take_zero] at hnil
          rw [Nat.sub_self, hnil, hbytes, htake, hend, List.append_nil]
          exact ⟨rfl, hdrop⟩
        · refine ⟨by rw [hbytes, htake], ⟨h.holds.bytes, h.holds.length, h.holds.ok⟩, h.index,
            fun hlt' => ?_, fun heq => ?_, ?_⟩
          · simp only [hs]
            omega
          · simp only at heq
            omega
          · rw [← h.rest, List.drop_drop]
    · next hin =>
      -- nothing asked for, or nothing left
      rcases Nat.eq_zero_or_pos size with rfl | hpos
      · exact ⟨rfl, by simpa using h⟩
      · have hend : c.index = c.spans.length := by
          have := h.index
          omega
        have hnil : rest = [] := by
          rw [← h.rest, hend, List.drop_length, allBytes_nil, List.drop_nil]
        subst hnil
        exact ⟨by simp, by simpa using h⟩

/-- One read after the other. -/
def reads (c : Cursor) : List Nat → List (List UInt8)
  | [] => []
  | size :: sizes => (read c size).2 :: reads (read c size).1 sizes

/-- Bytes cut into pieces of the given sizes; a piece is short where the bytes end. -/
def cut (b : List UInt8) : List Nat → List (List UInt8)
  | [] => []
  | size :: sizes => b.take size :: cut (b.drop size) sizes

theorem reads_eq {c : Cursor} {b rest : List UInt8} (h : c.At b rest) (sizes : List Nat) :
    reads c sizes = cut rest sizes := by
  induction sizes generalizing c rest with
  | nil => rfl
  | cons size sizes ih =>
    obtain ⟨htake, hdrop⟩ := read_spec h size
    rw [reads, cut, htake, ih hdrop]

/-! ## Operators -/

theorem eqLoop_spec {fuel : Nat} {c d : Cursor} {b b' rest rest' : List UInt8} (hc : c.At b rest)
    (hd : d.At b' rest') (hlen : rest.length = rest'.length) (hfuel : rest.length < fuel) :
    eqLoop fuel c d = true ↔ rest = rest' := by
  induction fuel generalizing c d rest rest' with
  | zero => omega
  | succ fuel ih =>
    obtain ⟨htake, hdrop⟩ := read_spec hc 16384
    simp only [eqLoop, htake]
    split_ifs with hzero heq
    · -- nothing left of either
      have hnil : rest = [] := by
        rw [List.length_take] at hzero
        exact List.length_eq_zero_iff.mp (by omega)
      subst hnil
      exact ⟨fun _ => (List.length_eq_zero_iff.mp hlen.symm).symm, fun _ => rfl⟩
    · obtain ⟨htake', hdrop'⟩ := read_spec hd (rest.take 16384).length
      rw [htake'] at heq
      obtain ⟨-, hsame⟩ := heq
      rw [List.length_take] at hzero
      have hcut : rest.drop 16384 = rest.drop (rest.take 16384).length := by
        rw [List.length_take]
        rcases Nat.le_total 16384 rest.length with h | h
        · rw [Nat.min_eq_left h]
        · rw [Nat.min_eq_right h, List.drop_length, List.drop_of_length_le h]
      rw [ih hdrop hdrop' (by simp only [List.length_drop, List.length_take]; omega)
        (by rw [List.length_drop]; omega), hcut]
      constructor
      · intro h
        have htaken : rest.take (rest.take 16384).length = rest.take 16384 := by
          rw [List.length_take, ← List.take_take, List.take_length]
        have hfirst := htaken.trans hsame
        calc rest = rest.take (rest.take 16384).length ++ rest.drop (rest.take 16384).length :=
              (List.take_append_drop _ _).symm
          _ = rest'.take (rest.take 16384).length ++ rest'.drop (rest.take 16384).length := by
              rw [h, hfirst]
          _ = rest' := List.take_append_drop _ _
      · rintro rfl
        rfl
    · obtain ⟨htake', hdrop'⟩ := read_spec hd (rest.take 16384).length
      rw [htake'] at heq
      simp only [false_iff]
      rintro rfl
      refine heq ⟨by simp, ?_⟩
      rw [List.length_take, ← List.take_take, List.take_length]

theorem hashLoop_spec {fuel : Nat} {c : Cursor} {b rest : List UInt8} (hc : c.At b rest)
    (hfuel : rest.length < fuel) : hashLoop fuel c = rest := by
  induction fuel generalizing c rest with
  | zero => omega
  | succ fuel ih =>
    obtain ⟨htake, hdrop⟩ := read_spec hc 16384
    simp only [hashLoop, htake]
    split_ifs with hzero
    · rw [List.length_take] at hzero
      exact (List.length_eq_zero_iff.mp (by omega)).symm
    · rw [List.length_take] at hzero
      rw [ih hdrop (by rw [List.length_drop]; omega), List.take_append_drop]

/-- `BatEq` compares what two trees denote; a malformed one equals nothing. -/
theorem opBateq_iff {v w : Val} : opBateq v w = true ↔
    ∃ b p q, Denotes v b p ∧ p ≤ uint64Max ∧ Denotes w b q ∧ q ≤ uint64Max := by
  constructor
  · intro h
    unfold opBateq at h
    split at h
    · cases h
    next a ha =>
      split at h
      · cases h
      next d hd =>
        obtain ⟨b, p, hdv, hp, hc⟩ := batOpen_sound ha
        obtain ⟨b', q, hdw, hq, hc'⟩ := batOpen_sound hd
        split_ifs at h with hlen
        rw [hc.length, hc'.length] at hlen
        have hsame := (eqLoop_spec hc.at_start hc'.at_start hlen (by rw [hc.length]; omega)).mp h
        subst hsame
        exact ⟨b, p, q, hdv, hp, hdw, hq⟩
  · rintro ⟨b, p, q, hdv, hp, hdw, hq⟩
    obtain ⟨a, ha, hc⟩ := batOpen_complete hdv hp
    obtain ⟨d, hd, hc'⟩ := batOpen_complete hdw hq
    rw [opBateq, ha, hd]
    simp only
    rw [if_pos (by rw [hc.length, hc'.length])]
    exact (eqLoop_spec hc.at_start hc'.at_start rfl (by rw [hc.length]; omega)).mpr rfl

theorem opStrtree_ok {v : Val} {b : List UInt8} {p : Nat} (hd : Denotes v b p)
    (hp : p ≤ uint64Max) : opStrtree v =
      if b.length > maxNatBytes then .error "StrTree: output too large" else .ok (toNat b) := by
  obtain ⟨c, h, hc⟩ := batOpen_complete hd hp
  have hread := (read_spec hc.at_start c.length).1
  rw [hc.length, List.take_length] at hread
  rw [opStrtree, h]
  simp only [hc.length, hread]

theorem opBathash_ok {v : Val} {b : List UInt8} {p : Nat} (sha256 : List UInt8 → Hash)
    (hd : Denotes v b p) (hp : p ≤ uint64Max) :
    opBathash sha256 v = .ok (toNat ((sha256 b).bytes ++ [1])) := by
  obtain ⟨c, h, hc⟩ := batOpen_complete hd hp
  rw [opBathash, h]
  simp only
  rw [hashLoop_spec hc.at_start (by rw [hc.length]; omega)]

theorem batOpen_none {v : Val} (h : ¬ ∃ b p, Denotes v b p ∧ p ≤ uint64Max) :
    batOpen v = none := by
  rw [← batOpen_iff] at h
  cases hv : batOpen v with
  | none => rfl
  | some c => exact absurd ⟨c, hv⟩ h

/-- The cursor reads what a tree denotes, from any byte on and in pieces of any size, and
the operators are functions of that. -/
theorem bat_cursor (t : Val) :
    ((∃ c, batOpen t = some c) ↔ ∃ b p, Denotes t b p ∧ p ≤ uint64Max) ∧
      (∀ c b p, batOpen t = some c → Denotes t b p →
        c.length = b.length ∧
          ∀ k, if k ≤ b.length then
              ∃ c', seek c k = some c' ∧ ∀ sizes, reads c' sizes = cut (b.drop k) sizes
            else seek c k = none) ∧
      (∀ u, opBateq t u = true ↔
        ∃ b p q, Denotes t b p ∧ p ≤ uint64Max ∧ Denotes u b q ∧ q ≤ uint64Max) ∧
      (∀ b p, Denotes t b p → p ≤ uint64Max → opStrtree t =
        if b.length > maxNatBytes then .error "StrTree: output too large" else .ok (toNat b)) ∧
      ((¬ ∃ b p, Denotes t b p ∧ p ≤ uint64Max) → opStrtree t = .ok 0) := by
  refine ⟨batOpen_iff, ?_, fun u => opBateq_iff, fun b p => opStrtree_ok, ?_⟩
  · intro c b p h hd
    have hc := batOpen_opened hd h
    refine ⟨hc.length, fun k => ?_⟩
    split_ifs with hk
    · obtain ⟨c', hseek, hat⟩ := seek_spec hc.toHolds hk
      exact ⟨c', hseek, reads_eq hat⟩
    · rw [seek, if_pos (by rw [hc.length]; omega)]
  · intro h
    rw [opStrtree, batOpen_none h]

/-- A tree that denotes more bytes than a natural may have opens, and is no natural. -/
theorem opStrtree_too_large :
    let t := row 0 [tag "repeat", .nat 0, .nat (maxNatBytes + 1)]
    Denotes t (List.replicate (maxNatBytes + 1) 0) (maxNatBytes + 1) ∧
      maxNatBytes + 1 ≤ uint64Max ∧ opStrtree t = .error "StrTree: output too large" := by
  intro t
  have hd : Denotes t (List.replicate (maxNatBytes + 1) 0) (maxNatBytes + 1) :=
    .repeat (by decide)
  refine ⟨hd, by decide, ?_⟩
  rw [opStrtree_ok hd (by decide), if_pos (by rw [List.length_replicate]; omega)]

end Enki.Bat
