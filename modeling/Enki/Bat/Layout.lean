import Enki.Bat.Cursor
import Enki.Silo.Natural

/-!
# What a byte tree denotes

`Denotes t b p`: the tree `t` is well formed, its bounds are consistent, and it stands
for the bytes `b`; `p` is the greatest length there is on the way when it is laid out
from left to right, ranges before they are cropped. `pl_bat_open` succeeds exactly on
the trees with such a `b` whose `p` a `uint64_t` holds, and the spans it leaves have
the bytes `b` (`batOpen_iff`).
-/

namespace Enki.Bat

open LittleEndian Silo

/-- A row of a byte tree. -/
def row (need : Nat) (args : List Val) : Val := .app need (.nat 0) args

/-- The bytes of a tree, and the greatest length on the way to them. -/
inductive Denotes : Val → List UInt8 → Nat → Prop where
  | cat {need l r a b p q} : Denotes l a p → Denotes r b q →
    Denotes (row need [tag "cat", l, r]) (a ++ b) (max p (a.length + q))
  | bat {need len t a p} : Denotes t a p → a.length = len → len ≤ uint64Max →
    Denotes (row need [tag "bat", .nat len, t]) a p
  | range {need off len t a p} : Denotes t a p → off ≤ uint64Max → len ≤ uint64Max →
    off + len ≤ a.length →
    Denotes (row need [tag "range", t, .nat off, .nat len]) ((a.drop off).take len) p
  | repeat {need n len} : len ≤ uint64Max →
    Denotes (row need [tag "repeat", .nat n, .nat len]) (List.replicate len (natByteAt n 0)) len
  | text {need src n} : textSource src = some n →
    Denotes (row need [tag "text", src]) (natByteRange n 0 (byteLen n)) (byteLen n)
  | slice {need src n off len} : textSource src = some n → off ≤ uint64Max → len ≤ uint64Max →
    Denotes (row need [tag "slice", src, .nat off, .nat len]) (natByteRange n off len) len

/-- The bytes are there on the way. -/
theorem Denotes.length_le {t : Val} {b : List UInt8} {p : Nat} (h : Denotes t b p) :
    b.length ≤ p := by
  induction h with
  | cat _ _ ihl ihr =>
    rw [List.length_append]
    omega
  | bat _ _ _ ih => exact ih
  | range _ _ _ _ ih =>
    rw [List.length_take, List.length_drop]
    omega
  | «repeat» _ => simp
  | text _ => simp
  | slice _ _ _ => simp

/-! ## Spans -/

/-- The bytes of a span. -/
def Span.all (s : Span) : List UInt8 := s.bytes 0 s.length

/-- The bytes of spans. -/
def allBytes (spans : List Span) : List UInt8 := spans.flatMap Span.all

/-- A span has bytes, and those of a natural are there. -/
structure Span.Ok (s : Span) : Prop where
  pos : 0 < s.length
  source : s.source ≠ 0 → s.offset + s.length ≤ byteLen s.source

@[simp] theorem Span.length_bytes (s : Span) (i n : Nat) : (s.bytes i n).length = n := by
  unfold Span.bytes
  split <;> simp

@[simp] theorem Span.length_all (s : Span) : s.all.length = s.length := s.length_bytes 0 _

theorem Span.bytes_add (s : Span) (i m n : Nat) :
    s.bytes i (m + n) = s.bytes i m ++ s.bytes (i + m) n := by
  unfold Span.bytes
  split
  · exact List.replicate_add _ _ _
  · rw [natByteRange_add, Nat.add_assoc]

/-- Part of a span. -/
theorem Span.bytes_eq (s : Span) {i n : Nat} (h : i + n ≤ s.length) :
    s.bytes i n = (s.all.drop i).take n := by
  obtain ⟨k, hk⟩ := Nat.exists_eq_add_of_le h
  have hall : s.all = s.bytes 0 i ++ (s.bytes i n ++ s.bytes (i + n) k) := by
    rw [Span.all, hk, Span.bytes_add, Span.bytes_add, Nat.zero_add, Nat.zero_add, List.append_assoc]
  rw [hall, List.drop_left' (by simp), List.take_left' (by simp)]

@[simp] theorem allBytes_nil : allBytes [] = [] := rfl

@[simp] theorem allBytes_cons (s : Span) (spans : List Span) :
    allBytes (s :: spans) = s.all ++ allBytes spans := rfl

@[simp] theorem allBytes_append (spans spans' : List Span) :
    allBytes (spans ++ spans') = allBytes spans ++ allBytes spans' := List.flatMap_append

theorem length_allBytes (spans : List Span) : (allBytes spans).length = spansLength spans := by
  induction spans with
  | nil => rfl
  | cons s spans ih => simp [ih, spansLength]

/-- A span cut down to some of its bytes. -/
theorem Span.Ok.part {s : Span} (hs : s.Ok) {skip n : Nat} (hn : 0 < n) (hle : skip + n ≤ s.length) :
    Span.Ok { s with offset := s.offset + skip, length := n } ∧
      Span.all { s with offset := s.offset + skip, length := n } = (s.all.drop skip).take n := by
  refine ⟨⟨hn, fun h => ?_⟩, ?_⟩
  · have := hs.source h
    simp only
    omega
  · rw [← Span.bytes_eq s hle]
    simp only [Span.all, Span.bytes, Nat.add_zero]

/-- Cropping spans crops their bytes. -/
theorem cropSpans_spec {spans : List Span} (hok : ∀ s ∈ spans, s.Ok) (skip remain : Nat) :
    allBytes (cropSpans skip remain spans) = ((allBytes spans).drop skip).take remain ∧
      ∀ s ∈ cropSpans skip remain spans, s.Ok := by
  induction spans generalizing skip remain with
  | nil => simp [cropSpans]
  | cons s spans ih =>
    have hs := hok s List.mem_cons_self
    have hrest := fun skip remain => ih (fun x hx => hok x (List.mem_cons_of_mem _ hx)) skip remain
    simp only [cropSpans, allBytes_cons]
    split_ifs with hzero hskip hlong
    · simp [hzero]
    · -- the span is skipped
      obtain ⟨hbytes, hoks⟩ := hrest (skip - s.length) remain
      have hnil : s.all.drop skip = [] := List.drop_of_length_le (by simpa using hskip)
      refine ⟨?_, hoks⟩
      rw [hbytes, List.drop_append, hnil, List.nil_append, Span.length_all]
    · -- the range ends in this span
      obtain ⟨hpart, hall⟩ := @Span.Ok.part _ hs skip remain (by omega) (by omega)
      have hnil : cropSpans 0 (remain - remain) spans = [] := by
        rw [Nat.sub_self]
        cases spans <;> simp [cropSpans]
      simp only [hnil, allBytes_cons, hall]
      refine ⟨?_, by simpa using hpart⟩
      rw [List.drop_append_of_le_length (by simp; omega),
        List.take_append_of_le_length (by simp; omega)]
      simp
    · -- the rest of the span, and then on
      obtain ⟨hpart, hall⟩ := @Span.Ok.part _ hs skip (s.length - skip) (by omega) (by omega)
      obtain ⟨hbytes, hoks⟩ := hrest 0 (remain - (s.length - skip))
      have hlen : (s.all.drop skip).length = s.length - skip := by simp
      have hself : (s.all.drop skip).take (s.length - skip) = s.all.drop skip :=
        List.take_of_length_le (by omega)
      have hshort : (s.all.drop skip).take remain = s.all.drop skip :=
        List.take_of_length_le (by omega)
      simp only [allBytes_cons, hall, hbytes, List.drop_zero]
      refine ⟨?_, ?_⟩
      · rw [List.drop_append_of_le_length (by simp; omega), List.take_append, hlen, hself, hshort]
      · rintro x (_ | ⟨_, hx⟩)
        · exact hpart
        · exact hoks x hx

/-! ## One node -/

/-- A cursor with spans added. -/
def Cursor.append (c : Cursor) (spans : List Span) : Cursor :=
  { c with spans := c.spans ++ spans, length := c.length + spansLength spans }

@[simp] theorem Cursor.append_nil (c : Cursor) : c.append [] = c := by
  simp [Cursor.append, spansLength]

theorem Cursor.append_append (c : Cursor) (ss ss' : List Span) :
    (c.append ss).append ss' = c.append (ss ++ ss') := by
  simp [Cursor.append, spansLength, Nat.add_assoc]

@[simp] theorem Cursor.length_append (c : Cursor) (ss : List Span) :
    (c.append ss).length = c.length + (allBytes ss).length := by
  rw [length_allBytes]
  rfl

/-- The span `bat_span` adds; none for no bytes. -/
def spanOf (source off len : Nat) (byte : UInt8) : List Span :=
  if len = 0 then [] else [⟨source, off, len, byte⟩]

@[simp] theorem length_spanOf (source off len : Nat) (byte : UInt8) :
    spansLength (spanOf source off len byte) = len := by
  unfold spanOf
  split_ifs with h
  · exact h.symm
  · simp [spansLength]

theorem batSpan_iff {c c' : Cursor} {source off len : Nat} {byte : UInt8}
    (hc : c.length ≤ uint64Max) :
    batSpan c source off len byte = some c' ↔
      c.length + len ≤ uint64Max ∧ c' = c.append (spanOf source off len byte) := by
  unfold batSpan
  split_ifs with hzero hlong
  · simp [spanOf, hzero, hc, eq_comm]
  · simp only [false_iff, not_and]
    intro h
    omega
  · have hfits : c.length + len ≤ uint64Max := by omega
    simp [spanOf, hzero, hfits, Cursor.append, spansLength, eq_comm]

/-- The spans of a text or of a slice. -/
def textSpans (n off len : Nat) : List Span :=
  let available := min (byteLen n - off) len
  spanOf n off available 0 ++ spanOf 0 0 (len - available) 0

theorem layText_iff {c c' : Cursor} {n off len : Nat} (hc : c.length ≤ uint64Max) :
    layText c n off len = some c' ↔
      c.length + len ≤ uint64Max ∧ c' = c.append (textSpans n off len) := by
  have havail : (if (if off < byteLen n then byteLen n - off else 0) > len then len
      else if off < byteLen n then byteLen n - off else 0) = min (byteLen n - off) len := by
    split_ifs <;> omega
  simp only [layText, havail, Option.bind_eq_bind, Option.bind_eq_some_iff, batSpan_iff hc]
  constructor
  · rintro ⟨c₁, ⟨hfits, rfl⟩, h⟩
    have hlen : (c.append (spanOf n off (min (byteLen n - off) len) 0)).length
        = c.length + min (byteLen n - off) len := by
      simp [Cursor.append]
    rw [batSpan_iff (by omega), hlen] at h
    obtain ⟨hrest, rfl⟩ := h
    exact ⟨by omega, Cursor.append_append _ _ _⟩
  · rintro ⟨hfits, rfl⟩
    have hlen : (c.append (spanOf n off (min (byteLen n - off) len) 0)).length
        = c.length + min (byteLen n - off) len := by
      simp [Cursor.append]
    refine ⟨_, ⟨by omega, rfl⟩, ?_⟩
    rw [batSpan_iff (by omega), hlen]
    exact ⟨by omega, (Cursor.append_append _ _ _).symm⟩

/-- Past its last byte a natural has zeros. -/
theorem natByteRange_past {n off : Nat} (h : byteLen n ≤ off) (len : Nat) :
    natByteRange n off len = List.replicate len 0 := by
  have hzero : n / 256 ^ off = 0 :=
    Nat.div_eq_of_lt (lt_of_lt_of_le (lt_pow_byteLen n) (Nat.pow_le_pow_right (by decide) h))
  have hall : ∀ b ∈ bytes len 0, b = 0 := by
    rw [bytes_eq_map_range]
    intro b hb
    obtain ⟨i, -, rfl⟩ := List.mem_map.mp hb
    simp
  rw [natByteRange_eq_bytes, hzero]
  exact List.eq_replicate_iff.mpr ⟨length_bytes _ _, hall⟩

/-- A byte over and over. -/
theorem fill_spec (len : Nat) (byte : UInt8) :
    allBytes (spanOf 0 0 len byte) = List.replicate len byte ∧
      ∀ s ∈ spanOf 0 0 len byte, s.Ok := by
  unfold spanOf
  split_ifs with hzero
  · simp [hzero]
  · simp only [allBytes_cons, allBytes_nil, List.append_nil, List.mem_singleton, forall_eq]
    exact ⟨by simp [Span.all, Span.bytes], by simp; omega, fun h => absurd rfl h⟩

theorem textSpans_spec (n off len : Nat) :
    allBytes (textSpans n off len) = natByteRange n off len ∧ ∀ s ∈ textSpans n off len, s.Ok := by
  have hrange : ∀ k, off + k ≤ byteLen n ∨ k = 0 →
      allBytes (spanOf n off k 0) = natByteRange n off k ∧ ∀ s ∈ spanOf n off k 0, s.Ok := by
    intro k hk
    unfold spanOf
    split_ifs with hzero
    · subst hzero
      exact ⟨rfl, by simp⟩
    · have hne : n ≠ 0 := by
        rintro rfl
        have : byteLen 0 = 0 := byteLen_eq_zero_iff.2 rfl
        omega
      simp only [allBytes_cons, allBytes_nil, List.append_nil, List.mem_singleton, forall_eq]
      exact ⟨by simp [Span.all, Span.bytes, hne], by simp; omega, fun _ => by simp; omega⟩
  obtain ⟨hfirst, hok⟩ := hrange (min (byteLen n - off) len) (by omega)
  obtain ⟨hsecond, hok'⟩ := fill_spec (len - min (byteLen n - off) len) 0
  refine ⟨?_, ?_⟩
  · rw [textSpans, allBytes_append, hfirst, hsecond]
    by_cases hlong : len ≤ byteLen n - off
    · simp [Nat.min_eq_right hlong]
    · rw [← @natByteRange_past n (off + min (byteLen n - off) len) (by omega),
        ← natByteRange_add]
      congr 1
      omega
  · intro s hs
    rcases List.mem_append.mp hs with h | h
    · exact hok s h
    · exact hok' s h

/-- What a node does to the cursor, and the tasks it pushes. -/
inductive Opens (c : Cursor) : Val → Cursor → List Task → Prop where
  | cat {need l r} : Opens c (row need [tag "cat", l, r]) c [.node l, .node r]
  | bat {need len t} : len ≤ uint64Max →
    Opens c (row need [tag "bat", .nat len, t]) c [.node t, .check c.length len]
  | range {need off len t} : off ≤ uint64Max → len ≤ uint64Max →
    Opens c (row need [tag "range", t, .nat off, .nat len]) c
      [.node t, .crop c.length off len c.spans.length]
  | repeat {need n len} : len ≤ uint64Max → c.length + len ≤ uint64Max →
    Opens c (row need [tag "repeat", .nat n, .nat len])
      (c.append (spanOf 0 0 len (natByteAt n 0))) []
  | text {need src n} : textSource src = some n → c.length + byteLen n ≤ uint64Max →
    Opens c (row need [tag "text", src]) (c.append (textSpans n 0 (byteLen n))) []
  | slice {need src n off len} : textSource src = some n → off ≤ uint64Max → len ≤ uint64Max →
    c.length + len ≤ uint64Max →
    Opens c (row need [tag "slice", src, .nat off, .nat len]) (c.append (textSpans n off len)) []

theorem batSize_eq_some {v : Val} {n : Nat} : batSize v = some n ↔ v = .nat n ∧ n ≤ uint64Max := by
  cases v with
  | nat m =>
    simp only [batSize, Option.ite_none_left_eq_some, Option.some.injEq, Val.nat.injEq]
    constructor
    · rintro ⟨hle, rfl⟩
      exact ⟨rfl, by omega⟩
    · rintro ⟨rfl, hle⟩
      exact ⟨by omega, rfl⟩
  | _ => simp [batSize]

theorem batSize_nat {n : Nat} (h : n ≤ uint64Max) : batSize (.nat n) = some n :=
  batSize_eq_some.2 ⟨rfl, h⟩

/-- Rows of one length have different tags. -/
theorem tags_distinct : tag "bat" ≠ tag "cat" ∧ tag "repeat" ≠ tag "cat" ∧
    tag "repeat" ≠ tag "bat" ∧ tag "slice" ≠ tag "range" := by
  decide +kernel

theorem openNode_iff {c c' : Cursor} {v : Val} {tasks : List Task} (hc : c.length ≤ uint64Max) :
    openNode c v = some (c', tasks) ↔ Opens c v c' tasks := by
  constructor
  · intro h
    unfold openNode at h
    split at h
    · split_ifs at h with hcat hbat hrep
      · subst hcat
        cases h
        exact .cat
      · subst hbat
        obtain ⟨len, hlen, heq⟩ := Option.map_eq_some_iff.mp h
        obtain ⟨rfl, hle⟩ := batSize_eq_some.1 hlen
        cases heq
        exact .bat hle
      · subst hrep
        split at h
        · obtain ⟨len, hlen, h⟩ := Option.bind_eq_some_iff.mp h
          obtain ⟨c₁, hspan, h⟩ := Option.bind_eq_some_iff.mp h
          obtain ⟨rfl, hle⟩ := batSize_eq_some.1 hlen
          obtain ⟨hfits, rfl⟩ := (batSpan_iff hc).mp hspan
          cases h
          exact .repeat hle hfits
        · cases h
    · split_ifs at h with hrange hslice
      · subst hrange
        obtain ⟨len, hlen, h⟩ := Option.bind_eq_some_iff.mp h
        obtain ⟨off, hoff, heq⟩ := Option.bind_eq_some_iff.mp h
        obtain ⟨rfl, hle⟩ := batSize_eq_some.1 hlen
        obtain ⟨rfl, hoffle⟩ := batSize_eq_some.1 hoff
        cases heq
        exact .range hoffle hle
      · subst hslice
        obtain ⟨n, hn, h⟩ := Option.bind_eq_some_iff.mp h
        obtain ⟨off, hoff, h⟩ := Option.bind_eq_some_iff.mp h
        obtain ⟨len, hlen, h⟩ := Option.bind_eq_some_iff.mp h
        obtain ⟨c₁, hlay, h⟩ := Option.bind_eq_some_iff.mp h
        obtain ⟨rfl, hoffle⟩ := batSize_eq_some.1 hoff
        obtain ⟨rfl, hle⟩ := batSize_eq_some.1 hlen
        obtain ⟨hfits, rfl⟩ := (layText_iff hc).mp hlay
        cases h
        exact .slice hn hoffle hle hfits
    · split_ifs at h with htext
      subst htext
      obtain ⟨n, hn, h⟩ := Option.bind_eq_some_iff.mp h
      obtain ⟨c₁, hlay, h⟩ := Option.bind_eq_some_iff.mp h
      obtain ⟨hfits, rfl⟩ := (layText_iff hc).mp hlay
      cases h
      exact .text hn hfits
    · cases h
  · obtain ⟨hbat, hrep, hrep', hslice⟩ := tags_distinct
    intro h
    cases h with
    | cat => simp [openNode, row]
    | bat hle => simp [openNode, row, hbat, batSize, hle]
    | range hoff hle => simp [openNode, row, batSize_nat hoff, batSize_nat hle]
    | «repeat» hle hfits =>
      simp [openNode, row, hrep, hrep', batSize_nat hle, (batSpan_iff hc).mpr ⟨hfits, rfl⟩]
    | text hn hfits => simp [openNode, row, hn, (layText_iff hc).mpr ⟨hfits, rfl⟩]
    | slice hn hoff hle hfits =>
      simp [openNode, row, hslice, hn, batSize_nat hoff, batSize_nat hle,
        (layText_iff hc).mpr ⟨hfits, rfl⟩]

/-! ## The whole tree -/

/-- `pl_bat_open` lays `t` out behind `c`. -/
structure Lays (c : Cursor) (t : Val) (spans : List Span) : Prop where
  denotes : ∃ p, Denotes t (allBytes spans) p ∧ c.length + p ≤ uint64Max
  ok : ∀ s ∈ spans, s.Ok

theorem Lays.fits {c : Cursor} {t : Val} {spans : List Span} (h : Lays c t spans) :
    (c.append spans).length ≤ uint64Max := by
  obtain ⟨p, hd, hp⟩ := h.denotes
  have := hd.length_le
  rw [Cursor.length_append]
  omega

/-- What a node leaves on the cursor when the loop comes to the tasks below it. -/
theorem openLoop_sound {t : Val} {stack : List Task} {c c' : Cursor} (hc : c.length ≤ uint64Max)
    (h : openLoop (.node t :: stack) c = some c') :
    ∃ spans, Lays c t spans ∧ openLoop stack (c.append spans) = some c' := by
  induction hw : sizeOf t using Nat.strongRecOn generalizing t stack c with
  | _ w ih =>
    subst hw
    rw [openLoop] at h
    split at h
    · cases h
    rename_i c₁ tasks hnode
    cases (openNode_iff hc).mp hnode with
    | @cat need l r =>
      obtain ⟨ls, hl, h⟩ := ih (sizeOf l) (by simp [row]; omega) hc h rfl
      obtain ⟨rs, hr, h⟩ := ih (sizeOf r) (by simp [row]; omega) hl.fits h rfl
      rw [Cursor.append_append] at h
      refine ⟨ls ++ rs, ⟨?_, ?_⟩, h⟩
      · obtain ⟨p, hpl, hp⟩ := hl.denotes
        obtain ⟨q, hqr, hq⟩ := hr.denotes
        rw [Cursor.length_append] at hq
        exact ⟨_, by simpa using Denotes.cat hpl hqr, by omega⟩
      · intro s hs
        rcases List.mem_append.mp hs with hs | hs
        · exact hl.ok s hs
        · exact hr.ok s hs
    | @bat need len u hle =>
      rw [List.cons_append, List.cons_append, List.nil_append] at h
      obtain ⟨ss, hs, h⟩ := ih (sizeOf u) (by simp [row]; omega) hc h rfl
      rw [openLoop, Cursor.length_append, Nat.add_sub_cancel_left] at h
      split_ifs at h with hlen
      obtain ⟨p, hd, hp⟩ := hs.denotes
      exact ⟨ss, ⟨⟨p, .bat hd (by omega) hle, hp⟩, hs.ok⟩, h⟩
    | @range need off len u hoff hle =>
      rw [List.cons_append, List.cons_append, List.nil_append] at h
      obtain ⟨ss, hs, h⟩ := ih (sizeOf u) (by simp [row]; omega) hc h rfl
      rw [openLoop, Cursor.length_append, Nat.add_sub_cancel_left] at h
      simp only at h
      split_ifs at h with hlen
      obtain ⟨p, hd, hp⟩ := hs.denotes
      obtain ⟨hbytes, hoks⟩ := cropSpans_spec hs.ok off len
      refine ⟨cropSpans off len ss, ⟨⟨p, ?_, hp⟩, hoks⟩, ?_⟩
      · rw [hbytes]
        exact .range hd hoff hle (by omega)
      · simpa [Cursor.append] using h
    | @«repeat» need n len hle hfits =>
      obtain ⟨hbytes, hok⟩ := fill_spec len (natByteAt n 0)
      exact ⟨_, ⟨⟨len, hbytes ▸ .repeat hle, hfits⟩, hok⟩, h⟩
    | @text need src n hn hfits =>
      obtain ⟨hbytes, hok⟩ := textSpans_spec n 0 (byteLen n)
      exact ⟨_, ⟨⟨byteLen n, hbytes ▸ .text hn, hfits⟩, hok⟩, h⟩
    | @slice need src n off len hn hoff hle hfits =>
      obtain ⟨hbytes, hok⟩ := textSpans_spec n off len
      exact ⟨_, ⟨⟨len, hbytes ▸ .slice hn hoff hle, hfits⟩, hok⟩, h⟩

theorem openLoop_opens {c c' : Cursor} {t : Val} {tasks stack : List Task}
    (hc : c.length ≤ uint64Max) (h : Opens c t c' tasks) :
    openLoop (.node t :: stack) c = openLoop (tasks ++ stack) c' := by
  have hnode := (openNode_iff hc).mpr h
  rw [openLoop]
  split
  · simp_all
  · simp_all

/-- A tree that denotes bytes is laid out where there is room on the way. -/
theorem openLoop_complete {t : Val} {b : List UInt8} {p : Nat} (hd : Denotes t b p)
    {c : Cursor} (hc : c.length + p ≤ uint64Max) (stack : List Task) :
    ∃ spans, allBytes spans = b ∧ (∀ s ∈ spans, s.Ok) ∧
      openLoop (.node t :: stack) c = openLoop stack (c.append spans) := by
  have hle : c.length ≤ uint64Max := by omega
  induction hd generalizing c stack with
  | @cat need l r a b p q hl hr ihl ihr =>
    obtain ⟨ls, rfl, hls, heql⟩ := ihl (by omega) (.node r :: stack) hle
    have hlen := Cursor.length_append c ls
    obtain ⟨rs, rfl, hrs, heqr⟩ := ihr (c := c.append ls) (by omega) stack (by omega)
    refine ⟨ls ++ rs, allBytes_append _ _, ?_, ?_⟩
    · intro s hs
      rcases List.mem_append.mp hs with hs | hs
      · exact hls s hs
      · exact hrs s hs
    · rw [openLoop_opens hle .cat, List.cons_append, List.cons_append, List.nil_append, heql, heqr,
        Cursor.append_append]
  | @bat need len t a p hd hlen hmax ih =>
    obtain ⟨ss, rfl, hss, heq⟩ := ih hc (.check c.length len :: stack) hle
    refine ⟨ss, rfl, hss, ?_⟩
    rw [openLoop_opens hle (.bat hmax), List.cons_append, List.cons_append, List.nil_append, heq,
      openLoop, Cursor.length_append, Nat.add_sub_cancel_left, if_neg (by omega)]
  | @range need off len t a p hd hoff hmax hin ih =>
    obtain ⟨ss, rfl, hss, heq⟩ := ih hc (.crop c.length off len c.spans.length :: stack) hle
    obtain ⟨hbytes, hoks⟩ := cropSpans_spec hss off len
    refine ⟨cropSpans off len ss, hbytes, hoks, ?_⟩
    rw [openLoop_opens hle (.range hoff hmax), List.cons_append, List.cons_append, List.nil_append,
      heq, openLoop, Cursor.length_append, Nat.add_sub_cancel_left]
    simp only
    rw [if_neg (by omega)]
    simp [Cursor.append]
  | @«repeat» need n len hmax =>
    obtain ⟨hbytes, hok⟩ := fill_spec len (natByteAt n 0)
    exact ⟨_, hbytes, hok, openLoop_opens hle (.repeat hmax hc)⟩
  | @text need src n hn =>
    obtain ⟨hbytes, hok⟩ := textSpans_spec n 0 (byteLen n)
    exact ⟨_, hbytes, hok, openLoop_opens hle (.text hn hc)⟩
  | @slice need src n off len hn hoff hmax =>
    obtain ⟨hbytes, hok⟩ := textSpans_spec n off len
    exact ⟨_, hbytes, hok, openLoop_opens hle (.slice hn hoff hmax hc)⟩

/-- A cursor at the start of `b`. -/
structure Cursor.Holds (c : Cursor) (b : List UInt8) : Prop where
  bytes : allBytes c.spans = b
  length : c.length = b.length
  ok : ∀ s ∈ c.spans, s.Ok

/-- And it has not been moved. -/
structure Cursor.Opened (c : Cursor) (b : List UInt8) : Prop extends c.Holds b where
  index : c.index = 0
  within : c.within = 0

theorem opened_append {spans : List Span} (hok : ∀ s ∈ spans, s.Ok) :
    (Cursor.append {} spans).Opened (allBytes spans) where
  bytes := by simp [Cursor.append]
  length := by simp
  ok := by simpa [Cursor.append] using hok
  index := rfl
  within := rfl

theorem batOpen_sound {t : Val} {c : Cursor} (h : batOpen t = some c) :
    ∃ b p, Denotes t b p ∧ p ≤ uint64Max ∧ c.Opened b := by
  obtain ⟨spans, hl, h⟩ := openLoop_sound (by simp) h
  rw [openLoop] at h
  cases h
  obtain ⟨p, hd, hp⟩ := hl.denotes
  exact ⟨_, p, hd, by simpa using hp, opened_append hl.ok⟩

theorem batOpen_complete {t : Val} {b : List UInt8} {p : Nat} (hd : Denotes t b p)
    (hp : p ≤ uint64Max) : ∃ c, batOpen t = some c ∧ c.Opened b := by
  obtain ⟨spans, rfl, hok, heq⟩ := openLoop_complete hd (c := {}) (by simpa using hp) []
  refine ⟨Cursor.append {} spans, ?_, opened_append hok⟩
  rw [batOpen, heq, openLoop]

/-- What a tree denotes is determined. -/
theorem Denotes.unique {t : Val} {b b' : List UInt8} {p p' : Nat} (h : Denotes t b p)
    (h' : Denotes t b' p') : b = b' ∧ p = p' := by
  obtain ⟨hbat, hrep, hrep', hslice⟩ := tags_distinct
  induction h generalizing b' p' with
  | @cat need l r a b p q hl hr ihl ihr =>
    generalize ht : row need [tag "cat", l, r] = t at h'
    cases h' <;> simp [row, hbat.symm, hrep.symm] at ht
    rename_i hl' hr'
    obtain ⟨-, rfl, rfl⟩ := ht
    obtain ⟨rfl, rfl⟩ := ihl hl'
    obtain ⟨rfl, rfl⟩ := ihr hr'
    exact ⟨rfl, rfl⟩
  | @bat need len t a p hd hlen hmax ih =>
    generalize ht : row need [tag "bat", .nat len, t] = t at h'
    cases h' <;> simp [row, hbat, hrep'.symm] at ht
    obtain ⟨-, -, rfl⟩ := ht
    exact ih ‹Denotes t b' p'›
  | @range need off len t a p hd hoff hmax hin ih =>
    generalize ht : row need [tag "range", t, .nat off, .nat len] = t at h'
    cases h' <;> simp [row, hslice.symm] at ht
    obtain ⟨-, rfl, rfl, rfl⟩ := ht
    obtain ⟨rfl, rfl⟩ := ih ‹Denotes t _ p'›
    exact ⟨rfl, rfl⟩
  | @«repeat» need n len hmax =>
    generalize ht : row need [tag "repeat", .nat n, .nat len] = t at h'
    cases h' <;> simp [row, hrep, hrep'] at ht
    obtain ⟨-, rfl, rfl⟩ := ht
    exact ⟨rfl, rfl⟩
  | @text need src n hn =>
    generalize ht : row need [tag "text", src] = t at h'
    cases h' <;> simp [row] at ht
    rename_i hn'
    obtain ⟨-, rfl⟩ := ht
    cases hn.symm.trans hn'
    exact ⟨rfl, rfl⟩
  | @slice need src n off len hn hoff hmax =>
    generalize ht : row need [tag "slice", src, .nat off, .nat len] = t at h'
    cases h' <;> simp [row, hslice] at ht
    rename_i hn' _ _
    obtain ⟨-, rfl, rfl, rfl⟩ := ht
    cases hn.symm.trans hn'
    exact ⟨rfl, rfl⟩

/-- A tree opens just where it denotes bytes and a `uint64_t` holds each length on the way. -/
theorem batOpen_iff {t : Val} :
    (∃ c, batOpen t = some c) ↔ ∃ b p, Denotes t b p ∧ p ≤ uint64Max := by
  constructor
  · rintro ⟨c, h⟩
    obtain ⟨b, p, hd, hp, -⟩ := batOpen_sound h
    exact ⟨b, p, hd, hp⟩
  · rintro ⟨b, p, hd, hp⟩
    obtain ⟨c, h, -⟩ := batOpen_complete hd hp
    exact ⟨c, h⟩

theorem batOpen_opened {t : Val} {b : List UInt8} {p : Nat} {c : Cursor} (hd : Denotes t b p)
    (h : batOpen t = some c) : c.Opened b := by
  obtain ⟨b', p', hd', -, hc⟩ := batOpen_sound h
  obtain ⟨rfl, rfl⟩ := hd.unique hd'
  exact hc

end Enki.Bat
