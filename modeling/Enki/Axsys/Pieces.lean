import Enki.Axsys.StringBuilder

/-!
# The pieces of a string builder

The invariant (`Inv`) says which pieces every builder holds: they are the written
slots at the front of its array, no two builders share a block, and no block is used
that was not requested. An operation changes one builder and leaves the others alone
(`Frame`); an append adds its pieces or, when it fails, keeps those that are there
(`Outcome`).
-/

namespace Enki.Axsys.Sb

/-! ## The invariant -/

/-- The bases of the numbers are legal. -/
def Piece.Valid : Piece → Prop
  | .u64 _ base _ => 2 ≤ base ∧ base ≤ 36
  | _ => True

structure Holds (w : World) (b : Nat) (ps : List Piece) : Prop where
  array : ∃ rest, w.array b = some (ps.map some ++ rest) ∧
    (w.builder b).capacity = ps.length + rest.length
  count : (w.builder b).count = ps.length
  least : inlineCount ≤ (w.builder b).capacity
  most : (w.builder b).capacity ≤ sizeMax / pieceSize
  valid : ∀ p ∈ ps, p.Valid

structure Inv (w : World) (ps : Nat → List Piece) : Prop where
  holds : ∀ b, Holds w b (ps b)
  apart : ∀ b b' a, (w.builder b).pieces = .block a → (w.builder b').pieces = .block a → b = b'
  known : ∀ b a, (w.builder b).pieces = .block a → a < w.requests

/-- Only builder `b` and what it owns changed. -/
structure Frame (b : Nat) (w w' : World) : Prop where
  builder : ∀ b', b' ≠ b → w'.builder b' = w.builder b'
  array : ∀ b', b' ≠ b → w'.array b' = w.array b'
  requests : w.requests ≤ w'.requests
  place : ∀ a, (w'.builder b).pieces = .block a →
    (w.builder b).pieces = .block a ∨ w.requests ≤ a ∧ a < w'.requests

/-- An operation on `b` that returned `ok` leaves it with `qs`. -/
structure Outcome (b : Nat) (w w' : World) (ok : Bool) (qs : List Piece) : Prop where
  frame : Frame b w w'
  holds : Holds w' b qs
  failed : (w'.builder b).failed = !ok

/-- The next request of `b` is granted, and room for `n` pieces has a size. -/
structure Granted (env : Env) (w : World) (b n : Nat) : Prop where
  allocator : allocatorOk (w.builder b).allocator = true
  request : env.grant w.requests = true
  /-- Half of what fits: the growth may double. -/
  size : n ≤ sizeMax / pieceSize / 2

variable {env : Env} {w w' w'' : World} {b : Nat} {ps : Nat → List Piece} {qs : List Piece}

theorem Frame.refl (b : Nat) (w : World) : Frame b w w where
  builder _ _ := rfl
  array _ _ := rfl
  requests := le_rfl
  place _ h := .inl h

theorem Frame.trans (h : Frame b w w') (h' : Frame b w' w'') : Frame b w w'' where
  builder b' hb := (h'.builder b' hb).trans (h.builder b' hb)
  array b' hb := (h'.array b' hb).trans (h.array b' hb)
  requests := h.requests.trans h'.requests
  place a ha := by
    rcases h'.place a ha with ha' | ⟨hlo, hhi⟩
    · rcases h.place a ha' with ha'' | ⟨hlo, hhi⟩
      · exact .inl ha''
      · exact .inr ⟨hlo, hhi.trans_le h'.requests⟩
    · exact .inr ⟨h.requests.trans hlo, hhi⟩

/-- What a builder holds depends on its array and its counters. -/
theorem Holds.congr (h : Holds w b qs) (harr : w'.array b = w.array b)
    (hcount : (w'.builder b).count = (w.builder b).count)
    (hcap : (w'.builder b).capacity = (w.builder b).capacity) : Holds w' b qs where
  array := by
    rw [harr, hcap]
    exact h.array
  count := hcount.trans h.count
  least := hcap ▸ h.least
  most := hcap ▸ h.most
  valid := h.valid

/-- The other builders hold what they held. -/
theorem Inv.frame (h : Inv w ps) (hf : Frame b w w') (hq : Holds w' b qs) :
    Inv w' (Function.update ps b qs) where
  holds b' := by
    by_cases hb : b' = b
    · subst hb
      rwa [Function.update_self]
    · rw [Function.update_of_ne hb]
      have hsame := hf.builder b' hb
      exact (h.holds b').congr (hf.array b' hb) (by rw [hsame]) (by rw [hsame])
  apart b₁ b₂ a h₁ h₂ := by
    -- A block of `b` is its old one or a new one, and those are not another's.
    have hother (b') (hb : b' ≠ b) (h₁ : (w'.builder b).pieces = .block a)
        (h₂ : (w'.builder b').pieces = .block a) : False := by
      rw [hf.builder b' hb] at h₂
      rcases hf.place a h₁ with hold | ⟨hlo, -⟩
      · exact hb (h.apart b' b a h₂ hold)
      · exact absurd (h.known b' a h₂) (Nat.not_lt.mpr hlo)
    by_cases hb₁ : b₁ = b <;> by_cases hb₂ : b₂ = b
    · rw [hb₁, hb₂]
    · rw [hb₁] at h₁
      exact (hother b₂ hb₂ h₁ h₂).elim
    · rw [hb₂] at h₂
      exact (hother b₁ hb₁ h₂ h₁).elim
    · rw [hf.builder b₁ hb₁] at h₁
      rw [hf.builder b₂ hb₂] at h₂
      exact h.apart b₁ b₂ a h₁ h₂
  known b' a ha := by
    by_cases hb : b' = b
    · subst hb
      rcases hf.place a ha with hold | ⟨-, hhi⟩
      · exact (h.known b' a hold).trans_le hf.requests
      · exact hhi
    · rw [hf.builder b' hb] at ha
      exact (h.known b' a ha).trans_le hf.requests

/-! ## Changes to one builder -/

@[simp] theorem setBuilder_self (sb : Builder) : (w.setBuilder b sb).builder b = sb :=
  Function.update_self ..

theorem setBuilder_ne (sb : Builder) {b' : Nat} (hb : b' ≠ b) :
    (w.setBuilder b sb).builder b' = w.builder b' :=
  Function.update_of_ne hb ..

/-- A change to the counters of a builder. -/
theorem Frame.setBuilder {sb : Builder} (hp : sb.pieces = (w.builder b).pieces) :
    Frame b w (w.setBuilder b sb) where
  builder _ hb := setBuilder_ne sb hb
  array b' hb := by simp only [World.array, setBuilder_ne sb hb]; rfl
  requests := le_rfl
  place a ha := .inl (by rwa [setBuilder_self, hp] at ha)

theorem array_setBuilder {sb : Builder} (hp : sb.pieces = (w.builder b).pieces)
    (hi : sb.inlinePieces = (w.builder b).inlinePieces) :
    (w.setBuilder b sb).array b = w.array b := by
  simp only [World.array, setBuilder_self, hp, hi]
  rfl

theorem Outcome.fail (h : Holds w b qs) : Outcome b w (w.fail b) false qs where
  frame := .setBuilder rfl
  holds := h.congr (array_setBuilder rfl rfl) (by rw [World.fail, setBuilder_self])
    (by rw [World.fail, setBuilder_self])
  failed := by rw [World.fail, setBuilder_self]; rfl

theorem Outcome.same (h : Holds w b qs) : Outcome b w w (!(w.builder b).failed) qs where
  frame := .refl b w
  holds := h
  failed := (Bool.not_not _).symm

/-- Writing the array of a builder. -/
theorem Frame.setArray (h : Inv w ps) (arr : List (Option Piece)) :
    Frame b w (w.setArray b arr) := by
  rw [World.setArray]
  split
  · exact .setBuilder rfl
  · next a ha =>
    refine ⟨fun _ _ => rfl, fun b' hb => ?_, le_rfl, fun _ => .inl⟩
    simp only [World.array]
    cases ha' : (w.builder b').pieces with
    | inline => rfl
    | block a' =>
      refine Function.update_of_ne ?_ ..
      rintro rfl
      exact hb (h.apart b' b a' ha' ha)

theorem setArray_array (arr : List (Option Piece)) : (w.setArray b arr).array b = some arr := by
  rw [World.setArray]
  split
  · next hp => rw [World.array, setBuilder_self, hp]
  · next a hp =>
    rw [World.array]
    simp only [hp, Function.update_self]

theorem setArray_builder (arr : List (Option Piece)) :
    ((w.setArray b arr).builder b).count = (w.builder b).count ∧
    ((w.setArray b arr).builder b).capacity = (w.builder b).capacity ∧
    ((w.setArray b arr).builder b).failed = (w.builder b).failed := by
  rw [World.setArray]
  split
  · simp
  · exact ⟨rfl, rfl, rfl⟩

theorem moveSlots_eq {dst src : List (Option Piece)} {at' n : Nat} (hsrc : n ≤ src.length)
    (hdst : at' + n ≤ dst.length) :
    moveSlots dst at' src n = some (dst.take at' ++ src.take n ++ dst.drop (at' + n)) :=
  if_pos ⟨hsrc, hdst⟩

/-- New pieces go into the slots after those in use. -/
theorem extend_spec (h : Inv w ps) (hfailed : (w.builder b).failed = false) {extra : List Piece}
    {src : List (Option Piece)} (hsrc : src.take extra.length = extra.map some)
    (hvalid : ∀ p ∈ extra, p.Valid)
    (hroom : (ps b).length + extra.length ≤ (w.builder b).capacity) :
    ∃ dst arr, w.array b = some dst ∧
      moveSlots dst (ps b).length src extra.length = some arr ∧
      Outcome b w ((w.setArray b arr).setBuilder b { (w.setArray b arr).builder b with
        count := (ps b).length + extra.length }) true (ps b ++ extra) := by
  obtain ⟨rest, harr, hcap⟩ := (h.holds b).array
  have hlen : extra.length ≤ src.length := by
    have := congrArg List.length hsrc
    rw [List.length_take, List.length_map] at this
    omega
  have hmove : moveSlots ((ps b).map some ++ rest) (ps b).length src extra.length =
      some ((ps b ++ extra).map some ++ rest.drop extra.length) := by
    rw [moveSlots_eq hlen (by rw [List.length_append, List.length_map]; omega), hsrc,
      List.take_left' (List.length_map ..), List.map_append, ← List.drop_drop,
      List.drop_left' (List.length_map ..)]
  obtain ⟨-, hcap', hfailed'⟩ := setArray_builder (w := w) (b := b)
    ((ps b ++ extra).map some ++ rest.drop extra.length)
  refine ⟨_, _, harr, hmove, (Frame.setArray h _).trans (.setBuilder rfl), ?_, ?_⟩
  · constructor
    · refine ⟨_, (array_setBuilder (by rfl) (by rfl)).trans (setArray_array _), ?_⟩
      simp only [setBuilder_self, hcap', hcap, List.length_append, List.length_drop]
      omega
    · rw [setBuilder_self, List.length_append]
    · rw [setBuilder_self]
      exact hcap' ▸ (h.holds b).least
    · rw [setBuilder_self]
      exact hcap' ▸ (h.holds b).most
    · rintro p hp
      rcases List.mem_append.mp hp with hp | hp
      · exact (h.holds b).valid p hp
      · exact hvalid p hp
  · rw [setBuilder_self]
    exact hfailed'.trans hfailed

/-! ## Growing -/

/-- The loop ends: 65 doublings exceed every size. -/
theorem growLoop_spec {wanted : Nat} : ∀ {fuel capacity : Nat},
    2 ^ 64 ≤ capacity * 2 ^ fuel →
    ∃ c, growLoop (fuel + 1) wanted capacity = some c ∧ wanted ≤ c ∧ min wanted capacity ≤ c := by
  intro fuel
  induction fuel with
  | zero =>
    intro capacity hcap
    rw [growLoop]
    split_ifs with hle hlarge
    · exact ⟨capacity, rfl, hle, min_le_right ..⟩
    · exact ⟨wanted, rfl, le_rfl, min_le_left ..⟩
    · simp only [sizeMax] at hlarge
      omega
  | succ fuel ih =>
    intro capacity hcap
    rw [growLoop]
    split_ifs with hle hlarge
    · exact ⟨capacity, rfl, hle, min_le_right ..⟩
    · exact ⟨wanted, rfl, le_rfl, min_le_left ..⟩
    · obtain ⟨c, hc, hw, -⟩ := ih (by rwa [Nat.mul_assoc, ← Nat.pow_succ'])
      exact ⟨c, hc, hw, (min_le_left ..).trans hw⟩

/-- The last doubling starts below what is wanted. -/
theorem growLoop_le {wanted : Nat} : ∀ {fuel capacity c : Nat}, capacity ≤ 2 * wanted →
    growLoop fuel wanted capacity = some c → c ≤ 2 * wanted := by
  intro fuel
  induction fuel with
  | zero => exact fun _ h => nomatch h
  | succ fuel ih =>
    intro capacity c hcap hc
    rw [growLoop] at hc
    split_ifs at hc with hle hlarge
    · cases hc
      exact hcap
    · cases hc
      omega
    · exact ih (by omega) hc

theorem allocCopy_spec (w : World) {src : List (Option Piece)} {a capacity : Nat}
    (hsrc : src.take qs.length = qs.map some) (hcap : qs.length ≤ capacity) :
    allocCopy w src a capacity qs.length = some { w with
      heap := Function.update w.heap a
        (some (qs.map some ++ List.replicate (capacity - qs.length) none)) } := by
  have hlen : qs.length ≤ src.length := by
    have := congrArg List.length hsrc
    rw [List.length_take, List.length_map] at this
    omega
  rw [allocCopy, moveSlots_eq hlen (by rw [List.length_replicate]; omega), hsrc]
  simp

theorem realloc_spec {old a capacity : Nat} {rest : List (Option Piece)}
    (hsrc : w.heap old = some (qs.map some ++ rest)) (hcap : qs.length + rest.length ≤ capacity) :
    realloc w old a capacity = some { w with
      heap := Function.update (Function.update w.heap old none) a (some (qs.map some ++
        (rest ++ List.replicate (capacity - (qs.length + rest.length)) none))) } := by
  have hmove : moveSlots (List.replicate capacity none) 0 (qs.map some ++ rest)
      (qs.length + rest.length) = some (qs.map some ++
        (rest ++ List.replicate (capacity - (qs.length + rest.length)) none)) := by
    rw [moveSlots_eq (by simp) (by rw [List.length_replicate]; omega)]
    simp [List.take_of_length_le]
  have hkept : min (qs.map some ++ rest).length capacity = qs.length + rest.length := by
    rw [List.length_append, List.length_map, Nat.min_eq_left hcap]
  simp only [realloc, World.release, hsrc, hkept, hmove, Option.bind_eq_bind, Option.bind_some,
    Option.map_some]
  rfl

/-- The pieces of `b` are also in the block that was requested. -/
structure Moved (b : Nat) (w w₁ : World) (qs : List Piece) (capacity : Nat) : Prop where
  builder : w₁.builder = w.builder
  requests : w₁.requests = w.requests + 1
  block : ∃ rest, w₁.heap w.requests = some (qs.map some ++ rest) ∧
    capacity = qs.length + rest.length
  others : ∀ a, a ≠ w.requests → (w.builder b).pieces ≠ .block a → w₁.heap a = w.heap a

theorem relocate_spec (h : Inv w ps) {capacity : Nat}
    (hcap : (w.builder b).capacity ≤ capacity) :
    ∃ w₁, relocate (w.builder b) w.requests capacity { w with requests := w.requests + 1 } =
      some w₁ ∧ Moved b w w₁ (ps b) capacity := by
  obtain ⟨rest, harr, hlen⟩ := (h.holds b).array
  have hfits : (ps b).length + rest.length ≤ capacity := hlen ▸ hcap
  have hfits' : (ps b).length ≤ capacity := (Nat.le_add_right ..).trans hfits
  have htake : ((ps b).map some ++ rest).take (ps b).length = (ps b).map some :=
    List.take_left' (List.length_map ..)
  have hnew : capacity = (ps b).length +
      (List.replicate (capacity - (ps b).length) (none : Option Piece)).length := by
    rw [List.length_replicate]
    omega
  rw [relocate, (h.holds b).count]
  cases hp : (w.builder b).pieces with
  | inline =>
    simp only [World.array, hp, Option.some.injEq] at harr
    simp only [harr]
    rw [allocCopy_spec _ htake hfits']
    exact ⟨_, rfl, rfl, rfl, ⟨_, Function.update_self .., hnew⟩,
      fun a ha _ => Function.update_of_ne ha ..⟩
  | block old =>
    have hheap : w.heap old = some ((ps b).map some ++ rest) := by
      simpa only [World.array, hp] using harr
    have hold : old ≠ w.requests := (h.known b old hp).ne
    simp only
    split_ifs with hre
    · rw [realloc_spec (w := { w with requests := w.requests + 1 }) hheap hfits]
      refine ⟨_, rfl, rfl, rfl, ⟨_, Function.update_self .., ?_⟩, fun a ha hne => ?_⟩
      · rw [List.length_append, List.length_replicate]
        omega
      · have hne' : a ≠ old := fun hao => hne (hao ▸ hp)
        exact (Function.update_of_ne ha ..).trans (Function.update_of_ne hne' ..)
    · have hkept : Function.update w.heap w.requests
          (some ((ps b).map some ++ List.replicate (capacity - (ps b).length) none)) old =
          some ((ps b).map some ++ rest) := (Function.update_of_ne hold ..).trans hheap
      rw [hheap, Option.bind_eq_bind, Option.bind_some, allocCopy_spec _ htake hfits',
        Option.bind_eq_bind, Option.bind_some, World.release]
      simp only [hkept, Option.map_some]
      refine ⟨_, rfl, rfl, rfl, ⟨_, ?_, hnew⟩, fun a ha hne => ?_⟩
      · exact (Function.update_of_ne hold.symm ..).trans (Function.update_self ..)
      · have hne' : a ≠ old := fun hao => hne (hao ▸ hp)
        exact (Function.update_of_ne hne' ..).trans (Function.update_of_ne ha ..)

theorem Moved.outcome (h : Inv w ps) (hfailed : (w.builder b).failed = false) {w₁ : World}
    {capacity : Nat} (hm : Moved b w w₁ (ps b) capacity) (hleast : inlineCount ≤ capacity)
    (hmost : capacity ≤ sizeMax / pieceSize) :
    Outcome b w (w₁.setBuilder b
      { w.builder b with pieces := .block w.requests, capacity := capacity }) true (ps b) where
  frame := by
    refine ⟨fun b' hb => ?_, fun b' hb => ?_, ?_, fun a ha => ?_⟩
    · rw [setBuilder_ne _ hb, hm.builder]
    · simp only [World.array, setBuilder_ne _ hb, hm.builder]
      cases hp : (w.builder b').pieces with
      | inline => rfl
      | block a =>
        exact hm.others a (h.known b' a hp).ne fun hb' => hb (h.apart b' b a hp hb')
    · exact (Nat.le_succ _).trans_eq hm.requests.symm
    · rw [setBuilder_self] at ha
      cases ha
      exact .inr ⟨le_rfl, (Nat.lt_succ_self _).trans_eq hm.requests.symm⟩
  holds := by
    obtain ⟨rest, hblock, hcap⟩ := hm.block
    constructor
    · refine ⟨rest, ?_, ?_⟩
      · simp only [World.array, setBuilder_self]
        exact hblock
      · rw [setBuilder_self]
        exact hcap
    · rw [setBuilder_self]
      exact (h.holds b).count
    · rwa [setBuilder_self]
    · rwa [setBuilder_self]
    · exact (h.holds b).valid
  failed := by
    rw [setBuilder_self]
    exact hfailed

/-- `ax_sb__grow` leaves the pieces as they are. -/
theorem grow_spec (h : Inv w ps) {wanted : Nat} (hfailed : (w.builder b).failed = false) :
    ∃ w' ok, grow env b wanted w = some (w', ok) ∧ Outcome b w w' ok (ps b) ∧
      (ok = true → wanted ≤ (w'.builder b).capacity) ∧ (Granted env w b wanted → ok = true) := by
  have hleast := (h.holds b).least
  rw [grow, if_neg (by simp [hfailed])]
  by_cases hle : wanted ≤ (w.builder b).capacity
  · rw [if_pos hle]
    exact ⟨w, true, rfl, ⟨.refl b w, h.holds b, hfailed⟩, fun _ => hle, fun _ => rfl⟩
  rw [if_neg hle]
  by_cases hok : allocatorOk (w.builder b).allocator = true
  swap
  · rw [if_pos (by simp [hok])]
    exact ⟨_, _, rfl, .fail (h.holds b), by simp, fun hg => absurd hg.allocator hok⟩
  rw [if_neg (by simp [hok])]
  obtain ⟨c, hc, hwanted, hmin⟩ := @growLoop_spec wanted 64
    (if (w.builder b).capacity ≠ 0 then (w.builder b).capacity else inlineCount)
    (by split <;> simp only [inlineCount] at hleast ⊢ <;> omega)
  rw [hc, Option.bind_eq_bind, Option.bind_some]
  by_cases hlarge : c > sizeMax / pieceSize
  · rw [if_pos hlarge]
    refine ⟨_, _, rfl, .fail (h.holds b), by simp, fun hg => ?_⟩
    have hsize := hg.size
    have htwice := growLoop_le (by split <;> simp only [inlineCount] at hleast ⊢ <;> omega) hc
    omega
  rw [if_neg hlarge]
  by_cases hgrant : env.grant w.requests = true
  swap
  · rw [if_pos (by simp [hgrant])]
    have hsame : Holds { w with requests := w.requests + 1 } b (ps b) :=
      (h.holds b).congr rfl rfl rfl
    have hcount : Frame b w { w with requests := w.requests + 1 } :=
      ⟨fun _ _ => rfl, fun _ _ => rfl, Nat.le_succ _, fun _ => .inl⟩
    have hfail := Outcome.fail hsame
    exact ⟨_, _, rfl, ⟨hcount.trans hfail.frame, hfail.holds, hfail.failed⟩, by simp,
      fun hg => absurd hg.request hgrant⟩
  rw [if_neg (by simp [hgrant])]
  obtain ⟨w₁, hw₁, hm⟩ := @relocate_spec _ b _ h c (by omega)
  rw [hw₁, Option.bind_eq_bind, Option.bind_some]
  refine ⟨_, true, rfl, hm.outcome h hfailed (by omega) (Nat.not_lt.mp hlarge), fun _ => ?_,
    fun _ => rfl⟩
  rw [setBuilder_self]
  exact hwanted

/-! ## Appending -/

theorem makeRoom_spec (h : Inv w ps) (hfailed : (w.builder b).failed = false) :
    ∃ w' ok, makeRoom env b w = some (w', ok) ∧ Outcome b w w' ok (ps b) ∧
      (ok = true → (ps b).length + 1 ≤ (w'.builder b).capacity) ∧
      (Granted env w b ((ps b).length + 1) → ok = true) := by
  have hcount := (h.holds b).count
  rw [makeRoom]
  split_ifs with hfull
  · rw [hcount]
    exact grow_spec h hfailed
  · obtain ⟨rest, -, hcap⟩ := (h.holds b).array
    refine ⟨w, true, rfl, ⟨.refl b w, h.holds b, hfailed⟩, fun _ => ?_, fun _ => rfl⟩
    omega

/-- `ax_sb__push`. -/
theorem push_spec (h : Inv w ps) {piece : Piece} (hvalid : piece.Valid)
    (hfailed : (w.builder b).failed = false) :
    ∃ w' ok, push env b piece w = some (w', ok) ∧
      Outcome b w w' ok (if ok then ps b ++ [piece] else ps b) ∧
      (Granted env w b ((ps b).length + 1) → ok = true) := by
  obtain ⟨w₁, ok, hroom, hout, hcap, hgranted⟩ := @makeRoom_spec env _ _ _ h hfailed
  rw [push, if_neg (by simp [hfailed]), hroom, Option.bind_eq_bind, Option.bind_some]
  cases ok with
  | false => exact ⟨w₁, false, rfl, hout, hgranted⟩
  | true =>
    have hinv := h.frame hout.frame hout.holds
    rw [Function.update_eq_self] at hinv
    obtain ⟨dst, arr, hdst, hmove, hext⟩ := @extend_spec _ _ _ hinv (by simpa using hout.failed)
      [piece] [some piece] rfl (by simpa using hvalid) (hcap rfl)
    have hcount₁ := hout.holds.count
    have hcount₂ := (setArray_builder (w := w₁) (b := b) arr).1
    refine ⟨_, true, ?_, ⟨hout.frame.trans hext.frame, hext.holds, hext.failed⟩, fun _ => rfl⟩
    simp only [Bool.not_true, Bool.false_eq_true, if_false, hdst, hcount₁, Option.bind_eq_bind,
      Option.bind_some]
    rw [List.length_singleton] at hmove
    rw [hmove, Option.bind_some, hcount₂, hcount₁]
    rfl

/-- `ax_sb_reserve_pieces`. -/
theorem reservePieces_spec (h : Inv w ps) {additional : Nat}
    (hfailed : (w.builder b).failed = false) :
    ∃ w' ok, reservePieces env b additional w = some (w', ok) ∧ Outcome b w w' ok (ps b) ∧
      (ok = true → (ps b).length + additional ≤ (w'.builder b).capacity) ∧
      (Granted env w b ((ps b).length + additional) → ok = true) := by
  rw [reservePieces, if_neg (by simp [hfailed])]
  split_ifs with hlarge
  · refine ⟨_, _, rfl, .fail (h.holds b), by simp, fun hg => ?_⟩
    have hsize := hg.size
    have hcount := (h.holds b).count
    simp only [sizeMax, pieceSize] at hsize hlarge
    omega
  · rw [(h.holds b).count]
    exact grow_spec h hfailed

/-- `ax_sb_append_builder`, also of a builder to itself. -/
theorem appendBuilder_spec (h : Inv w ps) {other : Nat}
    (hfailed : (w.builder b).failed = false) :
    ∃ w' ok, appendBuilder env b (some other) w = some (w', ok) ∧
      Outcome b w w' ok (if ok then ps b ++ ps other else ps b) ∧
      (ok = true → (w.builder other).failed = false) ∧
      ((w.builder other).failed = false → Granted env w b ((ps b).length + (ps other).length) →
        ok = true) := by
  rw [appendBuilder, if_neg (by simp [hfailed])]
  simp only
  by_cases hother : (w.builder other).failed = true
  · rw [if_pos hother]
    exact ⟨_, false, rfl, .fail (h.holds b), by simp, by simp [hother]⟩
  rw [if_neg hother]
  rw [Bool.not_eq_true] at hother
  have hcount := (h.holds other).count
  split_ifs with hzero
  · have hnil : ps other = [] := List.eq_nil_of_length_eq_zero (hcount.symm.trans hzero)
    refine ⟨w, true, rfl, ?_, fun _ => hother, fun _ _ => rfl⟩
    rw [if_pos rfl, hnil, List.append_nil]
    exact ⟨.refl b w, h.holds b, hfailed⟩
  obtain ⟨w₁, ok, hreserve, hout, hroom, hgranted⟩ := reservePieces_spec h hfailed
  rw [hcount, hreserve, Option.bind_eq_bind, Option.bind_some]
  cases ok with
  | false => exact ⟨w₁, false, rfl, hout, by simp, fun _ => hgranted⟩
  | true =>
    have hinv := h.frame hout.frame hout.holds
    rw [Function.update_eq_self] at hinv
    -- The array of `other` after the growth, its own or that of `b`.
    obtain ⟨rest, hsrc, -⟩ := (hinv.holds other).array
    obtain ⟨dst, arr, hdst, hmove, hext⟩ := extend_spec hinv (by simpa using hout.failed)
      (List.take_left' (List.length_map ..)) (hinv.holds other).valid (hroom rfl)
    refine ⟨_, true, ?_, ⟨hout.frame.trans hext.frame, hext.holds, hext.failed⟩,
      fun _ => hother, fun _ _ => rfl⟩
    simp only [Bool.not_true, Bool.false_eq_true, if_false, hsrc, hdst, (hinv.holds other).count,
      (h.holds b).count, Option.bind_eq_bind, Option.bind_some]
    rw [hmove, Option.bind_some]
    rfl

end Enki.Axsys.Sb
