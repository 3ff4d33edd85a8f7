import Mathlib.Data.List.Nodup

/-!
# Association lists that are updated in place

A list of pairs as a map: the first pair with a key counts. `put` replaces the value
of that pair, or adds a pair in front when there is none, so that the keys of a list
grown by `put` stay distinct.
-/

namespace AssocList

variable {κ β : Type}

/-- The keys, in order. -/
def keys (l : List (κ × β)) : List κ := l.map Prod.fst

@[simp] theorem keys_nil : keys ([] : List (κ × β)) = [] := rfl

@[simp] theorem keys_cons (e : κ × β) (l : List (κ × β)) : keys (e :: l) = e.1 :: keys l := rfl

variable [DecidableEq κ]

/-- Give the first pair with the key another value. -/
def replace (k : κ) (b : β) : List (κ × β) → List (κ × β)
  | [] => []
  | (k', b') :: l => if k' = k then (k', b) :: l else (k', b') :: replace k b l

/-- Bind a key. -/
def put (k : κ) (b : β) (l : List (κ × β)) : List (κ × β) :=
  if k ∈ keys l then replace k b l else (k, b) :: l

/-- Bind the keys of another list, from its front on. -/
def merge (l new : List (κ × β)) : List (κ × β) := new.foldl (fun acc e => put e.1 e.2 acc) l

theorem lookup_cons_eq (e : κ × β) (l : List (κ × β)) (k : κ) :
    (e :: l).lookup k = if k = e.1 then some e.2 else l.lookup k := by
  rw [List.lookup_cons]
  by_cases h : k = e.1
  · rw [if_pos h, h, beq_self_eq_true]
  · rw [if_neg h, beq_false_of_ne h]

/-- A key is bound exactly if it occurs. -/
theorem lookup_eq_none {l : List (κ × β)} {k : κ} : l.lookup k = none ↔ k ∉ keys l := by
  induction l with
  | nil => simp
  | cons e l ih =>
    rw [lookup_cons_eq, keys_cons, List.mem_cons, not_or]
    split
    · next h => simp [h]
    · next h => rw [ih, and_iff_right h]

/-- With distinct keys, the pairs are the bindings. -/
theorem lookup_eq_some {l : List (κ × β)} (hnodup : (keys l).Nodup) {k : κ} {b : β} :
    l.lookup k = some b ↔ (k, b) ∈ l := by
  induction l with
  | nil => simp
  | cons e l ih =>
    obtain ⟨k', b'⟩ := e
    obtain ⟨hnew, hnodup⟩ := List.nodup_cons.mp hnodup
    rw [lookup_cons_eq, List.mem_cons]
    split
    · next h =>
      subst h
      have hout : (k, b) ∉ l := fun hmem => hnew (List.mem_map.mpr ⟨_, hmem, rfl⟩)
      simp [hout, eq_comm]
    · next h => simp [ih hnodup, show k ≠ k' from h]

@[simp] theorem keys_replace (k : κ) (b : β) (l : List (κ × β)) :
    keys (replace k b l) = keys l := by
  induction l with
  | nil => rfl
  | cons e l ih =>
    rw [replace]
    split
    · rfl
    · rw [keys_cons, keys_cons, ih]

theorem lookup_replace {l : List (κ × β)} {k : κ} (hk : k ∈ keys l) (b : β) (k' : κ) :
    (replace k b l).lookup k' = if k' = k then some b else l.lookup k' := by
  induction l with
  | nil => cases hk
  | cons e l ih =>
    rw [replace]
    split
    · next h =>
      subst h
      rw [lookup_cons_eq, lookup_cons_eq]
      split <;> rfl
    · next h =>
      have hk := (List.mem_cons.mp hk).resolve_left (Ne.symm h)
      rw [lookup_cons_eq, lookup_cons_eq, ih hk]
      split
      · next he => rw [if_neg (he ▸ h)]
      · rfl

/-- `put` binds its key and no other. -/
theorem lookup_put (k : κ) (b : β) (l : List (κ × β)) (k' : κ) :
    (put k b l).lookup k' = if k' = k then some b else l.lookup k' := by
  rw [put]
  split
  · next hk => exact lookup_replace hk b k'
  · exact lookup_cons_eq (k, b) l k'

theorem mem_keys_put (k : κ) (b : β) (l : List (κ × β)) (k' : κ) :
    k' ∈ keys (put k b l) ↔ k' = k ∨ k' ∈ keys l := by
  rw [put]
  split
  · next hk =>
    rw [keys_replace]
    exact ⟨.inr, fun h => h.elim (fun h => h ▸ hk) id⟩
  · rw [keys_cons, List.mem_cons]

theorem nodup_put {l : List (κ × β)} (h : (keys l).Nodup) (k : κ) (b : β) :
    (keys (put k b l)).Nodup := by
  rw [put]
  split
  · rwa [keys_replace]
  · next hk => exact List.nodup_cons.mpr ⟨hk, h⟩

theorem nodup_merge {l : List (κ × β)} (h : (keys l).Nodup) (new : List (κ × β)) :
    (keys (merge l new)).Nodup := by
  induction new generalizing l with
  | nil => exact h
  | cons e new ih => exact ih (nodup_put h e.1 e.2)

/-- Merging pairs of a map overrides with it, however often a key occurs. -/
theorem lookup_merge_of {new : List (κ × β)} {f : κ → Option β} (hf : ∀ e ∈ new, f e.1 = some e.2)
    (l : List (κ × β)) (k : κ) :
    (merge l new).lookup k = if k ∈ keys new then f k else l.lookup k := by
  induction new generalizing l with
  | nil => rfl
  | cons e new ih =>
    have hstep := ih (fun e he => hf e (List.mem_cons_of_mem _ he)) (put e.1 e.2 l)
    rw [lookup_put] at hstep
    rw [← show merge (put e.1 e.2 l) new = merge l (e :: new) from rfl, hstep]
    have hmem : k ∈ keys (e :: new) ↔ k = e.1 ∨ k ∈ keys new := List.mem_cons
    by_cases hk : k ∈ keys new
    · rw [if_pos hk, if_pos (hmem.mpr (.inr hk))]
    · rw [if_neg hk]
      by_cases he : k = e.1
      · rw [if_pos he, if_pos (hmem.mpr (.inl he)), he, hf e List.mem_cons_self]
      · rw [if_neg he, if_neg (mt hmem.mp (not_or.mpr ⟨he, hk⟩))]

/-- Merging overrides. -/
theorem lookup_merge {new : List (κ × β)} (hnew : (keys new).Nodup) (l : List (κ × β)) (k : κ) :
    (merge l new).lookup k = (new.lookup k).or (l.lookup k) := by
  have hover := @lookup_merge_of κ β _ new (new.lookup ·)
    (fun e he => (lookup_eq_some hnew).mpr he) l k
  rw [hover]
  split
  · next hk =>
    cases h : new.lookup k with
    | none => exact absurd hk (lookup_eq_none.1 h)
    | some b => rfl
  · next hk => rw [lookup_eq_none.2 hk, Option.none_or]

end AssocList
