import Enki.Wisp.Env
import Enki.Lib.AssocList
import Enki.Lib.SearchTree
import Mathlib.Data.Finset.Card
import Mathlib.Data.Finset.SDiff

/-!
# The Wisp environment is a map

Read as an association list of key values (`bindings`), the environment is changed by
`en_wisp_putenv` as by `AssocList.put`, and rebuilt by `#export` as by
`AssocList.merge` of the kept pairs. So the operations that succeeded say what is bound
(`meaning`), and the tree for macros is a search tree of just these bindings.

`#export` drops the old list before it asks for the entries of the new one. When one of
these is refused the environment is lost, although the operation fails.
-/

namespace Enki.Wisp

open Bignum (Mpn eq_spec cmp_spec)
open AssocList

variable {V : Type}

/-! ## What is promised -/

/-- What is bound to a number: the value and the macro flag. -/
abbrev Map (V : Type) := Nat → Option (V × Bool)

/-- The names of an `#export`, as numbers. -/
def names (syms : List (Option Key)) : List Nat := syms.filterMap (Option.map Key.val)

/-- What is bound after an operation that succeeded or not. -/
def meaning (M : Map V) : Op V × Bool → Map V
  | (.putenv (some k) mac val, true) => Function.update M k.val (some (val, mac))
  | (.bind (some k) mac (some val), true) => Function.update M k.val (some (val, mac))
  | (.exports syms, true) => fun n => if n ∈ names syms then M n else none
  | _ => M

/-- What is bound after a sequence of operations. -/
def meanings (ops : List (Op V)) (rs : List Bool) : Map V :=
  (ops.zip rs).foldl meaning fun _ => none

/-- The nodes of the tree for macros from left to right: key, tag and value. -/
def EnvVal.nodes : EnvVal V → List (Nat × Nat × V)
  | .zero => []
  | .app head tag val left right => left.nodes ++ (head.val, tag, val) :: right.nodes

/-- A search tree of just the bindings. -/
structure Renders (t : EnvVal V) (M : Map V) : Prop where
  sorted : t.nodes.Pairwise fun a b => a.1 < b.1
  nodes : ∀ k tg v, (k, tg, v) ∈ t.nodes ↔ ∃ mac, tg = tag mac ∧ M k = some (v, mac)

/-- The environment as association list. -/
def bindings (env : List (Entry V)) : List (Nat × (V × Bool)) :=
  env.map fun e => (e.key.val, (e.val, e.mac))

/-- The environment stands for a map. -/
structure IsMap (m : Mpn) (grant : Nat → Bool) (w : World V) (M : Map V) : Prop where
  nodup : (w.env.map fun e => e.key.val).Nodup
  getenv : ∀ k : Key, ∃ i, getenv m (some k) w = .ok i ∧
    (i.bind (w.env[·]?)).map (fun e => (e.val, e.mac)) = M k.val
  other : Wisp.getenv m none w = .ok none
  value : (∃ t, envValue m grant w = .ok t ∧ Renders t M) ∨
    envValue m grant w = .error (.msg "oom")

/-- The new list of an `#export` is granted its entries, one for each name. -/
def Spared (grant : Nat → Bool) (w : World V) : Op V → Prop
  | .exports syms =>
    (∀ s ∈ syms, ∃ k, s = some k ∧ k.val ∈ keys (bindings w.env)) →
      ∀ i < (names syms).toFinset.card, grant (w.requests + i) = true
  | _ => True

/-- So is every `#export` of a sequence. -/
def SparedRun (m : Mpn) (grant : Nat → Bool) : List (Op V) → World V → Prop
  | [], _ => True
  | op :: ops, w => Spared grant w op ∧ SparedRun m grant ops (step m grant op w).2

/-! ## Lookup -/

variable {m : Mpn} {grant : Nat → Bool} {w : World V} {env : List (Entry V)}

theorem keys_bindings (env : List (Entry V)) :
    keys (bindings env) = env.map fun e => e.key.val := by
  rw [keys, bindings, List.map_map]
  rfl

theorem find_eq (hm : m.Meets) (k : Key) (env : List (Entry V)) :
    find m k env = .ok (env.findIdx? fun e => e.key.val = k.val) := by
  induction env with
  | nil => rfl
  | cons e env ih =>
    rw [find, eq_spec hm e.key.2 k.2, List.findIdx?_cons]
    by_cases h : e.key.val = k.val
    · simp [h, show e.key.1.val = k.1.val from h]
    · simp [h, show ¬e.key.1.val = k.1.val from h, ih, Except.map]

/-- The entry that is found has the key and its binding. -/
theorem find_entry {k : Key} {i : Nat} (h : env.findIdx? (fun e => e.key.val = k.val) = some i) :
    ∃ e, env[i]? = some e ∧ e.key.val = k.val ∧
      (bindings env).lookup k.val = some (e.val, e.mac) := by
  induction env generalizing i with
  | nil => simp at h
  | cons e env ih =>
    rw [List.findIdx?_cons] at h
    rw [bindings, List.map_cons, lookup_cons_eq]
    by_cases he : e.key.val = k.val
    · simp only [he, decide_true, if_true, Option.some.injEq] at h
      subst h
      exact ⟨e, rfl, he, if_pos he.symm⟩
    · simp only [he, decide_false, Bool.false_eq_true, if_false, Option.map_eq_some_iff] at h
      obtain ⟨j, hj, rfl⟩ := h
      obtain ⟨e', hget, hkey, hlookup⟩ := ih hj
      exact ⟨e', hget, hkey, (if_neg (Ne.symm he)).trans hlookup⟩

theorem find_none {k : Key} (h : env.findIdx? (fun e => e.key.val = k.val) = none) :
    k.val ∉ keys (bindings env) := by
  rw [keys_bindings]
  intro hmem
  obtain ⟨e, he, hk⟩ := List.mem_map.mp hmem
  have hno := List.findIdx?_eq_none_iff.mp h e he
  simp [hk] at hno

theorem find_mem {k : Key} {i : Nat} (h : env.findIdx? (fun e => e.key.val = k.val) = some i) :
    k.val ∈ keys (bindings env) := by
  obtain ⟨e, -, -, hlookup⟩ := find_entry h
  by_contra hout
  rw [lookup_eq_none.2 hout] at hlookup
  cases hlookup

/-- Setting the fields of the entry that was found. -/
theorem bindings_modify {k : Key} {i : Nat} {mac : Bool} {val : V}
    (h : env.findIdx? (fun e => e.key.val = k.val) = some i) :
    bindings (env.modify i fun e => { e with mac := mac, val := val }) =
      replace k.val (val, mac) (bindings env) := by
  induction env generalizing i with
  | nil => simp at h
  | cons e env ih =>
    rw [List.findIdx?_cons] at h
    rw [bindings, bindings, List.map_cons, replace]
    by_cases he : e.key.val = k.val
    · simp only [he, decide_true, if_true, Option.some.injEq] at h
      subst h
      rw [if_pos he]
      rfl
    · simp only [he, decide_false, Bool.false_eq_true, if_false, Option.map_eq_some_iff] at h
      obtain ⟨j, hj, rfl⟩ := h
      rw [if_neg he]
      exact congrArg _ (ih hj)

/-! ## The operations -/

/-- `en_wisp_putenv` binds the key, unless a new entry is refused. -/
theorem putenv_spec (hm : m.Meets) (k : Key) (mac : Bool) (val : V) (w : World V) :
    (∃ w', putenv m grant (some k) mac val w = (.ok (), w') ∧
      bindings w'.env = put k.val (val, mac) (bindings w.env) ∧
      w'.requests = w.requests + (if k.val ∈ keys (bindings w.env) then 0 else 1)) ∨
    k.val ∉ keys (bindings w.env) ∧ grant w.requests = false ∧
      putenv m grant (some k) mac val w =
        (.error (.msg "oom"), { w with requests := w.requests + 1 }) := by
  rw [putenv, getenv, find_eq hm]
  cases h : w.env.findIdx? (fun e => e.key.val = k.val) with
  | some i =>
    have hmem := find_mem h
    refine .inl ⟨_, rfl, ?_, ?_⟩
    · rw [bindings_modify h, put, if_pos hmem]
    · rw [if_pos hmem]
      rfl
  | none =>
    have hout := find_none h
    cases hg : grant w.requests with
    | true =>
      refine .inl ⟨_, by rw [if_pos rfl], ?_, ?_⟩
      · rw [put, if_neg hout]
        rfl
      · rw [if_neg hout]
    | false => exact .inr ⟨hout, rfl, by rw [if_neg Bool.false_ne_true]⟩

/-- A list that is granted an entry for every new key is built. -/
theorem rebuild_spec (hm : m.Meets) {es : List (Entry V)} : ∀ {w : World V},
    (∀ i < ((keys (bindings es)).toFinset \ (keys (bindings w.env)).toFinset).card,
      grant (w.requests + i) = true) →
    ∃ w', rebuild m grant es w = (.ok (), w') ∧
      bindings w'.env = merge (bindings w.env) (bindings es) := by
  induction es with
  | nil => exact fun _ => ⟨_, rfl, rfl⟩
  | cons e es ih =>
    intro w hgrant
    have hset : (keys (bindings (e :: es))).toFinset =
        insert e.key.val (keys (bindings es)).toFinset := List.toFinset_cons ..
    rcases putenv_spec hm e.key e.mac e.val w with
      ⟨w', hput, hbind, hreq⟩ | ⟨hout, hrefused, -⟩
    · have hkeys : (keys (bindings w'.env)).toFinset =
          insert e.key.val (keys (bindings w.env)).toFinset := by
        ext n
        rw [hbind, List.mem_toFinset, mem_keys_put, Finset.mem_insert, List.mem_toFinset]
      rw [hset] at hgrant
      have hgrant' : ∀ i < ((keys (bindings es)).toFinset \
          (keys (bindings w'.env)).toFinset).card, grant (w'.requests + i) = true := by
        intro i hi
        rw [hkeys] at hi
        rw [hreq]
        split_ifs with hmem
        · rw [Finset.insert_eq_of_mem (List.mem_toFinset.mpr hmem)] at hi
          rw [Finset.insert_sdiff_of_mem _ (List.mem_toFinset.mpr hmem)] at hgrant
          exact hgrant i hi
        · rw [Nat.add_assoc, Nat.add_comm 1]
          refine hgrant (i + 1) ?_
          have hsplit : insert e.key.val (keys (bindings es)).toFinset \
              (keys (bindings w.env)).toFinset = insert e.key.val ((keys (bindings es)).toFinset \
                insert e.key.val (keys (bindings w.env)).toFinset) := by
            rw [Finset.insert_sdiff_of_notMem _ (by rwa [List.mem_toFinset])]
            ext n
            simp only [Finset.mem_insert, Finset.mem_sdiff]
            tauto
          rw [hsplit, Finset.card_insert_of_notMem (by simp)]
          exact Nat.succ_lt_succ hi
      obtain ⟨w'', hrest, hbind'⟩ := ih hgrant'
      refine ⟨w'', ?_, ?_⟩
      · rw [rebuild, hput]
        exact hrest
      · rw [hbind', hbind]
        rfl
    · -- The first request was granted.
      have hpos : 0 < ((keys (bindings (e :: es))).toFinset \
          (keys (bindings w.env)).toFinset).card := by
        refine Finset.card_pos.mpr ⟨e.key.val, ?_⟩
        rw [Finset.mem_sdiff, hset, List.mem_toFinset]
        exact ⟨Finset.mem_insert_self .., hout⟩
      rw [← Nat.add_zero w.requests, hgrant 0 hpos] at hrefused
      cases hrefused

/-- The entries to keep are those of the names, if all are bound. -/
theorem keep_spec (hm : m.Meets) (env : List (Entry V)) (syms : List (Option Key)) :
    (∃ f, keep m env syms = .error f ∧
      ¬∀ s ∈ syms, ∃ k, s = some k ∧ k.val ∈ keys (bindings env)) ∨
    ∃ kept, keep m env syms = .ok kept ∧
      (∀ s ∈ syms, ∃ k, s = some k ∧ k.val ∈ keys (bindings env)) ∧
      keys (bindings kept) = names syms ∧
      ∀ e ∈ bindings kept, (bindings env).lookup e.1 = some e.2 := by
  induction syms with
  | nil => exact .inr ⟨[], rfl, by simp, rfl, by simp [bindings]⟩
  | cons s syms ih =>
    cases s with
    | none =>
      refine .inl ⟨_, rfl, fun hall => ?_⟩
      obtain ⟨k, hk, -⟩ := hall none List.mem_cons_self
      cases hk
    | some k =>
      rw [keep, find_eq hm]
      cases h : env.findIdx? (fun e => e.key.val = k.val) with
      | none =>
        refine .inl ⟨_, rfl, fun hall => ?_⟩
        obtain ⟨k', hk', hmem⟩ := hall (some k) List.mem_cons_self
        cases hk'
        exact find_none h hmem
      | some i =>
        obtain ⟨e, hget, hkey, hlookup⟩ := find_entry h
        simp only [hget]
        rcases ih with ⟨f, hf, hno⟩ | ⟨kept, hkept, hall, hkeys, hbound⟩
        · exact .inl ⟨f, by rw [hf]; rfl, fun hall => hno fun s hs =>
            hall s (List.mem_cons_of_mem _ hs)⟩
        · refine .inr ⟨e :: kept, by rw [hkept]; rfl, fun s hs => ?_, ?_, fun e' he' => ?_⟩
          · rcases List.mem_cons.mp hs with rfl | hs
            · exact ⟨k, rfl, find_mem h⟩
            · exact hall s hs
          · have hnames : names (some k :: syms) = k.val :: names syms := rfl
            rw [hnames, ← hkeys, ← hkey]
            rfl
          · rcases List.mem_cons.mp he' with rfl | he'
            · rw [← hlookup, ← hkey]
            · exact hbound e' he'

/-- `#export` keeps exactly the names, or fails before it changes anything. -/
theorem enExport_spec (hm : m.Meets) {syms : List (Option Key)}
    (hspared : Spared grant w (.exports syms)) :
    (∃ w', enExport m grant syms w = (.ok (), w') ∧ (keys (bindings w'.env)).Nodup ∧
      ∀ n, (bindings w'.env).lookup n =
        if n ∈ names syms then (bindings w.env).lookup n else none) ∨
    ∃ f, enExport m grant syms w = (.error f, w) := by
  rw [enExport]
  rcases keep_spec hm w.env syms with ⟨f, hf, -⟩ | ⟨kept, hkept, hall, hkeys, hbound⟩
  · exact .inr ⟨f, by rw [hf]⟩
  · rw [hkept]
    have hgrant : ∀ i < ((keys (bindings kept)).toFinset \
        (keys (bindings ({ w with env := [] } : World V).env)).toFinset).card,
        grant (w.requests + i) = true := by
      rw [hkeys]
      intro i hi
      exact hspared hall i (hi.trans_le (Finset.card_le_card Finset.sdiff_subset))
    obtain ⟨w', hbuild, hbind⟩ := rebuild_spec hm hgrant
    refine .inl ⟨w', hbuild, ?_, fun n => ?_⟩
    · rw [hbind]
      exact nodup_merge (show (keys (bindings ([] : List (Entry V)))).Nodup from List.nodup_nil) _
    · have hover := @lookup_merge_of _ _ _ (bindings kept) ((bindings w.env).lookup ·) hbound
        (bindings ([] : List (Entry V))) n
      rw [hbind, hover, hkeys]
      rfl

/-- The environment holds a map. -/
structure Holds (w : World V) (M : Map V) : Prop where
  nodup : (keys (bindings w.env)).Nodup
  lookup : ∀ n, (bindings w.env).lookup n = M n

variable {M : Map V}

theorem Holds.putenv (h : Holds w M) (hm : m.Meets) (k : Key) (mac : Bool) (val : V) :
    (∃ w', putenv m grant (some k) mac val w = (.ok (), w') ∧
      Holds w' (Function.update M k.val (some (val, mac)))) ∨
    ∃ f w', Wisp.putenv m grant (some k) mac val w = (.error f, w') ∧ w'.env = w.env := by
  rcases putenv_spec hm k mac val w with ⟨w', hput, hbind, -⟩ | ⟨-, -, hput⟩
  · refine .inl ⟨w', hput, ?_, fun n => ?_⟩
    · rw [hbind]
      exact nodup_put h.nodup _ _
    · rw [hbind, lookup_put, h.lookup, Function.update_apply]
  · exact .inr ⟨_, _, hput, rfl⟩

/-- An operation that succeeds does what it says, and one that fails does nothing. -/
theorem step_spec (hm : m.Meets) (h : Holds w M) {op : Op V} (hspared : Spared grant w op) :
    Holds (step m grant op w).2 (meaning M (op, (step m grant op w).1.isOk)) ∧
      ((step m grant op w).1.isOk = false → (step m grant op w).2.env = w.env) := by
  have hfail {w' : World V} (henv : w'.env = w.env) : Holds w' M := by
    constructor
    · rw [henv]
      exact h.nodup
    · rw [henv]
      exact h.lookup
  have hput (k : Key) (mac : Bool) (val : V) :
      let r := putenv m grant (some k) mac val w
      (r.1 = .ok () ∧ Holds r.2 (Function.update M k.val (some (val, mac)))) ∨
        (∃ f, r.1 = .error f) ∧ r.2.env = w.env := by
    rcases h.putenv hm k mac val with ⟨w', hr, hw⟩ | ⟨f, w', hr, henv⟩
    · exact .inl ⟨by rw [hr], by rw [hr]; exact hw⟩
    · exact .inr ⟨⟨f, by rw [hr]⟩, by rw [hr]; exact henv⟩
  cases op with
  | putenv key mac val =>
    cases key with
    | none => exact ⟨h, fun _ => rfl⟩
    | some k =>
      rcases hput k mac val with ⟨hok, hw⟩ | ⟨⟨f, hf⟩, henv⟩
      · rw [step, hok]
        exact ⟨hw, fun hc => by cases hc⟩
      · rw [step, hf]
        exact ⟨hfail henv, fun _ => henv⟩
  | bind nam mac value =>
    cases nam with
    | none => exact ⟨h, fun _ => rfl⟩
    | some k =>
      cases value with
      | none => exact ⟨h, fun _ => rfl⟩
      | some val =>
        rcases hput k mac val with ⟨hok, hw⟩ | ⟨⟨f, hf⟩, henv⟩
        · rw [step, enBind, hok]
          exact ⟨hw, fun hc => by cases hc⟩
        · rw [step, enBind, hf]
          exact ⟨hfail henv, fun _ => henv⟩
  | exports syms =>
    rcases enExport_spec hm hspared with ⟨w', hr, hnodup, hlookup⟩ | ⟨f, hr⟩
    · rw [step, hr]
      refine ⟨⟨hnodup, fun n => ?_⟩, fun hc => by cases hc⟩
      rw [hlookup, h.lookup]
      rfl
    · rw [step, hr]
      exact ⟨h, fun _ => rfl⟩

theorem run_spec (hm : m.Meets) {ops : List (Op V)} : ∀ {w : World V} {M : Map V}, Holds w M →
    SparedRun m grant ops w →
    Holds (run m grant ops w).1 ((ops.zip (run m grant ops w).2).foldl meaning M) := by
  induction ops with
  | nil => exact fun h _ => h
  | cons op ops ih => exact fun h hspared => ih (step_spec hm h hspared.1).1 hspared.2

/-! ## The tree -/

theorem tmpPut_spec (hm : m.Meets) (granted : Bool) (ent : Entry V)
    (root : BinaryTree (Entry V)) :
    tmpPut m granted ent root = .ok (SearchTree.insert (fun e => e.key.val) ent root) ∨
      tmpPut m granted ent root = .error (.msg "oom") := by
  induction root with
  | nil =>
    cases granted with
    | true => exact .inl rfl
    | false => exact .inr rfl
  | node root left right ihl ihr =>
    obtain ⟨c, hc, hneg, hzero⟩ := cmp_spec hm ent.key.2 root.key.2
    simp only [tmpPut, hc, SearchTree.insert]
    have hneg : c < 0 ↔ ent.key.val < root.key.val := hneg
    have hzero : c = 0 ↔ ent.key.val = root.key.val := hzero
    by_cases hlt : c < 0
    · rw [if_pos hlt, if_pos (hneg.mp hlt)]
      rcases ihl with h | h <;> rw [h]
      · exact .inl rfl
      · exact .inr rfl
    rw [if_neg hlt, if_neg (mt hneg.mpr hlt)]
    by_cases hgt : c > 0
    · have hkey : root.key.val < ent.key.val := by
        have hne : ent.key.val ≠ root.key.val := fun he => hgt.ne' (hzero.mpr he)
        exact lt_of_le_of_ne (not_lt.mp (mt hneg.mpr hlt)) hne.symm
      rw [if_pos hgt, if_pos hkey]
      rcases ihr with h | h <;> rw [h]
      · exact .inl rfl
      · exact .inr rfl
    · have hkey : ent.key.val = root.key.val := hzero.mp (by omega)
      rw [if_neg hgt, if_neg hkey.le.not_gt]
      exact .inl rfl

theorem tmpPutAll_spec (hm : m.Meets) {ents : List (Entry V)} :
    ∀ {request : Nat} {root : BinaryTree (Entry V)},
      tmpPutAll m grant ents request root = .ok (ents.foldl
        (fun root ent => SearchTree.insert (fun e => e.key.val) ent root) root) ∨
      tmpPutAll m grant ents request root = .error (.msg "oom") := by
  induction ents with
  | nil => exact .inl rfl
  | cons ent ents ih =>
    intro request root
    rw [tmpPutAll]
    rcases tmpPut_spec hm (grant request) ent root with h | h
    · rw [h]
      exact ih
    · rw [h]
      exact .inr rfl

theorem nodes_tmpValue (root : BinaryTree (Entry V)) :
    (tmpValue root).nodes =
      (SearchTree.inorder root).map fun e => (e.key.val, tag e.mac, e.val) := by
  induction root with
  | nil => rfl
  | node ent left right ihl ihr =>
    rw [tmpValue, EnvVal.nodes, ihl, ihr, SearchTree.inorder, List.map_append, List.map_cons]

/-- The tree that is built is a search tree of the bindings. -/
theorem Holds.value (h : Holds w M) (hm : m.Meets) :
    (∃ t, envValue m grant w = .ok t ∧ Renders t M) ∨ envValue m grant w = .error (.msg "oom") := by
  rw [envValue]
  rcases @tmpPutAll_spec _ _ grant hm w.env.reverse w.requests .nil with hall | hall
  swap
  · rw [hall]
    exact .inr rfl
  rw [hall]
  have hdistinct : w.env.reverse.Pairwise fun a b => a.key.val ≠ b.key.val := by
    rw [List.pairwise_reverse]
    have hnodup := h.nodup
    rw [keys_bindings, List.Nodup, List.pairwise_map] at hnodup
    exact hnodup.imp Ne.symm
  obtain ⟨hsearch, hmem⟩ := @SearchTree.foldl_insert _ _ _ (fun e : Entry V => e.key.val)
    w.env.reverse .nil List.Pairwise.nil hdistinct
  refine .inl ⟨_, rfl, ?_, fun k tg v => ?_⟩
  · rw [nodes_tmpValue, List.pairwise_map]
    exact hsearch
  · rw [nodes_tmpValue, List.mem_map]
    constructor
    · rintro ⟨e, he, heq⟩
      cases heq
      have he : e ∈ w.env := by simpa [SearchTree.inorder] using (hmem e).mp he
      refine ⟨e.mac, rfl, ?_⟩
      rw [← h.lookup, lookup_eq_some h.nodup]
      exact List.mem_map_of_mem he
    · rintro ⟨mac, rfl, hbound⟩
      rw [← h.lookup, lookup_eq_some h.nodup] at hbound
      obtain ⟨e, he, heq⟩ := List.mem_map.mp hbound
      cases heq
      exact ⟨e, (hmem e).mpr (.inr (List.mem_reverse.mpr he)), rfl⟩

/-! ## Any sequence of operations -/

theorem Holds.isMap (h : Holds w M) (hm : m.Meets) : IsMap m grant w M where
  nodup := keys_bindings w.env ▸ h.nodup
  getenv k := by
    rw [getenv, find_eq hm]
    refine ⟨_, rfl, ?_⟩
    rw [← h.lookup]
    cases hfind : w.env.findIdx? (fun e => e.key.val = k.val) with
    | none => exact (lookup_eq_none.2 (find_none hfind)).symm
    | some i =>
      obtain ⟨e, hget, -, hlookup⟩ := find_entry hfind
      rw [hlookup, Option.bind_some, hget]
      rfl
  other := rfl
  value := h.value hm

/-- Every sequence of operations whose exports are spared leaves a map. -/
theorem env_is_map {m : Mpn} (hm : m.Meets) (grant : Nat → Bool) (ops : List (Op V))
    (hspared : SparedRun m grant ops {}) :
    IsMap m grant (run m grant ops {}).1 (meanings ops (run m grant ops {}).2) ∧
      ∀ op, Spared grant (run m grant ops {}).1 op →
        (step m grant op (run m grant ops {}).1).1.isOk = false →
        (step m grant op (run m grant ops {}).1).2.env = (run m grant ops {}).1.env := by
  have hempty : Holds ({} : World V) fun _ => none := ⟨List.nodup_nil, fun _ => rfl⟩
  have hend := run_spec hm hempty hspared
  exact ⟨hend.isMap hm, fun op hop => (step_spec hm hend hop).2⟩

/-- The name `a`. -/
def nameA : Key := ⟨.direct 97, show (97 : UInt64) ≤ Bignum.nat63Max by decide⟩

theorem env_is_map_export :
    let w := (run Mpn.schoolbook (fun _ => true)
      [.putenv (some nameA) false 7, .bind none true (some 8), .exports [some nameA]] {}).1
    ∃ i, getenv Mpn.schoolbook (some nameA) w = .ok i ∧
      (i.bind (w.env[·]?)).map (fun e => (e.val, e.mac)) = some (7, false) := by
  have h := (env_is_map Bignum.Mpn.schoolbook_meets (fun _ => true)
    [.putenv (some nameA) false 7, .bind none true (some 8), .exports [some nameA]]
    ⟨trivial, trivial, fun _ _ _ => rfl, trivial⟩).1
  exact h.getenv nameA

/-- `(#export a)` where the entry of the new list is refused: nothing is bound any more. -/
theorem export_loses :
    let grant : Nat → Bool := (· == 0)
    let w : World Nat := (run Mpn.schoolbook grant [.putenv (some nameA) false 7] {}).1
    w.env.length = 1 ∧
      (step Mpn.schoolbook grant (.exports [some nameA]) w).1 = .error (.msg "oom") ∧
      (step Mpn.schoolbook grant (.exports [some nameA]) w).2.env.length = 0 := by
  decide +kernel

end Enki.Wisp
