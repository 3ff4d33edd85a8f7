import Enki.Wisp.Modules

/-!
# What loading does

A module is registered when its file has ended, so that an include of a module that is
still being loaded starts it again, and one include too many overflows the root array.
`Careful` says of a call of `boot_process_file` that neither happens in it, and that no
copy of a registered environment is lost to the null pointer. Then, and only then, the
call is as it should be (`processFile_spec`).

The proof carries `Inv` through the calls; `busy` are the modules that are being loaded.
-/

namespace Enki.Boot

open AssocList

variable {T V S : Type}

/-! ## What is promised -/

/-- An environment overridden by the bindings of another. -/
def Overrides (before e after : Env V) : Prop :=
  ∀ k, after.get k = (e.get k).or (before.get k)

structure Record.Sound (r : Record V) : Prop where
  /-- No form of a module is processed twice. -/
  once : (r.processed.map fun p => (p.mod, p.index)).Nodup
  fresh : ∀ p ∈ r.processed, p.index = 0 → p.before = .null
  /-- A module ends with one environment. -/
  ended : (r.ended.map Prod.fst).Nodup
  overrides : ∀ i ∈ r.included, ∃ e, (i.mod, e) ∈ r.ended ∧ Overrides i.before e i.after

/-- The process goes on, and everything was loaded right. -/
structure Proper (r : Result Bool × World V S) : Prop where
  terminates : r.1 ≠ .abort
  sound : r.2.record.Sound

section

variable (ctx : BootCtx T V S)

/-- The merge fails, or it overrides with what is registered. -/
def Kept (name : Name) (old new : Env V) (w : World V S) : Prop :=
  ((!old.isNull || !new.isNull) && (envMerge ctx old new w.state).1.isNull) = true ∨
    ∃ e, w.record.modules.lookup name.key = some e ∧
      (new = e ∨ ∀ k b, e.get k = some b → old.get k = some b)

def CarefulForms (inc : Name → World V S → Result Bool × World V S)
    (care : Name → World V S → Prop) (name : Name) :
    Nat → List (Option (Form T)) → World V S → Prop
  | _, [], _ => True
  | _, none :: _, _ => True
  | i, some form :: forms, w =>
    (∀ m s, readInclude ctx form w.state = (some m, s) →
        care m { w.takeUp name i with state := s }) ∧
      ∀ w', processForm ctx inc form (w.takeUp name i) = (.returns true, w') →
        CarefulForms inc care name (i + 1) forms w'

/-- A file that is read is not being loaded. -/
def CarefulLoad (inc : Name → World V S → Result Bool × World V S)
    (care : List Name → Name → World V S → Prop) (busy : List Name) (name : Name)
    (w : World V S) : Prop :=
  okModuleName name = true → w.record.modules.lookup name.key = none →
    ∀ forms, ctx.files name = some forms → (ctx.calloc w.state).1 = true →
      (ctx.calloc (ctx.calloc w.state).2).1 = true →
        name ∉ busy ∧ CarefulForms ctx inc (care (name :: busy)) name 0 forms
          { w with env := .null, state := (ctx.calloc (ctx.calloc w.state).2).2 }

/-- Every call finds room for its two roots, and no module that is being loaded. -/
def Careful (room : Nat) (busy : List Name) (name : Name) (w : World V S) : Prop :=
  let old := envClone ctx w.env w.state
  let w := { w with state := old.2 }
  (!w.env.isNull && old.1.isNull) = false →
    match room with
    | 0 => False
    | room + 1 =>
      CarefulLoad ctx (processFile ctx room) (Careful room) busy name w ∧
        ∀ new w', loadModule ctx (processFile ctx room) name w = (.returns new, w') →
          (new.isNull && (w'.record.modules.lookup name.key).isNone) = false →
            0 < room ∧ Kept ctx name w.env new w'

end

/-! ## Environments -/

theorem Name.key_injective : Function.Injective Name.key := by
  have hbytes : ∀ name : Name,
      name.bytes = LittleEndian.bytes (LittleEndian.byteLen name.key) name.key := by
    intro name
    have hlast : name.bytes.getLast? ≠ some 0 := fun h => name.zero_notMem (List.mem_of_getLast? h)
    rw [Name.key, LittleEndian.byteLen_toNat hlast, LittleEndian.bytes_toNat]
  rintro ⟨bs, _⟩ ⟨bs', _⟩ h
  have heq := hbytes ⟨bs, ‹_›⟩
  rw [h] at heq
  exact Name.mk.injEq .. ▸ heq.trans (hbytes ⟨bs', ‹_›⟩).symm

theorem Env.ext {e e' : Env V} (h : e.entries = e'.entries) : e = e' := by
  cases e
  cases e'
  cases h
  rfl

theorem Env.isNull_iff {e : Env V} : e.isNull = true ↔ e = .null :=
  ⟨fun h => Env.ext (List.isEmpty_iff.mp h), fun h => h ▸ rfl⟩

@[simp] theorem Env.get_null (k : Nat) : (Env.null : Env V).get k = none := rfl

variable {ctx : BootCtx T V S}

/-- A copy that is not lost. -/
theorem envClone_eq {env : Env V} {s : S}
    (h : (!env.isNull && (envClone ctx env s).1.isNull) = false) :
    (envClone ctx env s).1 = env := by
  rw [envClone] at h ⊢
  dsimp only at h ⊢
  split
  · rfl
  · next hno =>
    rw [if_neg hno] at h
    cases hnull : env.isNull with
    | true => exact (Env.isNull_iff.1 hnull).symm
    | false =>
      rw [hnull] at h
      cases h

theorem envClone_cases (env : Env V) (s : S) :
    (envClone ctx env s).1 = env ∨ (envClone ctx env s).1 = .null := by
  rw [envClone]
  dsimp only
  split
  · exact .inl rfl
  · exact .inr rfl

theorem envPutAll_eq :
    ∀ {es : List (Nat × (V × Bool))} {out out' : Env V} {s : S},
      (envPutAll ctx es out s).1 = some out' → out'.entries = merge out.entries es := by
  intro es
  induction es with
  | nil =>
    intro out out' s h
    cases h
    rfl
  | cons e es ih =>
    intro out out' s h
    have hput : ∀ mid s', envPut ctx out e s = (some mid, s') → mid = out.put e.1 e.2 := by
      intro mid s' hmid
      rw [envPut] at hmid
      split at hmid
      · cases hmid
        rfl
      · dsimp only at hmid
        split at hmid
        · cases hmid
          rfl
        · cases hmid
    rw [envPutAll] at h
    split at h
    · next mid s' hmid =>
      rw [ih h, hput mid s' hmid]
      rfl
    · cases h

/-- A merge that does not fail overrides. -/
theorem envMerge_overrides {old new : Env V} {s : S}
    (h : ((!old.isNull || !new.isNull) && (envMerge ctx old new s).1.isNull) = false) :
    Overrides old new (envMerge ctx old new s).1 := by
  rw [envMerge] at h ⊢
  dsimp only at h ⊢
  by_cases hlost : (!old.isNull && (envClone ctx old s).1.isNull) = true
  · rw [if_pos hlost] at h
    simp only [Bool.and_eq_true, Bool.not_eq_true'] at hlost
    rw [hlost.1] at h
    cases h
  · rw [if_neg hlost] at h ⊢
    rw [envClone_eq (Bool.not_eq_true _ ▸ hlost)] at h ⊢
    cases hput : (envPutAll ctx new.entries old (envClone ctx old s).2).1 with
    | some out =>
      intro k
      rw [Option.getD_some, Env.get, envPutAll_eq hput, lookup_merge new.nodup]
      rfl
    | none =>
      -- nothing to put would not have failed
      rw [hput] at h
      have hnull : new.isNull = true := by
        cases hn : new.isNull with
        | true => rfl
        | false =>
          rw [hn, Bool.not_false, Bool.or_true] at h
          cases h
      rw [Env.isNull_iff.1 hnull] at hput
      cases hput

/-! ## What stays recorded -/

/-- More has happened. -/
structure Record.Extends (r r' : Record V) : Prop where
  processed : r.processed <:+ r'.processed
  ended : r.ended <:+ r'.ended
  included : r.included <:+ r'.included

theorem Record.Extends.refl (r : Record V) : r.Extends r :=
  ⟨List.suffix_rfl, List.suffix_rfl, List.suffix_rfl⟩

theorem Record.Extends.trans {r r' r'' : Record V} (h : r.Extends r') (h' : r'.Extends r'') :
    r.Extends r'' :=
  ⟨h.processed.trans h'.processed, h.ended.trans h'.ended, h.included.trans h'.included⟩

/-- What has gone wrong for good. -/
def Record.Spoiled (r : Record V) : Prop := ∀ r', r.Extends r' → ¬r'.Sound

theorem Record.Spoiled.mono {r r' : Record V} (h : r.Spoiled) (hext : r.Extends r') : r'.Spoiled :=
  fun r'' hext' => h r'' (hext.trans hext')

section

variable {inc : Name → World V S → Result Bool × World V S}
  (hinc : ∀ (name : Name) (w : World V S), w.record.Extends (inc name w).2.record)

variable (ctx)

include hinc

theorem processForm_extends (form : Form T) (w : World V S) :
    w.record.Extends (processForm ctx inc form w).2.record := by
  rw [processForm]
  split
  · next m s _ => exact hinc m { w with state := s }
  · dsimp only
    split <;> exact .refl _

theorem processForms_extends (name : Name) :
    ∀ (forms : List (Option (Form T))) (i : Nat) (w : World V S),
      w.record.Extends (processForms ctx inc name i forms w).2.record := by
  intro forms
  induction forms with
  | nil => exact fun _ _ => .refl _
  | cons form forms ih =>
    intro i w
    cases form with
    | none => exact .refl _
    | some form =>
      have htake : w.record.Extends (w.takeUp name i).record :=
        ⟨List.suffix_cons _ _, List.suffix_rfl, List.suffix_rfl⟩
      have hform := htake.trans (processForm_extends ctx hinc form (w.takeUp name i))
      rw [processForms]
      split
      · next w' heq =>
        rw [heq] at hform
        exact hform.trans (ih _ _)
      · exact hform

theorem processForms_takeUp (name : Name) (form : Form T) (forms : List (Option (Form T)))
    (i : Nat) (w : World V S) :
    (w.takeUp name i).record.Extends
      (processForms ctx inc name i (some form :: forms) w).2.record := by
  have hform := processForm_extends ctx hinc form (w.takeUp name i)
  rw [processForms]
  split
  · next w' heq =>
    rw [heq] at hform
    exact hform.trans (processForms_extends ctx hinc name forms _ _)
  · exact hform

omit hinc in
theorem register_extends (name : Name) (w : World V S) :
    w.record.Extends (register ctx name w).2.record := by
  rw [register]
  dsimp only
  split
  · exact ⟨List.suffix_rfl, List.suffix_cons _ _, List.suffix_rfl⟩
  split
  · exact ⟨List.suffix_rfl, List.suffix_cons _ _, List.suffix_rfl⟩
  split
  · exact ⟨List.suffix_rfl, List.suffix_cons _ _, List.suffix_rfl⟩
  · exact ⟨List.suffix_rfl, List.suffix_cons _ _, List.suffix_rfl⟩

theorem loadModule_extends (name : Name) (w : World V S) :
    w.record.Extends (loadModule ctx inc name w).2.record := by
  rw [loadModule]
  split
  · exact .refl _
  split
  · exact .refl _
  dsimp only
  split
  · exact .refl _
  · exact .refl _
  split
  · next forms _ _ _ =>
    have hforms := processForms_extends ctx hinc name forms 0
      { w with env := .null, state := (ctx.calloc (ctx.calloc w.state).2).2 }
    split
    · next w' heq =>
      rw [heq] at hforms
      exact hforms.trans (register_extends ctx name w')
    · next w' heq =>
      rw [heq] at hforms
      exact hforms
    · next w' heq =>
      rw [heq] at hforms
      exact hforms
    · next w' heq =>
      rw [heq] at hforms
      exact hforms
  · exact .refl _

end

theorem processFile_extends :
    ∀ (room : Nat) (name : Name) (w : World V S),
      w.record.Extends (processFile ctx room name w).2.record := by
  intro room
  induction room with
  | zero =>
    intro name w
    rw [processFile]
    split <;> exact .refl _
  | succ room ih =>
    intro name w
    rw [processFile]
    dsimp only
    split
    · exact .refl _
    have hload := loadModule_extends ctx ih name { w with state := (envClone ctx w.env w.state).2 }
    split
    · next w' heq =>
      rw [heq] at hload
      exact hload
    · next w' heq =>
      rw [heq] at hload
      exact hload
    · next new w' heq =>
      rw [heq] at hload
      split
      · exact hload
      split
      · exact hload
      split
      · exact hload
      · exact hload.trans ⟨List.suffix_rfl, List.suffix_rfl, List.suffix_cons _ _⟩

/-! ## The invariant -/

variable (ctx)

/-- What holds between the forms, while the `busy` modules are being loaded. -/
structure Record.Inv (busy : List Name) (r : Record V) : Prop where
  sound : r.Sound
  registered : r.modules = r.ended.map fun p => (p.1.key, p.2)
  known : ∀ p ∈ r.processed, p.mod ∈ busy ∨ p.mod ∈ r.ended.map Prod.fst
  running : ∀ n ∈ busy, n ∉ r.ended.map Prod.fst
  begun : ∀ n ∈ busy, (n, 0) ∈ r.processed.map (fun p => (p.mod, p.index)) ∧
    ∃ form forms, ctx.files n = some (some form :: forms)

/-- The same before form `i` of a file that is being loaded as well. -/
structure World.At (busy : List Name) (name : Name) (i : Nat) (w : World V S) : Prop where
  sound : w.record.Sound
  registered : w.record.modules = w.record.ended.map fun p => (p.1.key, p.2)
  known : ∀ p ∈ w.record.processed, p.mod ∈ name :: busy ∨ p.mod ∈ w.record.ended.map Prod.fst
  running : ∀ n ∈ name :: busy, n ∉ w.record.ended.map Prod.fst
  begun : ∀ n ∈ busy, (n, 0) ∈ w.record.processed.map (fun p => (p.mod, p.index)) ∧
    ∃ form forms, ctx.files n = some (some form :: forms)
  below : ∀ p ∈ w.record.processed, p.mod = name → p.index < i
  started : 0 < i → (name, 0) ∈ w.record.processed.map (fun p => (p.mod, p.index)) ∧
    ∃ form forms, ctx.files name = some (some form :: forms)
  fresh : i = 0 → w.env = .null

/-- A run that went well; `done` says that it was completed. -/
structure Well (busy : List Name) (r : Record V) (done : Prop) (r' : Record V) : Prop where
  sound : r'.Sound
  unregistered : ∀ n ∈ busy, r'.modules.lookup n.key = none
  apart : ∀ p ∈ r'.processed, p.mod ∈ busy → p ∈ r.processed
  inv : done → r'.Inv ctx busy

/-- A run that did not. -/
def Badly {α : Type} (r : Result α × World V S) : Prop := r.1 = .abort ∨ r.2.record.Spoiled

variable {ctx} {busy : List Name} {name : Name}

theorem lookup_registered {r : Record V}
    (h : r.modules = r.ended.map fun p => (p.1.key, p.2)) (name : Name) :
    r.modules.lookup name.key = r.ended.lookup name := by
  rw [h]
  induction r.ended with
  | nil => rfl
  | cons p ps ih =>
    rw [List.map_cons, lookup_cons_eq, lookup_cons_eq, ih]
    by_cases heq : name = p.1
    · rw [if_pos heq, if_pos (congrArg Name.key heq)]
    · rw [if_neg heq, if_neg (mt (fun h => Name.key_injective h) heq)]

theorem Record.Inv.unregistered {r : Record V} (h : r.Inv ctx busy) :
    ∀ n ∈ busy, r.modules.lookup n.key = none := by
  intro n hn
  rw [lookup_registered h.registered]
  exact lookup_eq_none.2 (h.running n hn)

/-- Nothing recorded, nothing wrong. -/
theorem Record.Inv.well {r : Record V} (h : r.Inv ctx busy) (done : Prop) :
    Well ctx busy r done r :=
  ⟨h.sound, h.unregistered, fun _ hp _ => hp, fun _ => h⟩

theorem World.At.inv {i : Nat} {w : World V S} (h : w.At ctx busy name i)
    {form : Form T} {forms : List (Option (Form T))}
    (hfile : i = 0 → ctx.files name = some (some form :: forms)) :
    (w.takeUp name i).record.Inv ctx (name :: busy) := by
  have hnew : (name, i) ∉ w.record.processed.map fun p => (p.mod, p.index) := by
    intro hmem
    obtain ⟨p, hp, heq⟩ := List.mem_map.mp hmem
    obtain ⟨hmod, hindex⟩ := Prod.mk.inj heq
    exact absurd (h.below p hp hmod) (by omega)
  refine ⟨⟨List.nodup_cons.mpr ⟨hnew, h.sound.once⟩, ?_, h.sound.ended, h.sound.overrides⟩,
    h.registered, ?_, h.running, ?_⟩
  · intro p hp hindex
    rcases List.mem_cons.mp hp with rfl | hp
    · exact h.fresh hindex
    · exact h.sound.fresh p hp hindex
  · intro p hp
    rcases List.mem_cons.mp hp with rfl | hp
    · exact .inl List.mem_cons_self
    · exact h.known p hp
  · intro n hn
    rcases List.mem_cons.mp hn with rfl | hn
    · rcases Nat.eq_zero_or_pos i with rfl | hpos
      · exact ⟨List.mem_cons_self, _, _, hfile rfl⟩
      · exact ⟨List.mem_cons_of_mem _ (h.started hpos).1, (h.started hpos).2⟩
    · exact ⟨List.mem_cons_of_mem _ (h.begun n hn).1, (h.begun n hn).2⟩

/-- The next form, when the last one went well. -/
theorem Well.at_next {i : Nat} {w w' : World V S} (hat : w.At ctx busy name i) {done : Prop}
    (h : Well ctx (name :: busy) (w.takeUp name i).record done w'.record) (hdone : done) :
    w'.At ctx busy name (i + 1) := by
  have hinv := h.inv hdone
  refine ⟨hinv.sound, hinv.registered, hinv.known, hinv.running,
    fun n hn => hinv.begun n (List.mem_cons_of_mem _ hn), ?_,
    fun _ => hinv.begun name List.mem_cons_self, fun h0 => absurd h0 (Nat.succ_ne_zero i)⟩
  intro p hp hmod
  rcases List.mem_cons.mp (h.apart p hp (hmod ▸ List.mem_cons_self)) with rfl | hp
  · exact Nat.lt_succ_self i
  · exact Nat.lt_succ_of_lt (hat.below p hp hmod)

/-! ## One call -/

section

variable {inc : Name → World V S → Result Bool × World V S}
  {care : List Name → Name → World V S → Prop}

variable (ctx) in
/-- What is to be shown of `boot_process_file`. -/
def IncSpec (inc : Name → World V S → Result Bool × World V S)
    (care : List Name → Name → World V S → Prop) : Prop :=
  ∀ busy name w, w.record.Inv ctx busy →
    (care busy name w → (inc name w).1 ≠ .abort ∧
      Well ctx busy w.record ((inc name w).1 = .returns true) (inc name w).2.record) ∧
    (¬care busy name w → Badly (inc name w))

theorem processForm_spec (hinc : IncSpec ctx inc care) (form : Form T) {w : World V S}
    (hinv : w.record.Inv ctx busy) :
    ((∀ m s, readInclude ctx form w.state = (some m, s) → care busy m { w with state := s }) →
      (processForm ctx inc form w).1 ≠ .abort ∧
        Well ctx busy w.record ((processForm ctx inc form w).1 = .returns true)
          (processForm ctx inc form w).2.record) ∧
    (¬(∀ m s, readInclude ctx form w.state = (some m, s) → care busy m { w with state := s }) →
      Badly (processForm ctx inc form w)) := by
  rw [processForm]
  split
  · next m s heq =>
    obtain ⟨hgood, hbad⟩ := hinc busy m { w with state := s } hinv
    constructor
    · intro hcare
      exact hgood (hcare m s heq)
    · intro hcare
      refine hbad fun h => hcare fun m' s' heq' => ?_
      obtain ⟨hm, rfl⟩ := Prod.mk.inj (heq.symm.trans heq')
      exact Option.some.inj hm ▸ h
  · next s heq =>
    constructor
    · intro _
      dsimp only
      split <;> exact ⟨nofun, hinv.well _⟩
    · intro hcare
      exact absurd (fun m' s' heq' => by cases heq.symm.trans heq') hcare

theorem processForms_spec (hinc : IncSpec ctx inc care)
    (hext : ∀ (name : Name) (w : World V S), w.record.Extends (inc name w).2.record) (hname : name ∉ busy) :
    ∀ (forms : List (Option (Form T))) (i : Nat) (w : World V S), w.At ctx busy name i →
      (i = 0 → ctx.files name = some forms) →
      (CarefulForms ctx inc (care (name :: busy)) name i forms w →
        (processForms ctx inc name i forms w).1 ≠ .abort ∧
        Well ctx busy w.record False (processForms ctx inc name i forms w).2.record ∧
        (processForms ctx inc name i forms w).2.record.modules.lookup name.key = none ∧
        ((processForms ctx inc name i forms w).1 = .returns true →
          ∃ j, (processForms ctx inc name i forms w).2.At ctx busy name j)) ∧
      (¬CarefulForms ctx inc (care (name :: busy)) name i forms w →
        Badly (processForms ctx inc name i forms w)) := by
  intro forms
  induction forms with
  | nil =>
    intro i w hat _
    have hlookup (n : Name) (hn : n ∈ name :: busy) : w.record.modules.lookup n.key = none := by
      rw [lookup_registered hat.registered]
      exact lookup_eq_none.2 (hat.running n hn)
    refine ⟨fun _ => ⟨nofun, ⟨hat.sound, fun n hn => hlookup n (List.mem_cons_of_mem _ hn),
      fun _ hp _ => hp, nofun⟩, hlookup name List.mem_cons_self, fun _ => ⟨i, hat⟩⟩, ?_⟩
    exact fun h => absurd trivial h
  | cons form forms ih =>
    intro i w hat hfile
    cases form with
    | none =>
      have hlookup (n : Name) (hn : n ∈ name :: busy) : w.record.modules.lookup n.key = none := by
        rw [lookup_registered hat.registered]
        exact lookup_eq_none.2 (hat.running n hn)
      refine ⟨fun _ => ⟨nofun, ⟨hat.sound, fun n hn => hlookup n (List.mem_cons_of_mem _ hn),
        fun _ hp _ => hp, nofun⟩, hlookup name List.mem_cons_self, nofun⟩, ?_⟩
      exact fun h => absurd trivial h
    | some form =>
      have hinv := hat.inv hfile
      obtain ⟨hgood, hbad⟩ := processForm_spec hinc form hinv
      -- what was processed of the busy modules is from before
      have hbefore {r : Record V} {done : Prop}
          (h : Well ctx (name :: busy) (w.takeUp name i).record done r) :
          ∀ p ∈ r.processed, p.mod ∈ busy → p ∈ w.record.processed := by
        intro p hp hmod
        rcases List.mem_cons.mp (h.apart p hp (List.mem_cons_of_mem _ hmod)) with rfl | hp
        · exact absurd hmod hname
        · exact hp
      have hrest := processForms_extends ctx hext name forms (i + 1)
        (processForm ctx inc form (w.takeUp name i)).2
      by_cases hcare : ∀ m s, readInclude ctx form w.state = (some m, s) →
          care (name :: busy) m { w.takeUp name i with state := s }
      · obtain ⟨habort, hwell⟩ := hgood hcare
        rw [processForms, CarefulForms]
        split
        · next w' heq =>
          rw [heq] at hwell hrest
          have hat' := hwell.at_next hat rfl
          obtain ⟨hgood', hbad'⟩ := ih (i + 1) w' hat' fun h0 => absurd h0 (Nat.succ_ne_zero i)
          constructor
          · rintro ⟨-, hnext⟩
            obtain ⟨habort', hwell', hlookup, hend⟩ := hgood' (hnext w' heq)
            refine ⟨habort', ⟨hwell'.sound, hwell'.unregistered, fun p hp hmod => ?_, nofun⟩,
              hlookup, hend⟩
            exact hbefore hwell p (hwell'.apart p hp hmod) hmod
          · intro hno
            refine hbad' fun h => hno ⟨hcare, fun w'' heq' => ?_⟩
            obtain ⟨-, rfl⟩ := Prod.mk.inj (heq.symm.trans heq')
            exact h
        · next r hne =>
          constructor
          · intro _
            refine ⟨habort, ⟨hwell.sound,
              fun n hn => hwell.unregistered n (List.mem_cons_of_mem _ hn), hbefore hwell, nofun⟩,
              hwell.unregistered name List.mem_cons_self, fun hreturns => ?_⟩
            exact (hne _ (Prod.ext hreturns rfl)).elim
          · intro hno
            exact absurd ⟨hcare, fun w'' heq' => absurd heq' (hne w'')⟩ hno
      · rw [processForms, CarefulForms]
        refine ⟨fun h => absurd h.1 hcare, fun _ => ?_⟩
        rcases hbad hcare with habort | hspoiled
        · split
          · next w' heq =>
            rw [heq] at habort
            cases habort
          · exact .inl habort
        · split
          · next w' heq =>
            rw [heq] at hspoiled hrest
            exact .inr (hspoiled.mono hrest)
          · exact .inr hspoiled

/-- Either the module is registered with what it ends with, or the null pointer is returned. -/
theorem register_spec (name : Name) (w : World V S) :
    (register ctx name w).2.record = { w.record with
        modules := (register ctx name w).2.record.modules
        ended := (name, w.env) :: w.record.ended } ∧
      ((register ctx name w).1 = w.env ∧
          (register ctx name w).2.record.modules = (name.key, w.env) :: w.record.modules ∨
        (register ctx name w).1 = .null ∧
          (register ctx name w).2.record.modules = w.record.modules) := by
  rw [register]
  dsimp only
  split
  · exact ⟨rfl, .inr ⟨rfl, rfl⟩⟩
  next hcopy =>
    have hcopy := envClone_eq (Bool.not_eq_true _ ▸ hcopy)
    split
    · exact ⟨rfl, .inr ⟨rfl, rfl⟩⟩
    next hcached =>
      have hcached := envClone_eq (Bool.not_eq_true _ ▸ hcached)
      split
      · refine ⟨rfl, .inl ⟨hcopy, ?_⟩⟩
        rw [hcached, hcopy]
      · exact ⟨rfl, .inr ⟨rfl, rfl⟩⟩

/-- A registered module is found; nothing else has changed. -/
theorem Record.Inv.found {r : Record V} (hinv : r.Inv ctx busy) {new : Env V}
    (hfound : (new.isNull && (r.modules.lookup name.key).isNone) = false)
    (hnull : new = .null) : r.Inv ctx busy ∧
      ∃ e, r.modules.lookup name.key = some e ∧ (new = e ∨ new = .null) := by
  subst hnull
  cases h : r.modules.lookup name.key with
  | none =>
    rw [h] at hfound
    cases hfound
  | some e => exact ⟨hinv, e, rfl, .inr rfl⟩

theorem registered_spec {i : Nat} {w : World V S} (hname : name ∉ busy)
    (hat : w.At ctx busy name i) :
    Well ctx busy w.record False (register ctx name w).2.record ∧
      (((register ctx name w).1.isNull &&
          ((register ctx name w).2.record.modules.lookup name.key).isNone) = false →
        (register ctx name w).2.record.Inv ctx busy ∧
          ∃ e, (register ctx name w).2.record.modules.lookup name.key = some e ∧
            ((register ctx name w).1 = e ∨ (register ctx name w).1 = .null)) := by
  obtain ⟨hrecord, hcases⟩ := @register_spec _ _ _ ctx name w
  generalize register ctx name w = r at hrecord hcases
  obtain ⟨new, w'⟩ := r
  dsimp only at hrecord hcases ⊢
  have hsound : w'.record.Sound := by
    rw [hrecord]
    refine ⟨hat.sound.once, hat.sound.fresh,
      List.nodup_cons.mpr ⟨hat.running name List.mem_cons_self, hat.sound.ended⟩, fun i hi => ?_⟩
    obtain ⟨e, he, hover⟩ := hat.sound.overrides i hi
    exact ⟨e, List.mem_cons_of_mem _ he, hover⟩
  have hbusy (n : Name) (hn : n ∈ busy) : w.record.modules.lookup n.key = none := by
    rw [lookup_registered hat.registered]
    exact lookup_eq_none.2 (hat.running n (List.mem_cons_of_mem _ hn))
  have hother (n : Name) (hn : n ∈ busy) : n.key ≠ name.key :=
    fun h => hname (Name.key_injective h ▸ hn)
  have hprocessed : w'.record.processed = w.record.processed := by rw [hrecord]
  have hended : w'.record.ended = (name, w.env) :: w.record.ended := by rw [hrecord]
  rcases hcases with ⟨rfl, hmodules⟩ | ⟨rfl, hmodules⟩
  · have hunregistered (n : Name) (hn : n ∈ busy) : w'.record.modules.lookup n.key = none := by
      rw [hmodules, lookup_cons_eq, if_neg (hother n hn), hbusy n hn]
    refine ⟨⟨hsound, hunregistered, fun p hp _ => hprocessed ▸ hp, nofun⟩,
      fun _ => ⟨⟨hsound, ?_, ?_, ?_, ?_⟩, w.env, ?_, .inl rfl⟩⟩
    · rw [hmodules, hended, hat.registered]
      rfl
    · intro p hp
      rw [hended, List.map_cons]
      rcases hat.known p (hprocessed ▸ hp) with hmem | hmem
      · rcases List.mem_cons.mp hmem with heq | hmem
        · exact .inr (heq ▸ List.mem_cons_self)
        · exact .inl hmem
      · exact .inr (List.mem_cons_of_mem _ hmem)
    · intro n hn hmem
      rw [hended, List.map_cons] at hmem
      rcases List.mem_cons.mp hmem with heq | hmem
      · exact hname ((show n = name from heq) ▸ hn)
      · exact hat.running n (List.mem_cons_of_mem _ hn) hmem
    · intro n hn
      rw [hprocessed]
      exact hat.begun n hn
    · rw [hmodules, lookup_cons_eq, if_pos rfl]
  · have hlookup : w'.record.modules.lookup name.key = none := by
      rw [hmodules, lookup_registered hat.registered]
      exact lookup_eq_none.2 (hat.running name List.mem_cons_self)
    refine ⟨⟨hsound, fun n hn => hmodules ▸ hbusy n hn, fun p hp _ => hprocessed ▸ hp, nofun⟩, ?_⟩
    intro hfound
    rw [hlookup] at hfound
    cases hfound

/-- A file that is read is not registered; if it is being loaded, its first form is processed
again. -/
theorem readFile_spec (hext : ∀ (name : Name) (w : World V S), w.record.Extends (inc name w).2.record)
    {w : World V S} (hinv : w.record.Inv ctx busy)
    (hnone : w.record.modules.lookup name.key = none) {forms : List (Option (Form T))}
    (hfiles : ctx.files name = some forms) (s : S) :
    (name ∉ busy → World.At ctx busy name 0 { w with env := .null, state := s }) ∧
      (name ∈ busy → (processForms ctx inc name 0 forms
        { w with env := .null, state := s }).2.record.Spoiled) := by
  rw [lookup_registered hinv.registered, lookup_eq_none] at hnone
  constructor
  · intro hname
    refine ⟨hinv.sound, hinv.registered, fun p hp => ?_, fun n hn => ?_, hinv.begun,
      fun p hp hmod => ?_, nofun, fun _ => rfl⟩
    · exact (hinv.known p hp).imp_left (List.mem_cons_of_mem _)
    · rcases List.mem_cons.mp hn with rfl | hn
      · exact hnone
      · exact hinv.running n hn
    · rcases hinv.known p hp with hmem | hmem
      · exact absurd (hmod ▸ hmem) hname
      · exact absurd (hmod ▸ hmem) hnone
  · intro hname
    obtain ⟨hfirst, form, forms', hfiles'⟩ := hinv.begun name hname
    rw [hfiles'] at hfiles
    obtain rfl := Option.some.inj hfiles
    refine Record.Spoiled.mono (fun r' hr' hsound => ?_) (processForms_takeUp ctx hext name form
      forms' 0 { w with env := .null, state := s })
    have honce := (hr'.processed.sublist.map fun p => (p.mod, p.index)).nodup hsound.once
    exact (List.nodup_cons.mp honce).1 hfirst

theorem loadModule_spec (hinc : IncSpec ctx inc care)
    (hext : ∀ (name : Name) (w : World V S), w.record.Extends (inc name w).2.record) {w : World V S}
    (hinv : w.record.Inv ctx busy) :
    (CarefulLoad ctx inc care busy name w →
      (loadModule ctx inc name w).1 ≠ .abort ∧
      Well ctx busy w.record False (loadModule ctx inc name w).2.record ∧
      ∀ new, (loadModule ctx inc name w).1 = .returns new →
        (new.isNull &&
          ((loadModule ctx inc name w).2.record.modules.lookup name.key).isNone) = false →
        (loadModule ctx inc name w).2.record.Inv ctx busy ∧
          ∃ e, (loadModule ctx inc name w).2.record.modules.lookup name.key = some e ∧
            (new = e ∨ new = .null)) ∧
    (¬CarefulLoad ctx inc care busy name w → Badly (loadModule ctx inc name w)) := by
  rw [loadModule]
  split
  · next hbad =>
    have hcare : CarefulLoad ctx inc care busy name w := by
      intro hok
      rw [hok] at hbad
      cases hbad
    refine ⟨fun _ => ⟨nofun, hinv.well False, fun new hnew hfound => ?_⟩, fun h => absurd hcare h⟩
    exact hinv.found hfound (Result.returns.inj hnew).symm
  next hok =>
    have hok : okModuleName name = true := by simpa using hok
    split
    · next cached hcached =>
      have hcare : CarefulLoad ctx inc care busy name w := by
        intro _ hnone
        rw [hcached] at hnone
        cases hnone
      refine ⟨fun _ => ⟨nofun, hinv.well False, fun new hnew hfound => ⟨hinv, cached, hcached, ?_⟩⟩,
        fun h => absurd hcare h⟩
      rw [← Result.returns.inj hnew]
      exact envClone_cases cached w.state
    next hnone =>
      -- returning null here is a failure
      have hfails {w' : World V S} (hrecord : w'.record = w.record) {new : Env V}
          (hfound : (new.isNull && (w'.record.modules.lookup name.key).isNone) = false)
          (hnew : new = .null) : False := by
        rw [hrecord, hnone, hnew] at hfound
        cases hfound
      dsimp only
      split
      · next hpath =>
        have hcare : CarefulLoad ctx inc care busy name w := by
          intro _ _ _ _ h
          rw [hpath] at h
          cases h
        exact ⟨fun _ => ⟨nofun, hinv.well False, fun new hnew hfound =>
          (hfails rfl hfound (Result.returns.inj hnew).symm).elim⟩, fun h => absurd hcare h⟩
      · next _ hfiles =>
        have hcare : CarefulLoad ctx inc care busy name w := by
          intro _ _ forms h
          rw [hfiles] at h
          cases h
        exact ⟨fun _ => ⟨nofun, hinv.well False, fun new hnew hfound =>
          (hfails rfl hfound (Result.returns.inj hnew).symm).elim⟩, fun h => absurd hcare h⟩
      next forms hpath hfiles =>
        split
        · next htext =>
          obtain ⟨hfresh, hagain⟩ := readFile_spec hext hinv hnone hfiles
            (ctx.calloc (ctx.calloc w.state).2).2
          by_cases hname : name ∈ busy
          · refine ⟨fun h => absurd hname (h hok hnone forms hfiles hpath htext).1, fun _ => .inr ?_⟩
            have hspoiled := hagain hname
            split
            · next w' heq =>
              rw [heq] at hspoiled
              exact hspoiled.mono (register_extends ctx name w')
            · next w' heq =>
              rw [heq] at hspoiled
              exact hspoiled
            · next w' heq =>
              rw [heq] at hspoiled
              exact hspoiled
            · next w' heq =>
              rw [heq] at hspoiled
              exact hspoiled
          · have hcare : CarefulLoad ctx inc care busy name w ↔
                CarefulForms ctx inc (care (name :: busy)) name 0 forms
                  { w with env := .null, state := (ctx.calloc (ctx.calloc w.state).2).2 } := by
              refine ⟨fun h => (h hok hnone forms hfiles hpath htext).2, fun h _ _ forms' hfiles' _ _ =>
                ⟨hname, ?_⟩⟩
              obtain rfl := Option.some.inj (hfiles.symm.trans hfiles')
              exact h
            have hforms := processForms_spec hinc hext hname forms 0 _ (hfresh hname)
              fun _ => hfiles
            rw [hcare]
            split
            · next w' heq =>
              rw [heq] at hforms
              refine ⟨fun h => ?_, fun h => ?_⟩
              · obtain ⟨-, hwell, -, hend⟩ := hforms.1 h
                obtain ⟨j, hat⟩ := hend rfl
                obtain ⟨hwell', hfound⟩ := registered_spec hname hat
                refine ⟨nofun, ⟨hwell'.sound, hwell'.unregistered, fun p hp hmod =>
                  hwell.apart p (hwell'.apart p hp hmod) hmod, nofun⟩, fun new hnew => ?_⟩
                rw [← Result.returns.inj hnew]
                exact hfound
              · rcases hforms.2 h with habort | hspoiled
                · cases habort
                · exact .inr (hspoiled.mono (register_extends ctx name w'))
            · next w' heq =>
              rw [heq] at hforms
              refine ⟨fun h => ?_, fun h => (hforms.2 h).imp (fun habort => by cases habort) id⟩
              obtain ⟨-, hwell, hlookup, -⟩ := hforms.1 h
              refine ⟨nofun, hwell, fun new hnew hfound => ?_⟩
              rw [hlookup, ← Result.returns.inj hnew] at hfound
              cases hfound
            · next w' heq =>
              rw [heq] at hforms
              refine ⟨fun h => ?_, fun h => (hforms.2 h).imp (fun habort => by cases habort) id⟩
              exact ⟨nofun, (hforms.1 h).2.1, nofun⟩
            · next w' heq =>
              rw [heq] at hforms
              exact ⟨fun h => absurd rfl (hforms.1 h).1, fun _ => .inl rfl⟩
        · next htext =>
          have hcare : CarefulLoad ctx inc care busy name w := by
            intro _ _ _ _ _ h
            exact absurd h htext
          exact ⟨fun _ => ⟨nofun, hinv.well False, fun new hnew hfound =>
            (hfails rfl hfound (Result.returns.inj hnew).symm).elim⟩, fun h => absurd hcare h⟩

end

/-! ## Every call -/

/-- The environment after an include is as it should be, or never will be. -/
theorem included_spec {old new merged e : Env V} {w : World V S} (hinv : w.record.Inv ctx busy)
    (hlookup : w.record.modules.lookup name.key = some e) (hnew : new = e ∨ new = .null)
    (hmerged : Overrides old new merged) :
    ((new = e ∨ ∀ k b, e.get k = some b → old.get k = some b) →
      Record.Inv ctx busy
        { w.record with included := ⟨name, old, merged⟩ :: w.record.included }) ∧
    (¬(new = e ∨ ∀ k b, e.get k = some b → old.get k = some b) →
      Record.Spoiled { w.record with included := ⟨name, old, merged⟩ :: w.record.included }) := by
  rw [lookup_registered hinv.registered, lookup_eq_some hinv.sound.ended] at hlookup
  constructor
  · intro hkept
    refine ⟨⟨hinv.sound.once, hinv.sound.fresh, hinv.sound.ended, fun i hi => ?_⟩,
      hinv.registered, hinv.known, hinv.running, hinv.begun⟩
    rcases List.mem_cons.mp hi with rfl | hi
    · refine ⟨e, hlookup, fun k => ?_⟩
      rw [hmerged k]
      rcases hnew with rfl | rfl
      · rfl
      rcases hkept with rfl | hold
      · rfl
      · cases hk : e.get k with
        | none => rfl
        | some b => exact hold k b hk
    · exact hinv.sound.overrides i hi
  · intro hlost r' hr' hsound
    obtain ⟨hne, hadds⟩ := not_or.mp hlost
    obtain rfl := hnew.resolve_left hne
    obtain ⟨e', he', hover⟩ := hsound.overrides _ (hr'.included.subset List.mem_cons_self)
    -- the module ends with one environment
    have heq : e' = e := by
      have hmem := hr'.ended.subset hlookup
      have h₁ := (lookup_eq_some hsound.ended).mpr he'
      exact Option.some.inj (h₁.symm.trans ((lookup_eq_some hsound.ended).mpr hmem))
    subst heq
    refine hadds fun k b hk => ?_
    have h := hover k
    rw [hmerged k, hk] at h
    exact h

theorem processFile_spec (room : Nat) : IncSpec ctx (processFile ctx room) (Careful ctx room) := by
  induction room with
  | zero =>
    intro busy name w hinv
    rw [processFile, Careful]
    split
    · next hfail =>
      refine ⟨fun _ => ⟨nofun, hinv.well _⟩, fun h => absurd (fun hno => ?_) h⟩
      rw [hfail] at hno
      cases hno
    · next hok => exact ⟨fun h => absurd (h (by simpa using hok)) id, fun _ => .inl rfl⟩
  | succ room ih =>
    intro busy name w hinv
    rw [processFile, Careful]
    dsimp only
    split
    · next hfail =>
      refine ⟨fun _ => ⟨nofun, hinv.well _⟩, fun h => absurd (fun hno => ?_) h⟩
      rw [hfail] at hno
      cases hno
    next hok =>
      have hok : (!w.env.isNull && (envClone ctx w.env w.state).1.isNull) = false := by
        simpa using hok
      have hold := envClone_eq hok
      have hload := @loadModule_spec _ _ _ _ _ name _ _ ih (processFile_extends room)
        (w := { w with state := (envClone ctx w.env w.state).2 }) hinv
      simp only [hok, true_imp_iff]
      split
      · next w' heq =>
        rw [heq] at hload
        constructor
        · intro hcare
          obtain ⟨-, hwell, -⟩ := hload.1 hcare.1
          exact ⟨nofun, hwell.sound, hwell.unregistered, hwell.apart, nofun⟩
        · intro hcare
          refine (hload.2 fun h => hcare ⟨h, fun new w'' heq' => ?_⟩).imp (fun h => by cases h) id
          cases heq.symm.trans heq'
      · next w' heq =>
        rw [heq] at hload
        exact ⟨fun hcare => absurd rfl (hload.1 hcare.1).1, fun _ => .inl rfl⟩
      next new w' heq =>
        rw [heq] at hload
        by_cases hcare : CarefulLoad ctx (processFile ctx room) (Careful ctx room) busy name
            { w with state := (envClone ctx w.env w.state).2 }
        · obtain ⟨-, hwell, hfound⟩ := hload.1 hcare
          have hlater (h : (new.isNull && (w'.record.modules.lookup name.key).isNone) = false →
              0 < room ∧ Kept ctx name w.env new w') :
              ∀ new' w'', loadModule ctx (processFile ctx room) name
                  { w with state := (envClone ctx w.env w.state).2 } = (.returns new', w'') →
                (new'.isNull && (w''.record.modules.lookup name.key).isNone) = false →
                  0 < room ∧ Kept ctx name w.env new' w'' := by
            intro new' w'' heq'
            obtain ⟨hnew, rfl⟩ := Prod.mk.inj (heq.symm.trans heq')
            obtain rfl := Result.returns.inj hnew
            exact h
          split
          · next hnot =>
            refine ⟨fun _ => ⟨nofun, hwell.sound, hwell.unregistered, hwell.apart, nofun⟩,
              fun h => absurd ⟨hcare, hlater fun hyes => ?_⟩ h⟩
            rw [hnot] at hyes
            cases hyes
          next hyes =>
            have hyes : (new.isNull && (w'.record.modules.lookup name.key).isNone) = false := by
              simpa using hyes
            obtain ⟨hinv', e, hlookup, hnew⟩ := hfound new rfl hyes
            rw [hold]
            cases room with
            | zero =>
              refine ⟨fun h => ?_, fun _ => .inl rfl⟩
              exact absurd (h.2 new w' heq hyes).1 (Nat.lt_irrefl 0)
            | succ room =>
              dsimp only
              split
              · next hlost =>
                exact ⟨fun _ => ⟨nofun, hwell.sound, hwell.unregistered, hwell.apart, nofun⟩,
                  fun h => absurd ⟨hcare, hlater fun _ => ⟨Nat.succ_pos room, .inl hlost⟩⟩ h⟩
              · next hmerged =>
                have hmerged : ((!w.env.isNull || !new.isNull) &&
                    (envMerge ctx w.env new w'.state).1.isNull) = false := by
                  simpa using hmerged
                obtain ⟨hkept, hlost⟩ := included_spec hinv' hlookup hnew
                  (envMerge_overrides hmerged)
                constructor
                · intro h
                  rcases (h.2 new w' heq hyes).2 with hfail | ⟨e', he', hkeep⟩
                  · rw [hmerged] at hfail
                    cases hfail
                  obtain rfl := Option.some.inj (hlookup.symm.trans he')
                  have hrecord := hkept hkeep
                  exact ⟨nofun, hrecord.sound, hwell.unregistered, hwell.apart, fun _ => hrecord⟩
                · intro h
                  refine .inr (hlost fun hkeep => h ⟨hcare, hlater fun _ => ?_⟩)
                  exact ⟨Nat.succ_pos room, .inr ⟨e, hlookup, hkeep⟩⟩
        · refine ⟨fun h => absurd h.1 hcare, fun _ => ?_⟩
          have hspoiled : w'.record.Spoiled :=
            (hload.2 hcare).resolve_left (fun h => by cases h)
          split
          · exact .inr hspoiled
          split
          · exact .inl rfl
          split
          · exact .inr hspoiled
          · exact .inr (hspoiled.mono ⟨List.suffix_rfl, List.suffix_rfl, List.suffix_cons _ _⟩)

/-- Loading is as it should be exactly if every call of `boot_process_file` finds room for its
roots and a module that is not being loaded, and loses no registered environment. -/
theorem loading_iff (ctx : BootCtx T V S) (name : Name) (s : S) :
    Proper (loadAssembly ctx name s) ↔ Careful ctx tmpEnvCap [] name (boot s) := by
  have hinv : (boot s : World V S).record.Inv ctx [] := by
    refine ⟨⟨List.nodup_nil, nofun, List.nodup_nil, nofun⟩, rfl, nofun, nofun, nofun⟩
  obtain ⟨hgood, hbad⟩ := processFile_spec tmpEnvCap [] name (boot s) hinv
  constructor
  · intro h
    by_contra hcare
    rcases hbad hcare with habort | hspoiled
    · exact h.terminates habort
    · exact hspoiled _ (.refl _) h.sound
  · intro hcare
    exact ⟨(hgood hcare).1, (hgood hcare).2.sound⟩

/-! ## Includes without end -/

/-- Files where there is memory for everything and no form but includes. -/
def includesOnly (files : Name → Option (List (Option (Form Empty)))) :
    BootCtx Empty Empty Unit where
  files := files
  calloc s := (true, s)
  eval _ env s := (.ok, env, s)

/-- `@name` -/
def includeForm (bs : List UInt8) : Option (Form Empty) := some (.nat (LittleEndian.toNat (64 :: bs)))

/-- The module `a` includes itself. -/
def selfInclude : Name → Option (List (Option (Form Empty)))
  | ⟨[97], _⟩ => some [includeForm [97]]
  | _ => none

/-- The modules `a`, `aa`, `aaa` and so on: each includes the next one, but the last. -/
def longChain (name : Name) : Option (List (Option (Form Empty))) :=
  if name.bytes.length < 256 then some [includeForm (97 :: name.bytes)] else some []

theorem readInclude_include {c : UInt8} {cs : List UInt8}
    (files : Name → Option (List (Option (Form Empty)))) (hok : (c :: cs).all okFileChar = true) :
    readInclude (includesOnly files) (.nat (LittleEndian.toNat (64 :: c :: cs))) () =
      (some ⟨c :: cs, zero_notMem_of_ok hok⟩, ()) := by
  have hlast : (64 :: c :: cs).getLast? ≠ some 0 := by
    intro hlast
    rw [List.getLast?_cons_cons] at hlast
    exact zero_notMem_of_ok hok (List.mem_of_getLast? hlast)
  rw [readInclude, LittleEndian.byteLen_toNat hlast, LittleEndian.bytes_toNat]
  simp only [includesOnly, true_and, hok, dif_pos]

/-- The places run out before the chain does. -/
theorem longChain_aborts : ∀ (room : Nat) (name : Name) (w : World Empty Unit),
    okModuleName name = true → name.bytes.length + room ≤ 257 → w.env = .null →
      w.record.modules = [] → (processFile (includesOnly longChain) room name w).1 = .abort := by
  intro room
  have hcalloc : (includesOnly longChain).calloc () = (true, ()) := rfl
  induction room with
  | zero =>
    rintro name ⟨_, _, _⟩ hok hroom rfl hmods
    rfl
  | succ room ih =>
    rintro name ⟨_, ⟨⟩, ⟨_, processed, ended, included⟩⟩ hok hroom rfl rfl
    have hclone : envClone (includesOnly longChain) .null () = (.null, ()) := rfl
    by_cases hlen : name.bytes.length < 256
    · -- the next module of the chain is read, and the rest of the chain aborts
      have hall : (97 :: name.bytes).all okFileChar = true := by
        rw [List.all_cons, (Bool.and_eq_true_iff.1 hok).2]
        rfl
      have hnext := ih ⟨97 :: name.bytes, zero_notMem_of_ok hall⟩
        ((World.mk .null () ⟨[], processed, ended, included⟩).takeUp name 0)
        (by rw [okModuleName, hall]; rfl) (by simp only [List.length_cons]; omega) rfl rfl
      have hfile : (includesOnly longChain).files name =
          some [includeForm (97 :: name.bytes)] := if_pos hlen
      have hload : (loadModule (includesOnly longChain) (processFile (includesOnly longChain) room)
          name ⟨.null, (), ⟨[], processed, ended, included⟩⟩).1 = .abort := by
        rw [World.takeUp] at hnext
        simp only [loadModule, hok, hfile, hcalloc, List.lookup_nil, includeForm,
          processForms, processForm, World.takeUp, readInclude_include _ hall, Bool.not_true]
        generalize processFile (includesOnly longChain) room _ _ = r at hnext ⊢
        obtain ⟨r, w⟩ := r
        cases hnext
        rfl
      simp only [processFile, hclone]
      generalize loadModule (includesOnly longChain) _ _ _ = r at hload ⊢
      obtain ⟨r, w⟩ := r
      cases hload
      rfl
    · -- the last module of the chain is empty, but its environment finds no place
      obtain rfl : room = 0 := by omega
      have hfile : (includesOnly longChain).files name = some [] := if_neg hlen
      have hnull : (Env.null : Env Empty).isNull = true := rfl
      have hlookup : List.lookup name.key [(name.key, (Env.null : Env Empty))] = some .null := by
        rw [List.lookup_cons, beq_self_eq_true]
      simp only [processFile, hclone, loadModule, hok, hfile, hcalloc, List.lookup_nil,
        processForms, register, hnull, Bool.not_true, Bool.false_and, Bool.false_eq_true,
        if_false, if_true, hlookup, Option.isNone_some, Bool.and_false]

/-- A module that includes itself aborts the process, and so do 256 that do not. -/
theorem loading_aborts : ¬Proper (loadAssembly (includesOnly selfInclude) ⟨[97], by decide⟩ ()) ∧
    ¬Proper (loadAssembly (includesOnly longChain) ⟨[97], by decide⟩ ()) := by
  constructor
  · intro h
    exact h.terminates (by decide +kernel)
  · intro h
    exact h.terminates (longChain_aborts _ _ _ (by decide) (by decide) rfl rfl)

end Enki.Boot
