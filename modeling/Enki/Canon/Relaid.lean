import Enki.Canon.Applied
import Enki.Canon.Layout

/-!
# Relaid

`Relaid` says what layout makes of a text with gaps: every gap becomes a space or a line
break, and everything else stays. The renderer's flat text is the flat text of the document,
unless both are too wide (`Approx`), so the placeholder is never printed; its wide text is
the text relaid (`Lays`).
-/

namespace Enki.Canon

/-! ## Relaid texts -/

/-- What layout makes of a text: every gap becomes a space, or a line break. -/
inductive Relaid : Gapped → Name → Prop
  | nil : Relaid [] []
  | keep (b : UInt8) {f : Gapped} {w : Name} (h : Relaid f w) : Relaid (some b :: f) (b :: w)
  | space {f : Gapped} {w : Name} (h : Relaid f w) : Relaid (none :: f) (' '.toUInt8 :: w)
  | newline (col : Nat) {f : Gapped} {w : Name} (h : Relaid f w) : Relaid (none :: f) (nl col ++ w)

namespace Gapped

variable {t u : Gapped}

@[simp] theorem flat_nil : flat [] = [] := rfl

@[simp] theorem flat_append : flat (t ++ u) = flat t ++ flat u := List.map_append ..

@[simp] theorem flat_none_cons : flat (none :: t) = text " " ++ flat t := rfl

@[simp] theorem flat_solid (s : Name) : flat (solid s) = s := by
  induction s with
  | nil => rfl
  | cons b s ih => exact congrArg (b :: ·) ih

end Gapped

namespace Relaid

variable {f f' : Gapped} {w w' : Name}

theorem flat : ∀ t : Gapped, Relaid t t.flat
  | [] => .nil
  | none :: t => .space (flat t)
  | some b :: t => .keep b (flat t)

theorem solid (s : Name) : Relaid (Canon.solid s) s := by
  have h := flat (Canon.solid s)
  rwa [Gapped.flat_solid] at h

theorem append (h : Relaid f w) (h' : Relaid f' w') : Relaid (f ++ f') (w ++ w') := by
  induction h with
  | nil => exact h'
  | keep b _ ih => exact .keep b ih
  | space _ ih => exact .space ih
  | newline col _ ih =>
    rw [List.append_assoc]
    exact .newline col ih

theorem gap : Relaid [none] (text " ") := .space .nil

theorem gapLine (col : Nat) : Relaid [none] (nl col) := by
  have h := Relaid.newline col Relaid.nil
  rwa [List.append_nil] at h

theorem cat₃ {a b c : Gapped} {a' b' c' : Name} (ha : Relaid a a') (hb : Relaid b b')
    (hc : Relaid c c') : Relaid (a ++ b ++ c) (a' ++ b' ++ c') :=
  (ha.append hb).append hc

/-- What is neither a space nor a line break begins both or neither. -/
theorem head_iff (h : Relaid f w) {b : UInt8} (hs : b ≠ ' '.toUInt8) (hn : b ≠ '\n'.toUInt8) :
    w.head? = some b ↔ f.head? = some (some b) := by
  cases h with
  | nil => simp
  | keep c h => simp
  | space h => simp [Ne.symm hs]
  | newline col h => simp [nl, Ne.symm hn]

theorem wrap (h : Relaid f w) : Relaid f.wrap (Canon.wrap w) := by
  have hiff := h.head_iff (b := '('.toUInt8) (by decide) (by decide)
  unfold Canon.wrap Gapped.wrap
  by_cases hf : f.head? = some (some '('.toUInt8)
  · rw [if_pos hf, if_pos (hiff.2 hf)]
    exact h
  · rw [if_neg hf, if_neg (mt hiff.1 hf)]
    exact (solid _).cat₃ h (solid _)

end Relaid

/-- The text on one line begins like the text. -/
theorem Gapped.flat_wrap (t : Gapped) : t.wrap.flat = Canon.wrap t.flat := by
  have hiff := (Relaid.flat t).head_iff (b := '('.toUInt8) (by decide) (by decide)
  unfold Gapped.wrap Canon.wrap
  by_cases ht : t.head? = some (some '('.toUInt8)
  · rw [if_pos ht, if_pos (hiff.2 ht)]
  · rw [if_neg ht, if_neg (mt hiff.1 ht)]
    simp only [flat_append, flat_solid]

@[simp] theorem gapped_nil : gapped [] = [] := rfl

@[simp] theorem gapped_cons (t : Gapped) (ts : List Gapped) :
    gapped (t :: ts) = none :: t ++ gapped ts := by
  simp [gapped]

theorem gapped_append (ts us : List Gapped) : gapped (ts ++ us) = gapped ts ++ gapped us := by
  simp [gapped]

theorem spaced_cons (t : Name) (ts : List Name) :
    spaced (t :: ts) = text " " ++ t ++ spaced ts := by
  simp [spaced]

theorem flat_gapped (ts : List Gapped) : (gapped ts).flat = spaced (ts.map Gapped.flat) := by
  induction ts with
  | nil => rfl
  | cons t ts ih =>
    rw [List.map_cons, spaced_cons, ← ih, gapped_cons, Gapped.flat_append, Gapped.flat_none_cons]

/-! ## Flat renderings and the placeholder -/

/-- A flat rendering of a text is the text itself, unless both are too wide. -/
structure Approx (maxw : Nat) (t s : Name) : Prop where
  fits : t.length ≤ maxw → s = t
  wider : maxw < t.length → maxw < s.length

namespace Approx

variable {maxw : Nat} {t t' s s' : Name}

theorem refl (maxw : Nat) (t : Name) : Approx maxw t t := ⟨fun _ => rfl, id⟩

theorem append (h : Approx maxw t s) (h' : Approx maxw t' s') :
    Approx maxw (t ++ t') (s ++ s') := by
  constructor
  · intro hfit
    rw [List.length_append] at hfit
    rw [h.fits (by omega), h'.fits (by omega)]
  · intro hwide
    rw [List.length_append] at hwide ⊢
    by_cases ht : maxw < t.length
    · have := h.wider ht
      omega
    · by_cases ht' : maxw < t'.length
      · have := h'.wider ht'
        omega
      -- neither is too wide by itself, so that both are the texts
      · rwa [h.fits (by omega), h'.fits (by omega)]

theorem wrap (h : Approx maxw t s) (hhead : s.head? = t.head?) :
    Approx maxw (Canon.wrap t) (Canon.wrap s) := by
  unfold Canon.wrap
  rw [hhead]
  split
  · exact h
  · exact ((refl _ _).append h).append (refl _ _)

theorem build (hmaxw : maxw < 4095) (h : Approx maxw t s) : Approx maxw t (buildFlat maxw s) := by
  have hover : overwide.length = 4095 := by rw [overwide, List.length_cons, List.length_replicate]
  unfold buildFlat
  constructor
  · intro hfit
    have hs := h.fits hfit
    rw [if_neg (by rw [hs]; omega), hs]
  · intro hwide
    rw [if_pos (h.wider hwide), hover]
    exact hmaxw

/-- What is not too wide is the text. -/
theorem eq_of_le (h : Approx maxw t s) (hs : s.length ≤ maxw) : s = t := by
  by_cases ht : t.length ≤ maxw
  · exact h.fits ht
  · have := h.wider (by omega)
    omega

end Approx

/-- The placeholder begins like what it stands for. -/
theorem buildFlat_head {maxw : Nat} {s : Name} (h : s.head? = some '('.toUInt8) :
    (buildFlat maxw s).head? = some '('.toUInt8 := by
  unfold buildFlat
  split
  · rfl
  · exact h

/-- A rendering of a text. -/
structure Lays (maxw : Nat) (t : Gapped) (r : Rendering) : Prop where
  approx : Approx maxw t.flat r.flat
  head : r.flat.head? = t.flat.head?
  wide : ∀ col, Relaid t (r.wide col)

section

variable {maxw : Nat} {t : Gapped} {r : Rendering} {ts : List Gapped} {rs : List Rendering}

theorem Lays.pp (h : Lays maxw t r) (col : Nat) : Relaid t (r.pp maxw col) := by
  unfold Rendering.pp
  split
  · rename_i hfit
    rw [h.approx.eq_of_le hfit]
    exact .flat t
  · exact h.wide col

theorem Lays.solid (maxw : Nat) (s : Name) : Lays maxw (Canon.solid s) ⟨s, fun _ => s⟩ := by
  refine ⟨?_, ?_, fun _ => .solid s⟩
  · rw [Gapped.flat_solid]
    exact .refl maxw s
  · rw [Gapped.flat_solid]

theorem unwords_cons_cons (t u : Name) (us : List Name) :
    unwords (t :: u :: us) = t ++ spaced (u :: us) := by
  induction us generalizing t u with
  | nil => simp [unwords, spaced, List.intercalate]
  | cons v vs ih =>
    rw [spaced_cons, List.append_assoc (text " "), ← ih u v]
    simp [unwords, List.intercalate]

theorem spaced_eq {ts : List Name} (h : ts ≠ []) : spaced ts = text " " ++ unwords ts := by
  match ts with
  | [] => exact absurd rfl h
  | [t] => simp [spaced, unwords, List.intercalate]
  | t :: u :: us => rw [unwords_cons_cons, spaced_cons, List.append_assoc]

/-- Flat renderings, each after a space. -/
theorem Approx.gapped (h : List.Forall₂ (Lays maxw) ts rs) :
    Approx maxw (Canon.gapped ts).flat (Canon.spaced (rs.map Rendering.flat)) := by
  induction h with
  | nil => exact .refl _ _
  | cons ha _ ih =>
    rw [List.map_cons, spaced_cons, gapped_cons, Gapped.flat_append, Gapped.flat_none_cons]
    exact ((Approx.refl _ _).append ha.approx).append ih

/-- A head and what follows it, each after a space, between parentheses. -/
theorem Approx.group (opener : Name) (h : Lays maxw t r) (hs : List.Forall₂ (Lays maxw) ts rs) :
    Approx maxw (Canon.solid opener ++ t ++ Canon.gapped ts ++ Canon.solid (text ")")).flat
      (opener ++ r.flat ++ spaced (rs.map Rendering.flat) ++ text ")") := by
  simp only [Gapped.flat_append, Gapped.flat_solid]
  exact (((Approx.refl _ _).append h.approx).append (.gapped hs)).append (.refl _ _)

/-! ## Packing lines -/

/-- What is taken fits. -/
theorem takeFitting_fits {budget : Int} (hb : budget ≤ maxw) {r : Rendering}
    (hr : r ∈ rs.take (Rendering.takeFitting budget rs)) : r.flat.length ≤ maxw := by
  induction rs generalizing budget with
  | nil => simp at hr
  | cons x xs ih =>
    rw [Rendering.takeFitting] at hr
    split at hr
    · simp at hr
    · rename_i hfit
      rw [List.take_succ_cons] at hr
      rcases List.mem_cons.1 hr with rfl | hr
      · omega
      · exact ih (by omega) hr

/-- Flat renderings that fit are the texts. -/
theorem flats_eq (h : List.Forall₂ (Lays maxw) ts rs)
    (hfit : ∀ r ∈ rs, r.flat.length ≤ maxw) : rs.map Rendering.flat = ts.map Gapped.flat := by
  induction h with
  | nil => rfl
  | cons ha _ ih =>
    rw [List.map_cons, List.map_cons, ha.approx.eq_of_le (hfit _ List.mem_cons_self),
      ih fun r hr => hfit r (List.mem_cons_of_mem _ hr)]

/-- The texts of a line. -/
theorem Relaid.unwords {first : Name} (hfirst : Relaid [none] first) {ts : List Gapped}
    (hne : ts ≠ []) : Relaid (gapped ts) (first ++ Canon.unwords (ts.map Gapped.flat)) := by
  cases ts with
  | nil => exact absurd rfl hne
  | cons t us =>
    have htail : Relaid (t ++ gapped us) (Canon.unwords ((t :: us).map Gapped.flat)) := by
      cases us with
      | nil =>
        rw [gapped_nil, List.append_nil, List.map_cons, List.map_nil]
        have hone : Canon.unwords [t.flat] = t.flat := by simp [Canon.unwords, List.intercalate]
        rw [hone]
        exact .flat t
      | cons u us =>
        rw [List.map_cons, List.map_cons, unwords_cons_cons, ← List.map_cons, ← flat_gapped]
        exact (Relaid.flat t).append (.flat _)
    rw [gapped_cons]
    exact hfirst.append htail

/-- A line of what fits, and the rest. -/
theorem Relaid.line {first : Name} {rest : Name} {k : Nat} (hfirst : Relaid [none] first)
    (h : List.Forall₂ (Lays maxw) ts rs) (hk : rs.take k ≠ [])
    (hfit : ∀ r ∈ rs.take k, r.flat.length ≤ maxw)
    (hrest : Relaid (gapped (ts.drop k)) rest) :
    Relaid (gapped ts) (first ++ Canon.unwords ((rs.take k).map Rendering.flat) ++ rest) := by
  have htake : List.Forall₂ (Lays maxw) (ts.take k) (rs.take k) := List.forall₂_take k h
  rw [flats_eq htake hfit]
  have hne : ts.take k ≠ [] := by
    intro hnil
    rw [hnil, List.forall₂_nil_left_iff] at htake
    exact hk htake
  have hline := (Relaid.unwords hfirst hne).append hrest
  rwa [← gapped_append, List.take_append_drop] at hline

theorem Relaid.packLines (col : Nat) (h : List.Forall₂ (Lays maxw) ts rs) :
    Relaid (gapped ts) (Rendering.packLines maxw col rs) := by
  induction rs using Rendering.packLines.induct maxw col generalizing ts with
  | case1 =>
    cases h
    rw [Rendering.packLines]
    exact .nil
  | case2 x xs taken htaken =>
    rename_i ih
    cases h with
    | cons ha hrest =>
      -- the next one does not fit on a line: it is laid out on lines of its own
      rw [Rendering.packLines, if_pos htaken, gapped_cons]
      exact ((Relaid.gapLine col).append (ha.wide col)).append (ih hrest)
  | case3 x xs taken htaken =>
    rename_i ih
    -- as many as fit are put on one line, in their flat form
    rw [Rendering.packLines, if_neg htaken]
    obtain ⟨k, hk⟩ := Nat.exists_eq_succ_of_ne_zero htaken
    refine Relaid.line (.gapLine col) h ?_ (fun r hr => takeFitting_fits (by omega) hr) ?_
    · change (x :: xs).take taken ≠ []
      rw [hk, List.take_succ_cons]
      exact List.cons_ne_nil _ _
    · cases h with
      | cons ha hrest =>
        change Relaid (gapped (List.drop taken _))
          (Rendering.packLines maxw col (xs.drop (taken - 1)))
        rw [hk] at ih ⊢
        exact ih (List.forall₂_drop k hrest)

/-- The arguments after a head. -/
theorem Relaid.wideArgs (col : Nat) (head : Name) (h : List.Forall₂ (Lays maxw) ts rs) :
    Relaid (gapped ts) (Rendering.wideArgs maxw col head rs) := by
  unfold Rendering.wideArgs
  cases h with
  | nil => exact .nil
  | @cons t x ts xs ha hrest =>
    simp only
    split
    · rw [gapped_cons]
      exact ((Relaid.gapLine col).append (ha.wide col)).append (Relaid.packLines col hrest)
    · -- what fits stays on the line of the head, after a space
      rename_i htaken
      obtain ⟨k, hk⟩ := Nat.exists_eq_succ_of_ne_zero htaken
      refine Relaid.line .gap (.cons ha hrest) ?_ (fun r hr => takeFitting_fits (by omega) hr) ?_
      · rw [hk, List.take_succ_cons]
        exact List.cons_ne_nil _ _
      · exact Relaid.packLines col (List.forall₂_drop _ (.cons ha hrest))

/-! ## Renderings of texts -/

/-- A flat rendering between parentheses, if it is not too wide. -/
theorem Lays.built {s : Name} {wide : Nat → Name} (hmaxw : maxw < 4095) (h : Approx maxw t.flat s)
    (hs : s.head? = some '('.toUInt8) (ht : t.flat.head? = some '('.toUInt8)
    (hwide : ∀ col, Relaid t (wide col)) : Lays maxw t ⟨buildFlat maxw s, wide⟩ :=
  ⟨h.build hmaxw, (buildFlat_head hs).trans ht.symm, hwide⟩

theorem Lays.pin (h : Lays maxw t r) :
    Lays maxw (Canon.solid (text "(#pin ") ++ t ++ Canon.solid (text ")")) (renderPin maxw r) where
  approx := by
    simp only [Gapped.flat_append, Gapped.flat_solid]
    exact ((Approx.refl _ _).append h.approx).append (.refl _ _)
  head := rfl
  wide col := (Relaid.solid _).cat₃ (h.pp (col + 6)) (.solid _)

theorem Lays.app (hmaxw : maxw < 4095) (h : Lays maxw t r) (hs : List.Forall₂ (Lays maxw) ts rs)
    (hne : ts ≠ []) :
    Lays maxw (Canon.solid (text "(") ++ t ++ gapped ts ++ Canon.solid (text ")"))
      (renderApp maxw r rs) := by
  refine .built hmaxw ?_ rfl rfl fun col => ?_
  · have hrs : rs.map Rendering.flat ≠ [] := by
      cases hs with
      | nil => exact absurd rfl hne
      | cons _ _ => exact List.cons_ne_nil _ _
    rw [List.append_assoc (text "(" ++ r.flat), ← spaced_eq hrs]
    exact .group (text "(") h hs
  · exact ((Relaid.solid _).cat₃ (h.pp (col + 1)) (.wideArgs (col + 2) _ hs)).append (.solid _)

theorem Lays.spine (hmaxw : maxw < 4095) {tr : Gapped × List Gapped} {s : Spine}
    (h : Lays maxw tr.1 s.head) (hs : List.Forall₂ (Lays maxw) tr.2 s.revArgs) :
    Lays maxw (spineText tr) (s.rendering maxw) := by
  have hargs : List.Forall₂ (Lays maxw) tr.2.reverse s.revArgs.reverse :=
    List.rel_reverse hs
  unfold spineText Spine.rendering
  cases hempty : s.revArgs.reverse with
  | nil =>
    rw [hempty, List.forall₂_nil_right_iff] at hargs
    simp only [hargs, List.isEmpty_nil, if_true]
    exact h
  | cons x xs =>
    rw [hempty] at hargs
    have hne : tr.2.reverse.isEmpty = false := by
      cases hr : tr.2.reverse with
      | nil =>
        rw [hr] at hargs
        cases hargs
      | cons y ys => rfl
    simp only [hne, List.isEmpty_cons, Bool.false_eq_true, if_false]
    have happrox := Approx.group (text "(") h hargs
    refine .built hmaxw happrox rfl rfl fun ec => ?_
    split
    · rename_i hfit
      rw [(happrox.build hmaxw).eq_of_le hfit]
      exact .flat _
    · exact ((Relaid.solid _).cat₃ (h.wide (ec + 1)) (.wideArgs (ec + 2) _ hargs)).append (.solid _)

theorem Lays.constApp (hmaxw : maxw < 4095) (h : Lays maxw t r)
    (hs : List.Forall₂ (Lays maxw) ts rs) :
    Lays maxw (Canon.solid (text "(#app ") ++ t ++ gapped ts ++ Canon.solid (text ")"))
      (renderConstApp maxw r rs) := by
  have hlines : ∀ col, Relaid (gapped ts) (rs.flatMap fun a => nl col ++ a.pp maxw col) := by
    intro col
    induction hs with
    | nil => exact .nil
    | cons ha _ ih =>
      rw [gapped_cons, List.flatMap_cons]
      exact ((Relaid.gapLine col).append (ha.pp col)).append ih
  have happrox := Approx.group (text "(#app ") h hs
  refine .built hmaxw happrox rfl rfl fun ec => ?_
  split
  · rename_i hfit
    rw [(happrox.build hmaxw).eq_of_le (by omega)]
    exact .flat _
  · exact ((Relaid.solid _).cat₃ (h.pp (ec + 6)) (hlines (ec + 2))).append (.solid _)

theorem Lays.const (h : Lays maxw t r) : Lays maxw t (renderConst maxw r) :=
  ⟨h.approx, h.head, fun ec => h.pp ec⟩

theorem Lays.esc (h : Lays maxw t r) : Lays maxw t.escaped (renderEsc maxw r) := by
  have hdelim : isDelimited r.flat = isDelimited t.flat := by
    unfold isDelimited
    rw [h.head]
  unfold renderEsc Gapped.escaped
  rw [hdelim]
  split
  · refine ⟨?_, rfl, fun ec => (Relaid.solid _).append (h.pp (ec + 1))⟩
    rw [Gapped.flat_append, Gapped.flat_solid]
    exact (Approx.refl _ _).append h.approx
  · refine ⟨?_, rfl, fun ec => (Relaid.solid _).cat₃ (h.pp (ec + 2)) (.solid _)⟩
    simp only [Gapped.flat_append, Gapped.flat_solid]
    exact ((Approx.refl _ _).append h.approx).append (.refl _ _)

/-- The bindings of a law, with the texts of their right-hand sides. -/
structure LaysLet (maxw : Nat) (t : Name × Gapped) (l : Name × Rendering) : Prop where
  name : l.1 = t.1
  rhs : Lays maxw t.2 l.2

variable {tls : List (Name × Gapped)} {ls : List (Name × Rendering)}

/-- The text of bindings. -/
def bindingsText (ls : List (Name × Gapped)) : Gapped :=
  ls.flatMap fun l => none :: solid l.1 ++ l.2.wrap

theorem Approx.lets (h : List.Forall₂ (LaysLet maxw) tls ls) :
    Approx maxw (bindingsText tls).flat
      (ls.flatMap fun l => text " " ++ l.1 ++ Canon.wrap l.2.flat) := by
  induction h with
  | nil => exact .refl _ _
  | cons ha _ ih =>
    rw [bindingsText, List.flatMap_cons, List.flatMap_cons, ha.name]
    simp only [Gapped.flat_append, Gapped.flat_none_cons, Gapped.flat_solid, Gapped.flat_wrap]
    exact ((Approx.refl _ _).append (ha.rhs.approx.wrap ha.rhs.head)).append ih

theorem Relaid.lets (col : Nat) (h : List.Forall₂ (LaysLet maxw) tls ls) :
    Relaid (bindingsText tls)
      (ls.flatMap fun l => nl col ++ l.1 ++ Canon.wrap (l.2.wide (col + l.1.length))) := by
  induction h with
  | nil => exact .nil
  | cons ha _ ih =>
    rw [bindingsText, List.flatMap_cons, List.flatMap_cons, ha.name]
    exact ((Relaid.gapLine col).cat₃ (.solid _) (ha.rhs.wide _).wrap).append ih

theorem Lays.law {tt tb : Gapped} {tag body : Rendering} (hmaxw : maxw < 4095) (self : Name)
    (args : List Name) (ht : Lays maxw tt tag) (hl : List.Forall₂ (LaysLet maxw) tls ls)
    (hb : Lays maxw tb body) :
    Lays maxw (Canon.solid (text "(#law ") ++ tt ++
      Canon.solid (text " (" ++ self ++ spaced args ++ text ")") ++ bindingsText tls ++
        none :: tb ++ Canon.solid (text ")")) (renderLaw maxw tag self args ls body) := by
  have hbody : Approx maxw (bindingsText tls ++ none :: tb).flat
      ((ls.flatMap fun l => text " " ++ l.1 ++ Canon.wrap l.2.flat) ++ text " " ++ body.flat) := by
    rw [Gapped.flat_append, Gapped.flat_none_cons, ← List.append_assoc]
    exact ((Approx.lets hl).append (.refl maxw (text " "))).append hb.approx
  have hsig : text " (" ++ self ++ spaced args ++ text ")" =
      text " " ++ (text "(" ++ self ++ spaced args ++ text ")") := rfl
  refine .built hmaxw ?_ rfl rfl fun col => ?_
  · simp only [Gapped.flat_append, Gapped.flat_none_cons, Gapped.flat_solid, hsig]
    rw [← List.append_assoc, ← List.append_assoc _ (text " ")]
    have happrox := ((((Approx.refl maxw (text "(#law ")).append ht.approx).append
      (.refl maxw (text " "))).append
      (.refl maxw (text "(" ++ self ++ spaced args ++ text ")"))).append (Approx.lets hl)
    exact ((happrox.append (.refl maxw (text " "))).append hb.approx).append (.refl _ _)
  · have hheader : Relaid (Canon.solid (text "(#law ") ++ tt ++
        Canon.solid (text " (" ++ self ++ spaced args ++ text ")"))
        (text "(#law " ++ tag.pp maxw (col + 6) ++ text " " ++
          (text "(" ++ self ++ spaced args ++ text ")")) := by
      rw [List.append_assoc _ (text " ")]
      exact (Relaid.solid _).cat₃ (ht.pp (col + 6)) (.solid _)
    simp only
    -- bindings and body follow the header on its line, or each has a line of its own
    split
    · rename_i hfit
      rw [(hbody.build hmaxw).eq_of_le (by omega), List.append_assoc _ (bindingsText tls)]
      exact hheader.cat₃ (.flat _) (.solid _)
    · rw [List.append_assoc _ (nl (col + 2))]
      exact ((hheader.append (.lets (col + 2) hl)).append
        ((Relaid.gapLine (col + 2)).append (hb.wide (col + 2)))).append (.solid _)

end

/-! ## Documents -/

theorem letsText_eq (lets : List (Name × Expr Name)) :
    letsText lets = bindingsText (lets.map fun l => (l.1, spineText (exprText l.2))) := by
  induction lets with
  | nil => rfl
  | cons l lets ih =>
    rw [letsText, ih]
    rfl

mutual

theorem render_lays {maxw : Nat} (hmaxw : maxw < 4095) :
    ∀ d : Doc Name, d.Applied → Lays maxw (docText d) (render maxw d)
  | .num n, _ => .solid maxw (numStr n)
  | .str n, _ => .solid maxw (strShow n)
  | .ref name, _ => .solid maxw name
  | .liquid, _ => .solid maxw (text "liquid")
  | .pin inner, h => .pin (render_lays hmaxw inner h)
  | .law tag self args lets body, h => by
    have hbody := renderExpr_lays hmaxw body h.2.2
    rw [docText, letsText_eq]
    exact .law hmaxw self args (render_lays hmaxw tag h.1) (renderLets_lays hmaxw lets h.2.1)
      (.spine hmaxw hbody.1 hbody.2)
  | .app head args, h => by
    refine .app hmaxw (render_lays hmaxw head h.1) (renderDocs_lays hmaxw args h.2.2) ?_
    cases args with
    | nil => exact absurd rfl h.2.1
    | cons d ds => exact List.cons_ne_nil _ _

theorem renderDocs_lays {maxw : Nat} (hmaxw : maxw < 4095) :
    ∀ ds : List (Doc Name), DocsApplied ds →
      List.Forall₂ (Lays maxw) (docsTexts ds) (renderDocs maxw ds)
  | [], _ => .nil
  | d :: ds, h => .cons (render_lays hmaxw d h.1) (renderDocs_lays hmaxw ds h.2)

theorem renderLets_lays {maxw : Nat} (hmaxw : maxw < 4095) :
    ∀ lets : List (Name × Expr Name), LetsApplied lets →
      List.Forall₂ (LaysLet maxw) (lets.map fun l => (l.1, spineText (exprText l.2)))
        (renderLets maxw lets)
  | [], _ => .nil
  | (name, e) :: lets, h => by
    have he := renderExpr_lays hmaxw e h.1
    exact .cons ⟨rfl, .spine hmaxw he.1 he.2⟩ (renderLets_lays hmaxw lets h.2)

theorem renderExpr_lays {maxw : Nat} (hmaxw : maxw < 4095) : ∀ e : Expr Name, e.Applied →
    Lays maxw (exprText e).1 (renderExpr maxw e).head ∧
      List.Forall₂ (Lays maxw) (exprText e).2 (renderExpr maxw e).revArgs
  | .var name, _ => ⟨.solid maxw name, .nil⟩
  | .const doc, h => by
    have hdoc := render_lays hmaxw doc h
    cases doc with
    | app head args =>
      exact ⟨.constApp hmaxw (render_lays hmaxw head h.1) (renderDocs_lays hmaxw args h.2.2), .nil⟩
    | _ => exact ⟨.const hdoc, .nil⟩
  | .esc doc, h => ⟨.esc (render_lays hmaxw doc h), .nil⟩
  | .app f x, h => by
    have hf := renderExpr_lays hmaxw f h.1
    have hx := renderExpr_lays hmaxw x h.2
    exact ⟨hf.1, .cons (.spine hmaxw hx.1 hx.2) hf.2⟩

end

/-! ## What is printed -/

/-- The text of a document on one line, if it fits, or laid out. -/
structure Printed (maxw : Nat) (d : Doc Name) (s : Name) : Prop where
  relaid : Relaid (docText d) s
  fits : (docText d).flat.length ≤ maxw → s = (docText d).flat

theorem pp_printed {maxw : Nat} (hmaxw : maxw < 4095) (col : Nat) {d : Doc Name} (h : d.Applied) :
    Printed maxw d (pp maxw col d) := by
  have hlays := render_lays hmaxw d h
  refine ⟨hlays.pp col, fun hfit => ?_⟩
  have hflat := hlays.approx.fits hfit
  unfold pp Rendering.pp
  rw [hflat, if_pos hfit]

/-- The values a printer reads of what it is given. -/
def Top.Applied : Top → Prop
  | .value v => v.Applied
  | .pin _ body => body.Applied

theorem Top.inner_applied {t : Top} (h : t.Applied) : t.inner.Applied := by
  cases t <;> exact h

theorem pinnedDoc_applied {doc : Doc Name} (h : doc.Applied) : (pinnedDoc doc).Applied :=
  ⟨trivial, List.cons_ne_nil _ _, h, trivial⟩

theorem shownDoc_applied {t : Top} {doc : Doc Name} (hs : shownDoc t = some doc) (h : t.Applied) :
    doc.Applied := by
  cases t with
  | value v =>
    obtain ⟨⟨names, doc'⟩, hp, rfl⟩ := Option.map_eq_some_iff.1 hs
    exact pipeline_applied hp h
  | pin p body =>
    rw [shownDoc] at hs
    by_cases hhash : p.hash.isSome
    · rw [if_pos hhash] at hs
      obtain ⟨⟨names, doc'⟩, hp, rfl⟩ := Option.map_eq_some_iff.1 hs
      exact pinnedDoc_applied (pipeline_applied hp h)
    · rw [if_neg hhash] at hs
      obtain ⟨⟨names, doc'⟩, hp, rfl⟩ := Option.map_eq_some_iff.1 hs
      exact pipeline_applied (v := .pin p) hp trivial

/-- Layout only breaks lines. Both printers print the text of the value's document, with the
names it was given, and change it at its gaps only: what fits is on one line. -/
theorem layout_only_breaks_lines {t : Top} (h : t.Applied) :
    (∀ s, showVal t = some s → ∃ doc, shownDoc t = some doc ∧ Printed 50 doc s) ∧
      ∀ s, canonize t = some s → ∃ names doc body, pipeline t.inner = some (names, doc) ∧
        Printed 80 (bindDoc doc) body ∧
        s = globalLines (collectDoc {} (extract t.inner)).pins names ++ body ++
          text "\n(#export _)\n" := by
  constructor
  · intro s hs
    obtain ⟨doc, hdoc, rfl⟩ := Option.map_eq_some_iff.1 hs
    exact ⟨doc, hdoc, pp_printed (by decide) 0 (shownDoc_applied hdoc h)⟩
  · intro s hs
    obtain ⟨⟨names, doc⟩, hp, hs⟩ := Option.bind_eq_some_iff.1 hs
    cases hs
    have happlied := pipeline_applied hp (Top.inner_applied h)
    refine ⟨names, doc, pp 80 0 (bindDoc doc), hp, pp_printed (by decide) 0 ?_, rfl⟩
    exact ⟨trivial, List.cons_ne_nil _ _, trivial, pinnedDoc_applied happlied, trivial⟩

/-- An application that is too wide for a line. -/
def wideSample : Top :=
  .value (.app (.nat (10 ^ 45)) [.nat 7, .app (.nat (10 ^ 20)) [.nat 2]])

theorem wideSample_doc :
    shownDoc wideSample = some (.app (.num (10 ^ 45)) [.num 7, .app (.num (10 ^ 20)) [.num 2]]) := by
  -- none of the numbers reads as text
  have hhead : natIsStr 1000000000000000000000000000000000000000000000 = false := by decide +kernel
  have hrow : natIsStr 100000000000000000000 = false := by decide +kernel
  have hseven : natIsStr 7 = false := by decide +kernel
  have htwo : natIsStr 2 = false := by decide +kernel
  simp [shownDoc, wideSample, pipeline, extract, extractArgs, natDoc, hhead, hrow, hseven, htwo,
    collectDoc, collectDocs, assignGlobalNames, bases, nameEach, resolveDoc, resolveDocs,
    namevarsDoc, namevarsDocs]

theorem layout_only_breaks_lines_sample :
    ∃ s doc, showVal wideSample = some s ∧ shownDoc wideSample = some doc ∧ Printed 50 doc s := by
  have happlied : wideSample.Applied :=
    ⟨trivial, List.cons_ne_nil _ _, trivial, ⟨trivial, List.cons_ne_nil _ _, trivial, trivial⟩, trivial⟩
  have hs : showVal wideSample = some _ := congrArg (Option.map (pp 50 0)) wideSample_doc
  obtain ⟨doc, hdoc, hprinted⟩ := (layout_only_breaks_lines happlied).1 _ hs
  exact ⟨_, doc, hs, hdoc, hprinted⟩

end Enki.Canon
