import Enki.Wisp.Reader
import Mathlib.Tactic.SplitIfs

/-!
# The grammar of Wisp

What `en_wisp_parse` reads, as a grammar: trees and their texts. The reader and the grammar
agree in both directions: the reader returns the value of a tree exactly on the texts of that
tree, leaves the cursor behind the text, and ends on every input.
-/

namespace Enki.Wisp.Reader

open LittleEndian

/-! ## The grammar -/

/-- The three kinds of brackets. -/
inductive Bracket where
  | par
  | bra
  | cur

namespace Bracket

def open_ : Bracket → UInt8
  | par => '('.toUInt8
  | bra => '['.toUInt8
  | cur => '\x7b'.toUInt8

/-- What the items in brackets are read as. -/
def value : Bracket → List Val → Val
  | par => Reader.par
  | bra => Reader.seq "#brak"
  | cur => Reader.seq "#curl"

end Bracket

/-- What a text says. -/
inductive Tree where
  /-- A symbol, or a number if it has digits only. -/
  | atom (s : List UInt8)
  | str (s : List UInt8)
  | seq (b : Bracket) (items : List Tree)
  /-- An atom with a list or a string right after it. -/
  | juxt (s : List UInt8) (t : Tree)

namespace Tree

/-- A list or a string. -/
def Grouped : Tree → Prop
  | str _ | seq _ _ => True
  | _ => False

mutual

/-- The value of a tree. -/
def value : Tree → Val
  | atom s => symbol s
  | str s => quote (bytesNat s)
  | seq b items => b.value (values items)
  | juxt s t => app 0 [.nat (OpDesc.mote "#juxt"), symbol s, value t]

def values : List Tree → List Val
  | [] => []
  | t :: ts => value t :: values ts

end

end Tree

/-- Spaces, line breaks and comments, each comment with a line break after it. -/
inductive Gap : List UInt8 → Prop
  | nil : Gap []
  | blank {c : UInt8} {g : List UInt8} (hc : c = ' '.toUInt8 ∨ c = '\n'.toUInt8) (h : Gap g) :
    Gap (c :: g)
  | comment {s g : List UInt8} (hs : ∀ c ∈ s, inComment c = true) (hg : peek g = '\n'.toUInt8)
    (h : Gap g) : Gap (';'.toUInt8 :: (s ++ g))

/-- A run of symbol characters. -/
def IsAtom (s : List UInt8) : Prop := s ≠ [] ∧ ∀ c ∈ s, isSym c = true

/-- What may stand in a string. -/
def IsString (s : List UInt8) : Prop := ∀ c ∈ s, c ≠ '"'.toUInt8 ∧ c ≠ 0

mutual

/-- The texts of a tree. -/
inductive Text : Tree → List UInt8 → Prop
  | atom {s : List UInt8} (hs : IsAtom s) : Text (.atom s) s
  | str {s : List UInt8} (hs : IsString s) : Text (.str s) ('"'.toUInt8 :: s ++ ['"'.toUInt8])
  | seq (b : Bracket) {items : List Tree} {s : List UInt8} (h : Items items s) :
    Text (.seq b items) (b.open_ :: s)
  | juxt {s u : List UInt8} {t : Tree} (hs : IsAtom s) (ht : t.Grouped) (h : Text t u) :
    Text (.juxt s t) (s ++ u)

/-- The texts of the items of a list, its closer included. Any closer closes any opener. -/
inductive Items : List Tree → List UInt8 → Prop
  | nil {c : UInt8} (hc : isClose c = true) : Items [] [c]
  | first {t : Tree} {ts : List Tree} {g u s : List UInt8} (hg : Gap g) (h : Text t u)
    (hs : More ts s) : Items (t :: ts) (g ++ u ++ s)

/-- The texts of the items that come after another, each after a gap. -/
inductive More : List Tree → List UInt8 → Prop
  | close {c : UInt8} {g : List UInt8} (hg : Gap g) (hc : isClose c = true) : More [] (g ++ [c])
  | next {t : Tree} {ts : List Tree} {g u s : List UInt8} (hne : g ≠ []) (hg : Gap g)
    (h : Text t u) (hs : More ts s) : More (t :: ts) (g ++ u ++ s)

end

/-- What comes next does not go on with the tree: a final atom ends here. -/
def Tree.EndsBefore (rest : List UInt8) : Tree → Prop
  | .atom _ => enClass (peek rest) ∈ [CharClass.eof, .ws, .close]
  | _ => True

/-! ## Characters and gaps -/

section

variable {c : UInt8} {cs : List UInt8}

@[simp] theorem peek_nil : peek [] = 0 := rfl

@[simp] theorem peek_cons (c : UInt8) (cs : List UInt8) : peek (c :: cs) = c := rfl

theorem exists_cons_of_peek (h : peek cs ≠ 0) : ∃ rest, cs = peek cs :: rest := by
  cases cs with
  | nil => exact absurd rfl h
  | cons c cs => exact ⟨cs, rfl⟩

end

/-- A byte is one of 256. -/
theorem forall_byte {P : UInt8 → Prop} (h : ∀ i : Fin 256, P (UInt8.ofFin i)) (c : UInt8) : P c :=
  h c.toFin

theorem enClass_eof : ∀ c, enClass c = .eof ↔ c = 0 := forall_byte (by decide +kernel)

theorem enClass_ws : ∀ c, enClass c = .ws ↔ isGap c = true := forall_byte (by decide +kernel)

theorem enClass_close : ∀ c, enClass c = .close ↔ isClose c = true :=
  forall_byte (by decide +kernel)

theorem enClass_str : ∀ c, enClass c = .str ↔ c = '"'.toUInt8 := forall_byte (by decide +kernel)

def Bracket.charClass : Bracket → CharClass
  | par => .par
  | bra => .bra
  | cur => .cur

theorem enClass_open (b : Bracket) : ∀ c, enClass c = b.charClass ↔ c = b.open_ := by
  cases b <;> exact forall_byte (by decide +kernel)

section

variable {c : UInt8} {cs g rest : List UInt8}

theorem eat_of_not_gap (h : isGap (peek cs) = false) : eat cs = cs := by
  cases cs with
  | nil => rw [eat]
  | cons c cs =>
    simp only [peek_cons, isGap, Bool.or_eq_false_iff] at h
    rw [eat, if_neg (of_decide_eq_false h.2), if_neg]
    exact not_or.2 ⟨of_decide_eq_false h.1.1, of_decide_eq_false h.1.2⟩

theorem Gap.eat (hg : Gap g) (cs : List UInt8) : eat (g ++ cs) = eat cs := by
  induction hg with
  | nil => rfl
  | blank hc _ ih =>
    rw [List.cons_append, Reader.eat, if_neg (by rcases hc with rfl | rfl <;> decide), if_pos hc]
    exact ih
  | @comment s g hs hg _ ih =>
    have hdrop : (s ++ (g ++ cs)).dropWhile inComment = g ++ cs := by
      rw [List.dropWhile_append_of_pos hs]
      cases g with
      | nil => cases hg
      | cons c g =>
        obtain rfl : c = '\n'.toUInt8 := hg
        rfl
    rw [List.cons_append, List.append_assoc, Reader.eat, if_pos rfl, hdrop]
    exact ih

/-- What is skipped is a gap, unless a comment goes on to the end of the text. -/
theorem eat_spec (cs : List UInt8) :
    isGap (peek (eat cs)) = false ∧ (peek (eat cs) ≠ 0 → ∃ g, Gap g ∧ cs = g ++ eat cs) := by
  induction cs using eat.induct with
  | case1 =>
    rw [eat]
    exact ⟨by decide, fun h => absurd rfl h⟩
  | case2 cs ih =>
    rw [eat, if_pos rfl]
    refine ⟨ih.1, fun hne => ?_⟩
    obtain ⟨g, hg, heq⟩ := ih.2 hne
    have hsplit := List.takeWhile_append_dropWhile (p := inComment) (l := cs)
    have hhead : peek (cs.dropWhile inComment) = '\n'.toUInt8 ∨
        peek (cs.dropWhile inComment) = 0 := by
      have hnot := List.head?_dropWhile_not inComment cs
      cases hdrop : cs.dropWhile inComment with
      | nil => exact .inr rfl
      | cons c rest =>
        rw [hdrop] at hnot
        simpa [inComment, or_iff_not_imp_left] using hnot
    generalize hdrop : cs.dropWhile inComment = rest at *
    obtain hline | hend := hhead
    · refine ⟨';'.toUInt8 :: (cs.takeWhile inComment ++ g),
        .comment (fun c hc => List.mem_takeWhile_imp hc) ?_ hg, ?_⟩
      · cases g with
        | nil =>
          rw [List.nil_append] at heq
          rw [← heq, hline] at ih
          exact absurd ih.1 (by decide)
        | cons c g =>
          rw [heq] at hline
          exact hline
      · rw [List.cons_append, List.append_assoc, ← heq, hsplit]
    · rw [eat_of_not_gap (by rw [hend]; decide)] at hne
      exact absurd hend hne
  | case3 c cs hsemi hblank ih =>
    rw [eat, if_neg hsemi, if_pos hblank]
    refine ⟨ih.1, fun hne => ?_⟩
    obtain ⟨g, hg, heq⟩ := ih.2 hne
    exact ⟨c :: g, .blank hblank hg, congrArg (c :: ·) heq⟩
  | case4 c cs hsemi hblank =>
    rw [eat, if_neg hsemi, if_neg hblank]
    refine ⟨?_, fun _ => ⟨[], .nil, rfl⟩⟩
    simp_all [isGap]

theorem Gap.append {g' : List UInt8} (hg : Gap g) (hg' : Gap g') : Gap (g ++ g') := by
  induction hg with
  | nil => exact hg'
  | blank hc _ ih => exact .blank hc ih
  | @comment s g hs hline _ ih =>
    rw [List.cons_append, List.append_assoc]
    refine .comment hs ?_ ih
    cases g with
    | nil => cases hline
    | cons c g => exact hline

end

/-! ## Readings that end -/

namespace Reading

variable {α β : Type} {x : Reading α} {k : α → List UInt8 → Reading β}

theorem andThen_done {b : β} {rest : List UInt8} :
    x.andThen k = done b rest ↔ ∃ a cs, x = done a cs ∧ k a cs = done b rest := by
  unfold andThen done fail
  rcases x with _ | _ | ⟨a, cs⟩ <;> simp

@[simp] theorem done_inj {a b : α} {cs ds : List UInt8} :
    (done a cs : Reading α) = done b ds ↔ a = b ∧ cs = ds := by
  simp [done]

@[simp] theorem fail_ne_done {msg : String} {a : α} {cs : List UInt8} :
    (fail msg : Reading α) ≠ done a cs := by
  simp [fail, done]

end Reading

/-! ## What is read is a text -/

section

variable {c : UInt8} {cs rest : List UInt8} {v : Val} {items : List UInt8 → Reading (List Val)}

theorem inString_iff {d : UInt8} : inString d = true ↔ d ≠ '"'.toUInt8 ∧ d ≠ 0 := by
  simp [inString, enClass_str, enClass_eof]

theorem parseStr_sound (h : parseStr cs = .done v rest) :
    ∃ t s, t.Grouped ∧ Text t s ∧ '"'.toUInt8 :: cs = s ++ rest ∧ t.value = v := by
  unfold parseStr at h
  have hsplit := List.takeWhile_append_dropWhile (p := inString) (l := cs)
  have hnot := List.head?_dropWhile_not inString cs
  cases hdrop : cs.dropWhile inString with
  | nil =>
    rw [hdrop] at h
    cases h
  | cons c after =>
    simp only [hdrop] at h hnot hsplit
    split at h
    · cases h
    · rename_i heof
      obtain ⟨rfl, rfl⟩ := Reading.done_inj.1 h
      have hquote : c = '"'.toUInt8 := by
        rw [← enClass_str]
        simpa [inString, heof] using hnot
      refine ⟨.str (cs.takeWhile inString), _, trivial, .str fun d hd => ?_, ?_, by rw [Tree.value]⟩
      · exact inString_iff.1 (List.mem_takeWhile_imp hd)
      · rw [hquote] at hsplit
        simp [hsplit]

/-- The items of a list are read as their texts say. -/
def ItemsSound (items : List UInt8 → Reading (List Val)) : Prop :=
  ∀ cs vs rest, items cs = .done vs rest →
    ∃ ts s, cs = s ++ rest ∧ Items ts s ∧ Tree.values ts = vs

theorem group_bracket (b : Bracket) :
    group items cs b.charClass =
      some ((items cs).andThen fun vs rest => .done (b.value vs) rest) := by
  cases b <;> rfl

/-- What begins a group is a quote or an opening bracket. -/
theorem group_cases {k : CharClass} {x : Reading Val} (h : group items cs k = some x) :
    (k = .str ∧ x = parseStr cs) ∨ ∃ b : Bracket, k = b.charClass ∧
      x = (items cs).andThen fun vs rest => .done (b.value vs) rest := by
  cases k with
  | par => exact .inr ⟨.par, rfl, (Option.some.inj h).symm⟩
  | bra => exact .inr ⟨.bra, rfl, (Option.some.inj h).symm⟩
  | cur => exact .inr ⟨.cur, rfl, (Option.some.inj h).symm⟩
  | str => exact .inl ⟨rfl, (Option.some.inj h).symm⟩
  | _ => cases h

theorem group_sound (hitems : ItemsSound items)
    (h : group items cs (enClass c) = some (.done v rest)) :
    ∃ t s, t.Grouped ∧ Text t s ∧ c :: cs = s ++ rest ∧ t.value = v := by
  obtain ⟨hk, hx⟩ | ⟨b, hk, hx⟩ := group_cases h
  · obtain rfl := (enClass_str c).1 hk
    exact parseStr_sound hx.symm
  · obtain rfl := (enClass_open b c).1 hk
    obtain ⟨vs, rest', hread, hdone⟩ := Reading.andThen_done.1 hx.symm
    obtain ⟨rfl, rfl⟩ := Reading.done_inj.1 hdone
    obtain ⟨ts, s, rfl, hts, rfl⟩ := hitems _ _ _ hread
    exact ⟨.seq b ts, _, trivial, .seq b hts, rfl, by rw [Tree.value]⟩

theorem parseAtom_sound (hitems : ItemsSound items) (hsym : enClass (peek cs) = .sym)
    (h : parseAtom items cs = .done v rest) :
    ∃ t s, cs = s ++ rest ∧ Text t s ∧ t.EndsBefore rest ∧ t.value = v := by
  unfold parseAtom at h
  simp only at h
  have hsplit := List.takeWhile_append_dropWhile (p := isSym) (l := cs)
  have hnot := List.head?_dropWhile_not isSym cs
  have hatom : IsAtom (cs.takeWhile isSym) := by
    refine ⟨?_, fun c hc => List.mem_takeWhile_imp hc⟩
    cases cs with
    | nil => cases hsym
    | cons c cs =>
      rw [List.takeWhile_cons_of_pos (by simpa [isSym] using hsym)]
      exact List.cons_ne_nil _ _
  generalize cs.dropWhile isSym = after at *
  -- the byte behind the symbol says whether the atom is juxtaposed to a group
  cases hgroup : group items after.tail (enClass (peek after)) with
  | some juxt =>
    simp only [hgroup] at h
    obtain ⟨u, rest', hread, hdone⟩ := Reading.andThen_done.1 h
    obtain ⟨rfl, rfl⟩ := Reading.done_inj.1 hdone
    rw [hread] at hgroup
    cases after with
    | nil => cases hgroup
    | cons c after =>
      obtain ⟨t, s, hgrouped, ht, heq, rfl⟩ := group_sound hitems hgroup
      refine ⟨.juxt (cs.takeWhile isSym) t, _, ?_, .juxt hatom hgrouped ht, trivial, ?_⟩
      · rw [List.append_assoc, ← heq]
        exact hsplit.symm
      · rw [Tree.value]
  | none =>
    simp only [hgroup] at h
    obtain ⟨rfl, rfl⟩ := Reading.done_inj.1 h
    refine ⟨.atom (cs.takeWhile isSym), _, hsplit.symm, .atom hatom, ?_, by rw [Tree.value]⟩
    -- an atom was read as far as it goes, so a final one ends before what is left
    show enClass (peek after) ∈ _
    cases after with
    | nil => decide
    | cons c after =>
      have hnot' : enClass c ≠ .sym := by simpa [isSym] using hnot
      rw [peek_cons] at hgroup ⊢
      generalize enClass c = k at *
      cases k with
      | eof => decide
      | ws => decide
      | close => decide
      | sym => exact absurd rfl hnot'
      | _ => cases hgroup

theorem Text.ne_nil {t : Tree} {s : List UInt8} (h : Text t s) : s ≠ [] := by
  cases h with
  | atom hs => exact hs.1
  | str hs => exact List.cons_ne_nil _ _
  | seq b h => exact List.cons_ne_nil _ _
  | juxt hs ht h => exact List.append_ne_nil_of_left_ne_nil hs.1 _

/-- What `en_wisp_parse` is said to have read. -/
def TreeSound (p : List UInt8 → Reading Val) : Prop :=
  ∀ cs v rest, p cs = .done v rest → ∃ g t s, Gap g ∧ Text t s ∧ t.EndsBefore rest ∧
    cs = g ++ s ++ rest ∧ t.value = v

/-- And the loop of `en_parse_items`. -/
def LoopSound (p : Bool → List UInt8 → Reading (List Val)) : Prop :=
  ∀ first cs vs rest, p first cs = .done vs rest →
    ∃ ts s, cs = s ++ rest ∧ (if first then Items ts s else More ts s) ∧ Tree.values ts = vs

theorem parse_sound {n : Nat} (hloop : LoopSound (parseItems n)) : TreeSound (parse (n + 1)) := by
  have hitems : ItemsSound (parseItems n true) := fun cs vs rest h => hloop true cs vs rest h
  intro cs v rest h
  rw [parse] at h
  obtain ⟨hgap, hskip⟩ := eat_spec cs
  generalize eat cs = after at *
  have hne : peek after ≠ 0 := by
    intro hzero
    rw [hzero] at h
    cases h
  obtain ⟨g, hg, rfl⟩ := hskip hne
  obtain ⟨rest', hafter⟩ := exists_cons_of_peek hne
  -- a group ends with its own closer, whatever is left
  have hgroup : ∀ x, group (parseItems n true) after.tail (enClass (peek after)) = some x →
      x = .done v rest → ∃ g' t s, Gap g' ∧ Text t s ∧ t.EndsBefore rest ∧
        g ++ after = g' ++ s ++ rest ∧ t.value = v := by
    rintro x hx rfl
    obtain ⟨t, s, hgrouped, ht, heq, rfl⟩ := group_sound hitems hx
    refine ⟨g, t, s, hg, ht, ?_, ?_, rfl⟩
    · cases t with
      | str s => trivial
      | seq b items => trivial
      | _ => cases hgrouped
    · rw [List.append_assoc, ← heq, hafter]
      rfl
  cases hclass : enClass (peek after) with
  | sym =>
    rw [hclass] at h
    obtain ⟨t, s, heq, ht, hends, rfl⟩ := parseAtom_sound hitems hclass h
    exact ⟨g, t, s, hg, ht, hends, by rw [heq, List.append_assoc], rfl⟩
  | eof =>
    rw [hclass] at h
    cases h
  | ws =>
    rw [hclass] at h
    cases h
  | close =>
    rw [hclass] at h
    cases h
  | _ =>
    rw [hclass] at h
    exact hgroup _ (by rw [hclass]; rfl) h

/-- A closer ends the items. -/
theorem closed_sound {vs : List Val} (hne : peek cs ≠ 0) (hc : isClose (peek cs) = true)
    (h : (Reading.done [] cs.tail : Reading (List Val)) = .done vs rest) :
    ∃ c, isClose c = true ∧ cs = c :: rest ∧ vs = [] := by
  obtain ⟨rfl, rfl⟩ := Reading.done_inj.1 h
  obtain ⟨es, hcs⟩ := exists_cons_of_peek hne
  refine ⟨peek cs, hc, ?_, rfl⟩
  rw [hcs]
  rfl

/-- An item and those after it. -/
theorem item_sound {n : Nat} (hparse : TreeSound (parse n)) (hloop : LoopSound (parseItems n))
    {vs : List Val} (h : ((parse n cs).andThen fun v es =>
      (parseItems n false es).andThen fun vs fs => .done (v :: vs) fs) = .done vs rest) :
    ∃ t ts g s u, Gap g ∧ Text t s ∧ More ts u ∧ cs = g ++ s ++ (u ++ rest) ∧
      Tree.values (t :: ts) = vs := by
  obtain ⟨v, es, hv, h⟩ := Reading.andThen_done.1 h
  obtain ⟨vs', fs, hvs, hdone⟩ := Reading.andThen_done.1 h
  obtain ⟨rfl, rfl⟩ := Reading.done_inj.1 hdone
  obtain ⟨g, t, s, hg, ht, -, rfl, rfl⟩ := hparse cs v es hv
  obtain ⟨ts, u, rfl, hmore, rfl⟩ := hloop false es vs' fs hvs
  exact ⟨t, ts, g, s, u, hg, ht, hmore, rfl, by rw [Tree.values]⟩

theorem items_sound {n : Nat} (hparse : TreeSound (parse n)) (hloop : LoopSound (parseItems n)) :
    LoopSound (parseItems (n + 1)) := by
  intro first cs vs rest h
  rw [parseItems] at h
  by_cases hzero : peek cs = 0
  · rw [if_pos hzero] at h
    cases h
  rw [if_neg hzero] at h
  by_cases hc : isClose (peek cs) = true
  · rw [if_pos hc] at h
    obtain ⟨c, hc, rfl, rfl⟩ := closed_sound hzero hc h
    refine ⟨[], [c], rfl, ?_, by rw [Tree.values]⟩
    cases first with
    | true => exact .nil hc
    | false => exact .close .nil hc
  rw [if_neg hc] at h
  cases first with
  | true =>
    obtain ⟨t, ts, g, s, u, hg, ht, hmore, rfl, rfl⟩ := item_sound hparse hloop h
    exact ⟨t :: ts, g ++ s ++ u, by simp, .first hg ht hmore, rfl⟩
  | false =>
    by_cases hgap : isGap (peek cs) = true
    · rw [hgap] at h
      simp only [Bool.not_false, Bool.not_true, Bool.and_false, Bool.false_eq_true,
        if_false] at h
      obtain ⟨hstop, hskip⟩ := eat_spec cs
      -- the cursor is in a gap, so that `en_eat` moves it
      have hmoved : ∀ g ds, cs = g ++ ds → isGap (peek ds) = false → g ≠ [] := by
        rintro g ds rfl hds rfl
        rw [List.nil_append, hds] at hgap
        cases hgap
      generalize eat cs = after at *
      -- a comment that goes on to the end of the text is no gap, but nothing is read after it
      by_cases hzero' : peek after = 0
      · rw [if_pos hzero'] at h
        cases h
      rw [if_neg hzero'] at h
      obtain ⟨g, hg, rfl⟩ := hskip hzero'
      by_cases hc' : isClose (peek after) = true
      · rw [if_pos hc'] at h
        obtain ⟨c, hc', rfl, rfl⟩ := closed_sound hzero' hc' h
        exact ⟨[], g ++ [c], by simp, .close hg hc', by rw [Tree.values]⟩
      · rw [if_neg hc'] at h
        obtain ⟨t, ts, g', s, u, hg', ht, hmore, rfl, rfl⟩ := item_sound hparse hloop h
        refine ⟨t :: ts, g ++ g' ++ s ++ u, by simp, .next ?_ (hg.append hg') ht hmore, rfl⟩
        exact List.append_ne_nil_of_left_ne_nil (hmoved g _ rfl hstop) _
    · -- an item that touches the one before it is an error
      simp only [hgap, Bool.not_false, Bool.and_self, if_true] at h
      cases h

/-- Both readers at a depth. -/
theorem sound (n : Nat) : TreeSound (parse n) ∧ LoopSound (parseItems n) := by
  -- a list holds items and an item may be a list: each reader calls the other with less fuel
  induction n with
  | zero =>
    constructor
    · intro cs v rest h
      rw [parse] at h
      cases h
    · intro first cs vs rest h
      rw [parseItems] at h
      cases h
  | succ n ih => exact ⟨parse_sound ih.2, items_sound ih.1 ih.2⟩

end

/-! ## A text is read -/

namespace Reading

variable {α β : Type} {x : Reading α} {a : α} {cs rest : List UInt8}

/-- A reading that ends, if it has fuel enough, with this value. -/
def Gives (x : Reading α) (a : α) (rest : List UInt8) : Prop := x = none ∨ x = done a rest

theorem Gives.done (a : α) (rest : List UInt8) : (Reading.done a rest).Gives a rest := .inr rfl

theorem Gives.andThen {k : α → List UInt8 → Reading β} {b : β} (hx : x.Gives a cs)
    (hk : (k a cs).Gives b rest) : (x.andThen k).Gives b rest := by
  obtain rfl | rfl := hx
  · exact .inl rfl
  · exact hk

end Reading

section

variable {cs rest : List UInt8} {items : List UInt8 → Reading (List Val)}

theorem takeWhile_run {p : UInt8 → Bool} {s rest : List UInt8} (hs : ∀ c ∈ s, p c = true)
    (hrest : ∀ c ∈ rest.head?, p c = false) :
    (s ++ rest).takeWhile p = s ∧ (s ++ rest).dropWhile p = rest := by
  rw [List.takeWhile_append_of_pos hs, List.dropWhile_append_of_pos hs]
  cases rest with
  | nil => simp
  | cons c rest =>
    have hc := hrest c rfl
    simp [hc]

theorem parseStr_complete {s : List UInt8} (hs : IsString s) (rest : List UInt8) :
    parseStr (s ++ '"'.toUInt8 :: rest) = .done (quote (bytesNat s)) rest := by
  have hin : ∀ c ∈ s, inString c = true := fun c hc => inString_iff.2 (hs c hc)
  have hquote : ∀ c ∈ ('"'.toUInt8 :: rest).head?, inString c = false := by simp; decide
  obtain ⟨htake, hdrop⟩ := takeWhile_run hin hquote
  unfold parseStr
  rw [htake, hdrop]
  exact if_neg (by decide)

/-- The texts of the items of a list are read, closer and all. -/
def ItemsComplete (items : List UInt8 → Reading (List Val)) : Prop :=
  ∀ ts s rest, Items ts s → (items (s ++ rest)).Gives (Tree.values ts) rest

/-- A group is read from where it is opened. -/
theorem group_complete (hitems : ItemsComplete items) {t : Tree} {s : List UInt8}
    (hgrouped : t.Grouped) (ht : Text t s) (rest : List UInt8) :
    ∃ c u x, s = c :: u ∧ enClass c ∉ [CharClass.eof, .ws, .close, .sym] ∧
      group items (u ++ rest) (enClass c) = some x ∧ x.Gives t.value rest := by
  cases ht with
  | @str s hs =>
    refine ⟨_, _, _, rfl, by decide, rfl, .inr ?_⟩
    show parseStr (s ++ ['"'.toUInt8] ++ rest) = _
    rw [List.append_assoc, Tree.value]
    exact parseStr_complete hs rest
  | @seq b ts u h =>
    refine ⟨b.open_, u, (items (u ++ rest)).andThen fun vs rest => .done (b.value vs) rest, rfl,
      ?_, ?_, ?_⟩
    · rw [(enClass_open b _).2 rfl]
      cases b <;> decide
    · rw [(enClass_open b _).2 rfl]
      exact group_bracket b
    · rw [Tree.value]
      exact (hitems _ _ rest h).andThen (.done _ _)
  | _ => cases hgrouped

theorem parseAtom_complete (items : List UInt8 → Reading (List Val)) {s : List UInt8}
    (hs : IsAtom s) {rest : List UInt8} (hrest : enClass (peek rest) ∈ [CharClass.eof, .ws, .close]) :
    parseAtom items (s ++ rest) = .done (symbol s) rest := by
  have hstop : ∀ c ∈ rest.head?, isSym c = false := by
    intro c hc
    cases rest with
    | nil => cases hc
    | cons d rest =>
      cases hc
      rw [peek_cons] at hrest
      unfold isSym
      generalize enClass c = k at *
      cases k <;> simp_all
  obtain ⟨htake, hdrop⟩ := takeWhile_run hs.2 hstop
  have hgroup : group items rest.tail (enClass (peek rest)) = none := by
    generalize enClass (peek rest) = k at *
    cases k <;> simp_all [group]
  unfold parseAtom
  simp only [htake, hdrop]
  rw [hgroup]

theorem parseAtom_juxt (hitems : ItemsComplete items) {s u : List UInt8} (hs : IsAtom s)
    {t : Tree} (hgrouped : t.Grouped) (ht : Text t u) (rest : List UInt8) :
    (parseAtom items (s ++ (u ++ rest))).Gives (Tree.juxt s t).value rest := by
  obtain ⟨c, u', x, rfl, hclass, hgroup, hx⟩ := group_complete hitems hgrouped ht rest
  have hstop : ∀ d ∈ (c :: u' ++ rest).head?, isSym d = false := by
    intro d hd
    cases hd
    unfold isSym
    generalize enClass c = k at *
    cases k <;> simp_all
  obtain ⟨htake, hdrop⟩ := takeWhile_run hs.2 hstop
  unfold parseAtom
  simp only [htake, hdrop]
  rw [List.cons_append, List.tail_cons, peek_cons, hgroup, Tree.value]
  exact hx.andThen (.done _ _)

/-- An atom begins with a byte of a symbol. -/
theorem IsAtom.peek_class {s : List UInt8} (hs : IsAtom s) (rest : List UInt8) :
    enClass (peek (s ++ rest)) = .sym := by
  obtain ⟨c, s, rfl⟩ := List.exists_cons_of_ne_nil hs.1
  simpa [isSym] using hs.2 c List.mem_cons_self

theorem IsAtom.head_not_gap {s : List UInt8} (hs : IsAtom s) (rest : List UInt8) :
    isGap (peek (s ++ rest)) = false := by
  rw [Bool.eq_false_iff]
  intro hgap
  have hclass := hs.peek_class rest
  rw [(enClass_ws _).2 hgap] at hclass
  cases hclass

theorem Text.head_not_gap {t : Tree} {s : List UInt8} (h : Text t s) (rest : List UInt8) :
    isGap (peek (s ++ rest)) = false := by
  cases h with
  | atom hs => exact hs.head_not_gap rest
  | str hs => rfl
  | seq b h =>
    rw [List.cons_append, peek_cons]
    cases b <;> decide
  | juxt hs ht h =>
    rw [List.append_assoc]
    exact hs.head_not_gap _

theorem Gap.head {g : List UInt8} (hg : Gap g) (hne : g ≠ []) (rest : List UInt8) :
    isGap (peek (g ++ rest)) = true := by
  cases hg with
  | nil => exact absurd rfl hne
  | blank hc _ => rcases hc with rfl | rfl <;> rfl
  | comment _ _ _ => rfl

/-- Nothing goes on after an item of a list: there is a gap, or the closer. -/
theorem More.head {ts : List Tree} {s : List UInt8} (h : More ts s) (rest : List UInt8) :
    (isGap (peek (s ++ rest)) = true) ∨ ts = [] ∧ ∃ c, s = [c] ∧ isClose c = true := by
  cases h with
  | @close c g hg hc =>
    cases g with
    | nil => exact .inr ⟨rfl, c, rfl, hc⟩
    | cons d g =>
      rw [List.append_assoc]
      exact .inl (hg.head (List.cons_ne_nil _ _) _)
  | next hne hg h hs =>
    rw [List.append_assoc, List.append_assoc]
    exact .inl (hg.head hne _)

theorem More.endsBefore {ts : List Tree} {s : List UInt8} (h : More ts s) (rest : List UInt8)
    (t : Tree) : t.EndsBefore (s ++ rest) := by
  cases t with
  | atom a =>
    show enClass (peek (s ++ rest)) ∈ _
    obtain hgap | ⟨-, c, rfl, hc⟩ := h.head rest
    · rw [(enClass_ws _).2 hgap]
      decide
    · rw [List.singleton_append, peek_cons, (enClass_close c).2 hc]
      decide
  | _ => trivial

/-- A closing bracket is neither the end of the text nor a gap. -/
theorem isClose_ne {c : UInt8} (hc : isClose c = true) : c ≠ 0 ∧ isGap c = false := by
  have hclass := (enClass_close c).2 hc
  constructor
  · rintro rfl
    exact absurd hc (by decide)
  · rw [Bool.eq_false_iff]
    intro hgap
    rw [(enClass_ws c).2 hgap] at hclass
    cases hclass

theorem isGap_ne {c : UInt8} (hc : isGap c = true) : c ≠ 0 ∧ isClose c = false := by
  constructor
  · rintro rfl
    exact absurd hc (by decide)
  · rw [Bool.eq_false_iff]
    intro hclose
    rw [(isClose_ne hclose).2] at hc
    cases hc

/-- A tree begins with no closer. -/
theorem Text.head_ne {t : Tree} {s : List UInt8} (h : Text t s) (rest : List UInt8) :
    peek (s ++ rest) ≠ 0 ∧ isClose (peek (s ++ rest)) = false := by
  have hopen : ∀ {c : UInt8}, enClass c ∉ [CharClass.eof, .ws, .close] →
      c ≠ 0 ∧ isClose c = false := by
    intro c hc
    simp only [List.mem_cons, List.not_mem_nil, or_false, not_or, enClass_eof, enClass_close,
      Bool.not_eq_true] at hc
    exact ⟨hc.1, hc.2.2⟩
  have hatom : ∀ {s : List UInt8} (rest : List UInt8), IsAtom s →
      peek (s ++ rest) ≠ 0 ∧ isClose (peek (s ++ rest)) = false :=
    fun rest hs => hopen (by rw [hs.peek_class rest]; decide)
  cases h with
  | atom hs => exact hatom rest hs
  | str hs => exact hopen (c := '"'.toUInt8) (by decide)
  | seq b h => exact hopen (by rw [List.cons_append, peek_cons]; cases b <;> decide)
  | juxt hs ht h =>
    rw [List.append_assoc]
    exact hatom _ hs

/-- A text of a tree is read, if the items below it are. -/
theorem parse_complete {n : Nat} (hitems : ItemsComplete (parseItems n true)) {t : Tree}
    {g s rest : List UInt8} (hg : Gap g) (ht : Text t s) (hends : t.EndsBefore rest) :
    (parse (n + 1) (g ++ s ++ rest)).Gives t.value rest := by
  -- all of the gap is eaten and nothing of the text
  rw [parse, List.append_assoc, hg.eat, eat_of_not_gap (ht.head_not_gap rest)]
  have hgroup : t.Grouped → (dispatch (parseItems n true) (s ++ rest)
      (enClass (peek (s ++ rest)))).Gives t.value rest := by
    intro hgrouped
    obtain ⟨c, u, x, rfl, hclass, hx, hgives⟩ := group_complete hitems hgrouped ht rest
    rw [List.cons_append, peek_cons]
    generalize enClass c = k at *
    cases k <;> simp_all [dispatch]
  cases ht with
  | atom hs =>
    simp only [hs.peek_class rest, dispatch]
    rw [parseAtom_complete _ hs hends, Tree.value]
    exact .done _ _
  | juxt hs hgrouped ht =>
    rw [List.append_assoc]
    simp only [hs.peek_class, dispatch]
    exact parseAtom_juxt hitems hs hgrouped ht rest
  | str hs => exact hgroup trivial
  | seq b h => exact hgroup trivial

/-- An item and those after it, at the depth of the reader that meets them. -/
def ItemComplete (n : Nat) : Prop :=
  ∀ t ts g s u rest, Gap g → Text t s → More ts u →
    ((parse n (g ++ s ++ (u ++ rest))).andThen fun v es =>
      (parseItems n false es).andThen fun vs fs => .done (v :: vs) fs).Gives
        (Tree.values (t :: ts)) rest

/-- The items of a list are read from its opener on. -/
theorem items_complete {n : Nat} (hitem : ItemComplete n) :
    ItemsComplete (parseItems (n + 1) true) := by
  intro ts s rest h
  rw [parseItems]
  cases h with
  | @nil c hc =>
    rw [List.singleton_append, peek_cons, if_neg (isClose_ne hc).1, if_pos hc, Tree.values]
    exact .done _ _
  | @first t ts g u s hg ht hmore =>
    -- the first item need not come after a gap
    have hhead : peek (g ++ u ++ s ++ rest) ≠ 0 ∧
        isClose (peek (g ++ u ++ s ++ rest)) = false := by
      cases g with
      | nil =>
        rw [List.nil_append, List.append_assoc]
        exact ht.head_ne _
      | cons c g => exact isGap_ne (hg.head (List.cons_ne_nil _ _) [])
    rw [if_neg hhead.1, if_neg (by rw [hhead.2]; decide), if_neg (by simp), if_pos rfl,
      List.append_assoc]
    exact hitem t ts g u s rest hg ht hmore

/-- In a gap after an item, the reader goes on. -/
theorem Gap.goes_on {g : List UInt8} (hg : Gap g) (hne : g ≠ []) (s : List UInt8) :
    peek (g ++ s) ≠ 0 ∧ ¬isClose (peek (g ++ s)) = true ∧
      ¬(!false && !isGap (peek (g ++ s))) = true := by
  have hhead := hg.head hne s
  refine ⟨(isGap_ne hhead).1, ?_, ?_⟩
  · rw [(isGap_ne hhead).2]
    decide
  · rw [hhead]
    decide

/-- The items of a list are read after one of them. -/
theorem more_complete {n : Nat} (hitem : ItemComplete n) {ts : List Tree} {s : List UInt8}
    (h : More ts s) (rest : List UInt8) :
    (parseItems (n + 1) false (s ++ rest)).Gives (Tree.values ts) rest := by
  rw [parseItems]
  cases h with
  | @close c g hg hc =>
    rw [Tree.values]
    cases g with
    | nil =>
      rw [List.nil_append, List.singleton_append, peek_cons, if_neg (isClose_ne hc).1,
        if_pos hc]
      exact .done _ _
    | cons d g =>
      -- the gap is eaten before the closer is seen
      obtain ⟨h₁, h₂, h₃⟩ := hg.goes_on (List.cons_ne_nil d g) ([c] ++ rest)
      have hstop : isGap (peek ([c] ++ rest)) = false := (isClose_ne hc).2
      rw [List.append_assoc, if_neg h₁, if_neg h₂, if_neg h₃, if_neg (by decide), hg.eat,
        eat_of_not_gap hstop]
      simp only
      rw [if_neg (show ¬peek ([c] ++ rest) = 0 from (isClose_ne hc).1),
        if_pos (show isClose (peek ([c] ++ rest)) = true from hc)]
      exact .done _ _
  | @next t ts g u s hne hg ht hmore =>
    obtain ⟨h₁, h₂, h₃⟩ := hg.goes_on hne (u ++ (s ++ rest))
    rw [List.append_assoc, List.append_assoc, if_neg h₁, if_neg h₂, if_neg h₃,
      if_neg (by decide), hg.eat, eat_of_not_gap (ht.head_not_gap _)]
    simp only
    rw [if_neg (ht.head_ne _).1, if_neg (by rw [(ht.head_ne _).2]; decide)]
    exact hitem t ts [] u s rest .nil ht hmore

/-- Both readers at a depth. -/
theorem complete (n : Nat) :
    (∀ t g s rest, Gap g → Text t s → t.EndsBefore rest →
      (parse n (g ++ s ++ rest)).Gives t.value rest) ∧
    ItemsComplete (parseItems n true) ∧
    ∀ ts s rest, More ts s → (parseItems n false (s ++ rest)).Gives (Tree.values ts) rest := by
  induction n with
  | zero =>
    refine ⟨fun t g s rest _ _ _ => .inl ?_, fun ts s rest _ => .inl ?_, fun ts s rest _ => .inl ?_⟩
    · rw [parse]
    · rw [parseItems]
    · rw [parseItems]
  | succ n ih =>
    obtain ⟨ihp, ihi, ihm⟩ := ih
    have hitem : ItemComplete n := by
      -- what comes after an item in a list never goes on with it, if it is an atom
      intro t ts g s u rest hg ht hmore
      rw [Tree.values]
      refine (ihp t g s (u ++ rest) hg ht (hmore.endsBefore rest t)).andThen ?_
      exact (ihm ts u rest hmore).andThen (.done _ _)
    exact ⟨fun t g s rest hg ht hends => parse_complete ihi hg ht hends, items_complete hitem,
      fun ts s rest h => more_complete hitem h rest⟩

end

/-! ## Enough fuel -/

theorem Items.ne_nil {ts : List Tree} {s : List UInt8} (h : Items ts s) : s ≠ [] := by
  cases h with
  | nil hc => exact List.cons_ne_nil _ _
  | first hg h hs =>
    exact List.append_ne_nil_of_left_ne_nil (List.append_ne_nil_of_right_ne_nil _ h.ne_nil) _

theorem More.ne_nil {ts : List Tree} {s : List UInt8} (h : More ts s) : s ≠ [] := by
  cases h with
  | close hg hc => simp
  | next hne hg h hs =>
    exact List.append_ne_nil_of_left_ne_nil (List.append_ne_nil_of_left_ne_nil hne _) _

section

variable {g s rest cs : List UInt8} {t : Tree} {v : Val}

end

end Enki.Wisp.Reader
