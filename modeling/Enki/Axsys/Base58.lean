import Enki.Axsys.Numerals
import Enki.Lib.LittleEndian
import Mathlib.Data.Nat.Digits.Lemmas

/-!
# Base 58

`ax_base58` of `axsys/base58.c`, which names files by content hash. Each byte is carried
through the digits found so far, the least significant one first; what is left of the
carry becomes new digits. `digits` holds `AX_BASE58_CAP(64)` bytes and `out` what the
caller provides; a write past either is undefined: `none`, as is a failed `ax_assume`.
-/

namespace Enki.Axsys.Base58

open Sb (store store_append)

/-- `AX_BASE58_CAP` -/
def cap (n : Nat) : Nat := n * 137 / 100 + 2

/-- `ax_b58_alphabet` -/
def alphabet : List UInt8 :=
  "123456789ABCDEFGHJKLMNPQRSTUVWXYZabcdefghijkmnopqrstuvwxyz".toList.map
    fun c => UInt8.ofNat c.toNat

/-- `while (zeros < n && b[zeros] == 0) zeros++;` -/
def leadingZeros : List UInt8 → Nat
  | [] => 0
  | d :: b => if d = 0 then leadingZeros b + 1 else 0

/-- The carry goes through the digits. -/
def carryLoop : List UInt8 → UInt32 → List UInt8 × UInt32
  | [], carry => ([], carry)
  | d :: digits, carry =>
    let carry := carry + d.toUInt32 <<< 8
    let rest := carryLoop digits (carry / 58)
    ((carry % 58).toUInt8 :: rest.1, rest.2)

/-- `while (carry > 0)`, where `digits` has room for `room` more. -/
def pushLoop : Nat → List UInt8 → UInt32 → Option (List UInt8)
  | 0, digits, carry => if carry > 0 then none else some digits
  | room + 1, digits, carry =>
    if carry > 0 then pushLoop room (digits ++ [(carry % 58).toUInt8]) (carry / 58)
    else some digits

/-- The body of the loop over `b`. -/
def addByte (digits : List UInt8) (b : UInt8) : Option (List UInt8) :=
  let r := carryLoop digits b.toUInt32
  pushLoop (cap 64 - digits.length) r.1 r.2

def putOnes : Nat → List UInt8 → Nat → Option (List UInt8 × Nat)
  | 0, out, len => some (out, len)
  | zeros + 1, out, len => do putOnes zeros (← store out len 49) (len + 1)

/-- The last loop; the most significant digit comes first here. -/
def putDigits : List UInt8 → List UInt8 → Nat → Option (List UInt8 × Nat)
  | [], out, len => some (out, len)
  | d :: digits, out, len => do
    let c ← alphabet[d.toNat]?
    putDigits digits (← store out len c) (len + 1)

/-- `ax_base58`: what `out` holds then, and the length. -/
def base58 (b out : List UInt8) : Option (List UInt8 × Nat) := do
  guard (b.length ≤ 64)
  let digits ← (b.drop (leadingZeros b)).foldlM addByte []
  let (out, len) ← putOnes (leadingZeros b) out 0
  let (out, len) ← putDigits digits.reverse out len
  return (← store out len 0, len)

/-! ## What is written -/

/-- The number that bytes form, the most significant one first. -/
def number (b : List UInt8) : Nat := LittleEndian.toNat b.reverse

/-- The digits of a number in base 58, the most significant one first. -/
def numeral (n : Nat) : List Nat := (Nat.digits 58 n).reverse

/-- The text of bytes. -/
def text (b : List UInt8) : List UInt8 :=
  List.replicate (leadingZeros b) 49 ++
    (numeral (number (b.drop (leadingZeros b)))).map fun d => alphabet.getD d 0

/-! ## The digits -/

/-- Digits as they lie in the buffer. -/
def stored (n : Nat) : List UInt8 := (Nat.digits 58 n).map UInt8.ofNat

theorem length_stored (n : Nat) : (stored n).length = (Nat.digits 58 n).length :=
  List.length_map ..

/-- The digits of `256 * v + carry` from the last digit of `v` on. -/
theorem digits_mul_add {v : Nat} (hv : v ≠ 0) (carry : Nat) :
    Nat.digits 58 (256 * v + carry) = (carry + v % 58 * 256) % 58 ::
      Nat.digits 58 (256 * (v / 58) + (carry + v % 58 * 256) / 58) := by
  rw [Nat.digits_def' (by decide) (by omega)]
  congr 1
  · omega
  · congr 1
    omega

/-- The carry stays below 257, so no arithmetic wraps. -/
theorem carry_step {d : Nat} (hd : d < 58) {carry : UInt32} (hcarry : carry.toNat ≤ 256) :
    (carry + (UInt8.ofNat d).toUInt32 <<< 8).toNat = carry.toNat + d * 256 := by
  have hbyte : (UInt8.ofNat d).toUInt32.toNat = d := by
    rw [UInt8.toNat_toUInt32, UInt8.toNat_ofNat']
    omega
  rw [UInt32.toNat_add, UInt32.toNat_shiftLeft, hbyte]
  simp only [UInt32.reduceToNat, Nat.reduceMod, Nat.shiftLeft_eq]
  omega

theorem carry_pos {carry : UInt32} : carry > 0 ↔ 0 < carry.toNat :=
  UInt32.lt_iff_toNat_lt

theorem digit_toUInt8 (carry : UInt32) :
    (carry % 58).toUInt8 = UInt8.ofNat (carry.toNat % 58) := by
  apply UInt8.toNat_inj.mp
  rw [UInt32.toNat_toUInt8, UInt32.toNat_mod, UInt8.toNat_ofNat']
  rfl

/-- The digits of `v` and the carry that is left make `256 * v + carry`. -/
theorem carryLoop_spec (v : Nat) :
    ∀ {carry : UInt32}, carry.toNat ≤ 256 →
      (carryLoop (stored v) carry).1 ++ stored (carryLoop (stored v) carry).2.toNat =
          stored (256 * v + carry.toNat) ∧
        (carryLoop (stored v) carry).1.length = (stored v).length ∧
        (carryLoop (stored v) carry).2.toNat ≤ 256 := by
  induction v using Nat.strongRecOn with
  | ind v ih =>
    intro carry hcarry
    by_cases hv : v = 0
    · subst hv
      simp [stored, carryLoop, hcarry]
    have hd : v % 58 < 58 := Nat.mod_lt _ (by decide)
    have hsplit : stored v = UInt8.ofNat (v % 58) :: stored (v / 58) := by
      rw [stored, Nat.digits_def' (by decide) (Nat.pos_of_ne_zero hv)]
      rfl
    have hstep := carry_step hd hcarry
    have hdiv : ((carry + (UInt8.ofNat (v % 58)).toUInt32 <<< 8) / 58).toNat =
        (carry.toNat + v % 58 * 256) / 58 := by
      rw [UInt32.toNat_div, hstep]
      rfl
    obtain ⟨hvalue, hlen, hle⟩ := ih (v / 58) (Nat.div_lt_self (Nat.pos_of_ne_zero hv) (by decide))
      (show ((carry + (UInt8.ofNat (v % 58)).toUInt32 <<< 8) / 58).toNat ≤ 256 by
        rw [hdiv]
        omega)
    rw [hsplit, carryLoop]
    refine ⟨?_, congrArg (· + 1) hlen, hle⟩
    rw [List.cons_append, hvalue, digit_toUInt8, hstep, hdiv, stored, stored, digits_mul_add hv]
    rfl

theorem pushLoop_spec :
    ∀ {room : Nat} {digits : List UInt8} {carry : UInt32},
      (Nat.digits 58 carry.toNat).length ≤ room →
        pushLoop room digits carry = some (digits ++ stored carry.toNat) := by
  intro room
  induction room with
  | zero =>
    intro digits carry hroom
    have hzero : carry.toNat = 0 := by
      by_contra hne
      exact Nat.digits_ne_nil_iff_ne_zero.mpr hne (List.length_eq_zero_iff.mp (Nat.le_zero.mp hroom))
    rw [pushLoop, if_neg (mt carry_pos.1 (Nat.not_lt.mpr hzero.le)), hzero]
    simp [stored]
  | succ room ih =>
    intro digits carry hroom
    rw [pushLoop]
    by_cases hpos : 0 < carry.toNat
    · rw [Nat.digits_def' (by decide) hpos, List.length_cons, Nat.succ_le_succ_iff] at hroom
      rw [if_pos (carry_pos.2 hpos), ih (by rwa [UInt32.toNat_div]),
        digit_toUInt8, List.append_assoc, UInt32.toNat_div]
      rw [show stored carry.toNat = _ from congrArg (List.map UInt8.ofNat)
        (Nat.digits_def' (by decide) hpos)]
      rfl
    · rw [if_neg (mt carry_pos.1 hpos), Nat.eq_zero_of_not_pos hpos]
      simp [stored]

/-! ## The buffer -/

/-- `n` bytes have at most `n * 137 / 100 + 1` digits. -/
theorem digits_length_le {n v : Nat} (hn : n ≤ 64) (hv : v < 256 ^ n) :
    (Nat.digits 58 v).length ≤ n * 137 / 100 + 1 := by
  have hpow : ∀ n ≤ 64, 256 ^ n ≤ 58 ^ (n * 137 / 100 + 1) := by decide +kernel
  exact (Nat.digits_length_le_iff (by decide) v).mpr (hv.trans_le (hpow n hn))

theorem number_concat (b : List UInt8) (d : UInt8) :
    number (b ++ [d]) = 256 * number b + d.toNat := by
  rw [number, List.reverse_append, List.reverse_singleton, List.singleton_append,
    LittleEndian.toNat, number, Nat.add_comm]

theorem number_lt (b : List UInt8) : number b < 256 ^ b.length := by
  have h := LittleEndian.toNat_lt b.reverse
  rwa [List.length_reverse] at h

theorem addByte_spec {b : List UInt8} {d : UInt8} (hlen : b.length < 64) :
    addByte (stored (number b)) d = some (stored (number (b ++ [d]))) := by
  have hd : d.toUInt32.toNat ≤ 256 := by
    rw [UInt8.toNat_toUInt32]
    exact d.toNat_lt.le
  obtain ⟨hvalue, hcount, -⟩ := carryLoop_spec (number b) hd
  rw [UInt8.toNat_toUInt32, ← number_concat] at hvalue
  have htotal : (stored (number (b ++ [d]))).length ≤ cap 64 := by
    have hbound := digits_length_le (show (b ++ [d]).length ≤ 64 by simpa using hlen)
      (number_lt (b ++ [d]))
    rw [length_stored, cap]
    rw [List.length_append, List.length_singleton] at hbound
    omega
  have hroom : (Nat.digits 58 (carryLoop (stored (number b)) d.toUInt32).2.toNat).length ≤
      cap 64 - (stored (number b)).length := by
    rw [← hvalue, List.length_append, hcount, length_stored (UInt32.toNat _)] at htotal
    omega
  rw [addByte, pushLoop_spec hroom, hvalue]

/-- The digits of the number, and no write past the buffer. -/
theorem digits_spec {b : List UInt8} (hlen : b.length ≤ 64) :
    b.foldlM addByte [] = some (stored (number b)) := by
  induction b using List.reverseRecOn with
  | nil => rfl
  | append_singleton b d ih =>
    rw [List.length_append, List.length_singleton] at hlen
    rw [List.foldlM_append, ih (by omega), Option.bind_eq_bind, Option.bind_some,
      List.foldlM_cons, addByte_spec hlen]
    rfl

/-! ## The text -/

theorem putOnes_append :
    ∀ {n : Nat} {done rest : List UInt8}, n ≤ rest.length →
      putOnes n (done ++ rest) done.length =
        some (done ++ List.replicate n 49 ++ rest.drop n, done.length + n) := by
  intro n
  induction n with
  | zero =>
    intro done rest _
    simp [putOnes]
  | succ n ih =>
    intro done rest hrest
    obtain ⟨d, rest, rfl⟩ := List.exists_cons_of_length_pos (Nat.lt_of_lt_of_le n.succ_pos hrest)
    have hstep := @ih (done ++ [49]) rest (Nat.le_of_succ_le_succ hrest)
    rw [List.append_assoc, List.singleton_append, List.length_append, List.length_singleton]
      at hstep
    rw [putOnes, store_append, Option.bind_eq_bind, Option.bind_some, hstep, List.replicate_succ,
      List.drop_succ_cons]
    simp [Nat.add_comm n 1, Nat.add_assoc]

theorem alphabet_get {d : Nat} (hd : d < 58) :
    alphabet[(UInt8.ofNat d).toNat]? = some (alphabet.getD d 0) := by
  have hall : ∀ d < 58, alphabet[(UInt8.ofNat d).toNat]? = some (alphabet.getD d 0) := by decide
  exact hall d hd

theorem putDigits_append :
    ∀ {digits : List Nat} {done rest : List UInt8}, (∀ d ∈ digits, d < 58) →
      digits.length ≤ rest.length →
      putDigits (digits.map UInt8.ofNat) (done ++ rest) done.length =
        some (done ++ digits.map (alphabet.getD · 0) ++ rest.drop digits.length,
          done.length + digits.length) := by
  intro digits
  induction digits with
  | nil =>
    intro done rest _ _
    simp [putDigits]
  | cons d digits ih =>
    intro done rest hdigits hrest
    obtain ⟨c, rest, rfl⟩ := List.exists_cons_of_length_pos
      (Nat.lt_of_lt_of_le (Nat.succ_pos _) hrest)
    have hstep := @ih (done ++ [alphabet.getD d 0]) rest
      (fun d hd => hdigits d (List.mem_cons_of_mem _ hd)) (Nat.le_of_succ_le_succ hrest)
    rw [List.append_assoc, List.singleton_append, List.length_append, List.length_singleton]
      at hstep
    rw [List.map_cons, putDigits, alphabet_get (hdigits d List.mem_cons_self), Option.bind_eq_bind,
      Option.bind_some, store_append, Option.bind_eq_bind, Option.bind_some, hstep]
    simp [Nat.add_comm, Nat.add_left_comm]

theorem leadingZeros_le (b : List UInt8) : leadingZeros b ≤ b.length := by
  induction b with
  | nil => exact le_rfl
  | cons d b ih =>
    rw [leadingZeros]
    split
    · exact Nat.succ_le_succ ih
    · exact Nat.zero_le _

/-- The text and a zero byte fit. -/
theorem text_length_lt {b : List UInt8} (hlen : b.length ≤ 64) :
    (text b).length + 1 ≤ cap b.length := by
  have hle := leadingZeros_le b
  have hdrop : (b.drop (leadingZeros b)).length = b.length - leadingZeros b := List.length_drop
  have hdigits := digits_length_le (show (b.drop (leadingZeros b)).length ≤ 64 by omega)
    (number_lt _)
  rw [hdrop] at hdigits
  rw [text, numeral, List.length_append, List.length_replicate, List.length_map,
    List.length_reverse, cap]
  omega

/-! ## Telling texts apart -/

/-- After the leading zeros comes another byte. -/
theorem head_drop (b : List UInt8) : (b.drop (leadingZeros b)).head? ≠ some 0 := by
  induction b with
  | nil => simp [leadingZeros]
  | cons d b ih =>
    rw [leadingZeros]
    split
    · exact ih
    · next hd => simpa using hd

theorem take_leadingZeros (b : List UInt8) :
    b = List.replicate (leadingZeros b) 0 ++ b.drop (leadingZeros b) := by
  induction b with
  | nil => rfl
  | cons d b ih =>
    rw [leadingZeros]
    split
    · next hd =>
      rw [List.replicate_succ, List.cons_append, List.drop_succ_cons, ← ih, hd]
    · rfl

/-- The first digit is not zero. -/
theorem numeral_head {n d : Nat} (h : (numeral n).head? = some d) : 0 < d ∧ d < 58 := by
  rw [numeral, List.head?_reverse] at h
  have hmem := List.mem_of_getLast? h
  have hn : n ≠ 0 := by
    rintro rfl
    simp at h
  have hlast := Nat.getLast_digit_ne_zero 58 hn
  rw [List.getLast?_eq_some_getLast (Nat.digits_ne_nil_iff_ne_zero.mpr hn), Option.some.injEq] at h
  exact ⟨Nat.pos_of_ne_zero (h ▸ hlast), Nat.digits_lt_base (by decide) hmem⟩

theorem numeral_lt {n : Nat} : ∀ d ∈ numeral n, d < 58 :=
  fun _ hd => Nat.digits_lt_base (by decide) (List.mem_reverse.mp hd)

theorem numeral_injective : Function.Injective numeral :=
  fun _ _ h => Nat.digits_inj_iff.mp (List.reverse_injective h)

theorem alphabet_injective {d e : Nat} (hd : d < 58) (he : e < 58)
    (h : alphabet.getD d 0 = alphabet.getD e 0) : d = e := by
  have hall : ∀ d < 58, ∀ e < 58, alphabet.getD d 0 = alphabet.getD e 0 → d = e := by
    decide +kernel
  exact hall d hd e he h

/-- A number is spelled without a leading '1'. -/
theorem spelled_head (n : Nat) : ((numeral n).map (alphabet.getD · 0)).head? ≠ some 49 := by
  rw [List.head?_map]
  intro h
  obtain ⟨d, hd, hone⟩ := Option.map_eq_some_iff.mp h
  obtain ⟨hpos, hlt⟩ := numeral_head hd
  exact hpos.ne' (alphabet_injective hlt (by decide) hone)

theorem map_alphabet_injective :
    ∀ {ds es : List Nat}, (∀ d ∈ ds, d < 58) → (∀ e ∈ es, e < 58) →
      ds.map (alphabet.getD · 0) = es.map (alphabet.getD · 0) → ds = es := by
  intro ds
  induction ds with
  | nil =>
    intro es _ _ h
    exact (List.map_eq_nil_iff.mp h.symm).symm
  | cons d ds ih =>
    intro es hds hes h
    cases es with
    | nil => cases h
    | cons e es =>
      obtain ⟨hhead, htail⟩ := List.cons.inj h
      rw [alphabet_injective (hds d List.mem_cons_self) (hes e List.mem_cons_self) hhead,
        ih (fun d hd => hds d (List.mem_cons_of_mem _ hd))
          (fun e he => hes e (List.mem_cons_of_mem _ he)) htail]

/-- The copies of a byte in front of a list that begins otherwise. -/
theorem replicate_append_inj {α : Type} {a : α} :
    ∀ {m n : Nat} {xs ys : List α}, xs.head? ≠ some a → ys.head? ≠ some a →
      List.replicate m a ++ xs = List.replicate n a ++ ys → m = n ∧ xs = ys := by
  intro m
  induction m with
  | zero =>
    intro n xs ys hxs _ h
    cases n with
    | zero => exact ⟨rfl, h⟩
    | succ n => exact absurd (congrArg List.head? h) hxs
  | succ m ih =>
    intro n xs ys hxs hys h
    cases n with
    | zero => exact absurd (congrArg List.head? h).symm hys
    | succ n =>
      obtain ⟨hcount, heq⟩ := ih hxs hys (List.cons.inj h).2
      exact ⟨congrArg (· + 1) hcount, heq⟩

/-- The bytes of a number without leading zero are known by the number. -/
theorem number_injective {b b' : List UInt8} (hb : b.head? ≠ some 0) (hb' : b'.head? ≠ some 0)
    (h : number b = number b') : b = b' := by
  have hlen : ∀ b : List UInt8, b.head? ≠ some 0 →
      b = (LittleEndian.bytes (LittleEndian.byteLen (number b)) (number b)).reverse := by
    intro b hb
    rw [number, LittleEndian.byteLen_toNat (by rwa [List.getLast?_reverse]),
      LittleEndian.bytes_toNat, List.reverse_reverse]
  rw [hlen b hb, hlen b' hb', h]

theorem text_injective : Function.Injective text := by
  intro b b' h
  obtain ⟨hzeros, hspelled⟩ := replicate_append_inj (spelled_head _) (spelled_head _) h
  have hnumeral := map_alphabet_injective numeral_lt numeral_lt hspelled
  have hdrop := number_injective (head_drop b) (head_drop b') (numeral_injective hnumeral)
  rw [take_leadingZeros b, hdrop, hzeros, ← take_leadingZeros b']

theorem text_ne_zero {b : List UInt8} {c : UInt8} (hc : c ∈ text b) : c ≠ 0 := by
  have hall : ∀ d < 58, alphabet.getD d 0 ≠ 0 := by decide
  rcases List.mem_append.mp hc with hc | hc
  · rw [(List.mem_replicate.mp hc).2]
    decide
  · obtain ⟨d, hd, rfl⟩ := List.mem_map.mp hc
    exact hall d (numeral_lt d hd)

theorem base58_eq {b out : List UInt8} (hlen : b.length ≤ 64) (hout : cap b.length ≤ out.length) :
    base58 b out = some (text b ++ 0 :: out.drop ((text b).length + 1), (text b).length) := by
  have hdigits := digits_spec (show (b.drop (leadingZeros b)).length ≤ 64 by
    rw [List.length_drop]
    omega)
  have hfits := (text_length_lt hlen).trans hout
  have htext : (text b).length =
      leadingZeros b + (numeral (number (b.drop (leadingZeros b)))).length := by
    rw [text, List.length_append, List.length_replicate, List.length_map]
  have hones := @putOnes_append (leadingZeros b) [] out (by omega)
  rw [List.nil_append, List.nil_append, List.length_nil, Nat.zero_add] at hones
  have hput := @putDigits_append (numeral (number (b.drop (leadingZeros b))))
    (List.replicate (leadingZeros b) 49) (out.drop (leadingZeros b)) numeral_lt (by rw [List.length_drop]; omega)
  rw [List.length_replicate, List.drop_drop, ← htext] at hput
  rw [base58, guard, if_pos hlen]
  simp only [Option.pure_def, Option.bind_eq_bind, Option.bind_some, hdigits, hones]
  rw [stored, ← List.map_reverse, ← numeral, hput, Option.bind_some]
  -- the terminator goes after the text
  obtain ⟨d, hd⟩ := List.exists_cons_of_length_pos
    (show 0 < (out.drop (text b).length).length by rw [List.length_drop]; omega)
  obtain ⟨rest, hrest⟩ := hd
  have hend := store_append (text b) rest 0 d
  rw [← hrest] at hend
  rw [← text, hend, Option.bind_some, ← List.drop_drop, hrest, List.drop_one, List.tail_cons]

/-- The characters up to the terminator. -/
def cString (r : List UInt8 × Nat) : List UInt8 := r.1.takeWhile (· != 0)

/-- `ax_base58` writes the text of the bytes, which fits and which no other bytes have. -/
theorem base58_spec {b out : List UInt8} (hlen : b.length ≤ 64) (hout : cap b.length ≤ out.length) :
    base58 b out = some (text b ++ 0 :: out.drop ((text b).length + 1), (text b).length) ∧
      (text b).length + 1 ≤ cap b.length ∧
      (numeral (number (b.drop (leadingZeros b)))).head? ≠ some 0 ∧
      ∀ b' out', b'.length ≤ 64 → cap b'.length ≤ out'.length →
        (base58 b' out').map cString = (base58 b out).map cString → b' = b := by
  have hstring : ∀ {b out : List UInt8}, b.length ≤ 64 → cap b.length ≤ out.length →
      (base58 b out).map cString = some (text b) := by
    intro b out hlen hout
    rw [base58_eq hlen hout, Option.map_some, cString, List.takeWhile_append_of_pos]
    · simp
    · exact fun c hc => bne_iff_ne.mpr (text_ne_zero hc)
  refine ⟨base58_eq hlen hout, text_length_lt hlen, ?_, ?_⟩
  · intro h
    exact Nat.lt_irrefl 0 (numeral_head h).1
  · intro b' out' hlen' hout' h
    rw [hstring hlen hout, hstring hlen' hout'] at h
    exact text_injective (Option.some.inj h)

theorem base58_spec_two :
    (base58 [0, 255] [7, 7, 7, 7]).map Prod.fst =
        some ("15Q".toList.map (fun c => UInt8.ofNat c.toNat) ++ [0]) ∧
      ∀ b' out', b'.length ≤ 64 → cap b'.length ≤ out'.length →
        (base58 b' out').map cString = (base58 [0, 255] [7, 7, 7, 7]).map cString →
          b' = [0, 255] := by
  obtain ⟨-, -, -, hinj⟩ := @base58_spec [0, 255] [7, 7, 7, 7] (by decide) (by decide)
  exact ⟨by decide, hinj⟩

end Enki.Axsys.Base58
