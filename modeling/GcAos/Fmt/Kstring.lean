import GcAos.Fmt.Padding

/-! `snprintf` of `kernel/lib/kstring.c`, which knows no flags and no width, does not turn the digits of a
number round and shifts by 12 before it takes a digit for `%x` and `%u`. -/

namespace GcAos.Fmt
open Lib

/-- The loop for `%d`; a negative number has no digits. -/
def kDecimal (num : ℤ) : List UInt8 := if num = 0 then [48] else digitLoop digitChar 10 15 num.toNat

def hexLoop : ℕ → ℕ → List UInt8
  | 0, _ => []
  | fuel + 1, num => if num = 0 then [] else digitOf true (num / 2 ^ 12 % 16) :: hexLoop fuel (num / 16)

/-- The loop for `%x` and, in the same words, for `%u`. -/
def kHex (num : ℕ) : List UInt8 := if num = 0 then [48] else hexLoop 15 num

/-- Where the format ends after `%` its null byte is copied and the loop goes on behind it; there the result
is `none`. -/
def kernelVsnprintf (m : Bytes) (cap : ℕ) : List UInt8 → List UInt8 → List UInt64 → Option (List UInt8)
  | [], out, _ => some out
  | c :: fmt, out, args =>
    if cap ≤ out.length then some out
    else if c = 37 then
      match fmt with
      | [] => none
      | c :: fmt =>
        if c = 115 then
          kernelVsnprintf m cap fmt (putString m (cap - out.length) (args.headD 0).toNat out) args.tail
        else if c = 100 then
          kernelVsnprintf m cap fmt (puts cap out (kDecimal (vaInt (args.headD 0)))) args.tail
        else if c = 120 then
          kernelVsnprintf m cap fmt (puts cap out (kHex (vaUint (args.headD 0)))) args.tail
        else if c = 117 then
          kernelVsnprintf m cap fmt (puts cap out (kHex (vaUint (args.headD 0)))) args.tail
        else kernelVsnprintf m cap fmt (out ++ [c]) args
    else kernelVsnprintf m cap fmt (out ++ [c]) args

def snprintf (m : Bytes) (size : ℕ) (fmt : List UInt8) (args : List UInt64) : Option (ℤ × List UInt8) :=
  if size = 0 then some (0, [])
  else (kernelVsnprintf m (size - 1) fmt [] args).map fun out => ((BitVec.ofNat 32 out.length).toInt, out)

section Digits

variable {fuel v w r : ℕ} {E : List ℕ}

theorem kDecimal_eq_iff {v : ℤ} (h : v < 2 ^ 31) :
    kDecimal v = (if v < 0 then [45] else []) ++ numeral 10 v.natAbs ↔
      0 ≤ v ∧ (numeral 10 v.natAbs).reverse = numeral 10 v.natAbs := by
  unfold kDecimal
  rcases lt_trichotomy v 0 with hv | rfl | hv
  · have hnat : v.toNat = 0 := by omega
    rw [if_neg hv.ne, if_pos hv, hnat]
    exact iff_of_false (by simp [digitLoop]) fun h => absurd h.1 (not_le.mpr hv)
  · exact iff_of_true rfl ⟨le_rfl, rfl⟩
  · have hnat : v.toNat = v.natAbs := by omega
    have hrev : (if v.natAbs = 0 then [48] else digitLoop digitChar 10 15 v.natAbs).reverse =
        numeral 10 v.natAbs := reverse_digitLoop (by decide) (by omega)
    rw [if_neg (by omega)] at hrev
    rw [if_neg hv.ne', if_neg (by omega), hnat, List.nil_append, ← hrev, List.reverse_reverse]
    exact ⟨fun h => ⟨hv.le, h⟩, fun h => h.2⟩

theorem hexLoop_zeros (h : 256 ≤ r) (hr : r < 4096) : hexLoop (fuel + 3) r = [48, 48, 48] := by
  have h₁ : r / 2 ^ 12 = 0 := by omega
  have h₂ : r / 16 / 2 ^ 12 = 0 := by omega
  have h₃ : r / 16 / 16 / 2 ^ 12 = 0 := by omega
  have h₄ : r / 16 / 16 / 16 = 0 := by omega
  rw [hexLoop, hexLoop, hexLoop, if_neg (by omega), if_neg (by omega), if_neg (by omega), h₁, h₂, h₃, h₄]
  cases fuel <;> rfl

theorem kHex_head (h : 0 < v) (hv : v < 4096) : (kHex v).head? = some 48 := by
  have hdiv : v / 2 ^ 12 = 0 := by omega
  rw [kHex, if_neg h.ne', hexLoop, if_neg h.ne', hdiv]
  rfl

theorem hexLoop_eq (hw : 0 < w) (hfuel : w < 16 ^ fuel) (hr : r < 4096) :
    hexLoop (fuel + 3) (4096 * w + r) = (Nat.digits 16 w).map (digitOf true) ++ [48, 48, 48] := by
  induction fuel generalizing w r with
  | zero =>
    rw [pow_zero] at hfuel
    omega
  | succ fuel ih =>
    have hmod : (4096 * w + r) / 2 ^ 12 % 16 = w % 16 := by omega
    have hdiv : (4096 * w + r) / 16 = 4096 * (w / 16) + (4096 * (w % 16) + r) / 16 := by omega
    rw [show fuel + 1 + 3 = (fuel + 3) + 1 from rfl, hexLoop, if_neg (by omega), hmod, hdiv,
      Nat.digits_def' (by decide) hw, List.map_cons, List.cons_append]
    refine congrArg _ ?_
    rcases Nat.eq_zero_or_pos (w / 16) with hzero | hpos
    · rw [hzero, mul_zero, zero_add, hexLoop_zeros (by omega) (by omega), Nat.digits_zero]
      rfl
    · have hlt : w / 16 < 16 ^ fuel := Nat.div_lt_of_lt_mul (by rwa [pow_succ, mul_comm] at hfuel)
      exact ih hpos hlt (by omega)

theorem digits_lt (w : ℕ) : ∀ d ∈ Nat.digits 16 w, d < 16 := fun _ => Nat.digits_lt_base (by decide)

theorem digitOf_toNat {d : ℕ} (h : d < 16) : (digitOf true d).toNat = if d < 10 then 48 + d else 55 + d := by
  unfold digitOf
  split
  · next hd => rw [if_neg (by omega), UInt8.toNat_ofNat', Nat.mod_eq_of_lt (by omega)]
  · next hd =>
    have hlt : d < 10 := by
      by_contra hge
      exact hd ⟨rfl, by omega⟩
    rw [digitChar_toNat h, if_pos hlt, if_pos hlt]

theorem digits_small (base n : ℕ) (hb : 1 < base) (hb' : base ≤ 16) (hE : ∀ d ∈ E, d < 16)
    (h : ∀ d ∈ E, digitOf true d ∈ numeral base n) : ∀ d ∈ E, d < 10 := by
  intro d hd
  by_contra hge
  obtain ⟨e, he, heq⟩ := exists_digit_of_mem hb (h d hd)
  have hnat := congrArg UInt8.toNat heq
  rw [digitOf_toNat (hE d hd), if_neg hge, digitChar_toNat (by omega)] at hnat
  have := hE d hd
  split at hnat <;> omega

theorem map_digitOf (h : ∀ d ∈ E, d < 10) : E.map (digitOf true) = E.map digitChar := by
  refine List.map_congr_left fun d hd => if_neg fun hge => ?_
  have := h d hd
  omega

theorem digitChar_zero_iff {d : ℕ} (h : d < 16) : digitChar d = 48 ↔ d = 0 := by
  rw [← UInt8.toNat_inj, digitChar_toNat h]
  have h48 : (48 : UInt8).toNat = 48 := rfl
  rw [h48]
  split <;> omega

theorem map_digitOf_eq_iff (hw : 0 < w) : (Nat.digits 16 w).map (digitOf true) = numeral 16 w ↔
    (numeral 16 w).reverse = numeral 16 w ∧ ∀ c ∈ numeral 16 w, isDigit c := by
  have hnum : (numeral 16 w).reverse = (Nat.digits 16 w).map digitChar := by
    rw [numeral, if_neg hw.ne', List.reverse_reverse]
  constructor
  · intro h
    have hsmall : ∀ d ∈ Nat.digits 16 w, d < 10 := by
      refine digits_small 16 w (by decide) le_rfl (digits_lt w) fun d hd => ?_
      rw [← h]
      exact List.mem_map_of_mem hd
    refine ⟨by rw [hnum, ← map_digitOf hsmall, h], fun c hc => ?_⟩
    rw [← List.mem_reverse, hnum] at hc
    obtain ⟨d, hd, rfl⟩ := List.mem_map.mp hc
    rw [isDigit_iff, digitChar_toNat (digits_lt w d hd), if_pos (hsmall d hd)]
    have := hsmall d hd
    omega
  · rintro ⟨hpal, hdigit⟩
    have hsmall : ∀ d ∈ Nat.digits 16 w, d < 10 := by
      intro d hd
      have hmem : digitChar d ∈ numeral 16 w := by
        rw [← List.mem_reverse, hnum]
        exact List.mem_map_of_mem hd
      have hrange := isDigit_iff.mp (hdigit _ hmem)
      rw [digitChar_toNat (digits_lt w d hd)] at hrange
      split at hrange <;> omega
    rw [map_digitOf hsmall, ← hnum, hpal]

theorem kHex_eq (h : 0 < w) (hr : r < 4096) (hlt : 4096 * w + r < 2 ^ 32) :
    kHex (4096 * w + r) = (Nat.digits 16 w).map (digitOf true) ++ [48, 48, 48] := by
  rw [kHex, if_neg (by omega)]
  have hfuel : w < 16 ^ 12 := by omega
  exact hexLoop_eq h hfuel hr

theorem numeral_hex (h : 0 < w) (hr : r < 4096) : numeral 16 (4096 * w + r) =
    numeral 16 w ++ [digitChar (r / 256), digitChar (r / 16 % 16), digitChar (r % 16)] := by
  have h₀ : (4096 * w + r) % 16 = r % 16 := by omega
  have h₁ : (4096 * w + r) / 16 % 16 = r / 16 % 16 := by omega
  have h₂ : (4096 * w + r) / 16 / 16 % 16 = r / 256 := by omega
  have h₃ : (4096 * w + r) / 16 / 16 / 16 = w := by omega
  rw [numeral, numeral, if_neg (by omega), if_neg h.ne', Nat.digits_def' (by decide) (by omega), h₀,
    Nat.digits_def' (by decide) (by omega), h₁, Nat.digits_def' (by decide) (by omega), h₂, h₃]
  simp

theorem exists_quot (v : ℕ) : ∃ w r, v = 4096 * w + r ∧ r < 4096 :=
  ⟨v / 4096, v % 4096, (Nat.div_add_mod v 4096).symm, Nat.mod_lt _ (by decide)⟩

theorem kHex_eq_numeral_iff (h : v < 2 ^ 32) : kHex v = numeral 16 v ↔
    v % 2 ^ 12 = 0 ∧ (numeral 16 (v / 2 ^ 12)).reverse = numeral 16 (v / 2 ^ 12) ∧
      ∀ c ∈ numeral 16 (v / 2 ^ 12), isDigit c := by
  rcases Nat.eq_zero_or_pos v with rfl | hpos
  · refine iff_of_true rfl ⟨rfl, rfl, fun c hc => ?_⟩
    rw [List.mem_singleton.mp hc]
    rfl
  · rcases lt_or_ge v 4096 with hlt | hge
    · refine iff_of_false (fun heq => ?_) fun h => by omega
      have hhead := kHex_head hpos hlt
      rw [heq, head_numeral (by decide) le_rfl] at hhead
      omega
    · obtain ⟨w, r, rfl, hr⟩ := exists_quot v
      have hw : 0 < w := by omega
      have hdiv : (4096 * w + r) / 2 ^ 12 = w := by omega
      have hmod : (4096 * w + r) % 2 ^ 12 = r := by omega
      have h₀ := digitChar_zero_iff (show r % 16 < 16 by omega)
      have h₁ := digitChar_zero_iff (show r / 16 % 16 < 16 by omega)
      have h₂ := digitChar_zero_iff (show r / 256 < 16 by omega)
      have hlast : [48, 48, 48] = [digitChar (r / 256), digitChar (r / 16 % 16), digitChar (r % 16)] ↔
          r = 0 := by
        simp only [List.cons.injEq, and_true, eq_comm (a := (48 : UInt8)), h₀, h₁, h₂]
        omega
      rw [hdiv, hmod, kHex_eq hw hr h, numeral_hex hw hr, ← map_digitOf_eq_iff hw, ← hlast]
      constructor
      · exact fun heq => (List.append_inj' heq rfl).symm
      · rintro ⟨hzeros, hsame⟩
        rw [hsame, ← hzeros]

theorem reversed_ne_numeral (hw : 0 < w) (hE : ∀ d ∈ Nat.digits 16 w, d < 10) :
    (Nat.digits 16 w).map digitChar ++ [48, 48, 48] ≠ numeral 10 (4096 * w + r) := by
  intro heq
  have hread : readDigits 0 ((Nat.digits 16 w).map digitChar ++ [48, 48, 48]) = 4096 * w + r := by
    rw [heq, readDigits_numeral]
  have hlt : 4096 * w + r < 10 ^ (numeral 10 (4096 * w + r)).length := lt_pow_length (by decide)
  have hle : 16 ^ (Nat.digits 16 w).length ≤ 16 * w := Nat.base_pow_length_digits_le 16 w (by decide) hw.ne'
  have hw' : Nat.ofDigits 16 (Nat.digits 16 w) = w := Nat.ofDigits_digits 16 w
  rw [← heq, List.length_append, List.length_map] at hlt
  generalize Nat.digits 16 w = E at *
  match E, hE with
  | [], _ => exact hw.ne hw'
  | [d], hE =>
    have hd := digit_value (hE d List.mem_cons_self)
    have hval : d = w := by simpa using hw'
    have hsum : d * 10 * 10 * 10 = 4096 * w + r := by simpa [readDigits, hd] using hread
    omega
  | [d, e], hE =>
    have hd := digit_value (hE d List.mem_cons_self)
    have he := digit_value (hE e (List.mem_cons_of_mem _ List.mem_cons_self))
    have hval : d + 16 * e = w := by simpa [Nat.ofDigits_cons] using hw'
    have hsum : (d * 10 + e) * 10 * 10 * 10 = 4096 * w + r := by simpa [readDigits, hd, he] using hread
    have hsmall := hE d List.mem_cons_self
    have hpow : 16 ^ [d, e].length = 256 := rfl
    omega
  | d :: e :: a :: E, _ =>
    have hpow : 10 ^ E.length ≤ 16 ^ E.length := Nat.pow_le_pow_left (by decide) _
    simp only [List.length_cons, List.length_nil] at hlt hle
    have h10 : 10 ^ (E.length + 1 + 1 + 1 + (0 + 1 + 1 + 1)) = 1000000 * 10 ^ E.length := by ring
    have h16 : 16 ^ (E.length + 1 + 1 + 1) = 4096 * 16 ^ E.length := by ring
    omega

theorem kHex_eq_decimal_iff (h : v < 2 ^ 32) : kHex v = numeral 10 v ↔ v = 0 := by
  constructor
  · intro heq
    by_contra hne
    have hpos := Nat.pos_of_ne_zero hne
    rcases lt_or_ge v 4096 with hlt | hge
    · have hhead := kHex_head hpos hlt
      rw [heq, head_numeral (by decide) (by decide)] at hhead
      exact hne hhead
    · obtain ⟨w, r, rfl, hr⟩ := exists_quot v
      have hw : 0 < w := by omega
      rw [kHex_eq hw hr h] at heq
      have hsmall : ∀ d ∈ Nat.digits 16 w, d < 10 := by
        refine digits_small 10 (4096 * w + r) (by decide) (by decide) (digits_lt w) fun d hd => ?_
        rw [← heq]
        exact List.mem_append_left _ (List.mem_map_of_mem hd)
      rw [map_digitOf hsmall] at heq
      exact reversed_ne_numeral hw hsmall heq
  · rintro rfl
    rfl

end Digits

section Fields

variable {m : Bytes} {cap : ℕ} {f : Field} {fmt out l : List UInt8} {args : List UInt64}

/-- The fields that `snprintf` prints as the standard says: without a flag or a width, and with an argument
whose digits are not spoiled. -/
def KsGood (f : Field) : Prop :=
  f.zero = false ∧ f.width = 0 ∧
    match f.conv with
    | .d => 0 ≤ vaInt f.slot ∧ f.digits.reverse = f.digits
    | .u => vaUint f.slot = 0
    | .x => vaUint f.slot % 2 ^ 12 = 0 ∧
      (numeral 16 (vaUint f.slot / 2 ^ 12)).reverse = numeral 16 (vaUint f.slot / 2 ^ 12) ∧
      ∀ c ∈ numeral 16 (vaUint f.slot / 2 ^ 12), isDigit c

/-- What is printed for a conversion without a flag or a width. -/
def Field.kText (f : Field) : List UInt8 :=
  match f.conv with
  | .d => kDecimal (vaInt f.slot)
  | .u | .x => kHex (vaUint f.slot)

theorem Field.kText_eq_iff (f : Field) (hzero : f.zero = false) (hwidth : f.width = 0) :
    f.kText = f.std ↔ KsGood f := by
  have hstd : f.std = f.sign ++ f.digits := f.std_of_le (by omega)
  have hint := vaInt_bounds f.slot
  have huint := vaUint_lt f.slot
  rw [hstd]
  unfold KsGood kText sign digits
  cases f.conv with
  | d => simpa [hzero, hwidth] using kDecimal_eq_iff hint.2
  | u => simpa [hzero, hwidth] using kHex_eq_decimal_iff huint
  | x => simpa [hzero, hwidth] using kHex_eq_numeral_iff huint

theorem kernelVsnprintf_lit {c : UInt8} (hc : c ≠ 37) (hcap : out.length < cap) :
    kernelVsnprintf m cap (c :: fmt) out args = kernelVsnprintf m cap fmt (out ++ [c]) args := by
  conv_lhs => unfold kernelVsnprintf
  rw [if_neg (not_le.mpr hcap), if_neg hc]

theorem kernelVsnprintf_lits (hl : ∀ c ∈ l, c ≠ 37) (hcap : out.length + l.length ≤ cap) :
    kernelVsnprintf m cap (l ++ fmt) out args = kernelVsnprintf m cap fmt (out ++ l) args := by
  induction l generalizing out with
  | nil => rw [List.nil_append, List.append_nil]
  | cons c l ih =>
    obtain ⟨hc, hl⟩ := List.forall_mem_cons.mp hl
    rw [List.length_cons] at hcap
    rw [List.cons_append, kernelVsnprintf_lit hc (by omega),
      ih hl (by rw [List.length_append, List.length_singleton]; omega), List.append_assoc]
    rfl

theorem kernelVsnprintf_conv (hzero : f.zero = false) (hwidth : f.width = 0) (hcap : out.length < cap) :
    kernelVsnprintf m cap (f.text ++ fmt) out (f.slot :: args) =
      kernelVsnprintf m cap fmt (puts cap out f.kText) args := by
  unfold Field.text Field.widthText Field.kText
  rw [hzero, if_neg (by decide), if_pos hwidth]
  cases f.conv <;> exact if_neg (not_le.mpr hcap)

theorem Field.text_of_flag (f : Field) (h : ¬(f.zero = false ∧ f.width = 0)) :
    ∃ c l, f.text = 37 :: c :: l ∧ isDigit c = true := by
  unfold text widthText
  cases hzero : f.zero with
  | true => exact ⟨48, _, rfl, rfl⟩
  | false =>
    have hwidth : f.width ≠ 0 := fun hw => h ⟨hzero, hw⟩
    rw [if_neg (by decide), if_neg hwidth]
    cases hnum : numeral 10 f.width with
    | nil => exact absurd hnum (numeral_ne_nil _ _)
    | cons c l => exact ⟨c, _, rfl, isDigit_of_mem (n := f.width) (by rw [hnum]; exact List.mem_cons_self)⟩

theorem Field.notMem_tail (f : Field) : ∀ c ∈ f.text.tail, c ≠ 37 := by
  obtain ⟨-, -, -, -, hletter⟩ := f.conv.letter_facts
  intro c hc
  rw [text, List.tail_cons, ← List.append_assoc, List.mem_append, List.mem_singleton] at hc
  rcases hc with hc | rfl
  · rintro rfl
    exact absurd (f.flags_digits _ hc) (by decide)
  · exact hletter

theorem kernelVsnprintf_flag (hflag : ¬(f.zero = false ∧ f.width = 0))
    (hcap : out.length + f.text.length ≤ cap) :
    kernelVsnprintf m cap f.text out [f.slot] = some (out ++ f.text.tail) := by
  obtain ⟨c, l, htext, hc⟩ := f.text_of_flag hflag
  have hmem := f.notMem_tail
  rw [htext, List.tail_cons] at hmem
  rw [htext] at hcap ⊢
  simp only [List.length_cons] at hcap
  have hstep : kernelVsnprintf m cap (37 :: c :: l) out [f.slot] =
      kernelVsnprintf m cap l (out ++ [c]) [f.slot] := by
    rw [kernelVsnprintf, if_neg (by omega), if_pos rfl]
    have hne (e : UInt8) (he : isDigit e = false) : c ≠ e := by
      rintro rfl
      rw [hc] at he
      contradiction
    rw [if_neg (hne 115 rfl), if_neg (hne 100 rfl), if_neg (hne 120 rfl), if_neg (hne 117 rfl)]
  have hlits : kernelVsnprintf m cap (l ++ []) (out ++ [c]) [f.slot] =
      kernelVsnprintf m cap [] (out ++ [c] ++ l) [f.slot] :=
    kernelVsnprintf_lits (fun e he => hmem e (List.mem_cons_of_mem _ he))
      (by rw [List.length_append, List.length_singleton]; omega)
  rw [List.append_nil] at hlits
  rw [hstep, hlits, kernelVsnprintf, List.append_assoc]
  rfl

theorem Field.letter_notMem_digits (f : Field) : f.conv.letter ∉ f.digits := by
  intro hmem
  unfold digits at hmem
  cases hconv : f.conv <;> rw [hconv] at hmem
  case x =>
    obtain ⟨d, hd, heq⟩ := exists_digit_of_mem (by decide) hmem
    have hnat := congrArg UInt8.toNat heq
    rw [digitChar_toNat hd] at hnat
    have h120 : Conv.x.letter.toNat = 120 := rfl
    split at hnat <;> omega
  all_goals exact absurd (isDigit_of_mem hmem) (by decide)

theorem Field.letter_notMem_std (f : Field) : f.conv.letter ∉ f.std := by
  have hletter : f.conv.letter ≠ 45 ∧ f.conv.letter ≠ 48 ∧ f.conv.letter ≠ 32 := by
    cases f.conv <;> decide
  have hsign : f.conv.letter ∉ f.sign := by
    rcases f.sign_cases with h | h
    · rw [h]
      exact List.not_mem_nil
    · rw [h, List.mem_singleton]
      exact hletter.1
  unfold std
  split <;> simp [List.mem_replicate, hsign, f.letter_notMem_digits, hletter]

def ksFormatter (m : Bytes) : Formatter where
  run := kernelVsnprintf m
  Good := KsGood
  nil _ _ _ := rfl
  lit _ _ _ _ _ hc hcap := kernelVsnprintf_lit hc hcap
  good cap f fmt out args hgood _ hcap := by
    have hpos := f.std_length_pos
    have htext := (f.kText_eq_iff hgood.1 hgood.2.1).mpr hgood
    rw [kernelVsnprintf_conv hgood.1 hgood.2.1 (by omega), htext, puts_of_le hcap]
  bad f out hbad _ := by
    by_cases hflag : f.zero = false ∧ f.width = 0
    · refine ⟨out.length + f.std.length + f.kText.length, by omega, fun heq => ?_⟩
      have hpos := f.std_length_pos
      rw [← f.text.append_nil, kernelVsnprintf_conv hflag.1 hflag.2 (by omega), puts_of_le (by omega)] at heq
      exact hbad ((f.kText_eq_iff hflag.1 hflag.2).mp (List.append_cancel_left (Option.some.inj heq)))
    · refine ⟨out.length + f.std.length + f.text.length, by omega, fun heq => ?_⟩
      rw [kernelVsnprintf_flag hflag (by omega)] at heq
      refine f.letter_notMem_std ?_
      rw [← List.append_cancel_left (Option.some.inj heq), Field.text, List.tail_cons]
      simp

theorem snprintf_eq (m : Bytes) : snprintf m = (ksFormatter m).print := by
  funext size fmt args
  unfold snprintf Formatter.print
  split
  · next hsize =>
    rw [hsize]
    cases fmt with
    | nil => rfl
    | cons c fmt =>
      have hstop : kernelVsnprintf m 0 (c :: fmt) [] args = some [] := by
        unfold kernelVsnprintf
        exact if_pos (Nat.zero_le _)
      change _ = Option.map _ (kernelVsnprintf m 0 (c :: fmt) [] args)
      rw [hstop]
      rfl
  · rfl

end Fields

end GcAos.Fmt
