import GcAos.Fmt.Vsnprintf

/-! The fields that `kvsnprintf` and `vsnprintf` print as the standard says. -/

namespace GcAos.Fmt
open Lib

variable {m : Bytes} {cap : ℕ} {f : Field} {out : List UInt8} {args : List UInt64}

section Printk

/-- The fields that `kvsnprintf` prints as the standard says. -/
def KvGood (f : Field) : Prop :=
  f.conv = .d → vaInt f.slot < 0 → f.zero → f.width ≤ (f.sign ++ f.digits).length

theorem itoa_signed {v : ℤ} (h : v.natAbs < 2 ^ 64) :
    itoa v 10 true false = (if v < 0 then [45] else []) ++ numeral 10 v.natAbs := by
  have huval : ((if v < 0 then -v else v) % 2 ^ 64).toNat = v.natAbs := by
    split <;> omega
  have hdigits : (if v.natAbs = 0 then [48] else digitLoop digitChar 10 64 v.natAbs).reverse =
      numeral 10 v.natAbs := reverse_digitLoop (by decide) (by omega)
  have hdigit : digitOf false = digitChar := rfl
  simp only [itoa, true_and, huval, hdigit, List.reverse_append, hdigits]
  split <;> rfl

theorem utoa_eq {v base : ℕ} (hb : 1 < base) (h : v < 2 ^ 63) : utoa v base false = numeral base v := by
  have hpow : 2 ^ 64 ≤ base ^ 64 := Nat.pow_le_pow_left hb 64
  have hdigits : (if v = 0 then [48] else digitLoop digitChar base 64 v).reverse = numeral base v :=
    reverse_digitLoop hb (by omega)
  have hval : Int.bmod v (2 ^ 64) = v := Int.bmod_eq_of_le (by omega) (by omega)
  have huval : ((v : ℤ) % 2 ^ 64).toNat = v := by omega
  have hdigit : digitOf false = digitChar := rfl
  rw [utoa, hval, itoa, ← hdigits]
  simp only [Bool.false_eq_true, false_and, if_false, huval, hdigit, List.append_nil]

theorem kvConvert_field : kvConvert m cap ⟨f.zero, f.width, 0⟩ f.conv.letter ⟨out, f.slot :: args⟩ =
    ⟨putPadded cap ⟨f.zero, f.width, 0⟩ (f.sign ++ f.digits) out, args⟩ := by
  obtain ⟨k, zero, width, slot⟩ := f
  have hint := vaInt_bounds slot
  have huint := vaUint_lt slot
  cases k with
  | d =>
    have hnum := itoa_signed (v := vaInt slot) (by omega)
    simp [kvConvert, Conv.letter, Field.sign, Field.digits, hnum]
  | u =>
    have hnum : utoa (vaUint slot) 10 false = numeral 10 (vaUint slot) := utoa_eq (by decide) (by omega)
    simp [kvConvert, Conv.letter, Field.sign, Field.digits, hnum]
  | x =>
    have hnum : utoa (vaUint slot) 16 false = numeral 16 (vaUint slot) := utoa_eq (by decide) (by omega)
    simp [kvConvert, Conv.letter, Field.sign, Field.digits, hnum]

/-- The padding comes first, be it of zeros. -/
def Field.kvText (f : Field) : List UInt8 :=
  List.replicate f.fill (if f.zero then 48 else 32) ++ (f.sign ++ f.digits)

theorem Field.kvText_length (f : Field) : f.kvText.length = f.std.length := by
  rw [f.std_length, kvText, fill, List.length_append, List.length_replicate]
  omega

theorem Field.kvText_eq_iff (f : Field) : f.kvText = f.std ↔ KvGood f := by
  unfold KvGood kvText std
  cases f.zero with
  | false => simp
  | true =>
    rcases Nat.eq_zero_or_pos f.fill with hfill | hfill
    · have hle : f.width ≤ (f.sign ++ f.digits).length := Nat.sub_eq_zero_iff_le.mp hfill
      rw [hfill]
      exact iff_of_true rfl fun _ _ _ => hle
    · have hlt : ¬f.width ≤ (f.sign ++ f.digits).length := by
        unfold fill at hfill
        omega
      obtain ⟨n, hn⟩ := Nat.exists_eq_succ_of_ne_zero hfill.ne'
      by_cases hneg : f.conv = .d ∧ vaInt f.slot < 0
      · simp [sign, hneg, hn, List.replicate_succ] at hlt ⊢
        exact hlt
      · have hsign : f.sign = [] := if_neg hneg
        simp only [hsign, if_true]
        exact iff_of_true rfl fun hd hneg' => absurd ⟨hd, hneg'⟩ hneg

theorem putPadded_field (h : out.length + f.std.length ≤ cap) :
    putPadded cap ⟨f.zero, f.width, 0⟩ (f.sign ++ f.digits) out = out ++ f.kvText := by
  have hpad : ((f.width : ℤ) - (f.sign ++ f.digits).length).toNat = f.fill := by
    unfold Field.fill
    omega
  rw [← f.kvText_length, Field.kvText, List.length_append] at h
  rw [putPadded, hpad]
  dsimp only
  have hpads : puts cap out (List.replicate f.fill (if f.zero then 48 else 32)) =
      out ++ List.replicate f.fill (if f.zero then 48 else 32) := puts_of_le (by omega)
  rw [hpads, puts_of_le (by rw [List.length_append]; omega), List.append_assoc]
  rfl

theorem runLoop_kv {fmt : List UInt8} (hwidth : f.width < 2 ^ 31) (hcap : out.length + f.std.length ≤ cap) :
    runLoop cap (kvConvert m cap) (f.text ++ fmt) ⟨out, f.slot :: args⟩ =
      runLoop cap (kvConvert m cap) fmt ⟨out ++ f.kvText, args⟩ := by
  have hpos := f.std_length_pos
  rw [runLoop_field hwidth (by dsimp only; omega), kvConvert_field, putPadded_field hcap]

def kvFormatter (m : Bytes) : Formatter where
  run cap fmt out args := runLoop cap (kvConvert m cap) fmt ⟨out, args⟩
  Good := KvGood
  nil _ _ _ := rfl
  lit _ _ _ _ _ hc hcap := runLoop_lit hc hcap
  good cap f fmt out args hgood hwidth hcap := by
    rw [runLoop_kv hwidth hcap, f.kvText_eq_iff.mpr hgood]
  bad f out hbad hwidth := by
    refine ⟨out.length + f.std.length, le_rfl, fun heq => ?_⟩
    rw [← f.text.append_nil, runLoop_kv hwidth le_rfl] at heq
    exact hbad (f.kvText_eq_iff.mp (List.append_cancel_left (Option.some.inj heq)))

theorem kvsnprintf_eq (m : Bytes) : kvsnprintf m = (kvFormatter m).print := by
  funext size fmt args
  unfold Formatter.print kvFormatter runLoop
  rw [Option.map_map]
  rfl

end Printk

section Libc

/-- The fields that `vsnprintf` prints as the standard says. -/
def VsGood (f : Field) : Prop := f.width ≤ (f.sign ++ f.digits).length

theorem doDigits_eq {digit : ℤ → UInt8} {base fuel v : ℕ} (hb : 1 < base)
    (hdigit : ∀ d : ℕ, d < base → digit d = digitChar d) (h : v < base ^ fuel) (hfuel : 0 < fuel) :
    doDigits digit base fuel v = if v = 0 then [48] else digitLoop digitChar base fuel v := by
  induction fuel generalizing v with
  | zero => exact absurd hfuel (lt_irrefl 0)
  | succ fuel ih =>
    have hmod : ((v : ℤ).tmod base) = ((v % base : ℕ) : ℤ) := rfl
    have hdiv : ((v : ℤ).tdiv base) = ((v / base : ℕ) : ℤ) := rfl
    have hlast := hdigit (v % base) (Nat.mod_lt _ (by omega))
    rw [doDigits, hmod, hdiv, hlast]
    by_cases hlt : v < base
    · rw [Nat.div_eq_of_lt hlt, if_neg (by decide), Nat.mod_eq_of_lt hlt]
      split
      · next hv => rw [hv]; rfl
      · next hv => rw [digitLoop, if_neg hv, Nat.div_eq_of_lt hlt, Nat.mod_eq_of_lt hlt]; cases fuel <;> rfl
    · have hquot : 0 < v / base := Nat.div_pos (by omega) (by omega)
      have hdiv' : v / base < base ^ fuel := Nat.div_lt_of_lt_mul (by rwa [pow_succ, mul_comm] at h)
      have hfuel' : 0 < fuel := by
        by_contra hzero
        rw [Nat.eq_zero_of_not_pos hzero, pow_zero] at hdiv'
        omega
      rw [if_pos (by omega), ih hdiv' hfuel', if_neg hquot.ne', if_neg (by omega), digitLoop,
        if_neg (by omega)]

theorem doDigits_reverse {digit : ℤ → UInt8} {base v : ℕ} (hb : 1 < base)
    (hdigit : ∀ d : ℕ, d < base → digit d = digitChar d) (h : v < 2 ^ 64) :
    (doDigits digit base 64 v).reverse = numeral base v := by
  have hpow : 2 ^ 64 ≤ base ^ 64 := Nat.pow_le_pow_left hb 64
  rw [doDigits_eq hb hdigit (by omega) (by decide), reverse_digitLoop hb (by omega)]

theorem decDigit_eq (d : ℕ) (hd : d < 10) : decDigit d = digitChar d := by
  rw [digitChar, if_pos hd]
  rfl

theorem signedDigits_reverse {v : ℤ} (h : v.natAbs < 2 ^ 63) :
    (signedDigits v).reverse = (if v < 0 then [45] else []) ++ numeral 10 v.natAbs := by
  have habs : (if v < 0 then (-v).bmod (2 ^ 64) else v) = (v.natAbs : ℤ) := by
    split
    · rw [Int.bmod_eq_of_le (by omega) (by omega)]
      omega
    · omega
  have hrev : (doDigits decDigit 10 64 v.natAbs).reverse = numeral 10 v.natAbs :=
    doDigits_reverse (by decide) decDigit_eq (by omega)
  rw [signedDigits, List.reverse_append, habs]
  refine congrArg₂ _ ?_ hrev
  split <;> rfl

theorem padLoop_full {pad : UInt8} {neg : Bool} {width i : ℤ} {room : ℕ} (h : i < width) :
    (padLoop pad neg width room i out).2.length = out.length + room := by
  induction room generalizing i out with
  | zero => rfl
  | succ room ih =>
    rw [padLoop, if_pos h]
    split
    · rw [ih (by omega), List.length_append, List.length_singleton]
      omega
    · rw [ih h, List.length_append, List.length_singleton]
      omega

theorem padLoop_none {pad : UInt8} {neg : Bool} {width i : ℤ} {room : ℕ} (h : width ≤ i) :
    padLoop pad neg width room i out = (i, out) := by
  cases room with
  | zero => rfl
  | succ room => rw [padLoop, if_neg (by omega)]

theorem vsConvert_field (m : Bytes) (cap : ℕ) (f : Field) (out : List UInt8) (args : List UInt64) :
    ∃ numbuf neg, numbuf.reverse = f.sign ++ f.digits ∧
      vsConvert m cap ⟨f.zero, f.width, 0⟩ f.conv.letter ⟨out, f.slot :: args⟩ = ⟨putReversed cap numbuf
        (if f.conv = .d ∧ f.zero = false then (numbuf.length, out)
        else padLoop (if f.zero then 48 else 32) neg f.width (cap - out.length) numbuf.length out), args⟩ := by
  obtain ⟨k, zero, width, slot⟩ := f
  have hint := vaInt_bounds slot
  have huint := vaUint_lt slot
  cases k with
  | d =>
    refine ⟨signedDigits (vaInt slot), decide (vaInt slot < 0), ?_, ?_⟩
    · rw [signedDigits_reverse (by omega)]
      simp [Field.sign, Field.digits]
    · cases zero <;> rfl
  | u =>
    refine ⟨doDigits decDigit 10 64 (vaUint slot), false, ?_, rfl⟩
    exact doDigits_reverse (by decide) decDigit_eq (by omega)
  | x =>
    refine ⟨doDigits (fun d => digitOf false d.toNat) 16 64 (vaUint slot), false, ?_, rfl⟩
    exact doDigits_reverse (by decide) (fun _ _ => rfl) (by omega)

theorem putReversed_of_le {numbuf : List UInt8} (h : out.length + numbuf.length ≤ cap) :
    putReversed cap numbuf (numbuf.length, out) = out ++ numbuf.reverse := by
  rw [putReversed]
  dsimp only
  rw [Int.toNat_natCast, List.take_length, puts_of_le (by rw [List.length_reverse]; exact h)]

theorem runLoop_vs {fmt : List UInt8} (hgood : VsGood f) (hwidth : f.width < 2 ^ 31)
    (hcap : out.length + f.std.length ≤ cap) :
    runLoop cap (vsConvert m cap) (f.text ++ fmt) ⟨out, f.slot :: args⟩ =
      runLoop cap (vsConvert m cap) fmt ⟨out ++ f.std, args⟩ := by
  have hpos := f.std_length_pos
  obtain ⟨numbuf, neg, hrev, hconv⟩ := vsConvert_field m cap f out args
  have hlen : numbuf.length = (f.sign ++ f.digits).length := by rw [← hrev, List.length_reverse]
  have hroom : out.length < cap := by omega
  rw [f.std_of_le hgood] at hcap ⊢
  rw [runLoop_field hwidth hroom, hconv, padLoop_none (by rw [hlen]; exact_mod_cast hgood), ite_self,
    putReversed_of_le (by omega), hrev]

theorem vsConvert_bad (hbad : ¬VsGood f) (hcap : cap = out.length + f.std.length + 1) :
    (vsConvert m cap ⟨f.zero, f.width, 0⟩ f.conv.letter ⟨out, f.slot :: args⟩).out.length ≠
      out.length + f.std.length := by
  obtain ⟨numbuf, neg, hrev, hconv⟩ := vsConvert_field m cap f out args
  have hlen : numbuf.length = (f.sign ++ f.digits).length := by rw [← hrev, List.length_reverse]
  have hlt : (f.sign ++ f.digits).length < f.width := not_le.mp hbad
  have hstd := f.std_length
  rw [hconv]
  dsimp only
  split
  · rw [putReversed_of_le (by omega), List.length_append, List.length_reverse]
    omega
  · have hfull : (padLoop (if f.zero then 48 else 32) neg f.width (cap - out.length) numbuf.length
        out).2.length = out.length + (cap - out.length) := padLoop_full (by omega)
    rw [putReversed, puts_of_full (by omega)]
    omega

def vsFormatter (m : Bytes) : Formatter where
  run cap fmt out args := runLoop cap (vsConvert m cap) fmt ⟨out, args⟩
  Good := VsGood
  nil _ _ _ := rfl
  lit _ _ _ _ _ hc hcap := runLoop_lit hc hcap
  good _ _ _ _ _ hgood hwidth hcap := runLoop_vs hgood hwidth hcap
  bad f out hbad hwidth := by
    have hpos := f.std_length_pos
    refine ⟨out.length + f.std.length + 1, by omega, fun heq => ?_⟩
    rw [← f.text.append_nil, runLoop_field hwidth (by dsimp only; omega)] at heq
    have hlen := congrArg List.length (Option.some.inj heq)
    rw [List.length_append] at hlen
    exact vsConvert_bad hbad rfl hlen

theorem vsnprintf_eq (m : Bytes) : vsnprintf m = (vsFormatter m).print := by
  funext size fmt args
  unfold Formatter.print vsFormatter runLoop
  rw [Option.map_map]
  rfl

end Libc

end GcAos.Fmt
