import GcAos.Fmt.Directive
import Mathlib.Data.List.DropRight

/-! `vsscanf` in `libc/src/stdio.c`, and what it makes of the standard output of its own format. -/

namespace GcAos.Fmt
open Lib

/-- What is stored where the next pointer argument points. -/
inductive Stored
  | int (v : ℤ)
  | long (v : ℤ)
  | uint (v : ℕ)
  | ulong (v : ℕ)
  | str (l : List UInt8)
  | chr (c : UInt8)
  deriving DecidableEq

def isSpace (c : UInt8) : Bool := c = 32 || (9 ≤ c && c ≤ 13)

def isHexDigit (c : UInt8) : Bool := isDigit c || (97 ≤ c && c ≤ 102) || (65 ≤ c && c ≤ 70)

def hexValue (c : UInt8) : ℕ :=
  if isDigit c then c.toNat - 48 else if 97 ≤ c ∧ c ≤ 102 then c.toNat - 87 else c.toNat - 55

def readHex (l : List UInt8) : ℕ := l.foldl (fun v c => v * 16 + hexValue c) 0

/-- The width, which is ignored, and the length modifier; `h` counts for nothing. -/
def scanSpec (fmt : List UInt8) : Bool × List UInt8 :=
  match fmt.dropWhile isDigit with
  | 108 :: 108 :: fmt => (true, fmt)
  | 108 :: fmt => (true, fmt)
  | 104 :: 104 :: fmt => (false, fmt)
  | 104 :: fmt => (false, fmt)
  | fmt => (false, fmt)

def scanSign : List UInt8 → ℤ × List UInt8
  | 45 :: s => (-1, s)
  | 43 :: s => (1, s)
  | s => (1, s)

def hexPrefix : List UInt8 → List UInt8
  | 48 :: 120 :: s => s
  | 48 :: 88 :: s => s
  | s => s

/-- The switch: the rest of the string, what `count` grows by and what is stored; `none` is `goto done`. The
sums of digits are taken in 64 bits, which is the same for the bits that are stored. -/
def scanConvert (isLong : Bool) (letter : UInt8) (consumed : ℕ) (s : List UInt8) :
    Option (List UInt8 × ℕ × List Stored) :=
  if letter = 100 ∨ letter = 105 then
    let (sign, s) := scanSign (s.dropWhile isSpace)
    let val := sign * readDigits 0 (s.takeWhile isDigit)
    if s.head?.any isDigit then
      some (s.dropWhile isDigit, 1, [if isLong then .long (val.bmod (2 ^ 64)) else .int (val.bmod (2 ^ 32))])
    else none
  else if letter = 117 then
    let s := s.dropWhile isSpace
    let val := readDigits 0 (s.takeWhile isDigit)
    if s.head?.any isDigit then
      some (s.dropWhile isDigit, 1, [if isLong then .ulong (val % 2 ^ 64) else .uint (val % 2 ^ 32)])
    else none
  else if letter = 120 ∨ letter = 88 then
    let s := hexPrefix (s.dropWhile isSpace)
    let val := readHex (s.takeWhile isHexDigit)
    some (s.dropWhile isHexDigit, 1, [if isLong then .ulong (val % 2 ^ 64) else .uint (val % 2 ^ 32)])
  else if letter = 115 then
    let s := s.dropWhile isSpace
    some (s.dropWhile (!isSpace ·), 1, [.str (s.takeWhile (!isSpace ·))])
  else if letter = 99 then some (s.tail, 1, [.chr (s.headD 0)])
  else if letter = 37 then if s.head? = some 37 then some (s.tail, 0, []) else none
  else if letter = 110 then some (s, 0, [.int ((consumed : ℤ).bmod (2 ^ 32))])
  else none

/-- The loop over the format, for a string of `total` characters. Where the format ends after `%` its null
byte is no conversion. -/
def scanLoop (total : ℕ) : ℕ → List UInt8 → List UInt8 → ℕ × List Stored
  | 0, _, _ => (0, [])
  | _ + 1, [], _ => (0, [])
  | _ + 1, _ :: _, [] => (0, [])
  | fuel + 1, c :: fmt, b :: s =>
    if isSpace c then scanLoop total fuel fmt ((b :: s).dropWhile isSpace)
    else if c ≠ 37 then if c = b then scanLoop total fuel fmt s else (0, [])
    else
      match scanSpec fmt with
      | (_, []) => (0, [])
      | (isLong, letter :: fmt) =>
        match scanConvert isLong letter (total - (s.length + 1)) (b :: s) with
        | none => (0, [])
        | some (s, n, stored) =>
          let r := scanLoop total fuel fmt s
          (n + r.1, stored ++ r.2)

/-- The count of conversions and what they store. -/
def vsscanf (str fmt : List UInt8) : ℕ × List Stored := scanLoop str.length (fmt.length + 1) fmt str

def Conv.continues (k : Conv) (c : UInt8) : Bool :=
  match k with
  | .d | .u => isDigit c
  | .x => isHexDigit c || c = 120 || c = 88

/-- No numeral is followed by a character that continues it. -/
def Separated : List Directive → Prop
  | [] => True
  | .lit _ _ :: ds => Separated ds
  | .conv f :: ds => (∀ c ∈ (std ds).head?, f.conv.continues c = false) ∧ Separated ds

def Directive.values : Directive → List Stored
  | lit _ _ => []
  | conv f => [match f.conv with | .d => .int (vaInt f.slot) | .u | .x => .uint (vaUint f.slot)]

def values (ds : List Directive) : List Stored := ds.flatMap Directive.values

section Fields

variable {c : UInt8} {k : ℕ} {l s : List UInt8} {f : Field}

theorem isSpace_iff : isSpace c ↔ c.toNat = 32 ∨ 9 ≤ c.toNat ∧ c.toNat ≤ 13 := by
  rw [isSpace, Bool.or_eq_true, Bool.and_eq_true, decide_eq_true_iff, decide_eq_true_iff, decide_eq_true_iff,
    UInt8.le_iff_toNat_le, UInt8.le_iff_toNat_le, ← UInt8.toNat_inj]
  rfl

theorem isHexDigit_of_mem (hc : c ∈ numeral 16 k) : isHexDigit c := by
  obtain ⟨d, hd, rfl⟩ := exists_digit_of_mem (by decide) hc
  interval_cases d <;> rfl

theorem readHex_numeral (k n : ℕ) : readHex (List.replicate k 48 ++ numeral 16 n) = n := by
  have hvalue : ∀ d < 16, hexValue (digitChar d) = d := by decide
  rw [readHex, foldl_zeros (hvalue 0 (by decide)), foldl_numeral (by decide) hvalue]

theorem Field.std_shape (f : Field) : ∃ j k, f.std =
    List.replicate j 32 ++ (f.sign ++ (List.replicate k 48 ++ f.digits)) := by
  unfold std
  split
  · exact ⟨0, f.fill, rfl⟩
  · exact ⟨f.fill, 0, rfl⟩

theorem Field.digits_hex (f : Field) : ∀ c ∈ f.digits, isHexDigit c := by
  unfold digits
  cases f.conv with
  | x => exact fun c => isHexDigit_of_mem
  | d => exact fun c hc => by rw [isHexDigit, isDigit_of_mem hc]; rfl
  | u => exact fun c hc => by rw [isHexDigit, isDigit_of_mem hc]; rfl

theorem isSpace_hex (h : isHexDigit c) : isSpace c = false := by
  rw [isHexDigit, Bool.or_eq_true, Bool.or_eq_true, Bool.and_eq_true, Bool.and_eq_true, isDigit_iff] at h
  simp only [decide_eq_true_iff, UInt8.le_iff_toNat_le] at h
  have h97 : (97 : UInt8).toNat = 97 := rfl
  have h65 : (65 : UInt8).toNat = 65 := rfl
  rw [← Bool.not_eq_true, isSpace_iff]
  omega

theorem Field.dropWhile_std (f : Field) (s : List UInt8) : ∃ k, (f.std ++ s).dropWhile isSpace =
    f.sign ++ (List.replicate k 48 ++ f.digits ++ s) := by
  obtain ⟨j, k, hstd⟩ := f.std_shape
  refine ⟨k, ?_⟩
  have hspaces : ∀ c ∈ List.replicate j (32 : UInt8), isSpace c := fun c hc => by
    rw [List.eq_of_mem_replicate hc]
    rfl
  have hhead : ∀ c ∈ (f.sign ++ (List.replicate k 48 ++ f.digits ++ s)).head?, isSpace c = false := by
    intro c hc
    have hpos := f.digits_length_pos
    obtain ⟨a, l, hdigits⟩ := List.exists_cons_of_length_pos hpos
    have ha := isSpace_hex (f.digits_hex a (by rw [hdigits]; exact List.mem_cons_self))
    rw [hdigits] at hc
    rcases f.sign_cases with hsign | hsign <;> rw [hsign] at hc
    · cases k with
      | zero => rwa [← Option.mem_some.mp hc]
      | succ k => rw [← Option.mem_some.mp hc]; rfl
    · rw [← Option.mem_some.mp hc]
      rfl
  rw [hstd, List.append_assoc, List.append_assoc]
  rw [(span_append hspaces hhead).2]

theorem scanSign_field (f : Field) (h : l.head?.any isDigit) :
    scanSign (f.sign ++ l) = (if f.conv = .d ∧ vaInt f.slot < 0 then -1 else 1, l) := by
  unfold Field.sign
  split
  · rfl
  · cases l with
    | nil => rfl
    | cons c l =>
      have hc : isDigit c := h
      rw [List.nil_append, scanSign]
      · rintro s heq
        rw [(List.cons.inj heq).1] at hc
        contradiction
      · rintro s heq
        rw [(List.cons.inj heq).1] at hc
        contradiction

theorem second_ne {e : UInt8} {s' : List UInt8} (hl : ∀ c ∈ l, isHexDigit c)
    (hs : ∀ c ∈ s.head?, Conv.x.continues c = false) (hne : l ≠ [])
    (he : Conv.x.continues e ∧ isHexDigit e = false) : l ++ s ≠ 48 :: e :: s' := by
  intro heq
  match l, hne with
  | [a], _ =>
    obtain rfl := (List.cons.inj heq).2
    rw [hs e rfl] at he
    exact absurd he.1 (by decide)
  | a :: b :: l, _ =>
    have hb := (List.cons.inj (List.cons.inj heq).2).1
    have hhex := hl b (List.mem_cons_of_mem _ List.mem_cons_self)
    rw [hb, he.2] at hhex
    contradiction

theorem hexPrefix_eq (hl : ∀ c ∈ l, isHexDigit c) (hs : ∀ c ∈ s.head?, Conv.x.continues c = false)
    (hne : l ≠ []) : hexPrefix (l ++ s) = l ++ s := by
  unfold hexPrefix
  split
  · next heq => exact absurd heq (second_ne hl hs hne ⟨rfl, rfl⟩)
  · next heq => exact absurd heq (second_ne hl hs hne ⟨rfl, rfl⟩)
  · rfl

theorem decimal_read (k n : ℕ) (hs : ∀ c ∈ s.head?, isDigit c = false) :
    (List.replicate k 48 ++ numeral 10 n ++ s).head?.any isDigit = true ∧
      readDigits 0 ((List.replicate k 48 ++ numeral 10 n ++ s).takeWhile isDigit) = n ∧
      (List.replicate k 48 ++ numeral 10 n ++ s).dropWhile isDigit = s := by
  have hdigits : ∀ c ∈ List.replicate k 48 ++ numeral 10 n, isDigit c := by
    intro c hc
    rcases List.mem_append.mp hc with hc | hc
    · rw [List.eq_of_mem_replicate hc]
      rfl
    · exact isDigit_of_mem hc
  obtain ⟨htake, hdrop⟩ := span_append hdigits hs
  refine ⟨?_, by rw [htake, readDigits_zeros, readDigits_numeral], hdrop⟩
  have hne : List.replicate k 48 ++ numeral 10 n ≠ [] :=
    List.append_ne_nil_of_right_ne_nil _ (numeral_ne_nil 10 n)
  obtain ⟨c, l, hl⟩ := List.exists_cons_of_ne_nil hne
  rw [hl] at hdigits ⊢
  exact hdigits c List.mem_cons_self

theorem scanConvert_field {t : List UInt8} (f : Field) (consumed : ℕ)
    (hs : ∀ c ∈ s.head?, f.conv.continues c = false)
    (ht : t.dropWhile isSpace = (f.std ++ s).dropWhile isSpace) :
    scanConvert false f.conv.letter consumed t = some (s, 1, (Directive.conv f).values) := by
  obtain ⟨k, hdrop⟩ := f.dropWhile_std s
  rw [hdrop] at ht
  obtain ⟨conv, zero, width, slot⟩ := f
  have hint := vaInt_bounds slot
  have huint := vaUint_lt slot
  cases conv with
  | d =>
    obtain ⟨hhead, hread, hrest⟩ := decimal_read k (vaInt slot).natAbs hs
    have hsign := scanSign_field ⟨.d, zero, width, slot⟩ hhead
    have hval : (if vaInt slot < 0 then -1 else 1) * ((vaInt slot).natAbs : ℤ) = vaInt slot := by
      split <;> omega
    have hbmod : (vaInt slot).bmod (2 ^ 32) = vaInt slot := Int.bmod_eq_of_le (by omega) (by omega)
    rw [scanConvert, if_pos (.inl rfl), ht]
    simp only [Field.digits, hsign, hhead, hread, hrest, true_and, hval, hbmod, if_true]
    rfl
  | u =>
    obtain ⟨hhead, hread, hrest⟩ := decimal_read k (vaUint slot) hs
    have hsign : (⟨.u, zero, width, slot⟩ : Field).sign = [] := rfl
    change scanConvert false 117 consumed t = _
    rw [scanConvert, if_neg (by decide), if_pos rfl, ht, hsign, List.nil_append]
    simp only [Field.digits, hhead, hread, hrest, Nat.mod_eq_of_lt huint, if_true]
    rfl
  | x =>
    have hsign : (⟨.x, zero, width, slot⟩ : Field).sign = [] := rfl
    have hhex : ∀ c ∈ List.replicate k 48 ++ numeral 16 (vaUint slot), isHexDigit c := by
      intro c hc
      rcases List.mem_append.mp hc with hc | hc
      · rw [List.eq_of_mem_replicate hc]
        rfl
      · exact isHexDigit_of_mem hc
    have hnext : ∀ c ∈ s.head?, isHexDigit c = false := by
      intro c hc
      have := hs c hc
      simp only [Conv.continues, Bool.or_eq_false_iff] at this
      exact this.1.1
    have hne : List.replicate k 48 ++ numeral 16 (vaUint slot) ≠ [] :=
      List.append_ne_nil_of_right_ne_nil _ (numeral_ne_nil _ _)
    obtain ⟨htake, hrest⟩ := span_append hhex hnext
    change scanConvert false 120 consumed t = _
    rw [scanConvert, if_neg (by decide), if_neg (by decide), if_pos (.inl rfl), ht, hsign, List.nil_append]
    simp only [Field.digits]
    rw [hexPrefix_eq hhex hs hne, htake, hrest, readHex_numeral, Nat.mod_eq_of_lt huint]
    rfl

theorem scanSpec_text (f : Field) (fmt : List UInt8) :
    scanSpec (f.text.tail ++ fmt) = (false, f.conv.letter :: fmt) := by
  have hletter : ∀ c ∈ (f.conv.letter :: fmt).head?, isDigit c = false := by
    rintro _ ⟨⟩
    cases f.conv <;> rfl
  have htext : f.text.tail ++ fmt =
      (if f.zero then [48] else []) ++ f.widthText ++ f.conv.letter :: fmt := by
    simp [Field.text]
  rw [scanSpec, htext, (span_append f.flags_digits hletter).2]
  cases f.conv <;> rfl

end Fields

section Scan

variable {fuel : ℕ} {s : List UInt8} {ds : List Directive}

theorem values_of_spaces (h : ∀ c ∈ std ds, isSpace c) : values ds = [] := by
  induction ds with
  | nil => rfl
  | cons d ds ih =>
    rw [std_cons] at h
    cases d with
    | lit c hc => exact ih fun b hb => h b (List.mem_append_right _ hb)
    | conv f =>
      obtain ⟨a, l, hdigits⟩ := List.exists_cons_of_length_pos f.digits_length_pos
      have hmem : a ∈ f.digits := by
        rw [hdigits]
        exact List.mem_cons_self
      obtain ⟨j, k, hstd⟩ := f.std_shape
      have hstd' : a ∈ (Directive.conv f).std := by
        rw [Directive.std, hstd]
        simp [hmem]
      have hspace := h a (List.mem_append_left _ hstd')
      rw [isSpace_hex (f.digits_hex a hmem)] at hspace
      contradiction

/-- Spaces that the format has skipped before may be missing. -/
theorem scanLoop_std (total : ℕ) (hsep : Separated ds) (hfuel : (text ds).length < fuel)
    (hs : s = std ds ∨ s = (std ds).dropWhile isSpace) :
    scanLoop total fuel (text ds) s = ((values ds).length, values ds) := by
  obtain ⟨fuel, rfl⟩ := Nat.exists_eq_succ_of_ne_zero (Nat.ne_zero_of_lt hfuel)
  induction ds generalizing fuel s with
  | nil => rfl
  | cons d ds ih =>
    have hdrop : s.dropWhile isSpace = (d.std ++ std ds).dropWhile isSpace := by
      rcases hs with rfl | rfl
      · rfl
      · exact List.dropWhile_idempotent _ _
    cases d with
    | lit c hc =>
      have hfuel' : (text ds).length < fuel := Nat.lt_of_succ_lt_succ hfuel
      obtain ⟨fuel, rfl⟩ := Nat.exists_eq_succ_of_ne_zero (Nat.ne_zero_of_lt hfuel')
      change scanLoop total _ (c :: text ds) s = ((values ds).length, values ds)
      by_cases hspace : isSpace c
      · have hrest : ([c] ++ std ds).dropWhile isSpace = (std ds).dropWhile isSpace :=
          List.dropWhile_cons_of_pos hspace
        rw [Directive.std, hrest] at hdrop
        cases s with
        | nil =>
          rw [values_of_spaces (List.dropWhile_eq_nil_iff.mp hdrop.symm)]
          rfl
        | cons b s =>
          rw [scanLoop, if_pos hspace]
          exact ih hsep (.inr hdrop) fuel hfuel'
      · have hrest : ([c] ++ std ds).dropWhile isSpace = c :: std ds := List.dropWhile_cons_of_neg hspace
        obtain rfl : s = c :: std ds := by
          rcases hs with rfl | rfl
          · rfl
          · exact hrest
        rw [scanLoop, if_neg hspace, if_pos hc.2, if_pos rfl]
        exact ih hsep (.inl rfl) fuel hfuel'
    | conv f =>
      obtain ⟨k, hskip⟩ := f.dropWhile_std (std ds)
      obtain ⟨b, s, rfl⟩ : ∃ b s', s = b :: s' := by
        refine List.exists_cons_of_ne_nil ?_
        rintro rfl
        have hlen := congrArg List.length (hdrop.trans hskip)
        have hpos := f.digits_length_pos
        simp only [List.dropWhile_nil, List.length_nil, List.length_append] at hlen
        omega
      have hlen : (text ds).length < fuel := by
        have htext : (f.text ++ text ds).length < fuel + 1 := hfuel
        rw [List.length_append, Field.text, List.length_cons] at htext
        omega
      obtain ⟨fuel, rfl⟩ := Nat.exists_eq_succ_of_ne_zero (Nat.ne_zero_of_lt hlen)
      change scanLoop total _ (37 :: (f.text.tail ++ text ds)) (b :: s) = _
      rw [scanLoop, if_neg (by decide), if_neg (by decide), scanSpec_text]
      dsimp only
      rw [scanConvert_field f _ hsep.1 hdrop]
      dsimp only
      rw [ih hsep.2 (.inl rfl) fuel hlen]
      exact congrArg₂ Prod.mk (Nat.add_comm _ _) rfl

theorem vsscanf_std (h : Separated ds) : vsscanf (std ds) (text ds) = ((values ds).length, values ds) :=
  scanLoop_std _ h (Nat.lt_succ_self _) (.inl rfl)

end Scan

end GcAos.Fmt
