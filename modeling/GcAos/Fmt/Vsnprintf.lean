import GcAos.Fmt.Directive
import GcAos.Lib.Bytes

/-! `kvsnprintf` in `kernel/core/printk.c` and `vsnprintf` in `libc/src/stdio.c`, which read formats in the
same way and print numbers each in its own. -/

namespace GcAos.Fmt
open Lib

/-- Flags, width and length modifiers of a conversion; 1 for `l` and `z`, 2 for `ll`. -/
structure Spec where
  zeroPad : Bool
  width : ℤ
  longs : ℕ

structure Output where
  out : List UInt8
  args : List UInt64

/-- `width * 10 + (*fmt - '0')` as an `int`. -/
def widthStep (width : ℤ) (c : UInt8) : ℤ := (width * 10 + (c.toNat - 48)).bmod (2 ^ 32)

def parseSpec (fmt : List UInt8) : Spec × List UInt8 :=
  let zeroPad := fmt.head? = some 48
  let fmt := fmt.dropWhile (· == 48)
  let width := (fmt.takeWhile isDigit).foldl widthStep 0
  match fmt.dropWhile isDigit with
  | 108 :: 108 :: fmt => (⟨zeroPad, width, 2⟩, fmt)
  | 108 :: fmt => (⟨zeroPad, width, 1⟩, fmt)
  | 122 :: fmt => (⟨zeroPad, width, 1⟩, fmt)
  | fmt => (⟨zeroPad, width, 0⟩, fmt)

/-- The loop over the format. Where the format ends after `%` its null byte is taken for the conversion, and
the loop goes on behind it; there the result is `none`. -/
def formatLoop (cap : ℕ) (convert : Spec → UInt8 → Output → Output) : ℕ → List UInt8 → Output → Option Output
  | 0, _, _ => none
  | _ + 1, [], o => some o
  | fuel + 1, c :: fmt, o =>
    if cap ≤ o.out.length then some o
    else if c ≠ 37 then formatLoop cap convert fuel fmt { o with out := o.out ++ [c] }
    else
      match parseSpec fmt with
      | (_, []) => none
      | (s, letter :: fmt) => formatLoop cap convert fuel fmt (convert s letter o)

/-- `if (p < end) *p++ = c` -/
def putc (cap : ℕ) (out : List UInt8) (c : UInt8) : List UInt8 :=
  if out.length < cap then out ++ [c] else out

def puts (cap : ℕ) (out l : List UInt8) : List UInt8 := l.foldl (putc cap) out

/-- The string at `str`, while there is room. -/
def putString (m : Bytes) : ℕ → ℕ → List UInt8 → List UInt8
  | 0, _, out => out
  | room + 1, str, out => if m str = 0 then out else putString m room (str + 1) (out ++ [m str])

/-- The text of `%s`; "(null)" for a null pointer. -/
def putStr (m : Bytes) (cap : ℕ) (slot : UInt64) (out : List UInt8) : List UInt8 :=
  if slot = 0 then puts cap out [40, 110, 117, 108, 108, 41]
  else putString m (cap - out.length) slot.toNat out

def digitOf (uppercase : Bool) (d : ℕ) : UInt8 :=
  if uppercase ∧ 10 ≤ d then UInt8.ofNat (55 + d) else digitChar d

def itoa (val : ℤ) (base : ℕ) (isSigned uppercase : Bool) : List UInt8 :=
  let negative := isSigned ∧ val < 0
  let uval := ((if negative then -val else val) % 2 ^ 64).toNat
  let buf := if uval = 0 then [48] else digitLoop (digitOf uppercase) base 64 uval
  (buf ++ if negative then [45] else []).reverse

/-- `val` is passed on as a `long long`. -/
def utoa (val base : ℕ) (uppercase : Bool) : List UInt8 := itoa (Int.bmod val (2 ^ 64)) base false uppercase

/-- Padding before the characters of `numbuf`, whatever these are. -/
def putPadded (cap : ℕ) (s : Spec) (numbuf out : List UInt8) : List UInt8 :=
  puts cap
    (puts cap out (List.replicate (s.width - numbuf.length).toNat (if s.zeroPad then 48 else 32))) numbuf

/-- The switch of `kvsnprintf`. -/
def kvConvert (m : Bytes) (cap : ℕ) (s : Spec) (letter : UInt8) (o : Output) : Output :=
  let slot := o.args.headD 0
  let args := o.args.tail
  if letter = 100 ∨ letter = 105 then
    ⟨putPadded cap s (itoa (if s.longs = 0 then vaInt slot else vaLong slot) 10 true false) o.out, args⟩
  else if letter = 117 then
    ⟨putPadded cap s (utoa (if s.longs = 0 then vaUint slot else vaUlong slot) 10 false) o.out, args⟩
  else if letter = 120 ∨ letter = 88 then
    ⟨putPadded cap s (utoa (if s.longs = 0 then vaUint slot else vaUlong slot) 16 (letter = 88)) o.out, args⟩
  else if letter = 112 then
    let numbuf := utoa (vaUlong slot) 16 false
    ⟨puts cap (puts cap (puts cap o.out [48, 120]) (List.replicate (16 - numbuf.length) 48)) numbuf, args⟩
  else if letter = 115 then ⟨putStr m cap slot o.out, args⟩
  else if letter = 99 then ⟨putc cap o.out (UInt8.ofNat slot.toNat), args⟩
  else if letter = 37 then ⟨putc cap o.out 37, o.args⟩
  else ⟨puts cap o.out [37, letter], o.args⟩

/-- The characters before the null byte, and their number. With a size of 0 `end` is before the buffer, and
nothing is written but the null byte. -/
def kvsnprintf (m : Bytes) (size : ℕ) (fmt : List UInt8) (args : List UInt64) : Option (ℤ × List UInt8) :=
  (formatLoop (size - 1) (kvConvert m (size - 1)) (fmt.length + 1) fmt ⟨[], args⟩).map fun o =>
    ((BitVec.ofNat 32 o.out.length).toInt, o.out)

/-- The loops of `vsnprintf` that divide at least once. -/
def doDigits (digit : ℤ → UInt8) (base : ℤ) : ℕ → ℤ → List UInt8
  | 0, _ => []
  | fuel + 1, val =>
    digit (val.tmod base) :: if 0 < val.tdiv base then doDigits digit base fuel (val.tdiv base) else []

/-- Its loops that pad, with the places that are left in the buffer: `i` is changed only before a negative
number, and then away from `width`. -/
def padLoop (pad : UInt8) (neg : Bool) (width : ℤ) : ℕ → ℤ → List UInt8 → ℤ × List UInt8
  | 0, i, out => (i, out)
  | room + 1, i, out =>
    if i < width then
      if neg then padLoop pad neg width room (i - 1) (out ++ [if i - 1 = 0 then 45 else pad])
      else padLoop pad neg width room i (out ++ [pad])
    else (i, out)

/-- The first `i` characters of `numbuf`, the last one first. -/
def putReversed (cap : ℕ) (numbuf : List UInt8) (r : ℤ × List UInt8) : List UInt8 :=
  puts cap r.2 (numbuf.take r.1.toNat).reverse

def decDigit (d : ℤ) : UInt8 := UInt8.ofNat (48 + d).toNat

def signedDigits (val : ℤ) : List UInt8 :=
  doDigits decDigit 10 64 (if val < 0 then (-val).bmod (2 ^ 64) else val) ++ if val < 0 then [45] else []

def putSigned (cap : ℕ) (s : Spec) (val : ℤ) (out : List UInt8) : List UInt8 :=
  let numbuf := signedDigits val
  putReversed cap numbuf
    (if s.zeroPad then padLoop 48 (val < 0) s.width (cap - out.length) numbuf.length out
      else (numbuf.length, out))

def putUnsigned (cap : ℕ) (s : Spec) (digit : ℤ → UInt8) (base : ℤ) (val : ℕ) (out : List UInt8) :
    List UInt8 :=
  let numbuf := doDigits digit base 64 val
  putReversed cap numbuf
    (padLoop (if s.zeroPad then 48 else 32) false s.width (cap - out.length) numbuf.length out)

/-- The switch of `vsnprintf`. -/
def vsConvert (m : Bytes) (cap : ℕ) (s : Spec) (letter : UInt8) (o : Output) : Output :=
  let slot := o.args.headD 0
  let args := o.args.tail
  if letter = 100 ∨ letter = 105 then
    ⟨putSigned cap s (if s.longs = 0 then vaInt slot else vaLong slot) o.out, args⟩
  else if letter = 117 then
    ⟨putUnsigned cap s decDigit 10 (if s.longs = 0 then vaUint slot else vaUlong slot) o.out, args⟩
  else if letter = 120 ∨ letter = 88 then
    ⟨putUnsigned cap s (fun d => digitOf (letter = 88) d.toNat) 16
      (if s.longs = 0 then vaUint slot else vaUlong slot) o.out, args⟩
  else if letter = 112 then
    let digit (j : ℕ) := digitOf false (vaUlong slot / 16 ^ j % 16)
    ⟨puts cap (puts cap o.out [48, 120]) ((List.range 16).map digit).reverse, args⟩
  else if letter = 115 then ⟨putStr m cap slot o.out, args⟩
  else if letter = 99 then ⟨putc cap o.out (UInt8.ofNat slot.toNat), args⟩
  else if letter = 37 then ⟨putc cap o.out 37, o.args⟩
  else ⟨puts cap o.out [37, letter], o.args⟩

/-- The characters before the null byte, and their number. -/
def vsnprintf (m : Bytes) (size : ℕ) (fmt : List UInt8) (args : List UInt64) : Option (ℤ × List UInt8) :=
  (formatLoop (size - 1) (vsConvert m (size - 1)) (fmt.length + 1) fmt ⟨[], args⟩).map fun o =>
    ((BitVec.ofNat 32 o.out.length).toInt, o.out)

section Parse

variable {v : ℕ} {l fmt : List UInt8} {c : UInt8} {f : Field}

theorem le_readDigits (v : ℕ) (l : List UInt8) : v ≤ readDigits v l := by
  induction l generalizing v with
  | nil => exact le_rfl
  | cons c l ih =>
    have := ih (v * 10 + (c.toNat - 48))
    exact le_trans (by omega) this

theorem foldl_widthStep (hl : ∀ c ∈ l, isDigit c) (h : readDigits v l < 2 ^ 31) :
    l.foldl widthStep (v : ℤ) = readDigits v l := by
  induction l generalizing v with
  | nil => rfl
  | cons c l ih =>
    obtain ⟨hc, hl⟩ := List.forall_mem_cons.mp hl
    have hdigit := isDigit_iff.mp hc
    have hle := le_readDigits (v * 10 + (c.toNat - 48)) l
    have hlt : readDigits (v * 10 + (c.toNat - 48)) l < 2 ^ 31 := h
    have hstep : widthStep v c = ((v * 10 + (c.toNat - 48) : ℕ) : ℤ) := by
      rw [widthStep, Int.bmod_eq_of_le (by omega) (by omega)]
      omega
    rw [List.foldl_cons, hstep]
    exact ih hl hlt

theorem Conv.letter_facts (k : Conv) : isDigit k.letter = false ∧ k.letter ≠ 48 ∧ k.letter ≠ 108 ∧
    k.letter ≠ 122 ∧ k.letter ≠ 37 := by
  cases k <;> decide

theorem Field.widthText_number (f : Field) :
    readDigits 0 f.widthText = f.width ∧ f.widthText.head? ≠ some 48 := by
  unfold widthText
  split
  · next hzero => exact ⟨hzero.symm, by simp⟩
  · next hne =>
    refine ⟨readDigits_numeral _, fun h => ?_⟩
    exact hne ((head_numeral (by decide) (by decide)).mp h)

theorem parseSpec_text (f : Field) (fmt : List UInt8) (hwidth : f.width < 2 ^ 31) :
    parseSpec ((if f.zero then [48] else []) ++ (f.widthText ++ f.conv.letter :: fmt)) =
      (⟨f.zero, f.width, 0⟩, f.conv.letter :: fmt) := by
  obtain ⟨hdigit, hzero, hl, hz, -⟩ := f.conv.letter_facts
  have hwidths := f.widthText_digits
  obtain ⟨hread, hhead⟩ := f.widthText_number
  have hhead' : (f.widthText ++ f.conv.letter :: fmt).head? ≠ some 48 := by
    rw [List.head?_append]
    cases hw : f.widthText.head? with
    | none => simpa using hzero
    | some c => simpa [hw] using hhead
  have hflag : ((if f.zero then [48] else []) ++ (f.widthText ++ f.conv.letter :: fmt)).head? = some 48 ↔
      f.zero = true := by
    cases f.zero with
    | false => simpa using hhead'
    | true => simp
  have hdrop : ((if f.zero then [48] else []) ++ (f.widthText ++ f.conv.letter :: fmt)).dropWhile (· == 48) =
      f.widthText ++ f.conv.letter :: fmt := by
    cases f.zero with
    | false => exact List.dropWhile_beq_eq_self_of_head?_ne hhead'
    | true => exact List.dropWhile_beq_eq_self_of_head?_ne hhead'
  have hletter : ∀ c ∈ (f.conv.letter :: fmt).head?, isDigit c = false := by
    rintro _ ⟨⟩
    exact hdigit
  obtain ⟨htake, hrest⟩ := span_append hwidths hletter
  have hfold : f.widthText.foldl widthStep 0 = (f.width : ℤ) := by
    have := foldl_widthStep hwidths (v := 0) (by rw [hread]; exact hwidth)
    rwa [hread] at this
  unfold parseSpec
  dsimp only
  rw [hdrop, htake, hrest, hfold]
  simp only [hflag, Bool.decide_eq_true]
  split
  · next heq => exact absurd (List.cons.inj heq).1 hl
  · next heq => exact absurd (List.cons.inj heq).1 hl
  · next heq => exact absurd (List.cons.inj heq).1 hz
  · rfl

theorem parseSpec_length (fmt : List UInt8) : (parseSpec fmt).2.length ≤ fmt.length := by
  have h₁ := (List.dropWhile_suffix (l := fmt) (· == 48)).length_le
  have h₂ := (List.dropWhile_suffix (l := fmt.dropWhile (· == 48)) isDigit).length_le
  unfold parseSpec
  dsimp only
  split <;> rename_i heq <;> simp only [heq, List.length_cons] at h₂ ⊢ <;> omega

end Parse

section Loop

variable {cap fuel : ℕ} {convert : Spec → UInt8 → Output → Output} {c : UInt8} {l fmt out : List UInt8}
  {o : Output} {f : Field}

theorem formatLoop_fuel (h : fmt.length < fuel) :
    formatLoop cap convert fuel fmt o = formatLoop cap convert (fmt.length + 1) fmt o := by
  induction fuel using Nat.strongRecOn generalizing fmt o with
  | ind fuel ih =>
    obtain ⟨fuel, rfl⟩ := Nat.exists_eq_succ_of_ne_zero (Nat.ne_zero_of_lt h)
    cases fmt with
    | nil => rfl
    | cons c fmt =>
      rw [List.length_cons] at h ⊢
      have hsame (fmt' : List UInt8) (o' : Output) (hlt : fmt'.length ≤ fmt.length) :
          formatLoop cap convert fuel fmt' o' = formatLoop cap convert (fmt.length + 1) fmt' o' := by
        rw [ih fuel (by omega) (by omega)]
        by_cases heq : fmt.length + 1 = fuel
        · rw [heq, ih fuel (by omega) (by omega)]
        · rw [ih (fmt.length + 1) (by omega) (by omega)]
      unfold formatLoop
      split
      · rfl
      · split
        · exact hsame fmt _ le_rfl
        · have hparse := parseSpec_length fmt
          split
          · rfl
          · next heq =>
            rw [heq, List.length_cons] at hparse
            exact hsame _ _ (by omega)

def runLoop (cap : ℕ) (convert : Spec → UInt8 → Output → Output) (fmt : List UInt8) (o : Output) :
    Option (List UInt8) :=
  (formatLoop cap convert (fmt.length + 1) fmt o).map Output.out

theorem runLoop_lit (hc : c ≠ 37) (hcap : o.out.length < cap) : runLoop cap convert (c :: fmt) o =
    runLoop cap convert fmt { o with out := o.out ++ [c] } := by
  unfold runLoop
  conv_lhs => unfold formatLoop
  rw [if_neg (not_le.mpr hcap), if_pos hc]
  rfl

theorem runLoop_field (hwidth : f.width < 2 ^ 31) (hcap : o.out.length < cap) :
    runLoop cap convert (f.text ++ fmt) o =
      runLoop cap convert fmt (convert ⟨f.zero, f.width, 0⟩ f.conv.letter o) := by
  have htext : f.text ++ fmt =
      37 :: ((if f.zero then [48] else []) ++ (f.widthText ++ f.conv.letter :: fmt)) := by
    simp [Field.text]
  have hparse := parseSpec_text f fmt hwidth
  have hlen := parseSpec_length ((if f.zero then [48] else []) ++ (f.widthText ++ f.conv.letter :: fmt))
  rw [hparse, List.length_cons] at hlen
  rw [htext]
  unfold runLoop
  conv_lhs => unfold formatLoop
  rw [if_neg (not_le.mpr hcap), if_neg (by decide), hparse]
  dsimp only
  rw [formatLoop_fuel]
  rw [List.length_cons]
  omega

theorem puts_of_le (h : out.length + l.length ≤ cap) : puts cap out l = out ++ l := by
  unfold puts
  induction l generalizing out with
  | nil => exact (List.append_nil out).symm
  | cons c l ih =>
    rw [List.length_cons] at h
    rw [List.foldl_cons, putc, if_pos (by omega),
      ih (by rw [List.length_append, List.length_singleton]; omega), List.append_assoc]
    rfl

theorem puts_of_full (h : out.length = cap) : puts cap out l = out := by
  unfold puts
  induction l with
  | nil => rfl
  | cons c l ih =>
    rw [List.foldl_cons, putc, if_neg (by omega)]
    exact ih

end Loop

end GcAos.Fmt
