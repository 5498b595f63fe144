import GcAos.Lib.Bits
import GcAos.Lib.Numerals

/-! Format strings of literal characters and the conversions `%d`, `%u` and `%x`, with the output that the C
standard gives them, and formatters that give it or not. -/

namespace GcAos.Fmt
open Lib

/-! An argument list has a slot of 64 bits for each argument; an `int` takes the low half. -/

def vaInt (slot : UInt64) : ℤ := (BitVec.ofNat 32 slot.toNat).toInt
def vaUint (slot : UInt64) : ℕ := slot.toNat % 2 ^ 32
def vaLong (slot : UInt64) : ℤ := slot.toBitVec.toInt
def vaUlong (slot : UInt64) : ℕ := slot.toNat

inductive Conv
  | d | u | x
  deriving DecidableEq

def Conv.letter : Conv → UInt8
  | .d => 100
  | .u => 117
  | .x => 120

/-- A conversion with its argument; a width of 0 is none. -/
structure Field where
  conv : Conv
  zero : Bool
  width : ℕ
  slot : UInt64

namespace Field

def widthText (f : Field) : List UInt8 := if f.width = 0 then [] else numeral 10 f.width

def text (f : Field) : List UInt8 :=
  37 :: ((if f.zero then [48] else []) ++ (f.widthText ++ [f.conv.letter]))

def sign (f : Field) : List UInt8 := if f.conv = .d ∧ vaInt f.slot < 0 then [45] else []

def digits (f : Field) : List UInt8 :=
  match f.conv with
  | .d => numeral 10 (vaInt f.slot).natAbs
  | .u => numeral 10 (vaUint f.slot)
  | .x => numeral 16 (vaUint f.slot)

def fill (f : Field) : ℕ := f.width - (f.sign ++ f.digits).length

def std (f : Field) : List UInt8 :=
  if f.zero then f.sign ++ (List.replicate f.fill 48 ++ f.digits)
  else List.replicate f.fill 32 ++ (f.sign ++ f.digits)

end Field

inductive Directive
  | lit (c : UInt8) (hc : c ≠ 0 ∧ c ≠ 37)
  | conv (f : Field)

namespace Directive

def text : Directive → List UInt8
  | lit c _ => [c]
  | conv f => f.text

def std : Directive → List UInt8
  | lit c _ => [c]
  | conv f => f.std

def slots : Directive → List UInt64
  | lit _ _ => []
  | conv f => [f.slot]

end Directive

def text (ds : List Directive) : List UInt8 := ds.flatMap Directive.text

def std (ds : List Directive) : List UInt8 := ds.flatMap Directive.std

def slots (ds : List Directive) : List UInt64 := ds.flatMap Directive.slots

/-- The call of a formatter, from the size of the buffer, the format and the arguments to the result and the
characters before the null byte, prints the directives wherever there is room for them. -/
def Prints (call : ℕ → List UInt8 → List UInt64 → Option (ℤ × List UInt8)) (ds : List Directive) : Prop :=
  ∀ size, (std ds).length < size → call size (text ds) (slots ds) = some (((std ds).length : ℤ), std ds)

/-- A formatter is a loop over the format, of which `run` gives the characters written where there is room
for `cap`; it is `none` where the format is read beyond its end. The fields that are printed as the
standard says are `Good`. -/
structure Formatter where
  run : ℕ → List UInt8 → List UInt8 → List UInt64 → Option (List UInt8)
  Good : Field → Prop
  nil : ∀ cap out args, run cap [] out args = some out
  lit : ∀ cap c fmt out args, c ≠ 37 → out.length < cap →
    run cap (c :: fmt) out args = run cap fmt (out ++ [c]) args
  good : ∀ cap (f : Field) fmt out args, Good f → f.width < 2 ^ 31 → out.length + f.std.length ≤ cap →
    run cap (f.text ++ fmt) out (f.slot :: args) = run cap fmt (out ++ f.std) args
  bad : ∀ (f : Field) out, ¬Good f → f.width < 2 ^ 31 →
    ∃ cap, out.length + f.std.length ≤ cap ∧ run cap f.text out [f.slot] ≠ some (out ++ f.std)

/-- The number of characters is returned as an `int`. -/
def Formatter.print (F : Formatter) (size : ℕ) (fmt : List UInt8) (args : List UInt64) :
    Option (ℤ × List UInt8) :=
  (F.run (size - 1) fmt [] args).map fun out => ((BitVec.ofNat 32 out.length).toInt, out)

section Fields

variable {f : Field} {ds ds' : List Directive} {d : Directive}

theorem vaInt_bounds (slot : UInt64) : -2 ^ 31 ≤ vaInt slot ∧ vaInt slot < 2 ^ 31 := by
  have hlt := BitVec.two_mul_toInt_lt (x := BitVec.ofNat 32 slot.toNat)
  have hle := BitVec.le_two_mul_toInt (x := BitVec.ofNat 32 slot.toNat)
  unfold vaInt
  omega

theorem vaUint_lt (slot : UInt64) : vaUint slot < 2 ^ 32 := Nat.mod_lt _ (by decide)

theorem Field.widthText_digits (f : Field) : ∀ c ∈ f.widthText, isDigit c := by
  unfold widthText
  split
  · exact fun c hc => absurd hc List.not_mem_nil
  · exact fun c => isDigit_of_mem

theorem Field.flags_digits (f : Field) : ∀ c ∈ (if f.zero then [48] else []) ++ f.widthText, isDigit c := by
  intro c hc
  rcases List.mem_append.mp hc with hc | hc
  · split at hc
    · rw [List.mem_singleton.mp hc]
      rfl
    · exact absurd hc List.not_mem_nil
  · exact f.widthText_digits c hc

theorem Field.sign_cases (f : Field) : f.sign = [] ∨ f.sign = [45] := by
  unfold sign
  split
  · exact .inr rfl
  · exact .inl rfl

theorem Field.digits_length_pos (f : Field) : 0 < f.digits.length := by
  unfold digits
  cases f.conv <;> exact numeral_length_pos _ _

theorem Field.std_length (f : Field) : f.std.length = max f.width (f.sign ++ f.digits).length := by
  unfold std fill
  rw [List.length_append]
  split
  · rw [List.length_append, List.length_append, List.length_replicate]
    omega
  · rw [List.length_append, List.length_append, List.length_replicate]
    omega

theorem Field.std_length_pos (f : Field) : 0 < f.std.length := by
  have := f.digits_length_pos
  rw [f.std_length, List.length_append]
  omega

theorem Field.std_of_le (h : f.width ≤ (f.sign ++ f.digits).length) : f.std = f.sign ++ f.digits := by
  unfold std fill
  rw [Nat.sub_eq_zero_of_le h, List.replicate_zero, List.replicate_zero, List.nil_append, List.nil_append,
    ite_self]

@[simp] theorem text_cons : text (d :: ds) = d.text ++ text ds := rfl
@[simp] theorem std_cons : std (d :: ds) = d.std ++ std ds := rfl
@[simp] theorem slots_cons : slots (d :: ds) = d.slots ++ slots ds := rfl
@[simp] theorem text_append : text (ds ++ ds') = text ds ++ text ds' := List.flatMap_append
@[simp] theorem std_append : std (ds ++ ds') = std ds ++ std ds' := List.flatMap_append
@[simp] theorem slots_append : slots (ds ++ ds') = slots ds ++ slots ds' := List.flatMap_append

theorem width_le_std (h : .conv f ∈ ds) : f.width ≤ (std ds).length := by
  obtain ⟨ds₁, ds₂, rfl⟩ := List.append_of_mem h
  rw [std_append, std_cons, List.length_append, List.length_append]
  have hle : f.width ≤ (Directive.conv f).std.length := by
    rw [Directive.std, f.std_length]
    exact le_max_left _ _
  omega

end Fields

namespace Formatter

variable {F : Formatter} {ds : List Directive} {cap : ℕ} {fmt out : List UInt8} {args : List UInt64}

theorem run_good (hgood : ∀ f, .conv f ∈ ds → F.Good f) (hint : (std ds).length < 2 ^ 31)
    (hcap : out.length + (std ds).length ≤ cap) :
    F.run cap (text ds ++ fmt) out (slots ds ++ args) = F.run cap fmt (out ++ std ds) args := by
  induction ds generalizing out with
  | nil => rw [show out ++ std [] = out from List.append_nil _]; rfl
  | cons d ds ih =>
    have hds : ∀ f, .conv f ∈ ds → F.Good f := fun f hf => hgood f (List.mem_cons_of_mem _ hf)
    rw [std_cons, List.length_append] at hint hcap
    rw [text_cons, slots_cons, std_cons, List.append_assoc, List.append_assoc, ← List.append_assoc out]
    have hroom : (out ++ d.std).length + (std ds).length ≤ cap := by
      rw [List.length_append]
      omega
    rw [← ih hds (by omega) hroom]
    cases d with
    | lit c hc => exact F.lit cap c _ out _ hc.2 (by simp [Directive.std] at hcap; omega)
    | conv f =>
      have hstd : (Directive.conv f).std.length = f.std.length := rfl
      have hwidth : f.width < 2 ^ 31 := by
        have hle := f.std_length.ge
        omega
      exact F.good cap f _ out _ (hgood f List.mem_cons_self) hwidth (by omega)

theorem print_eq_iff {size : ℕ} {l : List UInt8} : F.print size fmt args = some ((l.length : ℤ), l) ↔
    F.run (size - 1) fmt [] args = some l ∧ l.length < 2 ^ 31 := by
  unfold print
  rw [Option.map_eq_some_iff]
  constructor
  · rintro ⟨out, hrun, heq⟩
    obtain ⟨hlen, rfl⟩ := Prod.mk.inj heq
    have hlt : 2 * (BitVec.ofNat 32 out.length).toInt < 2 ^ 32 := BitVec.two_mul_toInt_lt
    refine ⟨hrun, ?_⟩
    rw [hlen] at hlt
    omega
  · rintro ⟨hrun, hlt⟩
    refine ⟨l, hrun, Prod.ext ?_ rfl⟩
    exact toInt_ofNat (by omega)

theorem prints_iff (F : Formatter) (ds : List Directive) : (∀ ds', ds' <+: ds → Prints F.print ds') ↔
    (std ds).length < 2 ^ 31 ∧ ∀ f, .conv f ∈ ds → F.Good f := by
  constructor
  · intro h
    have hlen : (std ds).length < 2 ^ 31 :=
      (print_eq_iff.mp (h ds List.prefix_rfl _ (Nat.lt_succ_self _))).2
    refine ⟨hlen, ?_⟩
    induction ds using List.reverseRecOn with
    | nil => exact fun f hf => absurd hf List.not_mem_nil
    | append_singleton ds d ih =>
      have hstd : (std (ds ++ [d])).length = (std ds).length + d.std.length := by
        rw [std_append, std_cons, List.length_append]
        exact congrArg _ (congrArg List.length (List.append_nil _))
      have hgood := ih (fun ds' hds' => h ds' (hds'.trans (List.prefix_append _ _))) (by omega)
      intro f hf
      rcases List.mem_append.mp hf with hf | hf
      · exact hgood f hf
      · obtain rfl := List.mem_singleton.mp hf
        by_contra hbad
        have hwidth : f.width < 2 ^ 31 := (width_le_std (List.mem_append_right _ hf)).trans_lt hlen
        obtain ⟨cap, hcap, hrun⟩ := F.bad f (std ds) hbad hwidth
        have hstd' : (Directive.conv f).std.length = f.std.length := rfl
        have hprint := h _ List.prefix_rfl (cap + 1) (by omega)
        have hrun' := (print_eq_iff.mp hprint).1
        rw [Nat.add_sub_cancel, text_append, slots_append,
          run_good hgood (by omega) (by rw [List.length_nil]; omega)] at hrun'
        simp only [text_cons, slots_cons, std_append, std_cons] at hrun'
        exact hrun (by simpa [text, slots, std, Directive.text, Directive.slots, Directive.std] using hrun')
  · rintro ⟨hlen, hgood⟩ ds' hds' size hsize
    obtain ⟨ds'', rfl⟩ := hds'
    have hlen' : (std ds').length < 2 ^ 31 := by
      rw [std_append, List.length_append] at hlen
      omega
    refine print_eq_iff.mpr ⟨?_, hlen'⟩
    have hrun : F.run (size - 1) (text ds' ++ []) [] (slots ds' ++ []) = F.run (size - 1) [] (std ds') [] :=
      run_good (fun f hf => hgood f (List.mem_append_left _ hf)) hlen' (by rw [List.length_nil]; omega)
    rwa [List.append_nil, List.append_nil, F.nil] at hrun

end Formatter

end GcAos.Fmt
