import GcAos.Fmt.Kstring
import GcAos.Fmt.Vsscanf

/-! The three formatters on literal characters, `%d`, `%u` and `%x`. -/

namespace GcAos.Fmt
open Lib

/-- The standard output is printed, and `vsscanf` gets the arguments back from it with the same format, if no
numeral goes on in what follows it. -/
def PrintsBack (call : ℕ → List UInt8 → List UInt64 → Option (ℤ × List UInt8)) (ds : List Directive) : Prop :=
  Prints call ds ∧ (Separated ds → ∀ size, (std ds).length < size → ∃ n out,
    call size (text ds) (slots ds) = some (n, out) ∧ vsscanf out (text ds) = ((values ds).length, values ds))

variable {call : ℕ → List UInt8 → List UInt64 → Option (ℤ × List UInt8)} {ds : List Directive}

theorem printsBack_iff : PrintsBack call ds ↔ Prints call ds := by
  constructor
  · exact fun h => h.1
  · exact fun h => ⟨h, fun hsep size hsize => ⟨_, _, h size hsize, vsscanf_std hsep⟩⟩

theorem Formatter.printsBack_iff (F : Formatter) (ds : List Directive) :
    (∀ ds', ds' <+: ds → PrintsBack F.print ds') ↔
      (std ds).length < 2 ^ 31 ∧ ∀ f, .conv f ∈ ds → F.Good f := by
  rw [← F.prints_iff]
  exact forall₂_congr fun _ _ => Fmt.printsBack_iff

/-- Each formatter prints every beginning of a format as the standard says just when all fields are good ones.
Beginnings are asked for because two wrong fields can make up for each other. -/
theorem formatters_print_iff (m : Bytes) (ds : List Directive) :
    ((∀ ds', ds' <+: ds → PrintsBack (kvsnprintf m) ds') ↔
      (std ds).length < 2 ^ 31 ∧ ∀ f, .conv f ∈ ds → KvGood f) ∧
    ((∀ ds', ds' <+: ds → PrintsBack (snprintf m) ds') ↔
      (std ds).length < 2 ^ 31 ∧ ∀ f, .conv f ∈ ds → KsGood f) ∧
    ((∀ ds', ds' <+: ds → PrintsBack (vsnprintf m) ds') ↔
      (std ds).length < 2 ^ 31 ∧ ∀ f, .conv f ∈ ds → VsGood f) := by
  rw [kvsnprintf_eq, snprintf_eq, vsnprintf_eq]
  exact ⟨(kvFormatter m).printsBack_iff ds, (ksFormatter m).printsBack_iff ds,
    (vsFormatter m).printsBack_iff ds⟩

/-- `%1d%x` on 1 and 0xd0: `snprintf` copies `1d` and prints 1 as 0. -/
example : snprintf (fun _ => 0) 16 (text [.conv ⟨.d, false, 1, 1⟩, .conv ⟨.x, false, 0, 0xd0⟩]) [1, 0xd0] =
    some (3, std [.conv ⟨.d, false, 1, 1⟩, .conv ⟨.x, false, 0, 0xd0⟩]) := by
  decide

/-- `%04d` of -5 is `00-5` for `kvsnprintf`, `%d` of 12 is 21 for `snprintf`, and `vsnprintf` fills the buffer
for `%5u` of 1. -/
theorem formatters_slip :
    (kvsnprintf (fun _ => 0) 16 [37, 48, 52, 100] [4294967291] = some (4, [48, 48, 45, 53]) ∧
      ¬Prints (kvsnprintf fun _ => 0) [.conv ⟨.d, true, 4, 4294967291⟩]) ∧
    (snprintf (fun _ => 0) 16 [37, 100] [12] = some (2, [50, 49]) ∧
      ¬Prints (snprintf fun _ => 0) [.conv ⟨.d, false, 0, 12⟩]) ∧
    (vsnprintf (fun _ => 0) 16 [37, 53, 117] [1] = some (15, List.replicate 15 32) ∧
      ¬Prints (vsnprintf fun _ => 0) [.conv ⟨.u, false, 5, 1⟩]) := by
  refine ⟨⟨by decide, fun h => ?_⟩, ⟨by decide, fun h => ?_⟩, ⟨by decide, fun h => ?_⟩⟩
  · exact absurd (h 16 (by decide)) (by decide)
  · exact absurd (h 16 (by decide)) (by decide)
  · exact absurd (h 16 (by decide)) (by decide)

end GcAos.Fmt
