import GcAos.Lib.Bits
import GcAos.Lib.Exec
import GcAos.Lib.PathTree
import GcAos.Mm.Pmm

/-! The kernel page tables of `kernel/mm/vmm.c`: four levels of tables of 512 words, created on
demand, first out of the static pool and then out of frames of the page allocator. -/

namespace GcAos.Mm
open Lib

def vmmEntries : ℕ := 512
def earlyTablesCount : ℕ := 4

def pteValid : ℕ := 1 <<< 0
def pteTable : ℕ := 1 <<< 1
def pteUser : ℕ := 1 <<< 6
def pteRdonly : ℕ := 1 <<< 7
def pteAccessed : ℕ := 1 <<< 10
def pteAttrNormal : ℕ := 0 <<< 2
def pteAttrDevice : ℕ := 1 <<< 2
def pteShNone : ℕ := 0 <<< 8
def pteShInner : ℕ := 3 <<< 8
def pteUxn : ℕ := 1 <<< 54
def ptePxn : ℕ := 1 <<< 53
def pteAddrMask : ℕ := 0x0000FFFFFFFFF000

def vmWrite : ℕ := 1 <<< 1
def vmExec : ℕ := 1 <<< 2
def vmUser : ℕ := 1 <<< 3
def vmDevice : ℕ := 1 <<< 5

/-- Where the linker put `kernel_pgd` and `early_tables`. -/
structure KernelImage where
  kernelPgd : ℕ
  earlyTables : ℕ
  pgd_pos : 0 < kernelPgd
  pgd_aligned : pageSize ∣ kernelPgd
  early_pos : 0 < earlyTables
  early_aligned : pageSize ∣ earlyTables
  early_lt : earlyTables + earlyTablesCount * pageSize ≤ 2 ^ 48
  pgd_apart : kernelPgd < earlyTables ∨ earlyTables + earlyTablesCount * pageSize ≤ kernelPgd

structure Vmm where
  -- the 64-bit words of memory, by their byte address
  mem : ℕ → ℕ
  earlyTableIndex : ℕ
  -- what the next calls of `pmm_alloc_page` return, 0 when it fails
  pmm : List ℕ

scoped instance neZero_four : NeZero 4 := ⟨by decide⟩

def vmmLevelShift : Fin 4 → ℕ := ![39, 30, 21, 12]

def pteIndex (vaddr : ℕ) (level : Fin 4) : Fin vmmEntries :=
  ⟨(vaddr >>> vmmLevelShift level) &&& (vmmEntries - 1),
    Nat.and_lt_two_pow _ (show vmmEntries - 1 < 2 ^ 9 by decide)⟩

def pteIsValid (pte : ℕ) : Bool := pte &&& pteValid != 0

def pteIsTable (pte : ℕ) : Bool := pte &&& (pteValid ||| pteTable) == (pteValid ||| pteTable)

def pteToPhys (pte : ℕ) : ℕ := pte &&& pteAddrMask

def physToPte (paddr flags : ℕ) : ℕ := (paddr &&& pteAddrMask) ||| flags

def vmFlagsToPte (flags : ℕ) : ℕ :=
  let pteFlags := pteValid ||| pteTable ||| pteAccessed
  let pteFlags :=
    if flags &&& vmDevice ≠ 0 then pteFlags ||| (pteAttrDevice ||| pteShNone)
    else pteFlags ||| (pteAttrNormal ||| pteShInner)
  let pteFlags := if flags &&& vmUser ≠ 0 then pteFlags ||| pteUser else pteFlags
  let pteFlags := if flags &&& vmWrite = 0 then pteFlags ||| pteRdonly else pteFlags
  if flags &&& vmExec = 0 then
    if flags &&& vmUser ≠ 0 then pteFlags ||| pteUxn else pteFlags ||| ptePxn
  else pteFlags

def pteAddr (table : ℕ) (idx : Fin vmmEntries) : ℕ := table + 8 * idx

def clearTable (mem : ℕ → ℕ) (table : ℕ) : ℕ → ℕ :=
  (List.finRange vmmEntries).foldl (fun m i => Function.update m (pteAddr table i) 0) mem

namespace Vmm

def pte (s : Vmm) (table : ℕ) (idx : Fin vmmEntries) : ℕ := s.mem (pteAddr table idx)

def setPte (s : Vmm) (table : ℕ) (idx : Fin vmmEntries) (pte : ℕ) : Vmm :=
  { s with mem := Function.update s.mem (pteAddr table idx) pte }

def pmmAllocPage (s : Vmm) : ℕ × Vmm := (s.pmm.headD 0, { s with pmm := s.pmm.tail })

end Vmm

section
variable (k : KernelImage)

def earlyTable (i : ℕ) : ℕ := k.earlyTables + i * pageSize

def allocPageTable (s : Vmm) : ℕ × Vmm :=
  if s.earlyTableIndex < earlyTablesCount then
    let table := earlyTable k s.earlyTableIndex
    (table, { s with
      mem := clearTable s.mem table
      earlyTableIndex := s.earlyTableIndex + 1 })
  else
    let (paddr, s) := s.pmmAllocPage
    if paddr = 0 then (0, s) else (paddr, { s with mem := clearTable s.mem paddr })

/-- The loop of `walk_page_table` over the levels that are left. -/
def walkLevels (vaddr : ℕ) (allocate : Bool) : List (Fin 4) → ℕ → Vmm → ℕ × Vmm
  | [], table, s => (table, s)
  | level :: levels, table, s =>
    let idx := pteIndex vaddr level
    let pte := s.pte table idx
    if !pteIsValid pte then
      if !allocate then (0, s)
      else
        let (newTable, s) := allocPageTable k s
        if newTable = 0 then (0, s)
        else
          walkLevels vaddr allocate levels newTable
            (s.setPte table idx (physToPte newTable (pteValid ||| pteTable)))
    else if pteIsTable pte then walkLevels vaddr allocate levels (pteToPhys pte) s
    -- a block mapping ends the walk
    else (0, s)

def walkPageTable (s : Vmm) (pgd vaddr : ℕ) (allocate : Bool) : ℕ × Vmm :=
  walkLevels k vaddr allocate [0, 1, 2] pgd s

/-- The translation lookaside buffer is not part of the state: its flushes change no table. -/
def vmmMapPage (s : Vmm) (vaddr paddr flags : ℕ) : ℤ × Vmm :=
  let (pteTable, s) := walkPageTable k s k.kernelPgd vaddr true
  if pteTable = 0 then (-1, s)
  else
    let idx := pteIndex vaddr 3
    if pteIsValid (s.pte pteTable idx) then (-1, s)
    else (0, s.setPte pteTable idx (physToPte paddr (vmFlagsToPte flags)))

def vmmUnmapPage (s : Vmm) (vaddr : ℕ) : ℤ × Vmm :=
  let (pteTable, s) := walkPageTable k s k.kernelPgd vaddr false
  if pteTable = 0 then (-1, s)
  else
    let idx := pteIndex vaddr 3
    if !pteIsValid (s.pte pteTable idx) then (-1, s) else (0, s.setPte pteTable idx 0)

def vmmVirtToPhys (s : Vmm) (vaddr : ℕ) : ℕ :=
  let pteTable := (walkPageTable k s k.kernelPgd vaddr false).1
  if pteTable = 0 then 0
  else
    let pte := s.pte pteTable (pteIndex vaddr 3)
    if !pteIsValid pte then 0 else pteToPhys pte ||| (vaddr &&& (pageSize - 1))

end

end GcAos.Mm
