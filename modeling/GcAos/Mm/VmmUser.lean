import GcAos.Mm.VmmTree

/-! The address spaces of `kernel/mm/vmm.c`: their page directories, and the pages mapped in them. -/

namespace GcAos.Mm
open Lib

def userVmaEnd : ℕ := 0x0000800000000000
def mmPoolSize : ℕ := 64

def ptePage : ℕ := 1 <<< 1

/-- The page tables, with the `pgd` of every `mm_struct` taken from the pool so far. -/
structure UserVmm where
  vmm : Vmm
  mmPool : List ℕ

def copyUpper (mem : ℕ → ℕ) (source pgd : ℕ) : ℕ → ℕ :=
  ((List.finRange vmmEntries).filter fun i => vmmEntries / 2 ≤ i.val).foldl
    (fun m i => Function.update m (pteAddr pgd i) (m (pteAddr source i))) mem

def userPteFlags (flags : ℕ) : ℕ :=
  let pteFlags := pteValid ||| ptePage ||| pteUser ||| pteAttrNormal ||| pteShInner ||| pteAccessed
  let pteFlags := if flags &&& vmWrite = 0 then pteFlags ||| pteRdonly else pteFlags
  let pteFlags := if flags &&& vmExec = 0 then pteFlags ||| pteUxn else pteFlags
  pteFlags ||| ptePxn

section
variable (k : KernelImage)

/-- The upper half of `kernel_pgd` is copied to a new directory. -/
def copyKernelMappings (s : Vmm) (pgd : ℕ) : Vmm := { s with mem := copyUpper s.mem k.kernelPgd pgd }

/-- `vmm_create_address_space`: the number of the `mm_struct`, or `none` for the null pointer. -/
def vmmCreateAddressSpace (u : UserVmm) : Option ℕ × UserVmm :=
  if mmPoolSize ≤ u.mmPool.length then (none, u)
  else
    let (pgd, s) := allocPageTable k u.vmm
    if pgd = 0 then (none, ⟨s, u.mmPool ++ [0]⟩)
    else
      (some u.mmPool.length, ⟨copyKernelMappings k s pgd, u.mmPool ++ [pgd]⟩)

/-- One of the steps `Walk/create` of `vmm_map_user_page`; `none` if there is no frame for a table. -/
def nextTable (s : Vmm) (table : ℕ) (idx : Fin vmmEntries) : Option ℕ × Vmm :=
  if !pteIsValid (s.pte table idx) then
    let (newTable, s) := allocPageTable k s
    if newTable = 0 then (none, s)
    else
      let s := s.setPte table idx (physToPte newTable (pteValid ||| pteTable))
      (some (pteToPhys (s.pte table idx)), s)
  else (some (pteToPhys (s.pte table idx)), s)

def userTable (vaddr : ℕ) : List (Fin 4) → ℕ → Vmm → Option ℕ × Vmm
  | [], table, s => (some table, s)
  | level :: levels, table, s =>
    match nextTable k s table (pteIndex vaddr level) with
    | (none, s) => (none, s)
    | (some next, s) => userTable vaddr levels next s

/-- The entries below the directory `pgd`. -/
def mapUserPage (s : Vmm) (pgd vaddr paddr flags : ℕ) : ℤ × Vmm :=
  match userTable k vaddr [0, 1, 2] pgd s with
  | (none, s) => (-1, s)
  | (some l3, s) => (0, s.setPte l3 (pteIndex vaddr 3) (physToPte paddr (userPteFlags flags)))

def vmmMapUserPage (u : UserVmm) (mm : Option ℕ) (vaddr paddr flags : ℕ) : ℤ × UserVmm :=
  match mm.bind (u.mmPool[·]?) with
  | none => (-1, u)
  | some pgd =>
    if pgd = 0 then (-1, u)
    else if userVmaEnd ≤ vaddr then (-1, u)
    else
      let (ret, s) := mapUserPage k u.vmm pgd vaddr paddr flags
      (ret, ⟨s, u.mmPool⟩)

inductive UserCall
  | createAddressSpace
  | mapUserPage (mm : Option ℕ) (vaddr paddr flags : ℕ)

def UserStep (u : UserVmm) (c : UserCall) (u' : UserVmm) : Prop :=
  match c with
  | .createAddressSpace => (vmmCreateAddressSpace k u).2 = u'
  | .mapUserPage mm vaddr paddr flags => (vmmMapUserPage k u mm vaddr paddr flags).2 = u'

end

/-- The walk of the processor through the levels that are left: a block entry or a page ends it. -/
def translateLevels (s : Vmm) (vaddr : ℕ) : List (Fin 4) → ℕ → Option ℕ
  | [], _ => none
  | level :: levels, table =>
    let pte := s.pte table (pteIndex vaddr level)
    let size := 2 ^ vmmLevelShift level
    if !pteIsValid pte then none
    else if level = 3 then some (pteToPhys pte + vaddr % size)
    else if pteIsTable pte then translateLevels s vaddr levels (pteToPhys pte)
    else if level = 0 then none
    else some (pteToPhys pte / size * size + vaddr % size)

/-- The physical address of `vaddr` in the address space of the directory `pgd`. -/
def translate (s : Vmm) (pgd vaddr : ℕ) : Option ℕ := translateLevels s vaddr [0, 1, 2, 3] pgd

end GcAos.Mm
