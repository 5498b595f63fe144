import GcAos.Lib.Bytes
import GcAos.Lib.Loop

/-! The ELF loader of `kernel/loader/elf.c`. The file and the memory it is loaded to lie in the same
64-bit address space, whose addresses wrap around; the loader keeps a log of what it reads through
its pointers to the file and of what it writes. -/

namespace GcAos.Loader
open Lib

inductive EhdrField
  | ident | type | machine | version | entry | phoff | shoff | flags | ehsize | phentsize | phnum
  | shentsize | shnum | shstrndx
  deriving DecidableEq

def elf64Ehdr : Layout EhdrField where
  off
    | .ident => 0
    | .type => 16
    | .machine => 18
    | .version => 20
    | .entry => 24
    | .phoff => 32
    | .shoff => 40
    | .flags => 48
    | .ehsize => 52
    | .phentsize => 54
    | .phnum => 56
    | .shentsize => 58
    | .shnum => 60
    | .shstrndx => 62
  len
    | .ident => 16
    | .type => 2
    | .machine => 2
    | .version => 4
    | .entry => 8
    | .phoff => 8
    | .shoff => 8
    | .flags => 4
    | .ehsize => 2
    | .phentsize => 2
    | .phnum => 2
    | .shentsize => 2
    | .shnum => 2
    | .shstrndx => 2
  size := 64

inductive PhdrField
  | type | flags | offset | vaddr | paddr | filesz | memsz | align
  deriving DecidableEq

def elf64Phdr : Layout PhdrField where
  off
    | .type => 0
    | .flags => 4
    | .offset => 8
    | .vaddr => 16
    | .paddr => 24
    | .filesz => 32
    | .memsz => 40
    | .align => 48
  len
    | .type => 4
    | .flags => 4
    | .offset => 8
    | .vaddr => 8
    | .paddr => 8
    | .filesz => 8
    | .memsz => 8
    | .align => 8
  size := 56

inductive DynField
  | tag | val
  deriving DecidableEq

def elf64Dyn : Layout DynField where
  off
    | .tag => 0
    | .val => 8
  len
    | .tag => 8
    | .val => 8
  size := 16

inductive RelaField
  | offset | info | addend
  deriving DecidableEq

def elf64Rela : Layout RelaField where
  off
    | .offset => 0
    | .info => 8
    | .addend => 16
  len
    | .offset => 8
    | .info => 8
    | .addend => 8
  size := 24

def ptLoad : ℕ := 1
def ptDynamic : ℕ := 2

def dtNull : ℕ := 0
def dtRela : ℕ := 7
def dtRelasz : ℕ := 8
def dtRelaent : ℕ := 9

def rAarch64Relative : ℕ := 0x403

def eiClass : ℕ := 4
def eiData : ℕ := 5
def elfclass64 : UInt8 := 2
def elfdata2lsb : UInt8 := 1
def emAarch64 : ℕ := 183
def etExec : ℕ := 2
def etDyn : ℕ := 3

/-- The bytes from `addr` on that are read or written at once. -/
structure Access where
  addr : ℕ
  len : ℕ
  deriving DecidableEq

/-- Every byte of the access lies in `[lo, hi)`. -/
def Access.Within (a : Access) (lo hi : ℕ) : Prop :=
  ∀ k < a.len, lo ≤ (a.addr + k) % 2 ^ 64 ∧ (a.addr + k) % 2 ^ 64 < hi

instance (a : Access) (lo hi : ℕ) : Decidable (a.Within lo hi) :=
  inferInstanceAs (Decidable (∀ k < a.len, lo ≤ (a.addr + k) % 2 ^ 64 ∧ (a.addr + k) % 2 ^ 64 < hi))

section Memory

variable {F : Type*} (L : Layout F) (mem : Bytes) (a : ℕ)

/-- The field `f` of the record at `a`. -/
@[irreducible] def field (f : F) : ℕ := L.get (fun k => mem ((a + k) % 2 ^ 64)) 0 f

def fieldAccess (f : F) : Access := ⟨(a + L.off f) % 2 ^ 64, L.len f⟩

def poke (n v : ℕ) : Bytes := fun b =>
  let k := (b + 2 ^ 64 - a) % 2 ^ 64
  if b < 2 ^ 64 ∧ k < n then UInt8.ofNat (v / 256 ^ k) else mem b

end Memory

def elfMemcpy : Bytes → ℕ → ℕ → ℕ → Bytes
  | mem, _, _, 0 => mem
  | mem, d, s, n + 1 => elfMemcpy (Function.update mem d (mem s)) ((d + 1) % 2 ^ 64) ((s + 1) % 2 ^ 64) n

def elfMemset : Bytes → ℕ → UInt8 → ℕ → Bytes
  | mem, _, _, 0 => mem
  | mem, p, c, n + 1 => elfMemset (Function.update mem p c) ((p + 1) % 2 ^ 64) c n

/-- The arguments of a call: the file, which is an object in memory and so has at most `PTRDIFF_MAX`
bytes, and the base address. -/
structure Call where
  data : ℕ
  size : ℕ
  loadBase : ℕ
  inside : data + size < 2 ^ 64
  size_lt : size < 2 ^ 63
  base_lt : loadBase < 2 ^ 64

def elfValidate (mem : Bytes) (data size : ℕ) : ℤ :=
  if size < elf64Ehdr.size then -1
  else
    let ident (k : ℕ) := mem ((data + k) % 2 ^ 64)
    if ident 0 ≠ 0x7F ∨ ident 1 ≠ 0x45 ∨ ident 2 ≠ 0x4C ∨ ident 3 ≠ 0x46 then -2
    else if ident eiClass ≠ elfclass64 then -3
    else if ident eiData ≠ elfdata2lsb then -4
    else if field elf64Ehdr mem data .machine ≠ emAarch64 then -5
    else if field elf64Ehdr mem data .type ≠ etExec ∧ field elf64Ehdr mem data .type ≠ etDyn then -6
    else 0

/-- A product of type `int` where an `uint64_t` is expected. -/
def signExtend (x : ℕ) : ℕ :=
  if x % 2 ^ 32 < 2 ^ 31 then x % 2 ^ 32 else x % 2 ^ 32 + (2 ^ 64 - 2 ^ 32)

namespace Call

variable (c : Call) (mem : Bytes)

def isPie : Bool := field elf64Ehdr mem c.data .type == etDyn

def phnum : ℕ := field elf64Ehdr mem c.data .phnum

/-- Where header `i` starts in the file: `e_phoff + i * e_phentsize`. -/
def phdrOffset (i : ℕ) : ℕ :=
  (field elf64Ehdr mem c.data .phoff + signExtend (i * field elf64Ehdr mem c.data .phentsize)) % 2 ^ 64

def phdr (i : ℕ) : ℕ := (c.data + c.phdrOffset mem i) % 2 ^ 64

end Call

/-! `elf_calc_size`. -/

structure CalcState where
  minAddr : ℕ
  maxAddr : ℕ
  reads : List Access

def calcHeader (c : Call) (mem : Bytes) (s : CalcState) (i : ℕ) : CalcState :=
  let phdr := c.phdr mem i
  let s := { s with reads := fieldAccess elf64Phdr phdr .type :: s.reads }
  if field elf64Phdr mem phdr .type ≠ ptLoad then s
  else
    let vaddr := field elf64Phdr mem phdr .vaddr
    let memsz := field elf64Phdr mem phdr .memsz
    let fin := (vaddr + memsz) % 2 ^ 64
    { minAddr := if vaddr < s.minAddr then vaddr else s.minAddr
      maxAddr := if s.maxAddr < fin then fin else s.maxAddr
      reads := fieldAccess elf64Phdr phdr .memsz :: fieldAccess elf64Phdr phdr .vaddr :: s.reads }

/-- The size and what has been read of the headers. -/
def elfCalcSize (c : Call) (mem : Bytes) : ℕ × List Access :=
  if elfValidate mem c.data c.size ≠ 0 then (0, [])
  else
    let s := (List.range (c.phnum mem)).foldl (calcHeader c mem) ⟨2 ^ 64 - 1, 0, []⟩
    (if s.maxAddr ≤ s.minAddr then 0 else s.maxAddr - s.minAddr, s.reads)

/-! The relocations. -/

structure DynScan where
  dyn : ℕ
  relaAddr : ℕ
  relaSize : ℕ
  relaEnt : ℕ

def dynStep (mem : Bytes) (s : DynScan) : Option DynScan :=
  let tag := field elf64Dyn mem s.dyn .tag
  let val := field elf64Dyn mem s.dyn .val
  let dyn := (s.dyn + elf64Dyn.size) % 2 ^ 64
  if tag = dtNull then none
  else if tag = dtRela then some { s with dyn := dyn, relaAddr := val }
  else if tag = dtRelasz then some { s with dyn := dyn, relaSize := val }
  else if tag = dtRelaent then some { s with dyn := dyn, relaEnt := val }
  else some { s with dyn := dyn }

/-- The pointer comes back to where it was after 2^60 entries, so that a scan that has not ended by
then never does. -/
def scanDynamic (mem : Bytes) (dynamic : ℕ) : Option DynScan :=
  let s := Loop.run (dynStep mem) (2 ^ 60) ⟨dynamic, 0, 0, elf64Rela.size⟩
  if dynStep mem s = none then some s else none

structure Reloc where
  i : ℕ
  mem : Bytes
  writes : List Access

/-- One turn of the loop over the entries, of which there are `numRelas` from `rela` on. -/
def relocStep (c : Call) (rela numRelas : ℕ) (t : Reloc) : Option Reloc :=
  if t.i < numRelas then
    let entry := (rela + elf64Rela.size * t.i) % 2 ^ 64
    let offset := field elf64Rela t.mem entry .offset
    let type := field elf64Rela t.mem entry .info % 2 ^ 32
    let addend := field elf64Rela t.mem entry .addend
    if type = rAarch64Relative then
      let target := (c.loadBase + offset) % 2 ^ 64
      some {
        i := t.i + 1
        mem := poke t.mem target 8 ((c.loadBase + addend) % 2 ^ 64)
        writes := ⟨target, 8⟩ :: t.writes }
    else some { t with i := t.i + 1 }
  else none

/-- The quotient as an `int`; the loop does not run for a negative one. -/
def numRelas (relaSize relaEnt : ℕ) : ℕ :=
  let n := relaSize / relaEnt % 2 ^ 32
  if n < 2 ^ 31 then n else 0

inductive Status
  | invalid | failed | endless | dividesByZero | loaded
  deriving DecidableEq

def elfProcessRelocations (c : Call) (mem : Bytes) (dynamic : ℕ) (writes : List Access) :
    Status × Bytes × List Access :=
  match scanDynamic mem dynamic with
  | none => (.endless, mem, writes)
  | some s =>
    if s.relaAddr = 0 ∨ s.relaSize = 0 then (.loaded, mem, writes)
    else if s.relaEnt = 0 then (.dividesByZero, mem, writes)
    else
      let n := numRelas s.relaSize s.relaEnt
      let t := Loop.run (relocStep c ((c.loadBase + s.relaAddr) % 2 ^ 64) n) n ⟨0, mem, writes⟩
      (.loaded, t.mem, t.writes)

/-! `elf_load_at`. -/

/-- Where the loop over the headers is: at the top, after the copy, after the zeroing, or out of it by
`return -1`. The memory may be the file's own at each of these, so that the header is read anew. -/
inductive Phase
  | header
  | bss (phdr dest : ℕ)
  | segEnd (phdr : ℕ)
  | failed
  deriving DecidableEq

structure LoadState where
  i : ℕ
  phase : Phase
  mem : Bytes
  totalSize : ℕ
  dynamic : ℕ
  reads : List Access
  writes : List Access

namespace LoadState

variable (l : LoadState)

def read (phdr : ℕ) (fs : List PhdrField) : LoadState :=
  { l with reads := fs.map (fieldAccess elf64Phdr phdr) ++ l.reads }

def loadHeader (c : Call) (isPie : Bool) : LoadState :=
  let phoff := field elf64Ehdr l.mem c.data .phoff
  let phentsize := field elf64Ehdr l.mem c.data .phentsize
  let phdr := c.phdr l.mem l.i
  let get := field elf64Phdr l.mem phdr
  if c.size < (phoff + signExtend ((l.i + 1) * phentsize)) % 2 ^ 64 then { l with phase := .failed }
  else if get .type = ptDynamic then
    { l.read phdr [.vaddr, .type] with
      dynamic := (c.loadBase + get .vaddr) % 2 ^ 64
      i := l.i + 1 }
  else if get .type ≠ ptLoad then { l.read phdr [.type] with i := l.i + 1 }
  else if c.size < get .offset then { l.read phdr [.offset, .type] with phase := .failed }
  else if c.size - get .offset < get .filesz then
    { l.read phdr [.filesz, .offset, .type] with phase := .failed }
  else
    let dest := if isPie then (c.loadBase + get .vaddr) % 2 ^ 64 else get .vaddr
    let src := (c.data + get .offset) % 2 ^ 64
    let l := { l.read phdr [.vaddr, .filesz, .offset, .type] with phase := .bss phdr dest }
    if 0 < get .filesz then
      { l with
        mem := elfMemcpy l.mem dest src (get .filesz)
        reads := ⟨src, get .filesz⟩ :: l.reads
        writes := ⟨dest, get .filesz⟩ :: l.writes }
    else l

def zeroBss (phdr dest : ℕ) : LoadState :=
  let get := field elf64Phdr l.mem phdr
  let l := { l.read phdr [.filesz, .memsz] with phase := .segEnd phdr }
  if get .filesz < get .memsz then
    let bss := (dest + get .filesz) % 2 ^ 64
    let bssSize := get .memsz - get .filesz
    { l with
      mem := elfMemset l.mem bss 0 bssSize
      writes := ⟨bss, bssSize⟩ :: l.writes }
  else l

def addSegment (phdr : ℕ) : LoadState :=
  let get := field elf64Phdr l.mem phdr
  let segEnd := (get .vaddr + get .memsz) % 2 ^ 64
  { l.read phdr [.memsz, .vaddr] with
    phase := .header
    i := l.i + 1
    totalSize := if l.totalSize < segEnd then segEnd else l.totalSize }

def step (c : Call) (isPie : Bool) (l : LoadState) : Option LoadState :=
  match l.phase with
  | .header => if l.i < c.phnum l.mem then some (l.loadHeader c isPie) else none
  | .bss phdr dest => some (l.zeroBss phdr dest)
  | .segEnd phdr => some (l.addSegment phdr)
  | .failed => none

end LoadState

/-- What a call has come to: the fields of `info` count when it has returned 0. -/
structure LoadResult where
  status : Status
  entry : ℕ
  loadSize : ℕ
  mem : Bytes
  reads : List Access
  writes : List Access

def LoadState.init (mem : Bytes) : LoadState := ⟨0, .header, mem, 0, 0, [], []⟩

/-- The loop over the headers has at most 65535 turns of at most three steps. -/
def loadHeaders (c : Call) (isPie : Bool) (mem : Bytes) : LoadState :=
  Loop.run (LoadState.step c isPie) (3 * 65536) (.init mem)

def elfLoadAt (c : Call) (mem : Bytes) : LoadResult :=
  if elfValidate mem c.data c.size ≠ 0 then ⟨.invalid, 0, 0, mem, [], []⟩
  else
    let isPie := c.isPie mem
    let l := loadHeaders c isPie mem
    if l.phase = .failed then ⟨.failed, 0, 0, l.mem, l.reads, l.writes⟩
    else
      let (status, mem, writes) :=
        if isPie ∧ l.dynamic ≠ 0 then elfProcessRelocations c l.mem l.dynamic l.writes
        else (.loaded, l.mem, l.writes)
      let entry := field elf64Ehdr mem c.data .entry
      ⟨status, if isPie then (c.loadBase + entry) % 2 ^ 64 else entry, l.totalSize, mem, l.reads, writes⟩

end GcAos.Loader
