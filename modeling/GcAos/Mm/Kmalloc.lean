import GcAos.Lib.Bits
import GcAos.Lib.Bytes
import GcAos.Lib.Exec
import GcAos.Lib.Links
import GcAos.Lib.Tiling

/-! The kernel heap of `kernel/mm/kmalloc.c`. Headers live in the heap's own memory, byte by
byte, next to the payloads the clients write. The heap lock makes each call one step. -/

namespace GcAos.Mm
open Lib

def defaultHeapSize : ℕ := 512 * 1024 * 1024
def minHeapSize : ℕ := 64 * 1024 * 1024
def minAlloc : ℕ := 32
def maxAlloc : ℕ := 64 * 1024 * 1024
def heapBase : ℕ := 0x42000000
def pmmMemoryBase : ℕ := 0x40000000
def blockMagicFree : ℕ := 0xDEADBEEF
def blockMagicUsed : ℕ := 0xCAFEBABE
def blockFlagFree : ℕ := 0x01
def gfpZero : ℕ := 0x02

inductive HeaderField
  | size | magic | flags | next | prev
  deriving DecidableEq

def blockHeader : Layout HeaderField where
  off
    | .size => 0
    | .magic => 8
    | .flags => 12
    | .next => 16
    | .prev => 24
  len
    | .size => 8
    | .magic => 4
    | .flags => 4
    | .next => 8
    | .prev => 8
  size := 32

structure Heap where
  mem : Bytes
  heapStart : ℕ
  heapEnd : ℕ
  freeList : ℕ
  heapTotal : ℕ
  heapUsed : ℕ
  heapInitialized : Bool
  -- what `pmm_get_total_memory` returns
  totalMemory : ℕ

namespace Heap

def hdr (h : Heap) (block : ℕ) (f : HeaderField) : ℕ := blockHeader.get h.mem block f

def setHdr (h : Heap) (block : ℕ) (f : HeaderField) (v : ℕ) : Heap :=
  { h with mem := blockHeader.set h.mem block f v }

/-- `if (ptr) ptr->f = v`. -/
def setUnlessNull (h : Heap) (ptr : ℕ) (f : HeaderField) (v : ℕ) : Heap :=
  if ptr ≠ 0 then h.setHdr ptr f v else h

end Heap

def alignUp (val align : ℕ) : ℕ := (val + align - 1) % 2 ^ 64 &&& (2 ^ 64 - 1 - (align - 1))

def blockData (block : ℕ) : ℕ := block + blockHeader.size

def dataToBlock (ptr : ℕ) : ℕ := (ptr + 2 ^ 64 - blockHeader.size) % 2 ^ 64

/-- The heap size `kmalloc_init` settles on. -/
def initHeapTotal (totalMemory : ℕ) : ℕ :=
  let heapCeiling :=
    if heapBase - pmmMemoryBase < totalMemory then totalMemory - (heapBase - pmmMemoryBase) else 0
  let heapTotal :=
    if heapCeiling ≠ 0 ∧ heapCeiling < defaultHeapSize then heapCeiling else defaultHeapSize
  if heapTotal < minHeapSize then minHeapSize else heapTotal

def kmallocInit (h : Heap) : Heap :=
  let heapTotal := initHeapTotal h.totalMemory
  let h := { h with
    heapStart := heapBase
    heapTotal := heapTotal
    heapEnd := heapBase + heapTotal
    heapUsed := 0
    freeList := heapBase }
  let h := h.setHdr h.freeList .size heapTotal
  let h := h.setHdr h.freeList .magic blockMagicFree
  let h := h.setHdr h.freeList .flags blockFlagFree
  let h := h.setHdr h.freeList .next 0
  let h := h.setHdr h.freeList .prev 0
  { h with heapInitialized := true }

inductive Fit
  | corrupted
  | exhausted
  | fit (block prevFree : ℕ)
  deriving DecidableEq

/-- The search loop of `_kmalloc`; `none` when it has not ended after `fuel` turns. -/
def firstFit (h : Heap) (totalSize : ℕ) : ℕ → ℕ → ℕ → Option Fit
  | 0, _, _ => none
  | fuel + 1, block, prevFree =>
    if block = 0 then some .exhausted
    else if h.hdr block .magic ≠ blockMagicFree then some .corrupted
    else if totalSize ≤ h.hdr block .size then some (.fit block prevFree)
    else firstFit h totalSize fuel (h.hdr block .next) block

def splitBlock (h : Heap) (block totalSize : ℕ) : Heap :=
  if totalSize + blockHeader.size + minAlloc ≤ h.hdr block .size then
    let newBlock := block + totalSize
    let h := h.setHdr newBlock .size (h.hdr block .size - totalSize)
    let h := h.setHdr newBlock .magic blockMagicFree
    let h := h.setHdr newBlock .flags blockFlagFree
    let h := h.setHdr newBlock .next (h.hdr block .next)
    let h := h.setHdr newBlock .prev block
    let h := h.setUnlessNull (h.hdr block .next) .prev newBlock
    let h := h.setHdr block .size totalSize
    h.setHdr block .next newBlock
  else h

def takeBlock (h : Heap) (block prevFree : ℕ) : Heap :=
  let h := if prevFree ≠ 0 then h.setHdr prevFree .next (h.hdr block .next)
    else { h with freeList := h.hdr block .next }
  let h := h.setUnlessNull (h.hdr block .next) .prev prevFree
  let h := h.setHdr block .magic blockMagicUsed
  let h := h.setHdr block .flags 0
  let h := h.setHdr block .next 0
  { h with heapUsed := (h.heapUsed + h.hdr block .size) % 2 ^ 64 }

/-- `_kmalloc`: the pointer returned, `0` for `NULL`, and the heap after. Every node of the free
list is a block of the heap, so `heap_total` turns are enough for the search. -/
def kmalloc (h : Heap) (size flags : ℕ) : Option (ℕ × Heap) :=
  let h := if h.heapInitialized then h else kmallocInit h
  if size = 0 ∨ maxAlloc < size then some (0, h)
  else
    let totalSize := alignUp (size + blockHeader.size) minAlloc
    match firstFit h totalSize h.heapTotal h.freeList 0 with
    | none => none
    | some .corrupted => some (0, h)
    | some .exhausted => some (0, h)
    | some (.fit block prevFree) =>
      let h := takeBlock (splitBlock h block totalSize) block prevFree
      let ptr := blockData block
      if flags &&& gfpZero ≠ 0 then some (ptr, { h with mem := h.mem.blit ptr size fun _ => 0 })
      else some (ptr, h)

def pushFree (h : Heap) (block : ℕ) : Heap :=
  let h := { h with heapUsed := (h.heapUsed + 2 ^ 64 - h.hdr block .size) % 2 ^ 64 }
  let h := h.setHdr block .magic blockMagicFree
  let h := h.setHdr block .flags blockFlagFree
  let h := h.setHdr block .next h.freeList
  let h := h.setHdr block .prev 0
  let h := h.setUnlessNull h.freeList .prev block
  { h with freeList := block }

def coalesce (h : Heap) (block : ℕ) : Heap :=
  let nextPhysical := block + h.hdr block .size
  if nextPhysical < h.heapEnd ∧ h.hdr nextPhysical .magic = blockMagicFree then
    -- a `NULL` here would mean the head of the list, and that is `block` by now
    let h := h.setUnlessNull (h.hdr nextPhysical .prev) .next (h.hdr nextPhysical .next)
    let h := h.setUnlessNull (h.hdr nextPhysical .next) .prev (h.hdr nextPhysical .prev)
    let h := h.setHdr block .size (h.hdr block .size + h.hdr nextPhysical .size)
    h.setHdr nextPhysical .magic 0
  else h

def kfree (h : Heap) (ptr : ℕ) : Heap :=
  if ptr = 0 then h
  else
    let block := dataToBlock ptr
    if h.hdr block .magic ≠ blockMagicUsed then h
    else coalesce (pushFree h block) block

/-! ## The heap and its clients -/

/-- The heap together with the allocations its clients hold: payload pointer and size asked for. -/
structure HeapSystem where
  heap : Heap
  live : List (ℕ × ℕ)

inductive HeapAction
  | kmalloc (size flags : ℕ)
  | kfree (ptr : ℕ)
  -- a client writes a byte of an allocation it holds
  | write (addr : ℕ) (byte : UInt8)

namespace HeapSystem

def init (mem : Bytes) (totalMemory : ℕ) : HeapSystem where
  heap := kmallocInit
    { mem, heapStart := 0, heapEnd := 0, freeList := 0, heapTotal := 0, heapUsed := 0,
      heapInitialized := false, totalMemory }
  live := []

/-- The clients free only `NULL` and what they hold, and write only inside what they hold. -/
inductive Step : HeapSystem → HeapAction → HeapSystem → Prop
  | kmalloc {s : HeapSystem} {size flags ptr : ℕ} {h : Heap}
      (hcall : Mm.kmalloc s.heap size flags = some (ptr, h)) :
      Step s (.kmalloc size flags)
        { heap := h, live := if ptr = 0 then s.live else (ptr, size) :: s.live }
  | kfree {s : HeapSystem} {ptr : ℕ} (hptr : ptr = 0 ∨ ptr ∈ s.live.map Prod.fst) :
      Step s (.kfree ptr) { heap := Mm.kfree s.heap ptr, live := s.live.filter (·.1 ≠ ptr) }
  | write {s : HeapSystem} {addr ptr size : ℕ} {byte : UInt8} (hlive : (ptr, size) ∈ s.live)
      (hlo : ptr ≤ addr) (hhi : addr < ptr + size) :
      Step s (.write addr byte)
        { s with heap := { s.heap with mem := Function.update s.heap.mem addr byte } }

end HeapSystem

end GcAos.Mm
