import GcAos.Lib.Bytes
import GcAos.Lib.Exec
import GcAos.Mm.Pmm

/-! The slab allocator of `kernel/mm/slab.c`. The headers of the slabs and the links of their free
lists are bytes of memory, next to the objects that clients write. A cache's three lists of slabs
stand as lists of addresses; its lock makes each call one step. -/

namespace GcAos.Mm
open Lib

def slabObjMinSize : ℕ := 8
def slabObjMaxSize : ℕ := pageSize * 8
def slabObjPerPageMin : ℕ := 2
def slabHwcacheAlign : ℕ := 1
def l1CacheBytes : ℕ := 64

inductive SlabField
  | next | prev | cache | sMem | inuse | colouroff | freelist | bitmap | pages | nrPages
  deriving DecidableEq

def slabHeader : Layout SlabField where
  off
    | .next => 0
    | .prev => 8
    | .cache => 16
    | .sMem => 24
    | .inuse => 32
    | .colouroff => 36
    | .freelist => 40
    | .bitmap => 48
    | .pages => 56
    | .nrPages => 64
  len
    | .inuse => 4
    | .colouroff => 4
    | .nrPages => 4
    | _ => 8
  size := 72

/-- `struct kmem_cache`. The constructor and the destructor are the clients' own. -/
structure KmemCache where
  name : List UInt8
  objectSize : ℕ
  align : ℕ
  flags : ℕ
  slabsFull : List ℕ := []
  slabsPartial : List ℕ := []
  slabsFree : List ℕ := []
  num : ℕ
  numActive : ℤ := 0
  numAllocated : ℤ := 0
  colour : ℕ := 0
  colourNext : ℕ := 0
  colourOff : ℕ := 0

inductive SlabList
  | full | partly | free
  deriving DecidableEq

namespace KmemCache

/-- All slabs, in the order of `slab_find_obj`. -/
def slabs (c : KmemCache) : List ℕ := c.slabsFull ++ c.slabsPartial ++ c.slabsFree

/-- `list_move`, which puts the slab at the end of the list. -/
def listMove (c : KmemCache) (slab : ℕ) : SlabList → KmemCache
  | .full => { c with
      slabsFull := c.slabsFull.erase slab ++ [slab]
      slabsPartial := c.slabsPartial.erase slab
      slabsFree := c.slabsFree.erase slab }
  | .partly => { c with
      slabsFull := c.slabsFull.erase slab
      slabsPartial := c.slabsPartial.erase slab ++ [slab]
      slabsFree := c.slabsFree.erase slab }
  | .free => { c with
      slabsFull := c.slabsFull.erase slab
      slabsPartial := c.slabsPartial.erase slab
      slabsFree := c.slabsFree.erase slab ++ [slab] }

end KmemCache

/-- `atomic_add`, on an `int`. -/
def atomicAdd (i v : ℤ) : ℤ := (v + i).bmod (2 ^ 32)

/-- What `kmem_cache_create` comes to; a division by zero is undefined. -/
inductive CreateResult
  | null
  | divisionByZero
  | created (c : KmemCache)

/-- `kmem_cache_create`; a name stands without its terminator, and `record` is where `kmalloc` puts the
record. -/
def kmemCacheCreate (name : Option (List UInt8)) (size alignment flags record : ℕ) : CreateResult :=
  if name = none ∨ size < slabObjMinSize ∨ slabObjMaxSize < size then .null
  else if record = 0 then .null
  else
    let objectSize := align size alignment
    let available := pageSize - slabHeader.size
    if objectSize = 0 then .divisionByZero
    else
      let num := available / objectSize % 2 ^ 32
      let num := if num < slabObjPerPageMin then slabObjPerPageMin else num
      let colourOff := if flags &&& slabHwcacheAlign ≠ 0 then l1CacheBytes else 0
      .created
        { name := (name.getD []).take 31
          objectSize := size
          align := alignment
          flags
          num
          colour := colourOff
          colourOff }

structure Slabs where
  mem : Bytes
  cache : KmemCache
  -- where the cache's record is
  cacheAddr : ℕ
  totalSlabs : ℤ
  totalObjects : ℤ
  totalAllocated : ℤ

/-- The loop of `slab_setup_freelist`: the word at `link` is to point to the object at `obj`, with
`n` objects to come. -/
def setupFreelist (objectSize : ℕ) : ℕ → Bytes → ℕ → ℕ → Bytes
  | 0, mem, link, _ => mem.store link 8 0
  | n + 1, mem, link, obj =>
    setupFreelist objectSize n (mem.store link 8 obj) obj ((obj + objectSize) % 2 ^ 64)

namespace Slabs

def hdr (s : Slabs) (slab : ℕ) (f : SlabField) : ℕ := slabHeader.get s.mem slab f

def setHdr (s : Slabs) (slab : ℕ) (f : SlabField) (v : ℕ) : Slabs :=
  { s with mem := slabHeader.set s.mem slab f v }

def listMove (s : Slabs) (slab : ℕ) (l : SlabList) : Slabs :=
  { s with cache := s.cache.listMove slab l }

def slabSetupFreelist (s : Slabs) (slab : ℕ) : Slabs :=
  { s with
    mem := setupFreelist s.cache.objectSize s.cache.num s.mem (slab + slabHeader.off .freelist)
      (s.hdr slab .sMem) }

/-- A new slab in the page that `vmm_alloc` has returned. -/
def slabAlloc (s : Slabs) (page : ℕ) : Slabs :=
  let s := { s with mem := s.mem.blit page slabHeader.size fun _ => 0 }
  let s := s.setHdr page .cache s.cacheAddr
  let s := s.setHdr page .sMem (page + slabHeader.size)
  let s := s.setHdr page .inuse 0
  let s := s.setHdr page .nrPages 1
  s.slabSetupFreelist page

/-- The object, 0 when there is none, and the slabs after. -/
def slabAllocObj (s : Slabs) (slab : ℕ) : ℕ × Slabs :=
  if s.cache.num ≤ s.hdr slab .inuse then (0, s)
  else
    let obj := s.hdr slab .freelist
    if obj ≠ 0 then
      let s := s.setHdr slab .freelist (s.mem.load obj 8)
      (obj, s.setHdr slab .inuse (s.hdr slab .inuse + 1))
    else (0, s)

def slabFreeObj (s : Slabs) (slab obj : ℕ) : Slabs :=
  let s := { s with mem := s.mem.store obj 8 (s.hdr slab .freelist) }
  let s := s.setHdr slab .freelist obj
  s.setHdr slab .inuse ((s.hdr slab .inuse + 2 ^ 32 - 1) % 2 ^ 32)

def slabContainsObj (s : Slabs) (slab obj : ℕ) : Bool :=
  let start := s.hdr slab .sMem
  let fin := (start + s.cache.num * s.cache.objectSize) % 2 ^ 64
  decide (start ≤ obj ∧ obj < fin)

def slabFindObj (s : Slabs) (obj : ℕ) : Option ℕ := s.cache.slabs.find? fun slab =>
    s.slabContainsObj slab obj

def countAlloc (s : Slabs) : Slabs :=
  { s with
    cache := { s.cache with
      numActive := atomicAdd 1 s.cache.numActive
      numAllocated := atomicAdd 1 s.cache.numAllocated }
    totalAllocated := atomicAdd 1 s.totalAllocated }

/-- `kmem_cache_alloc`, where `page` is what `vmm_alloc` returns if it is called. -/
def kmemCacheAlloc (s : Slabs) (page : ℕ) : ℕ × Slabs :=
  let (obj, s) :=
    match s.cache.slabsPartial, s.cache.slabsFree with
    | slab :: _, _ =>
      let (obj, s) := s.slabAllocObj slab
      (obj, if s.hdr slab .inuse = s.cache.num then s.listMove slab .full else s)
    | [], slab :: _ =>
      let (obj, s) := s.slabAllocObj slab
      (obj, s.listMove slab .partly)
    | [], [] =>
      if page = 0 then (0, s)
      else
        let (obj, s) := (s.slabAlloc page).slabAllocObj page
        (obj, { s with
          cache := { s.cache with slabsPartial := page :: s.cache.slabsPartial }
          totalSlabs := atomicAdd 1 s.totalSlabs
          totalObjects := atomicAdd s.cache.num s.totalObjects })
  (obj, if obj ≠ 0 then s.countAlloc else s)

def kmemCacheFree (s : Slabs) (obj : ℕ) : Slabs :=
  if obj = 0 then s
  else
    match s.slabFindObj obj with
    | none => s
    | some slab =>
      let s := s.slabFreeObj slab obj
      let s := { s with
        cache := { s.cache with numActive := atomicAdd (-1) s.cache.numActive }
        totalAllocated := atomicAdd (-1) s.totalAllocated }
      if s.hdr slab .inuse = 0 then s.listMove slab .free
      else if s.hdr slab .inuse = s.cache.num - 1 then s.listMove slab .partly
      else s

end Slabs

/-! ## The cache and its clients -/

structure SlabSystem where
  slabs : Slabs
  pages : List ℕ
  live : List ℕ

inductive SlabAction
  | alloc (page : ℕ)
  | free (obj : ℕ)
  | write (addr : ℕ) (byte : UInt8)

namespace SlabSystem

def init (mem : Bytes) (c : KmemCache) (cacheAddr : ℕ) : SlabSystem where
  slabs := { mem, cache := c, cacheAddr, totalSlabs := 0, totalObjects := 0, totalAllocated := 0 }
  pages := []
  live := []

def FreshPage (s : SlabSystem) (page : ℕ) : Prop :=
  page + pageSize < 2 ^ 64 ∧ ∀ p ∈ s.pages, p + pageSize ≤ page ∨ page + pageSize ≤ p

/-- Whether a call asks `vmm_alloc` for a page. -/
def NeedsPage (s : SlabSystem) : Prop := s.slabs.cache.slabsPartial = [] ∧ s.slabs.cache.slabsFree = []

instance (s : SlabSystem) : Decidable s.NeedsPage := inferInstanceAs (Decidable (_ ∧ _))

def allocPages (s : SlabSystem) (page : ℕ) : List ℕ :=
  if s.NeedsPage ∧ page ≠ 0 then page :: s.pages else s.pages

/-- Clients free what they hold, and write in what they hold. Others write outside the slabs. -/
inductive Step : SlabSystem → SlabAction → SlabSystem → Prop
  | alloc {s : SlabSystem} {page obj : ℕ} {t : Slabs} (hfresh : page ≠ 0 → s.FreshPage page)
      (hcall : s.slabs.kmemCacheAlloc page = (obj, t)) :
      Step s (.alloc page) ⟨t, s.allocPages page, if obj = 0 then s.live else obj :: s.live⟩
  | free {s : SlabSystem} {obj : ℕ} (hlive : obj ∈ s.live) :
      Step s (.free obj) ⟨s.slabs.kmemCacheFree obj, s.pages, s.live.erase obj⟩
  | write {s : SlabSystem} {addr obj : ℕ} {byte : UInt8} (hlive : obj ∈ s.live) (hlo : obj ≤ addr)
      (hhi : addr < obj + s.slabs.cache.objectSize) :
      Step s (.write addr byte)
        { s with slabs := { s.slabs with mem := Function.update s.slabs.mem addr byte } }
  | outside {s : SlabSystem} {addr : ℕ} {byte : UInt8}
      (hout : ∀ p ∈ s.pages, addr < p ∨ p + pageSize ≤ addr) :
      Step s (.write addr byte)
        { s with slabs := { s.slabs with mem := Function.update s.slabs.mem addr byte } }

end SlabSystem

end GcAos.Mm
