import GcAos.Lib.Bytes
import GcAos.Lib.Exec
import Mathlib.Data.List.Nodup

/-! The allocator of `libc/src/stdlib.c`. -/

namespace GcAos.Libc
open Lib

def heapSize : UInt64 := 16 * 1024 * 1024

/-- `sizeof (struct malloc_header)`: `size` takes 8 bytes, `used` the next 4. -/
def headerSize : UInt64 := 16

def align (x : UInt64) : UInt64 := (x + 15) &&& ~~~15

/-- Addresses are counted from the start of `heap`, and there is no NULL among them. -/
structure Heap where
  mem : Bytes
  heapUsed : UInt64 := 0

namespace Heap

variable (s : Heap)

def malloc (size : UInt64) : Heap × Option ℕ :=
  if size = 0 then (s, none)
  else
    let total := align (headerSize + size)
    if heapSize < s.heapUsed + total then (s, none)
    else
      let hdr := s.heapUsed.toNat
      let mem := (s.mem.store hdr 8 size.toNat).store (hdr + 8) 4 1
      ({ mem, heapUsed := s.heapUsed + total }, some (hdr + 16))

def calloc (nmemb size : UInt64) : Heap × Option ℕ :=
  let total := nmemb * size
  match s.malloc total with
  | (s, none) => (s, none)
  | (s, some p) => ({ s with mem := s.mem.blit p total.toNat fun _ => 0 }, some p)

def free (ptr : Option ℕ) : Heap :=
  match ptr with
  | none => s
  | some p => { s with mem := s.mem.store (p - 16 + 8) 4 0 }

/-- `hdr->size` of the block that a pointer belongs to. -/
def sizeOf (p : ℕ) : ℕ := s.mem.load (p - 16) 8

def realloc (ptr : Option ℕ) (size : UInt64) : Heap × Option ℕ :=
  match ptr with
  | none => s.malloc size
  | some p =>
    if size = 0 then (s.free (some p), none)
    else if size.toNat ≤ s.sizeOf p then (s, some p)
    else
      match s.malloc size with
      | (s, none) => (s, none)
      | (s, some q) =>
        let s := { s with mem := s.mem.blit q (s.sizeOf p) fun i => s.mem (p + i) }
        (s.free (some p), some q)

def Refused (size : UInt64) : Prop := size = 0 ∨ heapSize < s.heapUsed + align (headerSize + size)

end Heap

/-! A program that uses the heap. -/

/-- `owned` are the allocations that have not been freed, with the lengths they were asked for with,
and `headers` are the headers there are. -/
structure Program where
  heap : Heap
  owned : List (ℕ × ℕ) := []
  headers : List ℕ := []

inductive HeapCall
  | malloc (size : UInt64)
  | calloc (nmemb size : UInt64)
  | realloc (ptr : Option ℕ) (size : UInt64)
  | free (ptr : Option ℕ)
  | write (ptr i : ℕ) (byte : UInt8)

namespace Program

variable (c : Program)

/-- The allocations other than the one at `ptr`. -/
def ownedBut (ptr : Option ℕ) : List (ℕ × ℕ) := c.owned.filter fun r => some r.1 ≠ ptr

/-- The program gets what an allocation of length `n` in place of `ptr` returns. -/
def receive (ptr : Option ℕ) (n : ℕ) : Heap × Option ℕ → Program
  | (heap, none) => { c with heap := heap }
  | (heap, some p) => ⟨heap, (p, n) :: c.ownedBut ptr, (p - 16) :: c.headers⟩

def step : HeapCall → Program
  | .malloc size => c.receive none size.toNat (c.heap.malloc size)
  | .calloc nmemb size => c.receive none (nmemb.toNat * size.toNat) (c.heap.calloc nmemb size)
  | .realloc ptr size =>
    if size = 0 then { c with heap := (c.heap.realloc ptr size).1, owned := c.ownedBut ptr }
    else c.receive ptr size.toNat (c.heap.realloc ptr size)
  | .free ptr => { c with heap := c.heap.free ptr, owned := c.ownedBut ptr }
  | .write ptr i byte =>
    { c with heap := { c.heap with mem := Function.update c.heap.mem (ptr + i) byte } }

end Program

/-- The sums that `malloc` forms for a request of `n` bytes stay below 2^64. -/
def NoWrap (s : Heap) (n : ℕ) : Prop := s.heapUsed.toNat + (16 + n + 15) < 2 ^ 64

instance (s : Heap) (n : ℕ) : Decidable (NoWrap s n) := inferInstanceAs (Decidable (_ < _))

namespace HeapCall

/-- Pointers are NULL or those of allocations, and the program writes to its allocations. -/
def Allowed (c : Program) : HeapCall → Prop
  | realloc ptr _ => ∀ p ∈ ptr, p ∈ c.owned.map Prod.fst
  | free ptr => ∀ p ∈ ptr, p ∈ c.owned.map Prod.fst
  | write ptr i _ => ∃ n, (ptr, n) ∈ c.owned ∧ i < n
  | _ => True

def Safe (c : Program) : HeapCall → Prop
  | malloc size => ¬c.heap.Refused size → NoWrap c.heap size.toNat
  | calloc nmemb size => ¬c.heap.Refused (nmemb * size) → NoWrap c.heap (nmemb.toNat * size.toNat)
  | realloc ptr size => (∀ p ∈ ptr, c.heap.sizeOf p < size.toNat) → ¬c.heap.Refused size →
      NoWrap c.heap size.toNat
  | _ => True

def IsWrite : HeapCall → Prop
  | write .. => True
  | _ => False

/-- What `calloc` and `realloc` promise for the bytes. -/
def Correct (c : Program) : HeapCall → Prop
  | calloc nmemb size => ∀ p, (c.heap.calloc nmemb size).2 = some p → ∀ i < nmemb.toNat * size.toNat,
      (c.heap.calloc nmemb size).1.mem (p + i) = 0
  | realloc (some p) size => ∀ n q, (p, n) ∈ c.owned → (c.heap.realloc (some p) size).2 = some q →
      ∀ i < min n size.toNat, (c.heap.realloc (some p) size).1.mem (q + i) = c.heap.mem (p + i)
  | _ => True

end HeapCall

structure OwnedApart (c : Program) : Prop where
  inside : ∀ r ∈ c.owned, r.1 + r.2 ≤ heapSize.toNat
  apart : c.owned.Pairwise fun r r' => r.1 + r.2 ≤ r'.1 ∨ r'.1 + r'.2 ≤ r.1
  headers : ∀ r ∈ c.owned, ∀ h ∈ c.headers, r.1 + r.2 ≤ h ∨ h + 16 ≤ r.1

/-- The allocations are apart, and the next call does what it promises and changes no byte of them,
unless the program does. -/
structure HeapOwned (c : Program) : Prop where
  apart : OwnedApart c
  correct : ∀ call : HeapCall, call.Allowed c → call.Safe c → call.Correct c
  frame : ∀ call : HeapCall, call.Allowed c → call.Safe c → ¬call.IsWrite → ∀ r ∈ c.owned, ∀ i < r.2,
    (c.step call).heap.mem (r.1 + i) = c.heap.mem (r.1 + i)

end GcAos.Libc
