import GcAos.Lib.BigEndian
import GcAos.Lib.Loop
import GcAos.Mm.Pmm

/-! How the kernel finds its memory at boot: `dtb_configure_memory` in `kernel/core/main.c` goes over the
tokens of a flattened device tree. -/

namespace GcAos.Boot
open Lib Mm StateTransition

def fdtMagic : UInt32 := 0xD00DFEED
def fdtBeginNode : UInt32 := 1
def fdtEndNode : UInt32 := 2
def fdtProp : UInt32 := 3
def fdtEnd : UInt32 := 9
def vmmRamLimit : UInt64 := 4 * 1024 * 1024 * 1024

def memoryAt : List UInt8 := [109, 101, 109, 111, 114, 121, 64]

def regName : List UInt8 := [114, 101, 103]

def dtbBe32 (m : Bytes) (p : ℕ) : UInt32 :=
  (m p).toUInt32 <<< 24 ||| (m (p + 1)).toUInt32 <<< 16 ||| (m (p + 2)).toUInt32 <<< 8 |||
    (m (p + 3)).toUInt32

def dtbBe64 (m : Bytes) (p : ℕ) : UInt64 :=
  (dtbBe32 m p).toUInt64 <<< 32 ||| (dtbBe32 m (p + 4)).toUInt64

def strStartsWithLocal (m : Bytes) : ℕ → List UInt8 → Bool
  | _, [] => true
  | s, c :: pre => if m s ≠ c then false else strStartsWithLocal m (s + 1) pre

/-- The blob, with `strings` and `end` as offsets in it. -/
structure Fdt where
  blob : Bytes
  strings : ℕ
  stop : ℕ

/-- The variables of the loop, `p` as an offset in the blob. -/
structure Cursor where
  p : ℕ
  inMemoryNode : Bool
  depth : ℕ

/-- What becomes of a turn of the loop: it goes on, is left, or calls `pmm_set_memory_range` and returns. -/
inductive Turn
  | next (c : Cursor)
  | stop
  | call (base size : UInt64)

/-- The bytes before the next null byte, of the `left` bytes from `p` on. -/
def nameLen (m : Bytes) : ℕ → ℕ → ℕ
  | _, 0 => 0
  | p, left + 1 => if m p ≠ 0 then nameLen m (p + 1) left + 1 else 0

/-- `(len + 3) & ~3U`, where `~3U` has 32 bits. -/
def align4 (len : ℕ) : ℕ := len + 3 &&& 0xFFFFFFFC

def turn (f : Fdt) (c : Cursor) : Turn :=
  if f.stop < c.p + 4 then .stop
  else
    let token := dtbBe32 f.blob c.p
    let p := c.p + 4
    if token = fdtBeginNode then
      let len := nameLen f.blob p (f.stop - p)
      .next
        { p := p + align4 (len + 1)
          inMemoryNode := if c.depth = 1 ∧ strStartsWithLocal f.blob p memoryAt then true else c.inMemoryNode
          depth := c.depth + 1 }
    else if token = fdtEndNode then
      .next
        { p := p
          inMemoryNode := if c.inMemoryNode ∧ c.depth = 2 then false else c.inMemoryNode
          depth := c.depth - 1 }
    else if token = fdtProp then
      if f.stop < p + 8 then .stop
      else
        let len := dtbBe32 f.blob p
        let nameoff := dtbBe32 f.blob (p + 4)
        let p := p + 8
        let propName := f.strings + nameoff.toNat
        if c.inMemoryNode ∧ 16 ≤ len ∧ f.blob propName = 114 ∧ f.blob (propName + 1) = 101 ∧
            f.blob (propName + 2) = 103 ∧ f.blob (propName + 3) = 0 then
          let base := dtbBe64 f.blob p
          let size := dtbBe64 f.blob (p + 8)
          if base ≠ 0 ∧ size ≠ 0 then .call base (if vmmRamLimit < size then vmmRamLimit else size)
          else .next { c with p := p + align4 len.toNat }
        else .next { c with p := p + align4 len.toNat }
    else if token = fdtEnd then .stop
    else .next { c with p := p }

def next (f : Fdt) (c : Cursor) : Option Cursor :=
  match turn f c with
  | .next c => some c
  | _ => none

/-- `p` is at least 4 bytes further after a turn, so that there are fewer turns than bytes. The result is the
call that is made, and the memory that the allocator is left with. -/
def dtbConfigureMemory (r : MemoryRange) : Option Bytes → Option (UInt64 × UInt64) × MemoryRange
  | none => (none, r)
  | some blob =>
    if dtbBe32 blob 0 ≠ fdtMagic then (none, r)
    else
      let structOff := (dtbBe32 blob 8).toNat
      let stringsOff := (dtbBe32 blob 12).toNat
      let structSize := (dtbBe32 blob 36).toNat
      let f : Fdt := ⟨blob, stringsOff, structOff + structSize⟩
      match turn f (Loop.run (next f) structSize ⟨structOff, false, 0⟩) with
      | .call base size => (some (base, size), pmmSetMemoryRange r base size)
      | _ => (none, r)

/-- The items of a node, in their order: tokens that say nothing, properties and nodes. A property's name is
kept at `nameOff` in the strings block. -/
inductive Items
  | nil
  | nop (rest : Items)
  | prop (name : List UInt8) (nameOff : ℕ) (value : List UInt8) (rest : Items)
  | node (name : List UInt8) (body rest : Items)

def padded (l : List UInt8) : List UInt8 := l ++ List.replicate ((4 - l.length % 4) % 4) 0

namespace Items

def bytes : Items → List UInt8
  | nil => []
  | nop rest => Bytes.beDigits 4 4 ++ rest.bytes
  | prop _ nameOff value rest =>
    Bytes.beDigits 4 3 ++ (Bytes.beDigits 4 value.length ++ (Bytes.beDigits 4 nameOff ++
      (padded value ++ rest.bytes)))
  | node name body rest =>
    Bytes.beDigits 4 1 ++ (padded (name ++ [0]) ++ (body.bytes ++ (Bytes.beDigits 4 2 ++ rest.bytes)))

def Proper (m : Bytes) (strings : ℕ) : Items → Prop
  | nil => True
  | nop rest => rest.Proper m strings
  | prop name nameOff _ rest =>
    (0 ∉ name ∧ nameOff < 2 ^ 32 ∧ m.Has (strings + nameOff) (name ++ [0])) ∧ rest.Proper m strings
  | node name body rest => 0 ∉ name ∧ body.Proper m strings ∧ rest.Proper m strings

def HasNoNode : Items → Prop
  | nil => True
  | nop rest => rest.HasNoNode
  | prop _ _ _ rest => rest.HasNoNode
  | node .. => False

/-- The memory nodes among the items have no nodes of their own. -/
def MemoryLeaf : Items → Prop
  | nil => True
  | nop rest => rest.MemoryLeaf
  | prop _ _ _ rest => rest.MemoryLeaf
  | node name body rest => (memoryAt <+: name → body.HasNoNode) ∧ rest.MemoryLeaf

/-- The first address and size in the value of a property, of two cells each. -/
def range (value : List UInt8) : Option (UInt64 × UInt64) :=
  if value.length < 16 then none
  else
    let m : Bytes := fun i => value.getD i 0
    some (UInt64.ofNat (m.beLoad 0 8), UInt64.ofNat (m.beLoad 8 8))

def regs : Items → List (UInt64 × UInt64)
  | nil => []
  | nop rest => rest.regs
  | prop name _ value rest =>
    if name = regName then ((range value).filter fun r => r.1 ≠ 0 ∧ r.2 ≠ 0).toList ++ rest.regs
    else rest.regs
  | node _ _ rest => rest.regs

def memoryRegs : Items → List (UInt64 × UInt64)
  | nil => []
  | nop rest => rest.memoryRegs
  | prop _ _ _ rest => rest.memoryRegs
  | node name body rest => if memoryAt <+: name then body.regs ++ rest.memoryRegs else rest.memoryRegs

def nops : ℕ → Items → Items
  | 0, t => t
  | n + 1, t => nop (nops n t)

end Items

/-- A flattened device tree in memory: `root` has the items of its root node, which tokens that say nothing
may stand before and after. -/
structure DeviceTree where
  blob : Bytes
  before : ℕ
  root : Items
  after : ℕ
  magic : dtbBe32 blob 0 = fdtMagic
  block : blob.Has (dtbBe32 blob 8).toNat
    ((Items.nops before (.node [] root (Items.nops after .nil))).bytes ++ Bytes.beDigits 4 9)
  size : ((Items.nops before (.node [] root (Items.nops after .nil))).bytes ++ Bytes.beDigits 4 9).length ≤
    (dtbBe32 blob 36).toNat
  proper : root.Proper blob (dtbBe32 blob 12).toNat
  memoryLeaf : root.MemoryLeaf

def DeviceTree.memory (t : DeviceTree) : Option (UInt64 × UInt64) :=
  t.root.memoryRegs.head?.map fun r => (r.1, if vmmRamLimit < r.2 then vmmRamLimit else r.2)

section Words

theorem dtbBe32_toNat (m : Bytes) (p : ℕ) : (dtbBe32 m p).toNat = m.beLoad p 4 := by
  have h0 := (m p).toNat_lt
  have h1 := (m (p + 1)).toNat_lt
  have h2 := (m (p + 2)).toNat_lt
  have h3 := (m (p + 3)).toNat_lt
  have s24 : ((m p).toUInt32 <<< 24).toNat = (m p).toNat * 2 ^ 24 := by
    simp [Nat.shiftLeft_eq]
    omega
  have s16 : ((m (p + 1)).toUInt32 <<< 16).toNat = (m (p + 1)).toNat * 2 ^ 16 := by
    simp [Nat.shiftLeft_eq]
    omega
  have s8 : ((m (p + 2)).toUInt32 <<< 8).toNat = (m (p + 2)).toNat * 2 ^ 8 := by
    simp [Nat.shiftLeft_eq]
    omega
  have hhi : (m p).toNat * 2 ^ 24 + (m (p + 1)).toNat * 2 ^ 16 =
      ((m p).toNat * 2 ^ 8 + (m (p + 1)).toNat) * 2 ^ 16 := by
    ring
  have hmid : ((m p).toNat * 2 ^ 8 + (m (p + 1)).toNat) * 2 ^ 16 + (m (p + 2)).toNat * 2 ^ 8 =
      (((m p).toNat * 2 ^ 8 + (m (p + 1)).toNat) * 2 ^ 8 + (m (p + 2)).toNat) * 2 ^ 8 := by
    ring
  unfold dtbBe32
  rw [UInt32.toNat_or, UInt32.toNat_or, UInt32.toNat_or, s24, s16, s8, UInt8.toNat_toUInt32,
    mul_two_pow_or (by omega), hhi, mul_two_pow_or (by omega), hmid, mul_two_pow_or (by omega)]
  simp only [Bytes.beLoad]
  ring

theorem dtbBe64_toNat (m : Bytes) (p : ℕ) : (dtbBe64 m p).toNat = m.beLoad p 8 := by
  have hlo := (dtbBe32 m (p + 4)).toNat_lt
  have hhi : ((dtbBe32 m p).toUInt64 <<< 32).toNat = (dtbBe32 m p).toNat * 2 ^ 32 := by
    have := (dtbBe32 m p).toNat_lt
    simp [Nat.shiftLeft_eq]
    omega
  unfold dtbBe64
  rw [UInt64.toNat_or, hhi, UInt32.toNat_toUInt64, mul_two_pow_or hlo, dtbBe32_toNat, dtbBe32_toNat]
  exact (m.beLoad_add p 4 4).symm

theorem align4_eq {len : ℕ} (h : len + 3 < 2 ^ 32) : align4 len = (len + 3) / 4 * 4 :=
  and_high_mask (show 2 ≤ 32 by decide) h

theorem length_padded (l : List UInt8) : (padded l).length = (l.length + 3) / 4 * 4 := by
  rw [padded, List.length_append, List.length_replicate]
  omega

end Words

section Strings

variable {m : Bytes} {p n : ℕ} {name pre : List UInt8}

theorem nameLen_eq (h : m.Has p (name ++ [0])) (hname : 0 ∉ name) (hn : name.length < n) :
    nameLen m p n = name.length := by
  induction name generalizing p n with
  | nil =>
    obtain ⟨n, rfl⟩ := Nat.exists_eq_succ_of_ne_zero (Nat.ne_zero_of_lt hn)
    exact if_neg (not_not.mpr h.head)
  | cons c name ih =>
    obtain ⟨n, rfl⟩ := Nat.exists_eq_succ_of_ne_zero (Nat.ne_zero_of_lt hn)
    obtain ⟨hc, hname⟩ := not_or.mp (List.mem_cons.not.mp hname)
    have hhead : m p ≠ 0 := by
      rw [h.head]
      exact Ne.symm hc
    rw [nameLen, if_pos hhead, ih (h.tail) hname (Nat.lt_of_succ_lt_succ hn)]
    rfl

theorem has_iff_isPrefix (h : m.Has p (name ++ [0])) (hpre : 0 ∉ pre) : m.Has p pre ↔ pre <+: name := by
  induction pre generalizing p name with
  | nil => exact iff_of_true (fun i b hb => absurd hb (by simp)) List.nil_prefix
  | cons c pre ih =>
    obtain ⟨hc, hpre⟩ := not_or.mp (List.mem_cons.not.mp hpre)
    cases name with
    | nil =>
      refine iff_of_false (fun hhas => hc ?_) (by simp)
      rw [← hhas.head]
      exact h.head.symm
    | cons b name =>
      rw [List.cons_prefix_cons, ← ih (h.tail) hpre]
      constructor
      · intro hhas
        exact ⟨hhas.head.symm.trans (h.head), hhas.tail⟩
      · rintro ⟨rfl, hhas⟩
        exact .cons (h.head) hhas

theorem strStartsWithLocal_iff_has : strStartsWithLocal m p pre ↔ m.Has p pre := by
  induction pre generalizing p with
  | nil => exact iff_of_true rfl fun i b hb => absurd hb (by simp)
  | cons c pre ih =>
    rw [strStartsWithLocal]
    split
    · next hne => exact iff_of_false (by simp) fun h => hne h.head
    · next heq =>
      rw [ih]
      exact ⟨fun h => .cons (not_not.mp heq) h, Bytes.Has.tail⟩

theorem isReg_iff (h : m.Has p (name ++ [0])) (hname : 0 ∉ name) :
    (m p = 114 ∧ m (p + 1) = 101 ∧ m (p + 2) = 103 ∧ m (p + 3) = 0) ↔ name = regName := by
  constructor
  · rintro ⟨h0, h1, h2, h3⟩
    have hhas : m.Has p regName := .cons h0 (.cons h1 (.cons h2 fun i b hb => absurd hb (by simp)))
    obtain ⟨rest, rfl⟩ := (has_iff_isPrefix h (by decide)).mp hhas
    cases rest with
    | nil => rfl
    | cons c rest =>
      have hc : m (p + 3) = c := h 3 c rfl
      refine absurd ?_ hname
      rw [← h3, hc]
      simp
  · rintro rfl
    exact ⟨h 0 _ rfl, h 1 _ rfl, h 2 _ rfl, h 3 _ rfl⟩

end Strings

/-- The bytes stand in the structure block at `p`. -/
structure Placed (f : Fdt) (p : ℕ) (l : List UInt8) : Prop where
  has : f.blob.Has p l
  le : p + l.length ≤ f.stop

section Turns

variable {f : Fdt} {p d v : ℕ} {m : Bool} {l l' name value : List UInt8}

theorem Placed.left (h : Placed f p (l ++ l')) : Placed f p l := by
  refine ⟨h.has.left, ?_⟩
  have := h.le
  rw [List.length_append] at this
  omega

theorem Placed.right (h : Placed f p (l ++ l')) : Placed f (p + l.length) l' := by
  refine ⟨h.has.right, ?_⟩
  have := h.le
  rw [List.length_append] at this
  omega

theorem Placed.be32 (h : Placed f p (Bytes.beDigits 4 v)) : dtbBe32 f.blob p = UInt32.ofNat v := by
  apply UInt32.toNat_inj.mp
  rw [dtbBe32_toNat, h.has.beLoad, UInt32.toNat_ofNat']
  norm_num

theorem Placed.token_le (h : Placed f p (Bytes.beDigits 4 v)) : ¬f.stop < p + 4 := by
  have := h.le
  rw [Bytes.length_beDigits] at this
  omega

theorem turn_nop (h : Placed f p (Bytes.beDigits 4 4)) : turn f ⟨p, m, d⟩ = .next ⟨p + 4, m, d⟩ := by
  rw [turn, if_neg h.token_le]
  dsimp only
  rw [h.be32, if_neg (by decide), if_neg (by decide), if_neg (by decide), if_neg (by decide)]

theorem turn_end (h : Placed f p (Bytes.beDigits 4 9)) : turn f ⟨p, m, d⟩ = .stop := by
  rw [turn, if_neg h.token_le]
  dsimp only
  rw [h.be32, if_neg (by decide), if_neg (by decide), if_neg (by decide), if_pos (by decide)]

theorem turn_endNode (h : Placed f p (Bytes.beDigits 4 2)) : turn f ⟨p, m, d⟩ =
    .next ⟨p + 4, if m ∧ d = 2 then false else m, d - 1⟩ := by
  rw [turn, if_neg h.token_le]
  dsimp only
  rw [h.be32, if_neg (by decide), if_pos (by decide)]

theorem turn_beginNode (h : Placed f p (Bytes.beDigits 4 1 ++ padded (name ++ [0]))) (hname : 0 ∉ name)
    (hlen : name.length + 4 < 2 ^ 32) : turn f ⟨p, m, d⟩ =
      .next ⟨p + 4 + (padded (name ++ [0])).length, if d = 1 ∧ memoryAt <+: name then true else m,
        d + 1⟩ := by
  have htoken := h.left
  have hpadded : Placed f (p + 4) (padded (name ++ [0])) := by
    have := h.right
    rwa [Bytes.length_beDigits] at this
  have hstring : f.blob.Has (p + 4) (name ++ [0]) := hpadded.left.has
  have hle := hpadded.left.le
  rw [List.length_append, List.length_singleton] at hle
  have hstarts : strStartsWithLocal f.blob (p + 4) memoryAt = true ↔ memoryAt <+: name :=
    strStartsWithLocal_iff_has.trans (has_iff_isPrefix hstring (by decide))
  have halign : align4 (name.length + 1) = (padded (name ++ [0])).length := by
    rw [length_padded, List.length_append, List.length_singleton, align4_eq (by omega)]
  rw [turn, if_neg htoken.token_le]
  dsimp only
  rw [htoken.be32, if_pos (by decide), nameLen_eq hstring hname (by omega), halign]
  simp only [hstarts]

theorem range_eq {blob : Bytes} (h16 : ¬value.length < 16) (hvalue : blob.Has p value) :
    Items.range value = some (dtbBe64 blob p, dtbBe64 blob (p + 8)) := by
  have hload (a : ℕ) (ha : a + 8 ≤ 16) : UInt64.ofNat (Bytes.beLoad (fun i => value.getD i 0) a 8) =
      dtbBe64 blob (p + a) := by
    refine Eq.trans (congrArg _ ?_) UInt64.ofNat_toNat
    rw [dtbBe64_toNat]
    refine Bytes.beLoad_congr fun i hi => ?_
    have hlt : a + i < value.length := by omega
    rw [List.getD_eq_getElem _ _ hlt, Nat.add_assoc]
    exact (hvalue _ _ (List.getElem?_eq_getElem hlt)).symm
  rw [Items.range, if_neg h16]
  dsimp only
  rw [hload 0 (by decide), hload 8 (by decide), Nat.add_zero]

theorem turn_prop {nameOff : ℕ} (h : Placed f p (Bytes.beDigits 4 3 ++ (Bytes.beDigits 4 value.length ++
    (Bytes.beDigits 4 nameOff ++ padded value)))) (hoff : nameOff < 2 ^ 32) (hlen : value.length + 3 < 2 ^ 32)
    (hhas : f.blob.Has (f.strings + nameOff) (name ++ [0])) (hname : 0 ∉ name) : turn f ⟨p, m, d⟩ =
      match if m ∧ name = regName then (Items.range value).filter fun r => r.1 ≠ 0 ∧ r.2 ≠ 0 else none with
      | some r => .call r.1 (if vmmRamLimit < r.2 then vmmRamLimit else r.2)
      | none => .next ⟨p + (12 + (padded value).length), m, d⟩ := by
  have htoken := h.left
  have hfirst := h.right
  rw [Bytes.length_beDigits] at hfirst
  have hsecond := hfirst.right
  rw [Bytes.length_beDigits] at hsecond
  have hvalue : Placed f (p + 4 + 8) (padded value) := by
    have := hsecond.right
    rwa [Bytes.length_beDigits] at this
  have hle := hvalue.le
  have hnat : (UInt32.ofNat value.length).toNat = value.length := by
    rw [UInt32.toNat_ofNat']
    exact Nat.mod_eq_of_lt (by omega)
  have hoffnat : (UInt32.ofNat nameOff).toNat = nameOff := by
    rw [UInt32.toNat_ofNat']
    exact Nat.mod_eq_of_lt hoff
  have hlong : 16 ≤ UInt32.ofNat value.length ↔ ¬value.length < 16 := by
    rw [UInt32.le_iff_toNat_le, hnat, not_lt]
    rfl
  rw [turn, if_neg htoken.token_le]
  dsimp only
  rw [htoken.be32, if_neg (by decide), if_neg (by decide), if_pos (by decide), if_neg (by omega),
    hfirst.left.be32, hsecond.left.be32, hnat, hoffnat, align4_eq hlen, ← length_padded]
  simp only [isReg_iff hhas hname, hlong]
  have hnext : p + 4 + 8 + (padded value).length = p + (12 + (padded value).length) := by omega
  rw [hnext]
  by_cases hreg : m ∧ name = regName
  · rw [if_pos hreg]
    by_cases h16 : value.length < 16
    · rw [if_neg fun h => h.2.1 h16, Items.range, if_pos h16]
      rfl
    · rw [if_pos ⟨hreg.1, h16, hreg.2⟩, range_eq h16 hvalue.left.has, Option.filter_some]
      split_ifs with hpair hpair' hpair' <;> simp_all
  · rw [if_neg hreg, if_neg fun h => hreg ⟨h.1, h.2.2⟩]

end Turns

def callOf (r : UInt64 × UInt64) : Turn := .call r.1 (if vmmRamLimit < r.2 then vmmRamLimit else r.2)

/-- From `c` the loop leads to the call for the first of the ranges, to `c'` if there is none. -/
def Leads (f : Fdt) (c : Cursor) (rs : List (UInt64 × UInt64)) (c' : Cursor) : Prop :=
  match rs.head? with
  | some r => ∃ c₁, Reaches (next f) c c₁ ∧ turn f c₁ = callOf r
  | none => Reaches (next f) c c'

section Walk

variable {f : Fdt} {p d : ℕ} {m : Bool} {name value : List UInt8} {c c₁ c₂ : Cursor} {t body rest : Items}
  {rs rs' : List (UInt64 × UInt64)}

theorem Leads.refl (f : Fdt) (c : Cursor) : Leads f c [] c := Relation.ReflTransGen.refl

theorem Leads.of_next (h : turn f c = .next c₁) : Leads f c [] c₁ := by
  refine Relation.ReflTransGen.single ?_
  rw [next, h]
  rfl

theorem Leads.append (h : Leads f c rs c₁) (h' : Leads f c₁ rs' c₂) : Leads f c (rs ++ rs') c₂ := by
  cases rs with
  | cons r rs => exact h
  | nil =>
    cases rs' with
    | nil => exact Relation.ReflTransGen.trans h h'
    | cons r rs' =>
      obtain ⟨c', hreach, hturn⟩ := h'
      exact ⟨c', Relation.ReflTransGen.trans h hreach, hturn⟩

theorem Placed.nop (h : Placed f p (Items.nop rest).bytes) :
    turn f ⟨p, m, d⟩ = .next ⟨p + 4, m, d⟩ ∧ Placed f (p + 4) rest.bytes :=
  ⟨turn_nop h.left, h.right⟩

theorem leads_prop {nameOff : ℕ} (h : Placed f p (Items.prop name nameOff value rest).bytes)
    (hlen : (Items.prop name nameOff value rest).bytes.length < 2 ^ 32)
    (hproper : 0 ∉ name ∧ nameOff < 2 ^ 32 ∧ f.blob.Has (f.strings + nameOff) (name ++ [0])) :
    Leads f ⟨p, m, d⟩ (if m ∧ name = regName then
        ((Items.range value).filter fun r => r.1 ≠ 0 ∧ r.2 ≠ 0).toList else [])
      ⟨p + (12 + (padded value).length), m, d⟩ ∧
    Placed f (p + (12 + (padded value).length)) rest.bytes := by
  obtain ⟨hname, hoff, hhas⟩ := hproper
  have hbytes : (Items.prop name nameOff value rest).bytes = (Bytes.beDigits 4 3 ++
      (Bytes.beDigits 4 value.length ++ (Bytes.beDigits 4 nameOff ++ padded value))) ++ rest.bytes := by
    simp only [Items.bytes, List.append_assoc]
  rw [hbytes] at h hlen
  have hhead : (Bytes.beDigits 4 3 ++ (Bytes.beDigits 4 value.length ++ (Bytes.beDigits 4 nameOff ++
      padded value))).length = 12 + (padded value).length := by
    simp only [List.length_append, Bytes.length_beDigits]
    omega
  have hrest := h.right
  rw [hhead] at hrest
  rw [List.length_append, hhead, length_padded] at hlen
  refine ⟨?_, hrest⟩
  have hturn := turn_prop (m := m) (d := d) h.left hoff (by omega) hhas hname
  split
  · next hreg =>
    rw [if_pos hreg] at hturn
    cases hrange : (Items.range value).filter fun r => r.1 ≠ 0 ∧ r.2 ≠ 0 with
    | none =>
      rw [hrange] at hturn
      exact .of_next hturn
    | some r =>
      rw [hrange] at hturn
      exact ⟨_, .refl, hturn⟩
  · next hreg =>
    rw [if_neg hreg] at hturn
    exact .of_next hturn

theorem leads_node (h : Placed f p (Items.node name body rest).bytes)
    (hlen : (Items.node name body rest).bytes.length < 2 ^ 32) (hname : 0 ∉ name)
    (hbody : ∀ q, Placed f q body.bytes →
      Leads f ⟨q, if d = 1 ∧ memoryAt <+: name then true else false, d + 1⟩ rs
        ⟨q + body.bytes.length, if d = 1 ∧ memoryAt <+: name then true else false, d + 1⟩) :
    Leads f ⟨p, false, d⟩ rs ⟨p + (8 + (padded (name ++ [0])).length + body.bytes.length), false, d⟩ ∧
      Placed f (p + (8 + (padded (name ++ [0])).length + body.bytes.length)) rest.bytes := by
  have hbytes : (Items.node name body rest).bytes = (Bytes.beDigits 4 1 ++ padded (name ++ [0])) ++
      (body.bytes ++ (Bytes.beDigits 4 2 ++ rest.bytes)) := by
    rw [Items.bytes, List.append_assoc]
  rw [hbytes] at h hlen
  have hhead : (Bytes.beDigits 4 1 ++ padded (name ++ [0])).length = 4 + (padded (name ++ [0])).length := by
    rw [List.length_append, Bytes.length_beDigits]
  have hlen' : name.length + 4 < 2 ^ 32 := by
    rw [List.length_append, hhead, length_padded, List.length_append, List.length_singleton] at hlen
    omega
  have hinner := h.right
  rw [hhead] at hinner
  have hend := hinner.right
  have hrest := hend.right
  have hp : p + (8 + (padded (name ++ [0])).length + body.bytes.length) =
      p + (4 + (padded (name ++ [0])).length) + body.bytes.length + (Bytes.beDigits 4 2).length := by
    rw [Bytes.length_beDigits]
    omega
  rw [hp]
  refine ⟨?_, hrest⟩
  have hbegin := turn_beginNode (m := false) (d := d) h.left hname hlen'
  rw [Nat.add_assoc] at hbegin
  have hfinish := turn_endNode (m := if d = 1 ∧ memoryAt <+: name then true else false) (d := d + 1) hend.left
  have hout : (if (if d = 1 ∧ memoryAt <+: name then true else false) = true ∧ d + 1 = 2 then false
      else if d = 1 ∧ memoryAt <+: name then true else false) = false := by
    by_cases hmemory : d = 1 ∧ memoryAt <+: name
    · simp [hmemory]
    · simp [hmemory]
  rw [hout] at hfinish
  have hthree := (Leads.of_next hbegin).append ((hbody _ hinner.left).append (.of_next hfinish))
  rw [List.nil_append, List.append_nil] at hthree
  exact hthree

theorem Items.length_nop (rest : Items) : rest.nop.bytes.length = 4 + rest.bytes.length := by
  rw [Items.bytes, List.length_append, Bytes.length_beDigits]

theorem Items.length_prop (name value : List UInt8) (nameOff : ℕ) (rest : Items) :
    (rest.prop name nameOff value).bytes.length = 12 + (padded value).length + rest.bytes.length := by
  simp only [Items.bytes, List.length_append, Bytes.length_beDigits]
  omega

theorem Items.length_node (name : List UInt8) (body rest : Items) : (body.node name rest).bytes.length =
    8 + (padded (name ++ [0])).length + body.bytes.length + rest.bytes.length := by
  simp only [Items.bytes, List.length_append, Bytes.length_beDigits]
  omega

theorem leads_outside (h : Placed f p t.bytes) (hlen : t.bytes.length < 2 ^ 32)
    (hproper : t.Proper f.blob f.strings) (hd : 2 ≤ d) :
    Leads f ⟨p, false, d⟩ [] ⟨p + t.bytes.length, false, d⟩ := by
  induction t generalizing p d with
  | nil => exact .refl f _
  | nop rest ih =>
    obtain ⟨hturn, hrest⟩ := h.nop
    rw [Items.length_nop] at hlen ⊢
    rw [← Nat.add_assoc]
    exact (Leads.of_next hturn).append (ih hrest (by omega) hproper hd)
  | prop name nameOff value rest ih =>
    obtain ⟨hlead, hrest⟩ := leads_prop (m := false) (d := d) h hlen hproper.1
    rw [if_neg fun hm => Bool.false_ne_true hm.1] at hlead
    rw [Items.length_prop] at hlen ⊢
    rw [← Nat.add_assoc]
    exact hlead.append (ih hrest (by omega) hproper.2 hd)
  | node name body rest ihbody ihrest =>
    obtain ⟨hname, hbody, hproper⟩ := hproper
    have hlen' := hlen
    rw [Items.length_node] at hlen ⊢
    rw [← Nat.add_assoc]
    obtain ⟨hlead, hrest⟩ := leads_node (d := d) h hlen' hname fun q hq => by
      rw [if_neg fun hd' => absurd hd'.1 (by omega)]
      exact ihbody hq (by omega) hbody (by omega)
    exact hlead.append (ihrest hrest (by omega) hproper hd)

theorem leads_memory (h : Placed f p t.bytes) (hlen : t.bytes.length < 2 ^ 32)
    (hproper : t.Proper f.blob f.strings) (hnode : t.HasNoNode) :
    Leads f ⟨p, true, 2⟩ t.regs ⟨p + t.bytes.length, true, 2⟩ := by
  induction t generalizing p with
  | nil => exact .refl f _
  | nop rest ih =>
    obtain ⟨hturn, hrest⟩ := h.nop
    rw [Items.length_nop] at hlen ⊢
    rw [← Nat.add_assoc]
    exact (Leads.of_next hturn).append (ih hrest (by omega) hproper hnode)
  | prop name nameOff value rest ih =>
    obtain ⟨hlead, hrest⟩ := leads_prop (m := true) (d := 2) h hlen hproper.1
    have hregs : (Items.prop name nameOff value rest).regs = (if true = true ∧ name = regName then
        ((Items.range value).filter fun r => r.1 ≠ 0 ∧ r.2 ≠ 0).toList else []) ++ rest.regs := by
      by_cases hreg : name = regName
      · simp [Items.regs, hreg]
      · simp [Items.regs, hreg]
    rw [Items.length_prop] at hlen ⊢
    rw [← Nat.add_assoc, hregs]
    exact hlead.append (ih hrest (by omega) hproper.2 hnode)
  | node => exact hnode.elim

theorem leads_root (h : Placed f p t.bytes) (hlen : t.bytes.length < 2 ^ 32)
    (hproper : t.Proper f.blob f.strings) (hleaf : t.MemoryLeaf) :
    Leads f ⟨p, false, 1⟩ t.memoryRegs ⟨p + t.bytes.length, false, 1⟩ := by
  induction t generalizing p with
  | nil => exact .refl f _
  | nop rest ih =>
    obtain ⟨hturn, hrest⟩ := h.nop
    rw [Items.length_nop] at hlen ⊢
    rw [← Nat.add_assoc]
    exact (Leads.of_next hturn).append (ih hrest (by omega) hproper hleaf)
  | prop name nameOff value rest ih =>
    obtain ⟨hlead, hrest⟩ := leads_prop (m := false) (d := 1) h hlen hproper.1
    rw [if_neg fun hm => Bool.false_ne_true hm.1] at hlead
    rw [Items.length_prop] at hlen ⊢
    rw [← Nat.add_assoc]
    exact hlead.append (ih hrest (by omega) hproper.2 hleaf)
  | node name body rest _ ih =>
    obtain ⟨hname, hbody, hproper⟩ := hproper
    obtain ⟨hnode, hleaf⟩ := hleaf
    have hlen' := hlen
    rw [Items.length_node] at hlen ⊢
    rw [← Nat.add_assoc, Items.memoryRegs]
    split
    · next hmemory =>
      obtain ⟨hlead, hrest⟩ := leads_node (d := 1) h hlen' hname fun q hq => by
        rw [if_pos ⟨rfl, hmemory⟩]
        exact leads_memory hq (by omega) hbody (hnode hmemory)
      exact hlead.append (ih hrest (by omega) hproper hleaf)
    · next hother =>
      obtain ⟨hlead, hrest⟩ := leads_node (d := 1) h hlen' hname fun q hq => by
        rw [if_neg fun hd => hother hd.2]
        exact leads_outside hq (by omega) hbody le_rfl
      exact hlead.append (ih hrest (by omega) hproper hleaf)

theorem leads_nops (n : ℕ) (h : Placed f p (Items.nops n t).bytes)
    (ht : ∀ q, Placed f q t.bytes → Leads f ⟨q, false, 0⟩ rs ⟨q + t.bytes.length, false, 0⟩) :
    Leads f ⟨p, false, 0⟩ rs ⟨p + (Items.nops n t).bytes.length, false, 0⟩ := by
  induction n generalizing p with
  | zero => exact ht p h
  | succ n ih =>
    obtain ⟨hturn, hrest⟩ := Placed.nop h
    rw [Items.nops, Items.length_nop, ← Nat.add_assoc]
    exact (Leads.of_next hturn).append (ih hrest)

theorem next_eq_some_iff : next f c = some c₁ ↔ turn f c = .next c₁ := by
  unfold next
  cases turn f c <;> simp

theorem next_le (h : next f c = some c₁) : c.p + 4 ≤ f.stop ∧ c.p + 4 ≤ c₁.p := by
  have hturn := next_eq_some_iff.mp h
  unfold turn at hturn
  by_cases hstop : f.stop < c.p + 4
  · rw [if_pos hstop] at hturn
    cases hturn
  · rw [if_neg hstop] at hturn
    refine ⟨not_lt.mp hstop, ?_⟩
    dsimp only at hturn
    split_ifs at hturn <;> cases hturn <;> dsimp only <;> omega

theorem run_eq {n : ℕ} (hn : f.stop - c.p ≤ n) (h : Reaches (next f) c c₁) (hstop : next f c₁ = none) :
    Loop.run (next f) n c = c₁ := by
  have hdec (c c' : Cursor) (hc : next f c = some c') : f.stop - c'.p < f.stop - c.p := by
    have := next_le hc
    omega
  exact Loop.stop_unique (Loop.reaches_run _ n c) h (Loop.run_stops (fun c => f.stop - c.p) hdec hn) hstop

end Walk

namespace DeviceTree

variable (t : DeviceTree)

def fdt : Fdt :=
  ⟨t.blob, (dtbBe32 t.blob 12).toNat, (dtbBe32 t.blob 8).toNat + (dtbBe32 t.blob 36).toNat⟩

theorem leads : ∃ c, Leads t.fdt ⟨(dtbBe32 t.blob 8).toNat, false, 0⟩ t.root.memoryRegs c ∧
    turn t.fdt c = .stop := by
  have hplaced : Placed t.fdt (dtbBe32 t.blob 8).toNat _ := ⟨t.block, Nat.add_le_add_left t.size _⟩
  have hlen := t.size.trans_lt (dtbBe32 t.blob 36).toNat_lt
  rw [List.length_append] at hlen
  have hnops (n : ℕ) (r : Items) : r.bytes.length ≤ (Items.nops n r).bytes.length := by
    induction n with
    | zero => exact le_rfl
    | succ n ih =>
      rw [Items.nops, Items.length_nop]
      omega
  have hnode := hnops t.before (.node [] t.root (Items.nops t.after .nil))
  have hlength := Items.length_node [] t.root (Items.nops t.after .nil)
  refine ⟨_, leads_nops t.before hplaced.left fun q hq => ?_, turn_end hplaced.right⟩
  obtain ⟨hlead, hrest⟩ := leads_node (d := 0) hq (by omega) List.not_mem_nil fun q hq => by
    rw [if_neg fun h => absurd h.1 (by decide)]
    exact leads_root hq (by omega) t.proper t.memoryLeaf
  have hafter := leads_nops t.after hrest fun q _ => Leads.refl t.fdt ⟨q, false, 0⟩
  rw [hlength, ← Nat.add_assoc]
  have hboth := hlead.append hafter
  rwa [List.append_nil] at hboth

theorem last_turn : turn t.fdt (Loop.run (next t.fdt) (dtbBe32 t.blob 36).toNat
      ⟨(dtbBe32 t.blob 8).toNat, false, 0⟩) =
    match t.root.memoryRegs.head? with
    | some r => callOf r
    | none => .stop := by
  have hturns : t.fdt.stop - (dtbBe32 t.blob 8).toNat ≤ (dtbBe32 t.blob 36).toNat := by
    rw [fdt, Nat.add_sub_cancel_left]
  have hlast {c₁ : Cursor} {u : Turn} (hturn : turn t.fdt c₁ = u) (hu : ∀ c, u ≠ .next c) :
      next t.fdt c₁ = none := by
    cases hnext : next t.fdt c₁ with
    | none => rfl
    | some c' => exact absurd (hturn.symm.trans (next_eq_some_iff.mp hnext)) (hu c')
  obtain ⟨c, hlead, hstop⟩ := t.leads
  cases hregs : t.root.memoryRegs with
  | nil =>
    rw [hregs] at hlead
    rw [run_eq hturns hlead (hlast hstop nofun)]
    exact hstop
  | cons r rs =>
    rw [hregs] at hlead
    obtain ⟨c₁, hreach, hcall⟩ := hlead
    rw [run_eq hturns hreach (hlast hcall nofun)]
    exact hcall

end DeviceTree

/-- The allocator gets the memory that the tree gives, if it gives any. -/
theorem dtbConfigureMemory_eq (t : DeviceTree) (r : MemoryRange) : dtbConfigureMemory r (some t.blob) =
    (t.memory, match t.memory with
      | none => r
      | some (base, size) => pmmSetMemoryRange r base size) := by
  have hlast := t.last_turn
  unfold DeviceTree.fdt at hlast
  rw [dtbConfigureMemory]
  dsimp only
  rw [if_neg (not_not.mpr t.magic), hlast, DeviceTree.memory]
  cases t.root.memoryRegs with
  | nil => rfl
  | cons => rfl

def sampleRoot : Items :=
  .nop (.node [99, 112, 117] .nil (.node (memoryAt ++ [52])
    (.prop regName 0 [0, 0, 0, 0, 0x40, 0, 0, 0, 0, 0, 0, 1, 0x80, 0, 0, 0] .nil) .nil))

def sampleBlock : List UInt8 := (Items.nops 1 (.node [] sampleRoot .nil)).bytes ++ Bytes.beDigits 4 9

def sampleBlob : Bytes := fun i =>
  (([0xD00DFEED, 0, 40, 40 + sampleBlock.length, 0, 17, 16, 0, 4, sampleBlock.length].flatMap
    (Bytes.beDigits 4)) ++ (sampleBlock ++ (regName ++ [0]))).getD i 0

def sampleTree : DeviceTree where
  blob := sampleBlob
  before := 1
  root := sampleRoot
  after := 0
  magic := by decide +kernel
  block := by decide +kernel
  size := by decide +kernel
  proper := ⟨by decide, trivial, by decide, ⟨⟨by decide, by decide, by decide +kernel⟩, trivial⟩, trivial⟩
  memoryLeaf := ⟨fun _ => trivial, fun _ => trivial, trivial⟩

theorem dtbConfigureMemory_sample :
    (dtbConfigureMemory .boot (some sampleBlob)).1 = some (0x40000000, 0x100000000) := by
  have h := congrArg Prod.fst (dtbConfigureMemory_eq sampleTree .boot)
  exact h.trans (by decide +kernel)

end GcAos.Boot
