import GcAos.Lib.Exec
import Mathlib.Data.List.FinRange
import Mathlib.Tactic

/-! The descriptors of `kernel/syscall/syscall.c` and the system calls on files. A file is an object
that `vfs_open` has returned, and what the file system answers comes with a call. Errors are
negative numbers. -/

namespace GcAos.Syscall
open Lib

def maxFds : ℕ := 256
def enoent : ℤ := 2
def ebadf : ℤ := 9
def efault : ℤ := 14
def emfile : ℤ := 24

abbrev Fd : Type := Fin maxFds

variable {α : Type*}

/-- `struct fd_entry`; the null pointer is `none`. -/
@[ext]
structure FdEntry (α : Type*) where
  file : Option α
  flags : ℤ
  inUse : Bool

def FdEntry.empty : FdEntry α := ⟨none, 0, false⟩

structure FdTable (α : Type*) where
  fdTable : Fd → FdEntry α
  fdTableInitialized : Bool

namespace FdTable

def static : FdTable α where
  fdTable _ := .empty
  fdTableInitialized := false

def set (t : FdTable α) (i : Fd) (e : FdEntry α) : FdTable α :=
  { t with fdTable := Function.update t.fdTable i e }

end FdTable

/-- Only the first call does anything. -/
def initFdTable (t : FdTable α) : FdTable α :=
  if t.fdTableInitialized then t
  else
    { fdTable := fun i => { file := none, flags := 0, inUse := i.val < 3 }
      fdTableInitialized := true }

def allocFd (t : FdTable α) : Option Fd × FdTable α :=
  let t := initFdTable t
  match (List.finRange maxFds).find? fun i => 3 ≤ i.val && !(t.fdTable i).inUse with
  | none => (none, t)
  | some i => (some i, t.set i { t.fdTable i with inUse := true })

/-- The place of an `int`, if it is one of a descriptor. -/
def slotOf (fd : ℤ) : Option Fd :=
  if h : 0 ≤ fd ∧ fd.toNat < maxFds then some ⟨fd.toNat, h.2⟩ else none

def freeFd (t : FdTable α) (fd : ℤ) : FdTable α :=
  match slotOf fd with
  | none => t
  | some i => t.set i .empty

def getFile (t : FdTable α) (fd : ℤ) : Option α :=
  match slotOf fd with
  | none => none
  | some i => if (t.fdTable i).inUse then (t.fdTable i).file else none

/-- The cast of an argument to `int`. -/
def toInt (x : UInt64) : ℤ := (x.toNat : ℤ).bmod (2 ^ 32)

def kernelStart : ℕ := 0x40000000
def kernelEnd : ℕ := 0x50000000

def isValidUserPtr (ptr len : UInt64) : Bool :=
  if ptr = 0 then false
  else if 0 < len.toNat ∧ 2 ^ 64 - 1 - len.toNat < ptr.toNat then false
  else
    let ptrEnd := ptr.toNat + len.toNat
    if 0x10000000 ≤ ptr.toNat ∧ ptrEnd ≤ 0x14000000 then true
    else if 0x44000000 ≤ ptr.toNat ∧ ptrEnd < 0x50000000 then true
    else if kernelStart ≤ ptr.toNat ∧ ptr.toNat < kernelEnd then false
    else true

/-- What a call on a descriptor returns; `op` is what the file system returns for its file. -/
def onFile (t : FdTable α) (fd : ℤ) (op : α → ℤ) : ℤ :=
  match getFile t fd with
  | none => -ebadf
  | some f => op f

def sysRead (t : FdTable α) (fd buf count : UInt64) (vfsRead : α → ℤ) : ℤ × FdTable α :=
  let t := initFdTable t
  if !isValidUserPtr buf count then (-efault, t)
  else if fd = 0 then (0, t)
  else (onFile t (toInt fd) vfsRead, t)

/-- Standard output and standard error go to the console. -/
def sysWrite (t : FdTable α) (fd _buf count : UInt64) (vfsWrite : α → ℤ) : ℤ × FdTable α :=
  let t := initFdTable t
  if fd = 1 ∨ fd = 2 then ((count.toNat : ℤ).bmod (2 ^ 64), t)
  else (onFile t (toInt fd) vfsWrite, t)

def sysLseek (t : FdTable α) (fd _offset _whence : UInt64) (vfsLseek : α → ℤ) : ℤ × FdTable α :=
  let t := initFdTable t
  (onFile t (toInt fd) vfsLseek, t)

/-- `opened` is what `vfs_open` returns for the path, the flags and the mode. -/
def sysOpenat (t : FdTable α) (_dirfd _pathname flags _mode : UInt64) (opened : Option α) :
    ℤ × FdTable α :=
  match allocFd (initFdTable t) with
  | (none, t) => (-emfile, t)
  | (some fd, t) =>
    match opened with
    | none => (-enoent, freeFd t fd.val)
    | some f => (fd.val, t.set fd { t.fdTable fd with file := some f, flags := toInt flags })

/-- Next to the result and the table, the file that is passed to `vfs_close`. -/
def sysClose (t : FdTable α) (fd : UInt64) : ℤ × Option α × FdTable α :=
  let t := initFdTable t
  if fd < 3 then (0, none, t)
  else
    match getFile t (toInt fd) with
    | none => (-ebadf, none, t)
    | some f => (0, some f, freeFd t (toInt fd))

inductive FdCall (α : Type*)
  | openat (dirfd pathname flags mode : UInt64) (opened : Option α)
  | close (fd : UInt64)
  | read (fd buf count : UInt64) (vfsRead : α → ℤ)
  | write (fd buf count : UInt64) (vfsWrite : α → ℤ)
  | lseek (fd offset whence : UInt64) (vfsLseek : α → ℤ)

/-- The table with the files that `vfs_open` has returned and those that were passed to `vfs_close`, the
last ones first. -/
structure Files (α : Type*) where
  table : FdTable α
  opened : List α
  closed : List α

namespace Files

def boot : Files α := ⟨.static, [], []⟩

def call (s : Files α) : FdCall α → Files α
  | .openat dirfd pathname flags mode opened =>
    let (ret, t) := sysOpenat s.table dirfd pathname flags mode opened
    ⟨t, if 0 ≤ ret then opened.toList ++ s.opened else s.opened, s.closed⟩
  | .close fd =>
    let (_, f, t) := sysClose s.table fd
    ⟨t, s.opened, f.toList ++ s.closed⟩
  | .read fd buf count vfsRead => { s with table := (sysRead s.table fd buf count vfsRead).2 }
  | .write fd buf count vfsWrite => { s with table := (sysWrite s.table fd buf count vfsWrite).2 }
  | .lseek fd offset whence vfsLseek => { s with table :=
      (sysLseek s.table fd offset whence vfsLseek).2 }

/-- The file that `vfs_open` returns is none it has returned before. -/
def Fresh (s : Files α) : FdCall α → Prop
  | .openat _ _ _ _ opened => ∀ f, opened = some f → f ∉ s.opened
  | _ => True

def Step (s : Files α) (c : FdCall α) (s' : Files α) : Prop := s.Fresh c ∧ s.call c = s'

end Files

/-- What holds of the descriptors, given the files that have been opened and closed. -/
structure FdTable.Sound (t : FdTable α) (opened closed : List α) : Prop where
  reserved : ∀ i : Fd, i.val < 3 → (t.fdTable i).inUse = true
  holds : ∀ i : Fd, 3 ≤ i.val → (t.fdTable i).inUse = true →
    ∃ f ∈ opened, (t.fdTable i).file = some f ∧ f ∉ closed
  distinct : ∀ i j : Fd, 3 ≤ i.val → 3 ≤ j.val → (t.fdTable i).inUse = true →
    (t.fdTable j).inUse = true →
    i ≠ j → (t.fdTable i).file ≠ (t.fdTable j).file
  closed_nodup : closed.Nodup

/-! The invariant: entries that are not in use are empty, and the reserved ones hold no file. -/

structure Files.Inv (s : Files α) : Prop where
  ready : s.table.fdTableInitialized = true
  reserved : ∀ i : Fd, i.val < 3 → s.table.fdTable i = ⟨none, 0, true⟩
  idle : ∀ i : Fd, (s.table.fdTable i).inUse = false → s.table.fdTable i = .empty
  holds : ∀ i : Fd, 3 ≤ i.val → (s.table.fdTable i).inUse = true →
    ∃ f ∈ s.opened, (s.table.fdTable i).file = some f ∧ f ∉ s.closed
  inj : ∀ i j f, (s.table.fdTable i).file = some f → (s.table.fdTable j).file = some f → i = j
  closed_nodup : s.closed.Nodup
  closed_opened : ∀ f ∈ s.closed, f ∈ s.opened

variable {t : FdTable α} {s s' : Files α} {c : FdCall α} {i j : Fd} {e : FdEntry α}

@[simp] theorem FdTable.set_self : (t.set i e).fdTable i = e := Function.update_self _ _ _

theorem FdTable.set_of_ne (h : j ≠ i) : (t.set i e).fdTable j = t.fdTable j :=
  Function.update_of_ne h _ _

theorem FdTable.set_set (e' : FdEntry α) : (t.set i e).set i e' = t.set i e' := by
  unfold FdTable.set
  rw [Function.update_idem]

theorem FdTable.set_eq_self (h : t.fdTable i = e) : t.set i e = t := by
  unfold FdTable.set
  rw [← h, Function.update_eq_self]

theorem initFdTable_of_ready (h : t.fdTableInitialized = true) : initFdTable t = t := if_pos h

theorem initFdTable_ready (t : FdTable α) : (initFdTable t).fdTableInitialized = true := by
  unfold initFdTable
  split
  · next h => exact h
  · rfl

@[simp] theorem initFdTable_idem (t : FdTable α) : initFdTable (initFdTable t) = initFdTable t :=
  initFdTable_of_ready (initFdTable_ready t)

@[simp] theorem slotOf_val (i : Fd) : slotOf i.val = some i := by
  have hi := i.isLt
  simp [slotOf]

theorem sysOpenat_cases (dirfd pathname flags mode : UInt64) (opened : Option α)
    (hidle : ∀ i : Fd, ((initFdTable t).fdTable i).inUse = false → (initFdTable t).fdTable i = .empty) :
    (∃ ret, ret < 0 ∧ sysOpenat t dirfd pathname flags mode opened = (ret, initFdTable t)) ∨
    ∃ fd f, opened = some f ∧ 3 ≤ fd.val ∧ ((initFdTable t).fdTable fd).inUse = false ∧
      sysOpenat t dirfd pathname flags mode opened =
        ((fd.val : ℤ), (initFdTable t).set fd ⟨some f, toInt flags, true⟩) := by
  unfold sysOpenat allocFd
  dsimp only
  rw [initFdTable_idem]
  cases hfind : (List.finRange maxFds).find? fun i =>
      3 ≤ i.val && !((initFdTable t).fdTable i).inUse with
  | none => exact .inl ⟨_, by decide, rfl⟩
  | some fd =>
    have hfd := List.find?_some hfind
    rw [Bool.and_eq_true, decide_eq_true_eq, Bool.not_eq_true'] at hfd
    cases opened with
    | none =>
      refine .inl ⟨-enoent, by decide, ?_⟩
      dsimp only
      rw [freeFd, slotOf_val]
      dsimp only
      rw [FdTable.set_set, FdTable.set_eq_self (hidle fd hfd.2)]
    | some f =>
      refine .inr ⟨fd, f, rfl, hfd.1, hfd.2, ?_⟩
      dsimp only
      rw [FdTable.set_self, FdTable.set_set]

theorem getFile_eq_some {fd : ℤ} {f : α} (h : getFile t fd = some f) :
    ∃ i, slotOf fd = some i ∧ (t.fdTable i).inUse = true ∧ (t.fdTable i).file = some f := by
  unfold getFile at h
  split at h
  · exact absurd h (by simp)
  next i hi =>
  split at h
  · next huse => exact ⟨i, hi, huse, h⟩
  · exact absurd h (by simp)

theorem sysClose_cases (t : FdTable α) (fd : UInt64) :
    (∃ ret, sysClose t fd = (ret, none, initFdTable t)) ∨
    ∃ i f, ((initFdTable t).fdTable i).inUse = true ∧ ((initFdTable t).fdTable i).file = some f ∧
      sysClose t fd = (0, some f, (initFdTable t).set i .empty) := by
  unfold sysClose
  dsimp only
  split
  · exact .inl ⟨_, rfl⟩
  split
  · exact .inl ⟨_, rfl⟩
  · next f hf =>
    obtain ⟨i, hi, huse, hfile⟩ := getFile_eq_some hf
    refine .inr ⟨i, f, huse, hfile, ?_⟩
    rw [freeFd, hi]

theorem sysRead_table (t : FdTable α) (fd buf count : UInt64) (vfsRead : α → ℤ) :
    (sysRead t fd buf count vfsRead).2 = initFdTable t := by
  unfold sysRead
  dsimp only
  split
  · rfl
  split <;> rfl

theorem sysWrite_table (t : FdTable α) (fd buf count : UInt64) (vfsWrite : α → ℤ) :
    (sysWrite t fd buf count vfsWrite).2 = initFdTable t := by
  unfold sysWrite
  dsimp only
  split <;> rfl

theorem sysLseek_table (t : FdTable α) (fd offset whence : UInt64) (vfsLseek : α → ℤ) :
    (sysLseek t fd offset whence vfsLseek).2 = initFdTable t := rfl

namespace Files

def ready (s : Files α) : Files α := { s with table := initFdTable s.table }

theorem boot_entry (i : Fd) :
    (boot : Files α).ready.table.fdTable i = { file := none, flags := 0, inUse := i.val < 3 } := rfl

theorem boot_inv : (boot : Files α).ready.Inv where
  ready := rfl
  reserved i hi := by
    rw [boot_entry, decide_eq_true hi]
  idle i hi := by
    rw [boot_entry] at hi ⊢
    dsimp only at hi
    rw [hi]
    rfl
  holds i hi huse := by
    rw [boot_entry] at huse
    exact absurd (of_decide_eq_true huse) (Nat.not_lt.mpr hi)
  inj i j f hi _ := by
    rw [boot_entry] at hi
    exact absurd hi (by simp)
  closed_nodup := .nil
  closed_opened f hf := absurd hf List.not_mem_nil

theorem Inv.file_opened (hs : s.Inv) {f : α} (h : (s.table.fdTable i).file = some f) :
    3 ≤ i.val ∧ (s.table.fdTable i).inUse = true ∧ f ∈ s.opened ∧ f ∉ s.closed := by
  have hi : 3 ≤ i.val := by
    by_contra hlt
    rw [hs.reserved i (Nat.lt_of_not_le hlt)] at h
    exact absurd h (by simp)
  have huse : (s.table.fdTable i).inUse = true := by
    by_contra hno
    rw [hs.idle i (Bool.eq_false_of_not_eq_true hno)] at h
    exact absurd h (by simp [FdEntry.empty])
  obtain ⟨f', hf', hfile, hopen⟩ := hs.holds i hi huse
  obtain rfl := Option.some.inj (h.symm.trans hfile)
  exact ⟨hi, huse, hf', hopen⟩

theorem Inv.open (hs : s.Inv) {fd : Fd} {f : α} {flags : ℤ} (hfd : 3 ≤ fd.val) (hf : f ∉ s.opened) :
    Inv ⟨s.table.set fd ⟨some f, flags, true⟩, f :: s.opened, s.closed⟩ where
  ready := hs.ready
  reserved i hi := by
    have hne : i ≠ fd := by
      rintro rfl
      omega
    exact (FdTable.set_of_ne hne).trans (hs.reserved i hi)
  idle i hi := by
    by_cases hne : i = fd
    · subst hne
      rw [FdTable.set_self] at hi
      exact absurd hi (by simp)
    · rw [FdTable.set_of_ne hne] at hi
      exact (FdTable.set_of_ne hne).trans (hs.idle i hi)
  holds i hi huse := by
    by_cases hne : i = fd
    · subst hne
      rw [FdTable.set_self]
      exact ⟨f, List.mem_cons_self, rfl, fun hclosed => hf (hs.closed_opened f hclosed)⟩
    · rw [FdTable.set_of_ne hne] at huse ⊢
      obtain ⟨f', hf', hfile⟩ := hs.holds i hi huse
      exact ⟨f', List.mem_cons_of_mem _ hf', hfile⟩
  inj i j g hi hj := by
    have hold : ∀ k, k ≠ fd → (s.table.fdTable k).file = some g → g ≠ f := by
      rintro k - hk rfl
      exact hf (hs.file_opened hk).2.2.1
    by_cases hie : i = fd <;> by_cases hje : j = fd
    · exact hie.trans hje.symm
    · subst hie
      rw [FdTable.set_self] at hi
      rw [FdTable.set_of_ne hje] at hj
      exact absurd (Option.some.inj hi).symm (hold j hje hj)
    · subst hje
      rw [FdTable.set_self] at hj
      rw [FdTable.set_of_ne hie] at hi
      exact absurd (Option.some.inj hj).symm (hold i hie hi)
    · rw [FdTable.set_of_ne hie] at hi
      rw [FdTable.set_of_ne hje] at hj
      exact hs.inj i j g hi hj
  closed_nodup := hs.closed_nodup
  closed_opened g hg := List.mem_cons_of_mem _ (hs.closed_opened g hg)

theorem Inv.close (hs : s.Inv) {f : α} (hfile : (s.table.fdTable i).file = some f) :
    Inv ⟨s.table.set i .empty, s.opened, f :: s.closed⟩ := by
  obtain ⟨hi, -, hopened, hopen⟩ := hs.file_opened hfile
  refine ⟨hs.ready, ?_, ?_, ?_, ?_, List.nodup_cons.mpr ⟨hopen, hs.closed_nodup⟩, ?_⟩
  · intro j hj
    have hne : j ≠ i := by
      rintro rfl
      omega
    exact (FdTable.set_of_ne hne).trans (hs.reserved j hj)
  · intro j hj
    by_cases hne : j = i
    · subst hne
      exact FdTable.set_self
    · rw [FdTable.set_of_ne hne] at hj
      exact (FdTable.set_of_ne hne).trans (hs.idle j hj)
  · intro j hj huse
    by_cases hne : j = i
    · subst hne
      rw [FdTable.set_self] at huse
      exact absurd huse (by simp [FdEntry.empty])
    · rw [FdTable.set_of_ne hne] at huse ⊢
      obtain ⟨g, hg, hgfile, hgopen⟩ := hs.holds j hj huse
      refine ⟨g, hg, hgfile, fun hmem => ?_⟩
      rcases List.mem_cons.mp hmem with rfl | hmem
      · exact hne (hs.inj j i g hgfile hfile)
      · exact hgopen hmem
  · intro j k g hj hk
    have hne : ∀ l, ((s.table.set i .empty).fdTable l).file = some g → l ≠ i := by
      rintro l hl rfl
      rw [FdTable.set_self] at hl
      exact absurd hl (by simp [FdEntry.empty])
    have hj' := hne j hj
    have hk' := hne k hk
    rw [FdTable.set_of_ne hj'] at hj
    rw [FdTable.set_of_ne hk'] at hk
    exact hs.inj j k g hj hk
  · intro g hg
    rcases List.mem_cons.mp hg with rfl | hg
    · exact hopened
    · exact hs.closed_opened g hg

theorem Inv.call (hs : s.ready.Inv) (hfresh : s.Fresh c) : (s.call c).Inv := by
  cases c with
  | openat dirfd pathname flags mode opened =>
    rcases sysOpenat_cases dirfd pathname flags mode opened hs.idle with
      ⟨ret, hret, heq⟩ | ⟨fd, f, rfl, hfd, -, heq⟩
    · rw [Files.call, heq]
      dsimp only
      rw [if_neg (not_le.mpr hret)]
      exact hs
    · rw [Files.call, heq]
      dsimp only
      rw [if_pos (Int.natCast_nonneg _)]
      exact hs.open hfd (hfresh f rfl)
  | close fd =>
    rcases sysClose_cases s.table fd with ⟨ret, heq⟩ | ⟨i, f, -, hfile, heq⟩
    · rw [Files.call, heq]
      exact hs
    · rw [Files.call, heq]
      exact hs.close hfile
  | read fd buf count vfsRead =>
    rw [Files.call, sysRead_table]
    exact hs
  | write fd buf count vfsWrite =>
    rw [Files.call, sysWrite_table]
    exact hs
  | lseek fd offset whence vfsLseek =>
    rw [Files.call, sysLseek_table]
    exact hs

theorem Inv.ready_eq (hs : s.Inv) : s.ready = s := by
  unfold Files.ready
  rw [initFdTable_of_ready hs.ready]

theorem Inv.sound (hs : s.Inv) : s.table.Sound s.opened s.closed where
  reserved i hi := by rw [hs.reserved i hi]
  holds := hs.holds
  distinct i j hi _ huse _ hne heq := by
    obtain ⟨f, -, hfile, -⟩ := hs.holds i hi huse
    exact hne (hs.inj i j f hfile (heq ▸ hfile))
  closed_nodup := hs.closed_nodup

end Files

/-- The descriptors in every run. The first call sets the table up, so at boot it is the table that the
first call works on. -/
theorem fd_table_invariant {calls : List (FdCall α)} (hrun : Exec Files.Step .boot calls s) :
    (initFdTable s.table).Sound s.opened s.closed ∧ (calls ≠ [] → initFdTable s.table = s.table) ∧
      ∀ dirfd pathname flags mode opened, (sysOpenat s.table dirfd pathname flags mode opened).1 < 0 →
        (sysOpenat s.table dirfd pathname flags mode opened).2 = initFdTable s.table := by
  have hinv : s.ready.Inv ∧ (calls ≠ [] → s.Inv) := by
    cases hrun with
    | nil => exact ⟨Files.boot_inv, fun h => absurd rfl h⟩
    | cons hstep hrest =>
      obtain ⟨hfresh, rfl⟩ := hstep
      have hs : s.Inv := by
        refine hrest.invariant (I := Files.Inv) ?_ (Files.boot_inv.call hfresh)
        rintro s c _ hs ⟨hfresh, rfl⟩
        exact Files.Inv.call (by rwa [hs.ready_eq]) hfresh
      exact ⟨by rwa [hs.ready_eq], fun _ => hs⟩
  obtain ⟨hready, hs⟩ := hinv
  refine ⟨hready.sound, fun h => initFdTable_of_ready (hs h).ready, ?_⟩
  intro dirfd pathname flags mode opened hfail
  rcases sysOpenat_cases dirfd pathname flags mode opened hready.idle with
    ⟨ret, -, heq⟩ | ⟨fd, f, -, -, -, heq⟩
  · rw [heq]
  · rw [heq] at hfail
    exact absurd hfail (not_lt.mpr (Int.natCast_nonneg _))

theorem fd_table_invariant_close :
    ∃ s : Files ℕ, Exec Files.Step .boot
        [.openat 0 0 2 0 (some 7), .openat 0 0 0 0 none, .close 0x100000003] s ∧
      s.closed = [7] ∧ s.table.Sound [7] [7] := by
  have hrun : ∃ s : Files ℕ, Exec Files.Step .boot
      [.openat 0 0 2 0 (some 7), .openat 0 0 0 0 none, .close 0x100000003] s ∧
      s.closed = [7] ∧ s.opened = [7] := by
    refine ⟨_, .cons ⟨?_, rfl⟩ (.cons ⟨?_, rfl⟩ (.cons ⟨trivial, rfl⟩ (.nil _))), ?_, ?_⟩
    · exact fun _ _ => List.not_mem_nil
    · exact fun f hf => absurd hf (by simp)
    · decide +kernel
    · decide +kernel
  obtain ⟨s, hrun, hclosed, hopened⟩ := hrun
  obtain ⟨hsound, heq, -⟩ := fd_table_invariant hrun
  rw [heq (by simp), hopened, hclosed] at hsound
  exact ⟨s, hrun, hclosed, hsound⟩

end GcAos.Syscall
