import GcAos.Loader.ElfImage

/-! A well-formed PIE file and what `elf_load_at` makes of it at any base: the segments, and on top of
them the words that the relocations write. -/

namespace GcAos.Loader
open Lib

/-! What the dynamic section says. -/

section Dynamic

variable (m : Bytes) (a : ℕ)

/-- Entry `k` of the dynamic section at `a`. -/
def dynEntry (k : ℕ) (f : DynField) : ℕ := field elf64Dyn m (a + elf64Dyn.size * k) f

/-- How many of the `n` entries from `k` on stand before `DT_NULL`. -/
def dynLen : ℕ → ℕ → ℕ
  | _, 0 => 0
  | k, n + 1 => if dynEntry m a k .tag = dtNull then 0 else dynLen (k + 1) n + 1

/-- The value of the last of the first `k` entries with this tag. -/
def dynValue (tag dflt : ℕ) : ℕ → ℕ
  | 0 => dflt
  | k + 1 => if dynEntry m a k .tag = tag then dynEntry m a k .val else dynValue tag dflt k

variable {m a}

theorem dynLen_tag_ne {k n j : ℕ} (h : j < dynLen m a k n) : dynEntry m a (k + j) .tag ≠ dtNull := by
  induction n generalizing k j with
  | zero => exact absurd h (Nat.not_lt_zero j)
  | succ n ih =>
    rw [dynLen] at h
    split at h
    · exact absurd h (Nat.not_lt_zero j)
    next hne =>
    cases j with
    | zero => exact hne
    | succ j =>
      rw [Nat.add_comm j 1, ← Nat.add_assoc]
      exact ih (Nat.lt_of_succ_lt_succ h)

theorem dynLen_tag_eq {k n : ℕ} (h : dynLen m a k n < n) :
    dynEntry m a (k + dynLen m a k n) .tag = dtNull := by
  induction n generalizing k with
  | zero => exact absurd h (Nat.not_lt_zero _)
  | succ n ih =>
    rw [dynLen] at h ⊢
    split at h
    · next hnull =>
      rw [if_pos hnull]
      exact hnull
    · next hne =>
      rw [if_neg hne, Nat.add_comm _ 1, ← Nat.add_assoc]
      exact ih (Nat.lt_of_succ_lt_succ h)

end Dynamic

namespace Call

variable (c : Call) (mem : Bytes)

def img : Bytes := c.image mem (fun _ => 0) (c.phnum mem)

def dynVal (tag dflt : ℕ) : ℕ :=
  match c.lastDynamic mem (c.phnum mem) with
  | none => dflt
  | some i =>
    let vaddr := c.seg mem i .vaddr
    dynValue (c.img mem) vaddr tag dflt
      (dynLen (c.img mem) vaddr 0 (c.seg mem i .memsz / elf64Dyn.size))

def relaAddr : ℕ := c.dynVal mem dtRela 0

/-- How many relocations there are; an address of 0 stands for no table. -/
def relaCount : ℕ := if c.relaAddr mem = 0 then 0 else c.dynVal mem dtRelasz 0 / elf64Rela.size

def rela (k : ℕ) (f : RelaField) : ℕ := field elf64Rela (c.img mem) (c.relaAddr mem + elf64Rela.size * k) f

def IsRelative (k : ℕ) : Prop := k < c.relaCount mem ∧ c.rela mem k .info % 2 ^ 32 = rAarch64Relative

/-- The address `v` lies in the word that relocation `k` writes. -/
def InTarget (k v : ℕ) : Prop := c.rela mem k .offset ≤ v ∧ v < c.rela mem k .offset + 8

/-- The address `v` lies in the table of relocations. -/
def InRela (v : ℕ) : Prop :=
  c.relaAddr mem ≤ v ∧ v < c.relaAddr mem + elf64Rela.size * c.relaCount mem

instance (k : ℕ) : Decidable (c.IsRelative mem k) := inferInstanceAs (Decidable (_ ∧ _))

instance (k v : ℕ) : Decidable (c.InTarget mem k v) := inferInstanceAs (Decidable (_ ∧ _))

/-- A well-formed PIE file, whose addresses lie in `[0, S)`. -/
structure WellFormed (S : ℕ) : Prop extends c.Segments mem S where
  dynamic_inside : ∀ i, c.lastDynamic mem (c.phnum mem) = some i →
    ∃ j, c.IsLoad mem j ∧ c.seg mem j .vaddr ≤ c.seg mem i .vaddr ∧
      c.seg mem i .vaddr + c.seg mem i .memsz ≤ c.seg mem j .vaddr + c.seg mem j .memsz
  dynamic_ends : ∀ i, c.lastDynamic mem (c.phnum mem) = some i →
    dynLen (c.img mem) (c.seg mem i .vaddr) 0 (c.seg mem i .memsz / elf64Dyn.size) <
      c.seg mem i .memsz / elf64Dyn.size
  relaEnt : c.dynVal mem dtRelaent elf64Rela.size = elf64Rela.size
  relaCount_lt : c.relaCount mem < 2 ^ 31
  rela_inside : ∀ v, c.InRela mem v → ∃ i, c.IsLoad mem i ∧ c.InSeg mem i v
  target_inside : ∀ k, c.IsRelative mem k → c.rela mem k .offset + 8 ≤ S
  target_apart : ∀ k v, c.IsRelative mem k → c.InTarget mem k v → ¬ c.InRela mem v

structure Placed (S : ℕ) : Prop extends c.Room S where
  dynamic_ne : ∀ i, c.lastDynamic mem (c.phnum mem) = some i → c.loadBase + c.seg mem i .vaddr ≠ 0

/-- No relocation behind `k` writes to its word. -/
def LastWord (k : ℕ) : Prop := ∀ j, k < j → c.IsRelative mem j →
  c.rela mem k .offset + 8 ≤ c.rela mem j .offset ∨ c.rela mem j .offset + 8 ≤ c.rela mem k .offset

/-- The memory `m` holds the file at the base and is otherwise the same as `mem`. -/
structure HasImage (m : Bytes) : Prop where
  file : ∀ i v, c.IsLoad mem i → c.seg mem i .vaddr ≤ v → v < c.seg mem i .vaddr + c.seg mem i .filesz →
    (∀ k, c.IsRelative mem k → ¬ c.InTarget mem k v) →
    m (c.loadBase + v) = mem (c.data + c.seg mem i .offset + (v - c.seg mem i .vaddr))
  bss : ∀ i v, c.IsLoad mem i → c.seg mem i .vaddr + c.seg mem i .filesz ≤ v →
    v < c.seg mem i .vaddr + c.seg mem i .memsz →
    (∀ k, c.IsRelative mem k → ¬ c.InTarget mem k v) → m (c.loadBase + v) = 0
  word : ∀ k, c.IsRelative mem k → c.LastWord mem k →
    m.load (c.loadBase + c.rela mem k .offset) 8 = (c.loadBase + c.rela mem k .addend) % 2 ^ 64
  elsewhere : ∀ x, (∀ i v, c.IsLoad mem i → c.InSeg mem i v → x ≠ c.loadBase + v) →
    (∀ k v, c.IsRelative mem k → c.InTarget mem k v → x ≠ c.loadBase + v) → m x = mem x

def rebase (b : ℕ) (h : b < 2 ^ 64) : Call := { c with loadBase := b, base_lt := h }

end Call

variable {c : Call} {mem : Bytes} {S : ℕ} {l : LoadState}

/-! The scan of the dynamic section. -/

/-- What the scan has found before entry `k`. -/
def dynFound (m : Bytes) (base a k : ℕ) : DynScan where
  dyn := base + a + elf64Dyn.size * k
  relaAddr := dynValue m a dtRela 0 k
  relaSize := dynValue m a dtRelasz 0 k
  relaEnt := dynValue m a dtRelaent elf64Rela.size k

theorem dynStep_found {m img : Bytes} {base a k : ℕ} (hlt : base + a + elf64Dyn.size * (k + 1) < 2 ^ 64)
    (hget : ∀ f, field elf64Dyn m (base + a + elf64Dyn.size * k) f = dynEntry img a k f)
    (hne : dynEntry img a k .tag ≠ dtNull) :
    dynStep m (dynFound img base a k) = some (dynFound img base a (k + 1)) := by
  have hdyn : (base + a + elf64Dyn.size * k + elf64Dyn.size) % 2 ^ 64 =
      base + a + elf64Dyn.size * (k + 1) := by
    rw [Nat.mul_succ] at hlt ⊢
    omega
  have h₁ : dtRela ≠ dtRelasz := by decide
  have h₂ : dtRela ≠ dtRelaent := by decide
  have h₃ : dtRelasz ≠ dtRelaent := by decide
  unfold dynStep dynFound
  dsimp only
  rw [hget, hget, hdyn, if_neg hne]
  simp only [dynValue]
  by_cases hrela : dynEntry img a k .tag = dtRela
  · simp only [hrela, if_true, if_neg h₁, if_neg h₂]
  by_cases hsize : dynEntry img a k .tag = dtRelasz
  · simp only [hsize, if_true, if_neg h₁.symm, if_neg h₃]
  by_cases hent : dynEntry img a k .tag = dtRelaent
  · simp only [hent, if_true, if_neg h₂.symm, if_neg h₃.symm]
  · simp only [if_neg hrela, if_neg hsize, if_neg hent]

section Load

variable (hwf : c.WellFormed mem S) (hplace : c.Placed mem S)
  (hl : l.Loaded c mem S (c.phnum mem))
include hwf hl

theorem mem_eq_img {i v : ℕ} (hi : c.IsLoad mem i) (hv : c.InSeg mem i v) :
    l.mem (c.loadBase + v) = c.img mem v := by
  have hin := hwf.inside i hi
  rw [hl.inside v (by unfold Call.InSeg at hv; omega)]
  exact image_congr hwf.toSegments hi hv

include hplace

theorem scanDynamic_found {i : ℕ} (hi : c.lastDynamic mem (c.phnum mem) = some i) :
    scanDynamic l.mem l.dynamic = some (dynFound (c.img mem) c.loadBase (c.seg mem i .vaddr)
      (dynLen (c.img mem) (c.seg mem i .vaddr) 0 (c.seg mem i .memsz / elf64Dyn.size))) := by
  have hends := hwf.dynamic_ends i hi
  obtain ⟨j, hj, hlo, hhi⟩ := hwf.dynamic_inside i hi
  have hin := hwf.inside j hj
  have hwrap := hplace.noWrap
  generalize hK : dynLen (c.img mem) (c.seg mem i .vaddr) 0 (c.seg mem i .memsz / elf64Dyn.size) = K
    at hends ⊢
  have hfit : elf64Dyn.size * (K + 1) ≤ c.seg mem i .memsz :=
    (Nat.mul_le_mul_left _ hends).trans (Nat.mul_div_le _ _)
  have hpos : 0 < elf64Dyn.size * (K + 1) := Nat.mul_pos (by decide) (Nat.succ_pos K)
  have hdyn : l.dynamic = c.loadBase + c.seg mem i .vaddr := by
    rw [hl.dynamic, Call.dynamicPtr, hi]
    exact Nat.mod_eq_of_lt (by omega)
  -- the entries are read from a segment
  have hget : ∀ k ≤ K, ∀ f, field elf64Dyn l.mem (c.loadBase + c.seg mem i .vaddr + elf64Dyn.size * k) f =
      dynEntry (c.img mem) (c.seg mem i .vaddr) k f := by
    intro k hk f
    have hk' : elf64Dyn.size * (k + 1) ≤ elf64Dyn.size * (K + 1) := Nat.mul_le_mul_left _ (by omega)
    rw [Nat.mul_succ] at hk'
    refine field_congr fun b hb => ?_
    have hseg := mem_eq_img hwf hl hj (v := c.seg mem i .vaddr + elf64Dyn.size * k + b)
      ⟨by omega, by omega⟩
    rw [Nat.mod_eq_of_lt (by omega), Nat.mod_eq_of_lt (by omega), ← hseg]
    congr 1
    omega
  have hreach : ∀ k ≤ K, StateTransition.Reaches (dynStep l.mem) (.init l.dynamic)
      (dynFound (c.img mem) c.loadBase (c.seg mem i .vaddr) k) := by
    intro k hk
    induction k with
    | zero =>
      rw [hdyn]
      exact .refl
    | succ k ih =>
      refine (ih (by omega)).tail (dynStep_found ?_ (hget k (by omega)) ?_)
      · have : elf64Dyn.size * (k + 1) < elf64Dyn.size * (K + 1) :=
          Nat.mul_lt_mul_of_pos_left (by omega) (by decide)
        omega
      · have hne := dynLen_tag_ne (m := c.img mem) (a := c.seg mem i .vaddr) (k := 0) (j := k) (hK ▸ hk)
        rwa [Nat.zero_add] at hne
  have hstop : dynStep l.mem (dynFound (c.img mem) c.loadBase (c.seg mem i .vaddr) K) = none := by
    have hnull := dynLen_tag_eq (m := c.img mem) (a := c.seg mem i .vaddr) (k := 0) (hK.symm ▸ hends)
    rw [hK, Nat.zero_add] at hnull
    rw [dynStep_eq_none_iff]
    exact (hget K le_rfl .tag).trans hnull
  have hlt : l.dynamic < 2 ^ 64 := by
    rw [hdyn]
    omega
  exact (scanDynamic_iff hlt).mpr ⟨hreach K le_rfl, hstop⟩

/-! The relocations. -/

theorem rela_get {m : Bytes} {k : ℕ} (hk : k < c.relaCount mem)
    (hm : ∀ v, c.InRela mem v → m (c.loadBase + v) = l.mem (c.loadBase + v)) (f : RelaField) :
    field elf64Rela m (((c.loadBase + c.relaAddr mem) % 2 ^ 64 + elf64Rela.size * k) % 2 ^ 64) f =
      c.rela mem k f := by
  have hwrap := hplace.noWrap
  have hnext : elf64Rela.size * (k + 1) ≤ elf64Rela.size * c.relaCount mem := Nat.mul_le_mul_left _ hk
  rw [Nat.mul_succ] at hnext
  refine field_congr fun b hb => ?_
  have hv : c.InRela mem (c.relaAddr mem + elf64Rela.size * k + b) := ⟨by omega, by omega⟩
  obtain ⟨i, hi, hin⟩ := hwf.rela_inside _ hv
  have hlt : c.relaAddr mem + elf64Rela.size * k + b < S := Nat.lt_of_lt_of_le hin.2 (hwf.inside i hi)
  have haddr : (((c.loadBase + c.relaAddr mem) % 2 ^ 64 + elf64Rela.size * k) % 2 ^ 64 + b) % 2 ^ 64 =
      c.loadBase + (c.relaAddr mem + elf64Rela.size * k + b) := by omega
  rw [haddr, hm _ hv, mem_eq_img hwf hl hi hin, Nat.mod_eq_of_lt (by omega)]

/-- The first `k` relocations have been made in the memory `m`. -/
structure Relocated (c : Call) (mem m : Bytes) (k : ℕ) (t : Reloc) : Prop where
  i : t.i = k
  same : ∀ x, (∀ j < k, c.IsRelative mem j → ∀ v, c.InTarget mem j v → x ≠ c.loadBase + v) → t.mem x = m x
  word : ∀ j < k, c.IsRelative mem j →
    (∀ j', j < j' → j' < k → c.IsRelative mem j' → c.rela mem j .offset + 8 ≤ c.rela mem j' .offset ∨
      c.rela mem j' .offset + 8 ≤ c.rela mem j .offset) →
    t.mem.load (c.loadBase + c.rela mem j .offset) 8 = (c.loadBase + c.rela mem j .addend) % 2 ^ 64

theorem Relocated.next {k : ℕ} {t : Reloc} (h : Relocated c mem l.mem k t) (hk : k < c.relaCount mem) :
    ∃ t', relocStep c ((c.loadBase + c.relaAddr mem) % 2 ^ 64) (c.relaCount mem) t = some t' ∧
      Relocated c mem l.mem (k + 1) t' := by
  have hwrap := hplace.noWrap
  have hget := rela_get hwf hplace hl hk (m := t.mem) fun v hv =>
    h.same _ fun j _ hj v' hv' heq =>
      hwf.target_apart j v' hj hv' (Nat.add_left_cancel heq ▸ hv)
  unfold relocStep
  rw [h.i, if_pos hk]
  dsimp only
  rw [hget, hget, hget]
  by_cases htype : c.rela mem k .info % 2 ^ 32 = rAarch64Relative
  · have hin := hwf.target_inside k ⟨hk, htype⟩
    have htarget : (c.loadBase + c.rela mem k .offset) % 2 ^ 64 = c.loadBase + c.rela mem k .offset :=
      Nat.mod_eq_of_lt (by omega)
    rw [if_pos htype]
    refine ⟨_, rfl, rfl, fun x hx => ?_, fun j hj hrel hlast => ?_⟩
    · have hxk : ¬ (c.loadBase + c.rela mem k .offset ≤ x ∧ x < c.loadBase + c.rela mem k .offset + 8) := by
        intro hin
        refine hx k (Nat.lt_succ_self k) ⟨hk, htype⟩ (x - c.loadBase) ⟨?_, ?_⟩ ?_ <;> omega
      dsimp only
      rw [htarget, poke_eq (by omega), Bytes.store, Bytes.blit, if_neg hxk]
      exact h.same x fun j hj => hx j (Nat.lt_succ_of_lt hj)
    · dsimp only
      rw [htarget, poke_eq (by omega)]
      rcases Nat.lt_succ_iff_lt_or_eq.mp hj with hlt | rfl
      · have hap := hlast k hlt (Nat.lt_succ_self k) ⟨hk, htype⟩
        rw [Bytes.load_store_of_apart (by omega)]
        exact h.word j hlt hrel fun j' hj' hj'k => hlast j' hj' (Nat.lt_succ_of_lt hj'k)
      · rw [Bytes.load_store]
        exact Nat.mod_mod _ _
  · rw [if_neg htype]
    refine ⟨_, rfl, rfl, fun x hx => ?_, fun j hj hrel hlast => ?_⟩
    · exact h.same x fun j hj => hx j (Nat.lt_succ_of_lt hj)
    · have hne : j ≠ k := by
        rintro rfl
        exact htype hrel.2
      exact h.word j (by omega) hrel fun j' hj' hj'k => hlast j' hj' (Nat.lt_succ_of_lt hj'k)

theorem run_relocated (writes : List Access) : Relocated c mem l.mem (c.relaCount mem)
    (Loop.run (relocStep c ((c.loadBase + c.relaAddr mem) % 2 ^ 64) (c.relaCount mem)) (c.relaCount mem)
      ⟨0, l.mem, writes⟩) := by
  have hall : ∀ k ≤ c.relaCount mem, Relocated c mem l.mem k
      (Loop.run (relocStep c ((c.loadBase + c.relaAddr mem) % 2 ^ 64) (c.relaCount mem)) k
        ⟨0, l.mem, writes⟩) := by
    intro k hk
    induction k with
    | zero => exact ⟨rfl, fun _ _ => rfl, fun j hj => absurd hj (Nat.not_lt_zero j)⟩
    | succ k ih =>
      obtain ⟨t, ht, hrel⟩ := (ih (Nat.le_of_succ_le hk)).next hwf hplace hl hk
      rw [Loop.run_succ ht]
      exact hrel
  exact hall _ le_rfl

omit hplace in
theorem Relocated.hasImage {t : Reloc} (h : Relocated c mem l.mem (c.relaCount mem) t) :
    c.HasImage mem t.mem := by
  have hnot : ∀ v, (∀ k, c.IsRelative mem k → ¬ c.InTarget mem k v) → t.mem (c.loadBase + v) =
      l.mem (c.loadBase + v) := by
    intro v hv
    refine h.same _ fun j _ hj v' hv' heq => hv j hj ?_
    rw [Nat.add_left_cancel heq]
    exact hv'
  have hsegByte : ∀ i v, c.IsLoad mem i → c.InSeg mem i v → l.mem (c.loadBase + v) = c.segByte mem i v := by
    intro i v hi hv
    rw [mem_eq_img hwf hl hi hv]
    exact image_of_inSeg hwf.toSegments le_rfl hi hi.1 hv
  refine ⟨fun i v hi hlo hhi hv => ?_, fun i v hi hlo hhi hv => ?_, fun k hk hlast => ?_, fun x hseg hrel => ?_⟩
  · have hle := hwf.filesz i hi
    rw [hnot v hv, hsegByte i v hi ⟨hlo, by omega⟩, Call.segByte, if_pos hhi]
  · rw [hnot v hv, hsegByte i v hi ⟨by omega, hhi⟩, Call.segByte, if_neg (by omega)]
  · exact h.word k hk.1 hk fun j hj _ hrel => hlast j hj hrel
  · rw [h.same x fun j _ hj v hv => hrel j v hj hv]
    by_cases hin : c.loadBase ≤ x ∧ x < c.loadBase + S
    · obtain ⟨v, rfl⟩ := Nat.exists_eq_add_of_le hin.1
      rw [hl.inside v (by omega), image_of_not_inSeg le_rfl]
      exact fun i hi hv => hseg i v hi hv rfl
    · exact hl.outside x (by omega)

end Load

section Result

variable (hwf : c.WellFormed mem S) (hplace : c.Placed mem S)
include hwf hplace

theorem dynamic_ne_zero (hl : l.Loaded c mem S (c.phnum mem)) {i : ℕ}
    (hi : c.lastDynamic mem (c.phnum mem) = some i) : l.dynamic ≠ 0 := by
  have hne := hplace.dynamic_ne i hi
  obtain ⟨j, hj, hlo, hhi⟩ := hwf.dynamic_inside i hi
  have hends := hwf.dynamic_ends i hi
  have hin := hwf.inside j hj
  have hwrap := hplace.noWrap
  have hpos : 0 < c.seg mem i .memsz := by
    by_contra hzero
    rw [Nat.eq_zero_of_not_pos hzero, Nat.zero_div] at hends
    exact absurd hends (Nat.not_lt_zero _)
  rw [hl.dynamic, Call.dynamicPtr, hi]
  dsimp only
  rwa [Nat.mod_eq_of_lt (by omega)]

theorem scanDynamic_table (hl : l.Loaded c mem S (c.phnum mem)) {i : ℕ}
    (hi : c.lastDynamic mem (c.phnum mem) = some i) :
    ∃ d, scanDynamic l.mem l.dynamic = some d ∧ d.relaAddr = c.relaAddr mem ∧
      d.relaSize = c.dynVal mem dtRelasz 0 ∧ d.relaEnt = elf64Rela.size := by
  refine ⟨_, scanDynamic_found hwf hplace hl hi, ?_, ?_, ?_⟩
  · rw [Call.relaAddr, Call.dynVal, hi]
    rfl
  · rw [Call.dynVal, hi]
    rfl
  · have hent := hwf.relaEnt
    rw [Call.dynVal, hi] at hent
    exact hent

theorem processRelocations_hasImage (hl : l.Loaded c mem S (c.phnum mem)) {i : ℕ}
    (hi : c.lastDynamic mem (c.phnum mem) = some i) (writes : List Access)
    (hnone : c.relaCount mem = 0 → c.HasImage mem l.mem) :
    (elfProcessRelocations c l.mem l.dynamic writes).1 = .loaded ∧
      c.HasImage mem (elfProcessRelocations c l.mem l.dynamic writes).2.1 := by
  have hlt := hwf.relaCount_lt
  have hcount : c.relaCount mem = if c.relaAddr mem = 0 then 0 else c.dynVal mem dtRelasz 0 / elf64Rela.size :=
    rfl
  obtain ⟨d, hd, haddr, hsize, hent⟩ := scanDynamic_table hwf hplace hl hi
  unfold elfProcessRelocations
  rw [hd]
  dsimp only
  rw [haddr, hsize, hent]
  split
  · next hzero =>
    refine ⟨rfl, hnone ?_⟩
    rcases hzero with hzero | hzero
    · rw [hcount, if_pos hzero]
    · rw [hcount, hzero, Nat.zero_div, ite_self]
  next hzero =>
  rw [if_neg (show elf64Rela.size ≠ 0 by decide)]
  have hnum : numRelas (c.dynVal mem dtRelasz 0) elf64Rela.size = c.relaCount mem := by
    rw [if_neg fun h => hzero (.inl h)] at hcount
    unfold numRelas
    dsimp only
    rw [← hcount, Nat.mod_eq_of_lt (by omega), if_pos hlt]
  rw [hnum]
  exact ⟨rfl, (run_relocated hwf hplace hl _).hasImage hwf hl⟩

theorem elfLoadAt_hasImage :
    (elfLoadAt c mem).status = .loaded ∧ c.HasImage mem (elfLoadAt c mem).mem := by
  have hl := LoadState.loadHeaders_loaded hwf.toSegments hplace.toRoom
  have hnone : c.relaCount mem = 0 → c.HasImage mem (loadHeaders c true mem).mem := by
    intro hzero
    have hrel : Relocated c mem (loadHeaders c true mem).mem (c.relaCount mem)
        ⟨0, (loadHeaders c true mem).mem, []⟩ := by
      rw [hzero]
      exact ⟨rfl, fun _ _ => rfl, fun j hj => absurd hj (Nat.not_lt_zero j)⟩
    exact hrel.hasImage hwf hl
  unfold elfLoadAt
  rw [if_neg (not_not.mpr hwf.valid), hwf.pie]
  dsimp only
  rw [if_neg (by rw [hl.phase]; exact Phase.noConfusion)]
  cases hi : c.lastDynamic mem (c.phnum mem) with
  | none =>
    have haddr : c.relaAddr mem = 0 := by rw [Call.relaAddr, Call.dynVal, hi]
    have hdyn : (loadHeaders c true mem).dynamic = 0 := by rw [hl.dynamic, Call.dynamicPtr, hi]
    rw [if_neg fun h => h.2 hdyn]
    exact ⟨rfl, hnone (by rw [Call.relaCount, if_pos haddr])⟩
  | some i =>
    rw [if_pos ⟨rfl, dynamic_ne_zero hwf hplace hl hi⟩]
    exact processRelocations_hasImage hwf hplace hl hi _ hnone

end Result

/-! What a file says does not depend on the base. -/

namespace Call

variable (c mem) (b : ℕ) (hb : b < 2 ^ 64)

theorem rebase_image (bg : Bytes) (n : ℕ) : (c.rebase b hb).image mem bg n = c.image mem bg n := by
  induction n with
  | zero => rfl
  | succ n ih =>
    funext v
    rw [image, image, ih]
    rfl

theorem rebase_lastDynamic (n : ℕ) : (c.rebase b hb).lastDynamic mem n = c.lastDynamic mem n := by
  induction n with
  | zero => rfl
  | succ n ih =>
    rw [lastDynamic, lastDynamic, ih]
    rfl

theorem rebase_img : (c.rebase b hb).img mem = c.img mem := rebase_image c mem b hb _ _

theorem rebase_dynVal (tag dflt : ℕ) : (c.rebase b hb).dynVal mem tag dflt = c.dynVal mem tag dflt := by
  unfold dynVal
  rw [rebase_img, rebase_lastDynamic]
  rfl

theorem rebase_relaAddr : (c.rebase b hb).relaAddr mem = c.relaAddr mem := rebase_dynVal c mem b hb _ _

theorem rebase_relaCount : (c.rebase b hb).relaCount mem = c.relaCount mem := by
  unfold relaCount
  rw [rebase_relaAddr, rebase_dynVal]

theorem rebase_rela : (c.rebase b hb).rela mem = c.rela mem := by
  funext k f
  unfold rela
  rw [rebase_img, rebase_relaAddr]

theorem rebase_isRelative : (c.rebase b hb).IsRelative mem = c.IsRelative mem := by
  funext k
  unfold IsRelative
  rw [rebase_relaCount, rebase_rela]

theorem rebase_inTarget : (c.rebase b hb).InTarget mem = c.InTarget mem := by
  funext k v
  unfold InTarget
  rw [rebase_rela]

theorem rebase_inRela : (c.rebase b hb).InRela mem = c.InRela mem := by
  funext v
  unfold InRela
  rw [rebase_relaAddr, rebase_relaCount]

theorem rebase_lastWord : (c.rebase b hb).LastWord mem = c.LastWord mem := by
  funext k
  unfold LastWord
  rw [rebase_isRelative, rebase_rela]

variable {c mem} in
theorem WellFormed.rebase (h : c.WellFormed mem S) : (c.rebase b hb).WellFormed mem S := by
  have hdyn : (c.rebase b hb).lastDynamic mem (c.phnum mem) = c.lastDynamic mem (c.phnum mem) :=
    c.rebase_lastDynamic mem b hb _
  constructor
  · exact ⟨h.valid, h.pie, h.inTable, h.header, h.filesz, h.file, h.inside, h.disjoint⟩
  · intro i hi
    exact h.dynamic_inside i (hdyn ▸ hi)
  · intro i hi
    rw [rebase_img]
    exact h.dynamic_ends i (hdyn ▸ hi)
  · rw [rebase_dynVal]
    exact h.relaEnt
  · rw [rebase_relaCount]
    exact h.relaCount_lt
  · rw [rebase_inRela]
    exact h.rela_inside
  · rw [rebase_isRelative, rebase_rela]
    exact h.target_inside
  · rw [rebase_isRelative, rebase_inTarget, rebase_inRela]
    exact h.target_apart

end Call

theorem image_byte {m : Bytes} (h : c.HasImage mem m) {i v : ℕ} (hi : c.IsLoad mem i) (hv : c.InSeg mem i v)
    (hno : ∀ k, c.IsRelative mem k → ¬ c.InTarget mem k v) : m (c.loadBase + v) = c.segByte mem i v := by
  unfold Call.segByte
  split
  · next hfile => exact h.file i v hi hv.1 hfile hno
  · next hbss => exact h.bss i v hi (Nat.le_of_not_lt hbss) hv.2 hno

theorem word_distance {w₁ w₂ b₁ b₂ addend : ℕ} (h₁ : w₁ = (b₁ + addend) % 2 ^ 64)
    (h₂ : w₂ = (b₂ + addend) % 2 ^ 64) : (w₂ : ℤ) - w₁ ≡ (b₂ : ℤ) - b₁ [ZMOD 2 ^ 64] := by
  unfold Int.ModEq
  omega

/-- A well-formed file is loaded at any two bases where there is room for it. The two images are the
same outside of the words that the relocations write, and these differ by the distance of the bases. -/
theorem load_commutes (c : Call) (mem : Bytes) (S : ℕ) (hwf : c.WellFormed mem S) (b₁ b₂ : ℕ)
    (hb₁ : b₁ < 2 ^ 64) (hb₂ : b₂ < 2 ^ 64) (h₁ : (c.rebase b₁ hb₁).Placed mem S)
    (h₂ : (c.rebase b₂ hb₂).Placed mem S) :
    let r₁ := elfLoadAt (c.rebase b₁ hb₁) mem
    let r₂ := elfLoadAt (c.rebase b₂ hb₂) mem
    (r₁.status = .loaded ∧ (c.rebase b₁ hb₁).HasImage mem r₁.mem) ∧
      (r₂.status = .loaded ∧ (c.rebase b₂ hb₂).HasImage mem r₂.mem) ∧
      (∀ i v, c.IsLoad mem i → c.InSeg mem i v → (∀ k, c.IsRelative mem k → ¬ c.InTarget mem k v) →
        r₁.mem (b₁ + v) = r₂.mem (b₂ + v)) ∧
      ∀ k, c.IsRelative mem k → c.LastWord mem k →
        (r₂.mem.load (b₂ + c.rela mem k .offset) 8 : ℤ) - r₁.mem.load (b₁ + c.rela mem k .offset) 8 ≡
          (b₂ : ℤ) - b₁ [ZMOD 2 ^ 64] := by
  intro r₁ r₂
  have himg₁ := elfLoadAt_hasImage (hwf.rebase b₁ hb₁) h₁
  have himg₂ := elfLoadAt_hasImage (hwf.rebase b₂ hb₂) h₂
  refine ⟨himg₁, himg₂, fun i v hi hv hno => ?_, fun k hk hlast => ?_⟩
  · have hbyte₁ := image_byte himg₁.2 hi hv (by rwa [c.rebase_isRelative, c.rebase_inTarget])
    have hbyte₂ := image_byte himg₂.2 hi hv (by rwa [c.rebase_isRelative, c.rebase_inTarget])
    exact hbyte₁.trans hbyte₂.symm
  · have hword₁ := himg₁.2.word k (by rwa [c.rebase_isRelative]) (by rwa [c.rebase_lastWord])
    have hword₂ := himg₂.2.word k (by rwa [c.rebase_isRelative]) (by rwa [c.rebase_lastWord])
    rw [c.rebase_rela] at hword₁ hword₂
    exact word_distance hword₁ hword₂

/-- A file with one segment, which holds a dynamic section and two relocations, and behind them 16
bytes of zeros; the relocations are for the words at 96 and at `off`. -/
def sampleTwo (off : UInt8) : Bytes := sampleMem (sampleEhdr 56 2 ++
  samplePhdr 1 176 0 96 112 ++ samplePhdr 2 176 0 48 48 ++
  word 7 ++ word 48 ++ word 8 ++ word 48 ++ word 0 ++ word 0 ++
  word 96 ++ [0x03, 0x04, 0, 0, 0, 0, 0, 0] ++ word 64 ++
  word off ++ [0x03, 0x04, 0, 0, 0, 0, 0, 0] ++ word 65)

def sampleTwoCall : Call := sampleCall 272 (by decide)

theorem sampleTwo_wellFormed {off : UInt8} (h : off = 96 ∨ off = 104) :
    sampleTwoCall.WellFormed (sampleTwo off) 112 := by
  have hheaders : sampleTwoCall.phnum (sampleTwo off) = 2 ∧
      (∀ i < 2, sampleTwoCall.IsLoad (sampleTwo off) i ↔ i = 0) ∧
      sampleTwoCall.lastDynamic (sampleTwo off) 2 = some 1 := by
    rcases h with rfl | rfl <;> decide +kernel
  obtain ⟨hphnum, hload, hlast⟩ := hheaders
  have hzero := (hload 0 (by decide)).mpr rfl
  have hload' : ∀ i, sampleTwoCall.IsLoad (sampleTwo off) i → i = 0 :=
    fun i hi => (hload i (hphnum ▸ hi.1)).mp hi
  have hdyn : ∀ i, sampleTwoCall.lastDynamic (sampleTwo off) (sampleTwoCall.phnum (sampleTwo off)) = some i →
      i = 1 := by
    rw [hphnum, hlast]
    exact fun i hi => (Option.some.inj hi).symm
  have htable : (sampleTwoCall.relaAddr (sampleTwo off) = 48 ∧
        sampleTwoCall.relaCount (sampleTwo off) = 2) ∧
      ∀ k < 2, 96 ≤ sampleTwoCall.rela (sampleTwo off) k .offset ∧
        sampleTwoCall.rela (sampleTwo off) k .offset ≤ 104 := by
    rcases h with rfl | rfl <;> decide +kernel
  obtain ⟨hrela, hoff⟩ := htable
  have hseg : sampleTwoCall.seg (sampleTwo off) 0 .vaddr = 0 ∧
      sampleTwoCall.seg (sampleTwo off) 0 .memsz = 112 := by
    rcases h with rfl | rfl <;> decide +kernel
  constructor
  · constructor
    · rcases h with rfl | rfl <;> decide +kernel
    · rcases h with rfl | rfl <;> decide +kernel
    · rcases h with rfl | rfl <;> decide +kernel
    · rcases h with rfl | rfl <;> decide +kernel
    · intro i hi
      obtain rfl := hload' i hi
      rcases h with rfl | rfl <;> decide +kernel
    · intro i hi
      obtain rfl := hload' i hi
      rcases h with rfl | rfl <;> decide +kernel
    · intro i hi
      obtain rfl := hload' i hi
      rw [hseg.1, hseg.2]
    · exact fun i j v hi hj _ _ => (hload' i hi).trans (hload' j hj).symm
  · intro i hi
    obtain rfl := hdyn i hi
    refine ⟨0, hzero, ?_⟩
    rcases h with rfl | rfl <;> decide +kernel
  · intro i hi
    obtain rfl := hdyn i hi
    rcases h with rfl | rfl <;> decide +kernel
  · rcases h with rfl | rfl <;> decide +kernel
  · rw [hrela.2]
    decide
  · intro v hv
    rw [Call.InRela, hrela.1, hrela.2] at hv
    have hhi : v < 48 + 24 * 2 := hv.2
    exact ⟨0, hzero, by rw [Call.InSeg, hseg.1, hseg.2]; omega⟩
  · intro k hk
    have := hoff k (hrela.2 ▸ hk.1)
    omega
  · intro k v hk hv htable
    have := hoff k (hrela.2 ▸ hk.1)
    rw [Call.InRela, hrela.1, hrela.2] at htable
    have hhi : v < 48 + 24 * 2 := htable.2
    have hlo := hv.1
    omega

theorem sampleTwo_placed {off : UInt8} {b : ℕ} (hlo : 4096 + 272 ≤ b) (hhi : b + 112 ≤ 2 ^ 64) :
    (sampleTwoCall.rebase b (by omega)).Placed (sampleTwo off) 112 := by
  refine ⟨⟨hhi, .inr hlo⟩, fun i _ hzero => ?_⟩
  have hbase : b = 0 := (Nat.add_eq_zero_iff.mp hzero).1
  omega

/-- Two words are relocated, at two bases. -/
theorem load_commutes_two :
    sampleTwoCall.WellFormed (sampleTwo 104) 112 ∧
      sampleTwoCall.IsRelative (sampleTwo 104) 0 ∧ sampleTwoCall.LastWord (sampleTwo 104) 0 ∧
      (((elfLoadAt (sampleTwoCall.rebase 0x50000000 (by decide)) (sampleTwo 104)).mem.load
            (0x50000000 + sampleTwoCall.rela (sampleTwo 104) 0 .offset) 8 : ℤ) -
          (elfLoadAt (sampleTwoCall.rebase 0x44000000 (by decide)) (sampleTwo 104)).mem.load
            (0x44000000 + sampleTwoCall.rela (sampleTwo 104) 0 .offset) 8 ≡
        ((0x50000000 : ℕ) : ℤ) - (0x44000000 : ℕ) [ZMOD 2 ^ 64]) := by
  have hwf : sampleTwoCall.WellFormed (sampleTwo 104) 112 := sampleTwo_wellFormed (.inr rfl)
  have hrel : sampleTwoCall.IsRelative (sampleTwo 104) 0 := by decide +kernel
  have hcount : sampleTwoCall.relaCount (sampleTwo 104) = 2 := by decide +kernel
  have hlast : sampleTwoCall.LastWord (sampleTwo 104) 0 := by
    intro j hj hrel'
    have hone : j = 1 := by
      have := hrel'.1
      omega
    subst hone
    decide +kernel
  have h := load_commutes sampleTwoCall (sampleTwo 104) 112 hwf 0x44000000 0x50000000 (by decide) (by decide)
    (sampleTwo_placed (by decide) (by decide)) (sampleTwo_placed (by decide) (by decide))
  exact ⟨hwf, hrel, hlast, h.2.2.2 0 hrel hlast⟩

/-- Of two relocations for one word the second one counts. -/
theorem second_relocation_counts :
    ¬ ∀ (c : Call) (mem : Bytes) (S : ℕ), c.WellFormed mem S → c.Placed mem S →
      ∀ k, c.IsRelative mem k → (elfLoadAt c mem).mem.load (c.loadBase + c.rela mem k .offset) 8 =
        (c.loadBase + c.rela mem k .addend) % 2 ^ 64 := by
  intro h
  have hbad := h sampleTwoCall (sampleTwo 96) 112 (sampleTwo_wellFormed (.inl rfl))
    (sampleTwo_placed (b := 0x44000000) (by decide) (by decide)) 0 (by decide +kernel)
  exact absurd hbad (by decide +kernel)

end GcAos.Loader
