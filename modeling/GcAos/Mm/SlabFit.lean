import GcAos.Lib.Bits
import GcAos.Mm.SlabRun

/-! Which caches keep their objects in the page of their slab. -/

namespace GcAos.Mm
open Lib

variable {mem : Bytes} {c : KmemCache} {cacheAddr size alignment flags record num os aligned page : ℕ}
  {name : Option (List UInt8)}

/-! ## The number of objects -/

def objectCount (aligned : ℕ) : ℕ :=
  let num := (pageSize - slabHeader.size) / aligned % 2 ^ 32
  if num < slabObjPerPageMin then slabObjPerPageMin else num

theorem objectCount_bounds (aligned : ℕ) : 2 ≤ objectCount aligned ∧ objectCount aligned < 2 ^ 32 := by
  have hmod := Nat.mod_lt ((pageSize - slabHeader.size) / aligned) (show 0 < 2 ^ 32 by decide)
  unfold objectCount slabObjPerPageMin
  dsimp only
  split <;> omega

theorem objectCount_eq (aligned : ℕ) : objectCount aligned = max 2 (4024 / aligned) := by
  have hle : 4024 / aligned ≤ 4024 := Nat.div_le_self ..
  have hmod : 4024 / aligned % 2 ^ 32 = 4024 / aligned := Nat.mod_eq_of_lt (by omega)
  have havailable : pageSize - slabHeader.size = 4024 := rfl
  unfold objectCount slabObjPerPageMin
  rw [havailable, hmod]
  dsimp only
  split <;> omega

theorem objectCount_mul_le (h : size ≤ aligned) : objectCount aligned * size ≤ 4024 ↔ size ≤ 2012 := by
  have hdiv : 4024 / aligned * aligned ≤ 4024 := Nat.div_mul_le_self ..
  rw [objectCount_eq]
  constructor
  · intro hmul
    have := Nat.mul_le_mul_right size (Nat.le_max_left 2 (4024 / aligned))
    omega
  · intro hsize
    rcases Nat.le_total (4024 / aligned) 2 with h2 | h2
    · rw [Nat.max_eq_left h2]
      omega
    · rw [Nat.max_eq_right h2]
      exact (Nat.mul_le_mul_left _ h).trans hdiv

theorem lt_objectCount_mul (hpos : 0 < aligned) (h : 2 * aligned < size) :
    4024 < objectCount aligned * size := by
  rw [objectCount_eq]
  have htwo : 2 ≤ max 2 (4024 / aligned) := Nat.le_max_left ..
  have hone := Nat.mul_le_mul_right aligned (Nat.le_of_succ_le htwo)
  have hdiv := Nat.mul_le_mul_right aligned (Nat.le_max_right 2 (4024 / aligned))
  calc 4024 < aligned * (4024 / aligned + 1) := Nat.lt_mul_div_succ 4024 hpos
    _ = 4024 / aligned * aligned + 1 * aligned := by ring
    _ ≤ max 2 (4024 / aligned) * aligned + max 2 (4024 / aligned) * aligned := Nat.add_le_add hdiv hone
    _ = max 2 (4024 / aligned) * (2 * aligned) := by ring
    _ ≤ max 2 (4024 / aligned) * size := Nat.mul_le_mul_left _ h.le

/-! ## The aligned size -/

theorem align_zero : align size 0 = 0 := by
  have hmask : 2 ^ 64 - 1 - (0 + 2 ^ 64 - 1) % 2 ^ 64 = 0 := by decide
  rw [align, hmask, Nat.and_zero]

theorem align_mask (h : alignment ≠ 0) (hlt : alignment < 2 ^ 64) :
    (alignment + 2 ^ 64 - 1) % 2 ^ 64 = alignment - 1 := by
  have hsum : alignment + 2 ^ 64 - 1 = alignment - 1 + 2 ^ 64 := by omega
  rw [hsum, Nat.add_mod_right, Nat.mod_eq_of_lt (by omega)]

theorem le_align (h : alignment ≠ 0) (hlt : alignment < 2 ^ 64) (hsum : size + alignment ≤ 2 ^ 64) :
    size ≤ align size alignment := by
  have hround : (size + alignment + 2 ^ 64 - 1) % 2 ^ 64 = size + alignment - 1 := by
    rw [show size + alignment + 2 ^ 64 - 1 = size + alignment - 1 + 2 ^ 64 by omega, Nat.add_mod_right,
      Nat.mod_eq_of_lt (by omega)]
  rw [align, align_mask h hlt, hround]
  have := le_and_not_add (w := 64) (x := size + alignment - 1) (m := alignment - 1) (by omega)
      (by omega)
  omega

theorem align_lt_half (h : alignment ≠ 0) (hlt : alignment < 2 ^ 64) (hsize : size ≤ 2 ^ 64)
    (hsum : 2 ^ 64 < size + alignment) : 2 * align size alignment < size := by
  have hround : (size + alignment + 2 ^ 64 - 1) % 2 ^ 64 = size + alignment - 1 - 2 ^ 64 := by
    rw [show size + alignment + 2 ^ 64 - 1 = size + alignment - 1 - 2 ^ 64 + 2 ^ 64 + 2 ^ 64 by omega,
      Nat.add_mod_right, Nat.add_mod_right, Nat.mod_eq_of_lt (by omega)]
  rw [align, align_mask h hlt, hround]
  have hleft : (size + alignment - 1 - 2 ^ 64) &&& (2 ^ 64 - 1 - (alignment - 1)) ≤ size +
      alignment - 1 - 2 ^ 64 :=
    Nat.and_le_left
  have hright : (size + alignment - 1 - 2 ^ 64) &&& (2 ^ 64 - 1 - (alignment - 1)) ≤ 2 ^ 64 - 1 -
      (alignment - 1) :=
    Nat.and_le_right
  omega

/-! ## A slab that is filled -/

def ObjectsFit (mem : Bytes) (c : KmemCache) (cacheAddr : ℕ) : Prop :=
  ∀ as s, Exec SlabSystem.Step (SlabSystem.init mem c cacheAddr) as s → ∀ a ∈ s.live,
    ∃ p ∈ s.pages, a ∈ slots c.objectSize c.num p ∧ p + slabHeader.size ≤ a ∧
      a + c.objectSize ≤ p + pageSize

namespace SlabSystem

theorem fill (mem : Bytes) (cacheAddr page : ℕ) (hlists : c.slabs = []) (hactive : c.numActive = 0)
    (hnum₂ : 2 ≤ c.num)
    (hnum : c.num < 2 ^ 32)
    (hos : 8 ≤ c.objectSize) (hpage : 0 < page) (hend : page + pageSize < 2 ^ 64)
    (hlt : page + extent c.objectSize c.num < 2 ^ 64) {k : ℕ} (hk : k < c.num) :
    ∃ as s fl, Exec Step (init mem c cacheAddr) as s ∧ s.Inv c.objectSize c.num fl ∧ s.pages = [page] ∧
      (fl page).length + (k + 1) = c.num ∧ s.live.length = k + 1 := by
  induction k with
  | zero =>
    have hneeds : (init mem c cacheAddr).NeedsPage := by
      obtain ⟨hleft, hfree⟩ := List.append_eq_nil_iff.mp hlists
      exact ⟨(List.append_eq_nil_iff.mp hleft).2, hfree⟩
    obtain ⟨a, t, rest, hcall, ha, hslots, hinv⟩ :=
      (init_inv mem cacheAddr hlists hactive).alloc_new hos hnum₂ hnum hneeds
        ⟨hpage, hlt, fun q hq => absurd hq List.not_mem_nil⟩
    have hstep := Step.alloc (s := init mem c cacheAddr)
      (fun _ => ⟨hend, fun q hq => absurd hq List.not_mem_nil⟩) hcall
    have hpages : (init mem c cacheAddr).allocPages page = [page] := if_pos ⟨hneeds, hpage.ne'⟩
    rw [if_neg ha, hpages] at hstep
    refine ⟨_, _, _, .cons hstep (.nil _), hinv, rfl, ?_, rfl⟩
    have hlen := congrArg List.length hslots
    rw [length_slots, List.length_cons] at hlen
    rw [Function.update_self, hlen]
  | succ k ih =>
    obtain ⟨as, s, fl, hrun, hi, hpages, hlen, hlive⟩ := ih (by omega)
    have hneeds : ¬s.NeedsPage := by
      intro hneeds
      have hpartial : page ∈ s.slabs.cache.list .partly :=
        (hi.listed .partly page).mpr ⟨hpages ▸ List.mem_singleton_self page, by omega, by omega⟩
      rw [KmemCache.list, hneeds.1] at hpartial
      exact absurd hpartial List.not_mem_nil
    obtain ⟨a, t, p, rest, hcall, ha, hp, hfl, hinv⟩ := hi.alloc_old 0 hos hnum₂ hnum hneeds
    rw [hpages, List.mem_singleton] at hp
    subst hp
    have hstep := Step.alloc (fun h => absurd rfl h) hcall
    have hsame : s.allocPages 0 = s.pages := if_neg fun h => hneeds h.1
    rw [if_neg ha, hsame] at hstep
    refine ⟨_, _, _, hrun.append (.cons hstep (.nil _)), hinv, hpages, ?_, ?_⟩
    · rw [hfl, List.length_cons] at hlen
      rw [Function.update_self]
      omega
    · rw [List.length_cons, hlive]

end SlabSystem

theorem objectsFit_iff (mem : Bytes) (cacheAddr : ℕ) (hlists : c.slabs = [])
    (hactive : c.numActive = 0) (hnum₂ : 2 ≤ c.num)
    (hnum : c.num < 2 ^ 32)
    (hos : 8 ≤ c.objectSize) (hmax : c.objectSize ≤ slabObjMaxSize) :
    ObjectsFit mem c cacheAddr ↔ extent c.objectSize c.num ≤ pageSize := by
  constructor
  · intro hfits
    have hsmall : extent c.objectSize c.num < 2 ^ 48 := by
      have hmul : c.num * c.objectSize ≤ 2 ^ 32 * 2 ^ 15 := Nat.mul_le_mul hnum.le hmax
      have hsize : slabHeader.size = 72 := rfl
      unfold extent
      omega
    obtain ⟨as, s, fl, hrun, hi, hpages, hlen, hlive⟩ :=
      SlabSystem.fill mem cacheAddr (2 ^ 32)
      (k := c.num - 1) hlists hactive hnum₂ hnum hos (by decide) (by decide)
        (by omega) (by omega)
    -- all slots are live, the last one too
    have hsub : s.live ⊆ slots c.objectSize c.num (2 ^ 32) := by
      intro a ha
      obtain ⟨p, hp, hslot, -⟩ := hi.live_slot a ha
      rw [hpages, List.mem_singleton] at hp
      rwa [hp] at hslot
    have hperm : s.live.Perm (slots c.objectSize c.num (2 ^ 32)) := by
      refine (List.subperm_of_subset hi.live_nodup hsub).perm_of_length_le ?_
      rw [length_slots]
      omega
    have hlast : 2 ^ 32 + slabHeader.size + (c.num - 1) * c.objectSize ∈ s.live :=
      hperm.mem_iff.mpr (mem_slots.mpr ⟨c.num - 1, by omega, rfl⟩)
    obtain ⟨p, hp, -, -, hend⟩ := hfits as s hrun _ hlast
    rw [hpages, List.mem_singleton] at hp
    have hsucc : (c.num - 1) * c.objectSize + c.objectSize = c.num * c.objectSize := by
      rw [← Nat.succ_mul]
      congr 1
      omega
    unfold extent
    omega
  · intro hfit as s hrun a ha
    obtain ⟨fl, hi⟩ := hrun.invariant (I := fun s => ∃ fl, s.Inv c.objectSize c.num fl)
      (fun _ _ _ ⟨_, hi⟩ hstep => hi.step hos hnum₂ hfit hstep)
        ⟨_, SlabSystem.init_inv mem cacheAddr hlists hactive⟩
    obtain ⟨p, hp, hslot, -⟩ := hi.live_slot a ha
    have hbounds := slots_bounds hslot
    exact ⟨p, hp, hslot, hbounds.1, by omega⟩

theorem kmemCacheCreate_eq (alignment flags : ℕ) (hmin : slabObjMinSize ≤ size)
    (hmax : size ≤ slabObjMaxSize)
    (hname : name ≠ none)
    (hrecord : record ≠ 0) : ∃ c, c.objectSize = size ∧ c.num = objectCount (align size alignment) ∧
      c.slabs = [] ∧
      c.numActive = 0 ∧ kmemCacheCreate name size alignment flags record =
        if align size alignment = 0 then .divisionByZero else .created c := by
  have hargs : ¬(name = none ∨ size < slabObjMinSize ∨ slabObjMaxSize < size) := by
    rintro (h | h | h)
    · exact hname h
    · omega
    · omega
  refine ⟨{
      name := (name.getD []).take 31
      objectSize := size
      align := alignment
      flags
      num := objectCount (align size alignment)
      colour := if flags &&& slabHwcacheAlign ≠ 0 then l1CacheBytes else 0
      colourOff := if flags &&& slabHwcacheAlign ≠ 0 then l1CacheBytes else 0 }, rfl, rfl, rfl, rfl, ?_⟩
  rw [kmemCacheCreate, if_neg hargs, if_neg hrecord]
  rfl

theorem kmemCacheCreate_null (h : name = none ∨ record = 0) :
    kmemCacheCreate name size alignment flags record = .null := by
  rw [kmemCacheCreate]
  split
  next => rfl
  next hargs => exact if_pos (h.resolve_left fun hname => hargs (.inl hname))

theorem extent_objectCount_le (hmin : slabObjMinSize ≤ size) (hmax : size ≤ slabObjMaxSize)
    (halign : alignment < 2 ^ 64) : align size alignment ≠ 0 ∧
        extent size (objectCount (align size alignment)) ≤ pageSize ↔
      alignment ≠ 0 ∧ size + alignment ≤ 2 ^ 64 ∧ 2 * size ≤ pageSize - slabHeader.size := by
  have hpage : pageSize = 4096 := rfl
  have hheader : slabHeader.size = 72 := rfl
  have hlow : slabObjMinSize = 8 := rfl
  have hhigh : slabObjMaxSize = 32768 := rfl
  unfold extent
  by_cases hzero : alignment = 0
  · rw [hzero, align_zero]
    exact iff_of_false (fun h => h.1 rfl) fun h => h.1 rfl
  · by_cases hsum : size + alignment ≤ 2 ^ 64
    · have hle := le_align hzero halign hsum
      have hmul := objectCount_mul_le hle
      omega
    · refine iff_of_false (fun ⟨hpos, hfit⟩ => ?_) fun h => hsum h.2.1
      have := lt_objectCount_mul (Nat.pos_of_ne_zero hpos)
        (align_lt_half hzero halign (by omega) (show 2 ^ 64 < size + alignment by omega))
      omega

/-- A cache is created without a division by zero, and all its objects are in the page of their
slab, exactly when the alignment is a number that the sum of `ALIGN` can take and two objects fit
behind the header. -/
theorem slab_objects_fit_iff (hmin : slabObjMinSize ≤ size) (hmax : size ≤ slabObjMaxSize)
    (halign : alignment < 2 ^ 64) :
    kmemCacheCreate name size alignment flags record ≠ .divisionByZero ∧
        (∀ c, kmemCacheCreate name size alignment flags record = .created c →
          ObjectsFit mem c cacheAddr) ↔
      name = none ∨ record = 0 ∨
        alignment ≠ 0 ∧ size + alignment ≤ 2 ^ 64 ∧ 2 * size ≤ pageSize - slabHeader.size := by
  rw [← extent_objectCount_le hmin hmax halign, ← or_assoc]
  by_cases hnull : name = none ∨ record = 0
  · rw [kmemCacheCreate_null hnull]
    exact iff_of_true ⟨CreateResult.noConfusion, fun c hc => CreateResult.noConfusion hc⟩ (.inl hnull)
  · obtain ⟨hname, hrecord⟩ := not_or.mp hnull
    obtain ⟨c, hsize, hnum, hlists, hactive, heq⟩ :=
      kmemCacheCreate_eq alignment flags
      hmin hmax hname hrecord
    have hbounds := objectCount_bounds (align size alignment)
    have hfit := objectsFit_iff mem cacheAddr hlists hactive (by omega)
        (by omega)
      (hsize ▸ hmin) (hsize ▸ hmax)
    rw [hsize, hnum] at hfit
    rw [heq, or_iff_right hnull, ← hfit]
    by_cases hzero : align size alignment = 0
    · rw [if_pos hzero]
      exact iff_of_false (fun h => h.1 rfl) fun h => h.1 hzero
    · rw [if_neg hzero]
      constructor
      · rintro ⟨-, h⟩
        exact ⟨hzero, h c rfl⟩
      · rintro ⟨-, h⟩
        refine ⟨CreateResult.noConfusion, fun c' hc' => ?_⟩
        cases hc'
        exact h

theorem slab_objects_fit_iff_64 : kmemCacheCreate (some []) 64 8 0 0x42000100 ≠ .divisionByZero ∧
    ∀ c, kmemCacheCreate (some []) 64 8 0 0x42000100 = .created c →
      ObjectsFit (fun _ => 0) c 0x42000100 :=
  (slab_objects_fit_iff (by decide) (by decide) (by decide)).mpr (.inr (.inr (by decide)))

theorem kmalloc_8_divides_by_zero :
    kmemCacheCreate (some [0x6B, 0x6D, 0x61, 0x6C, 0x6C, 0x6F, 0x63, 0x2D,
      0x38]) 8 0 slabHwcacheAlign 0x42000100 =
      .divisionByZero := rfl

end GcAos.Mm
