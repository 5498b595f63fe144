import GcAos.Mm.SlabInv

/-! Caches of slabs and their clients. The slabs of a run lie apart in memory, so that each call is
about one of them. -/

namespace GcAos.Mm
open Lib

namespace KmemCache

def list (c : KmemCache) : SlabList → List ℕ
  | .full => c.slabsFull
  | .partly => c.slabsPartial
  | .free => c.slabsFree

variable {c : KmemCache} {p q : ℕ} {l l' : SlabList}

theorem mem_slabs : p ∈ c.slabs ↔ ∃ l, p ∈ c.list l := by
  rw [slabs, List.mem_append, List.mem_append]
  constructor
  · rintro ((h | h) | h)
    · exact ⟨.full, h⟩
    · exact ⟨.partly, h⟩
    · exact ⟨.free, h⟩
  · rintro ⟨_ | _ | _, h⟩
    · exact .inl (.inl h)
    · exact .inl (.inr h)
    · exact .inr h

theorem listMove_list (c : KmemCache) (p : ℕ) (l l' : SlabList) :
    (c.listMove p l).list l' = (c.list l').erase p ++ if l' = l then [p] else [] := by
  cases l <;> cases l' <;> simp [listMove, list]

theorem mem_listMove (h : (c.list l').Nodup) :
    q ∈ (c.listMove p l).list l' ↔ q ≠ p ∧ q ∈ c.list l' ∨ q = p ∧ l' = l := by
  rw [listMove_list, List.mem_append, h.mem_erase_iff]
  split
  next heq => simp [heq]
  next hne => simp [hne]

theorem listMove_nodup (h : (c.list l').Nodup) : ((c.listMove p l).list l').Nodup := by
  rw [listMove_list]
  split
  next => exact (h.erase p).append (List.nodup_singleton p) (by simpa using h.not_mem_erase)
  next => simpa using h.erase p

theorem listMove_congr {c' : KmemCache} (h : ∀ l, c'.list l = c.list l) :
    (c'.listMove p l).list l' = (c.listMove p l).list l' := by
  rw [listMove_list, listMove_list, h]

end KmemCache

/-- Which list a slab with `free` free objects belongs on. -/
def SlabList.Holds (num free : ℕ) : SlabList → Prop
  | .full => free = 0
  | .partly => 0 < free ∧ free < num
  | .free => free = num

namespace SlabList

variable {num n : ℕ} {l : SlabList}

theorem holds_zero (h : 0 < num) : l.Holds num 0 ↔ l = .full := by
  cases l <;> simp [Holds, h.ne]

theorem holds_inner (h : 0 < n) (hlt : n < num) : l.Holds num n ↔ l = .partly := by
  cases l <;> simp [Holds, h, hlt, h.ne', hlt.ne]

theorem holds_all (h : 0 < num) : l.Holds num num ↔ l = .free := by
  cases l <;> simp [Holds, h.ne']

theorem exists_holds (h : n ≤ num) : ∃ l : SlabList, l.Holds num n := by
  rcases Nat.eq_zero_or_pos n with h0 | hpos
  · exact ⟨.full, h0⟩
  · rcases Nat.lt_or_eq_of_le h with hlt | heq
    · exact ⟨.partly, hpos, hlt⟩
    · exact ⟨.free, heq⟩

theorem holds_unique {l' : SlabList} (hnum : 0 < num) (h : l.Holds num n) (h' : l'.Holds num n) :
    l = l' := by
  cases l <;> cases l' <;> simp only [Holds, reduceCtorEq] at h h' ⊢ <;> omega

end SlabList

namespace SlabSystem

def inUse (num : ℕ) (pages : List ℕ) (fl : ℕ → List ℕ) : ℤ :=
  (pages.map fun p => (num : ℤ) - (fl p).length).sum

/-- The invariant of the runs: the slab at `p` has the free list `fl p`. -/
structure Inv (os num : ℕ) (s : SlabSystem) (fl : ℕ → List ℕ) : Prop where
  objectSize : s.slabs.cache.objectSize = os
  num_eq : s.slabs.cache.num = num
  nodup : s.pages.Nodup
  bound : ∀ p ∈ s.pages, 0 < p ∧ p + extent os num < 2 ^ 64
  apart : ∀ p ∈ s.pages, ∀ q ∈ s.pages, p ≠ q → p + extent os num ≤ q ∨ q + extent os num ≤ p
  ok : ∀ p ∈ s.pages, SlabOk s.slabs.mem os num p (fl p)
  list_nodup : ∀ l, (s.slabs.cache.list l).Nodup
  listed : ∀ l p, p ∈ s.slabs.cache.list l ↔ p ∈ s.pages ∧ l.Holds num (fl p).length
  live_nodup : s.live.Nodup
  live_slot : ∀ a ∈ s.live, ∃ p ∈ s.pages, a ∈ slots os num p ∧ a ∉ fl p
  active : s.slabs.cache.numActive = (inUse num s.pages fl).bmod (2 ^ 32)

variable {s : SlabSystem} {t : Slabs} {os num p q a x page : ℕ} {fl : ℕ → List ℕ}
  {rest live pages : List ℕ}

theorem inUse_update (hnd : pages.Nodup) (hp : p ∈ pages) :
    inUse num pages (Function.update fl p rest) = inUse num pages fl +
      ((fl p).length - rest.length) := by
  have hout (l : List ℕ) (hl : p ∉ l) : inUse num l (Function.update fl p rest) = inUse num l fl := by
    unfold inUse
    congr 1
    apply List.map_congr_left
    intro q hq
    have hqp : q ≠ p := fun hqp => hl (hqp ▸ hq)
    rw [Function.update_of_ne hqp]
  obtain ⟨xs, ys, rfl⟩ := List.append_of_mem hp
  have hnd' := List.nodup_middle.mp hnd
  obtain ⟨hpout, -⟩ := List.nodup_cons.mp hnd'
  rw [List.mem_append, not_or] at hpout
  have hxs := hout xs hpout.1
  have hys := hout ys hpout.2
  unfold inUse at *
  rw [List.map_append, List.map_cons, List.sum_append, List.sum_cons, hxs, hys, List.map_append,
    List.map_cons,
    List.sum_append, List.sum_cons, Function.update_self]
  omega

namespace Inv

theorem slot_unique (hi : s.Inv os num fl) (hos : 0 < os) (hp : p ∈ s.pages) (hq : q ∈ s.pages)
    (hap : a ∈ slots os num p) (haq : a ∈ slots os num q) : p = q := by
  by_contra hne
  have h₁ := slots_bounds hap
  have h₂ := slots_bounds haq
  rcases hi.apart p hp q hq hne with h | h <;> omega

theorem edit (hi : s.Inv os num fl) (hos : 8 ≤ os) (hp : p ∈ s.pages)
    (hframe : ∀ x, x < p ∨ p + extent os num ≤ x → t.mem x = s.slabs.mem x)
    (hok : SlabOk t.mem os num p rest) (hobj : t.cache.objectSize = os) (hnum : t.cache.num = num)
    (hnd : ∀ l, (t.cache.list l).Nodup)
    (hlists : ∀ l q, q ∈ t.cache.list l ↔ q ≠ p ∧ q ∈ s.slabs.cache.list l ∨
      q = p ∧ l.Holds num rest.length)
    (hlive : live.Nodup) (hslot : ∀ a ∈ live,
      a ∈ slots os num p ∧ a ∉ rest ∨ a ∈ s.live ∧ a ∉ slots os num p)
    (hactive : t.cache.numActive = atomicAdd ((fl p).length - rest.length) s.slabs.cache.numActive) :
    Inv os num ⟨t, s.pages, live⟩ (Function.update fl p rest) := by
  refine ⟨hobj, hnum, hi.nodup, hi.bound, hi.apart, fun q hq => ?_, hnd, fun l q => ?_, hlive,
    fun a ha => ?_, ?_⟩
  · by_cases hqp : q = p
    · rw [hqp, Function.update_self]
      exact hok
    · rw [Function.update_of_ne hqp]
      refine (hi.ok q hq).frame hos fun x hlo hhi => hframe x ?_
      rcases hi.apart q hq p hp hqp with h | h <;> omega
  · rw [hlists]
    by_cases hqp : q = p
    · rw [hqp, Function.update_self]
      simp [hp]
    · rw [Function.update_of_ne hqp, hi.listed]
      simp [hqp]
  · rcases hslot a ha with ⟨hap, hfree⟩ | ⟨hold, hap⟩
    · exact ⟨p, hp, hap, by rwa [Function.update_self]⟩
    · obtain ⟨q, hq, haq, hfree⟩ := hi.live_slot a hold
      have hqp : q ≠ p := fun hqp => hap (hqp ▸ haq)
      exact ⟨q, hq, haq, by rwa [Function.update_of_ne hqp]⟩
  · rw [hactive, inUse_update hi.nodup hp, hi.active, atomicAdd, Int.bmod_add_bmod]

theorem grow (hi : s.Inv os num fl) (hos : 8 ≤ os) (hnum : 0 < num) (hpage : 0 < page)
    (hend : page + extent os num < 2 ^ 64)
    (hapart : ∀ q ∈ s.pages, q + extent os num ≤ page ∨ page + extent os num ≤ q) :
    Inv os num ⟨{ s.slabs.slabAlloc page with
        cache := { s.slabs.cache with slabsFree := page :: s.slabs.cache.slabsFree } },
      page :: s.pages, s.live⟩ (Function.update fl page (slots os num page)) := by
  have hsize : 0 < slabHeader.size := by decide
  have hext : 0 < extent os num := by
    unfold extent
    omega
  have hnew : page ∉ s.pages := fun hmem => by
    rcases hapart page hmem with h | h <;> omega
  obtain ⟨hok, hframe⟩ := Slabs.slabAlloc_ok (s := s.slabs) (p := page)
      (by rw [hi.objectSize]; exact hos)
    (by rw [hi.objectSize, hi.num_eq]; exact hend)
  rw [hi.objectSize, hi.num_eq] at hok hframe
  have hold (q : ℕ) (hq : q ∈ s.pages) : Function.update fl page (slots os num page) q = fl q :=
    Function.update_of_ne (fun h : q = page => hnew (h ▸ hq)) ..
  have hunlisted (l : SlabList) : page ∉ s.slabs.cache.list l := fun hmem =>
      hnew ((hi.listed l page).mp hmem).1
  refine ⟨hi.objectSize, hi.num_eq, List.nodup_cons.mpr ⟨hnew, hi.nodup⟩,
    List.forall_mem_cons.mpr ⟨⟨hpage, hend⟩, hi.bound⟩, ?_, ?_, ?_, ?_, hi.live_nodup, ?_, ?_⟩
  · intro p hp q hq hne
    rcases List.mem_cons.mp hp with hp | hp <;> rcases List.mem_cons.mp hq with hq | hq
    · exact absurd (hp.trans hq.symm) hne
    · rw [hp]
      exact (hapart q hq).symm
    · rw [hq]
      exact hapart p hp
    · exact hi.apart p hp q hq hne
  · refine List.forall_mem_cons.mpr ⟨?_, fun q hq => ?_⟩
    · rw [Function.update_self]
      exact hok
    · rw [hold q hq]
      refine (hi.ok q hq).frame hos fun x hlo hhi => hframe x ?_
      rcases hapart q hq with h | h <;> omega
  · rintro (_ | _ | _)
    · exact hi.list_nodup .full
    · exact hi.list_nodup .partly
    · exact List.nodup_cons.mpr ⟨hunlisted .free, hi.list_nodup .free⟩
  · intro l q
    by_cases hq : q = page
    · rw [hq, Function.update_self, length_slots]
      cases l with
      | full => exact iff_of_false (hunlisted .full) fun h => hnum.ne' h.2
      | partly => exact iff_of_false (hunlisted .partly) fun h => lt_irrefl num h.2.2
      | free => exact iff_of_true List.mem_cons_self ⟨List.mem_cons_self, rfl⟩
    · have hlist : q ∈ KmemCache.list
          { s.slabs.cache with slabsFree := page :: s.slabs.cache.slabsFree } l ↔
            q ∈ s.slabs.cache.list l := by
        cases l with
        | full => rfl
        | partly => rfl
        | free => exact List.mem_cons.trans (or_iff_right hq)
      rw [hlist, hi.listed, Function.update_of_ne hq, List.mem_cons, or_iff_right hq]
  · intro a ha
    obtain ⟨q, hq, haq, hfree⟩ := hi.live_slot a ha
    exact ⟨q, List.mem_cons_of_mem _ hq, haq, by rwa [hold q hq]⟩
  · have hsame : inUse num s.pages (Function.update fl page (slots os num page)) =
      inUse num s.pages fl := by
      unfold inUse
      congr 1
      exact List.map_congr_left fun q hq => by rw [hold q hq]
    have hzero : (num : ℤ) - (slots os num page).length = 0 := by rw [length_slots, sub_self]
    refine hi.active.trans ?_
    unfold inUse at hsame ⊢
    rw [List.map_cons, List.sum_cons, hsame, Function.update_self, hzero, zero_add]

theorem stay (hi : s.Inv os num fl) (hp : p ∈ s.pages) {n : ℕ}
    (h : ∀ l : SlabList, l.Holds num (fl p).length ↔ l.Holds num n) (l : SlabList) (q : ℕ) :
    q ∈ s.slabs.cache.list l ↔ q ≠ p ∧ q ∈ s.slabs.cache.list l ∨ q = p ∧ l.Holds num n := by
  by_cases hqp : q = p
  · rw [hqp, hi.listed, h]
    simp [hp]
  · simp [hqp]

theorem move (hi : s.Inv os num fl) {l : SlabList} {n : ℕ}
    (h : ∀ l' : SlabList, l'.Holds num n ↔ l' = l)
    (l' : SlabList) (q : ℕ) : q ∈ (s.slabs.cache.listMove p l).list l' ↔
      q ≠ p ∧ q ∈ s.slabs.cache.list l' ∨ q = p ∧ l'.Holds num n := by
  rw [KmemCache.mem_listMove (hi.list_nodup l'), h]

theorem live_cases (hi : s.Inv os num fl) (hos : 0 < os) (hp : p ∈ s.pages) (ha : a ∈ s.live) :
    a ∈ slots os num p ∧ a ∉ fl p ∨ a ∉ slots os num p := by
  by_cases hap : a ∈ slots os num p
  · obtain ⟨q, hq, haq, hfree⟩ := hi.live_slot a ha
    obtain rfl := hi.slot_unique hos hp hq hap haq
    exact .inl ⟨hap, hfree⟩
  · exact .inr hap

theorem length_lt (hi : s.Inv os num fl) (hp : p ∈ s.pages) (hap : a ∈ slots os num p)
    (hfree : a ∉ fl p) :
    (fl p).length < num := by
  have hok := hi.ok p hp
  have hsub : (a :: fl p).Subperm (slots os num p) :=
    List.subperm_of_subset (List.nodup_cons.mpr ⟨hfree, hok.nodup⟩)
      (List.cons_subset.mpr ⟨hap, hok.sub⟩)
  have hlen := hsub.length_le
  rwa [length_slots, List.length_cons] at hlen

theorem take (hi : s.Inv os num fl) (hos : 8 ≤ os) (hnum : num < 2 ^ 32) (hp : p ∈ s.pages)
    (hfl : fl p = a :: rest) (hmem : t.mem = taken s.slabs.mem p a) (hobj : t.cache.objectSize = os)
    (hnum' : t.cache.num = num) (hnd : ∀ l, (t.cache.list l).Nodup)
    (hlists : ∀ l q, q ∈ t.cache.list l ↔ q ≠ p ∧ q ∈ s.slabs.cache.list l ∨
      q = p ∧ l.Holds num rest.length)
    (hactive : t.cache.numActive = atomicAdd 1 s.slabs.cache.numActive) :
    Inv os num ⟨t, s.pages, a :: s.live⟩ (Function.update fl p rest) := by
  have hok := hi.ok p hp
  rw [hfl] at hok
  have hap := hok.sub a List.mem_cons_self
  obtain ⟨harest, -⟩ := List.nodup_cons.mp hok.nodup
  have hdead : a ∉ s.live := by
    intro ha
    rcases hi.live_cases (by omega) hp ha with ⟨-, hfree⟩ | hout
    · exact hfree (hfl ▸ List.mem_cons_self)
    · exact hout hap
  refine hi.edit hos hp (fun x hx => ?_) (hmem ▸ hok.take hnum) hobj hnum' hnd hlists
    (List.nodup_cons.mpr ⟨hdead, hi.live_nodup⟩)
    (List.forall_mem_cons.mpr ⟨.inl ⟨hap, harest⟩, fun b hb => ?_⟩) ?_
  · rw [hmem]
    apply taken_of_outside
    unfold extent at hx
    omega
  · rcases hi.live_cases (by omega) hp hb with ⟨hbp, hfree⟩ | hout
    · rw [hfl] at hfree
      exact .inl ⟨hbp, fun hmem => hfree (List.mem_cons_of_mem a hmem)⟩
    · exact .inr ⟨hb, hout⟩
  · rw [hactive, hfl, List.length_cons]
    congr 1
    omega

theorem put (hi : s.Inv os num fl) (hos : 8 ≤ os) (hnum : num < 2 ^ 32) (hp : p ∈ s.pages)
    (hap : a ∈ slots os num p) (hfree : a ∉ fl p) (hmem : t.mem = returned s.slabs.mem p a)
    (hobj : t.cache.objectSize = os) (hnum' : t.cache.num = num) (hnd : ∀ l, (t.cache.list l).Nodup)
    (hlists : ∀ l q, q ∈ t.cache.list l ↔ q ≠ p ∧ q ∈ s.slabs.cache.list l ∨
      q = p ∧ l.Holds num ((fl p).length + 1))
    (hactive : t.cache.numActive = atomicAdd (-1) s.slabs.cache.numActive) :
    Inv os num ⟨t, s.pages, s.live.erase a⟩ (Function.update fl p (a :: fl p)) := by
  have hbounds := slots_bounds hap
  have hend := (hi.bound p hp).2
  have hok := (hi.ok p hp).put hos hnum hap hfree (by omega) (hi.length_lt hp hap hfree)
  refine hi.edit hos hp (fun x hx => ?_) (hmem ▸ hok) hobj hnum' hnd hlists (hi.live_nodup.erase a)
    (fun b hb => ?_) ?_
  · have hlow : slabHeader.size ≤ extent os num := Nat.le_add_right _ _
    rw [hmem, returned_of_outside (by omega), Bytes.store_of_outside (by omega)]
  · obtain ⟨hne, hb⟩ := hi.live_nodup.mem_erase_iff.mp hb
    rcases hi.live_cases (by omega) hp hb with ⟨hbp, hbfree⟩ | hout
    · exact .inl ⟨hbp, fun hmem => (List.mem_cons.mp hmem).elim hne hbfree⟩
    · exact .inr ⟨hb, hout⟩
  · rw [hactive, List.length_cons]
    congr 1
    omega

end Inv

structure Fits (s : SlabSystem) (os num page : ℕ) : Prop where
  pos : 0 < page
  lt : page + extent os num < 2 ^ 64
  apart : ∀ q ∈ s.pages, q + extent os num ≤ page ∨ page + extent os num ≤ q

theorem countAlloc_list (t : Slabs) (l : SlabList) : t.countAlloc.cache.list l = t.cache.list l := by
  cases l <;> rfl

namespace Inv

theorem alloc_partly (hi : s.Inv os num fl) (hos : 8 ≤ os) (hnum : num < 2 ^ 32) {ps : List ℕ}
    (hpart : s.slabs.cache.slabsPartial = p :: ps) :
    ∃ a t p rest, s.slabs.kmemCacheAlloc page = (a, t) ∧ a ≠ 0 ∧ p ∈ s.pages ∧ fl p = a :: rest ∧
      Inv os num ⟨t, s.pages, a :: s.live⟩ (Function.update fl p rest) := by
  have hlisted : p ∈ s.slabs.cache.slabsPartial := by
    rw [hpart]
    exact List.mem_cons_self
  obtain ⟨hp, hpos, hlt⟩ := (hi.listed .partly p).mp hlisted
  obtain ⟨a, rest, hfl⟩ := List.exists_cons_of_length_pos hpos
  have hok := hi.ok p hp
  rw [hfl] at hok hlt
  rw [List.length_cons] at hlt
  have hcount := (hok.take hnum).count
  have hobj := Slabs.slabAllocObj_eq (s := s.slabs) (by rw [hi.num_eq]; exact hok)
  have ha := hok.chain.2.1
  have heq : s.slabs.kmemCacheAlloc page = (a,
      ((if slabHeader.get (taken s.slabs.mem p a) p .inuse = num then
      Slabs.listMove { s.slabs with mem := taken s.slabs.mem p a } p .full
      else { s.slabs with mem := taken s.slabs.mem p a }) : Slabs).countAlloc) := by
    rw [Slabs.kmemCacheAlloc, hpart]
    dsimp only
    rw [hobj]
    dsimp only
    rw [if_pos ha, hi.num_eq]
    rfl
  rw [heq]
  refine ⟨a, _, p, rest, rfl, ha, hp, hfl, ?_⟩
  split
  next hfull =>
    have hrest : rest.length = 0 := by omega
    refine hi.take hos hnum hp hfl rfl hi.objectSize hi.num_eq (fun l => ?_) (fun l q => ?_) rfl
    · rw [countAlloc_list]
      exact KmemCache.listMove_nodup (hi.list_nodup l)
    · rw [countAlloc_list]
      exact hi.move (fun l' => hrest ▸ SlabList.holds_zero (by omega)) l q
  next hfull =>
    refine hi.take hos hnum hp hfl rfl hi.objectSize hi.num_eq (fun l => ?_) (fun l q => ?_) rfl
    · rw [countAlloc_list]
      exact hi.list_nodup l
    · rw [countAlloc_list]
      refine hi.stay hp (fun l' => ?_) l q
      rw [hfl, List.length_cons, SlabList.holds_inner (by omega) (by omega),
        SlabList.holds_inner (by omega) (by omega)]

theorem alloc_free (hi : s.Inv os num fl) (hos : 8 ≤ os) (hnum₂ : 2 ≤ num) (hnum : num < 2 ^ 32)
    {ps : List ℕ}
    (hpart : s.slabs.cache.slabsPartial = []) (hfree : s.slabs.cache.slabsFree = p :: ps) :
    ∃ a t p rest, s.slabs.kmemCacheAlloc page = (a, t) ∧ a ≠ 0 ∧ p ∈ s.pages ∧ fl p = a :: rest ∧
      Inv os num ⟨t, s.pages, a :: s.live⟩ (Function.update fl p rest) := by
  have hlisted : p ∈ s.slabs.cache.slabsFree := by
    rw [hfree]
    exact List.mem_cons_self
  obtain ⟨hp, hall⟩ := (hi.listed .free p).mp hlisted
  have hall : (fl p).length = num := hall
  obtain ⟨a, rest, hfl⟩ := List.exists_cons_of_length_pos (l := fl p) (by omega)
  rw [hfl, List.length_cons] at hall
  have hok := hi.ok p hp
  rw [hfl] at hok
  have hobj := Slabs.slabAllocObj_eq (s := s.slabs) (by rw [hi.num_eq]; exact hok)
  have ha := hok.chain.2.1
  have heq : s.slabs.kmemCacheAlloc page =
      (a, (Slabs.listMove { s.slabs with mem := taken s.slabs.mem p a } p .partly).countAlloc) := by
    rw [Slabs.kmemCacheAlloc, hpart, hfree]
    dsimp only
    rw [hobj]
    dsimp only
    rw [if_pos ha]
  rw [heq]
  refine ⟨a, _, p, rest, rfl, ha, hp, hfl, ?_⟩
  refine hi.take hos hnum hp hfl rfl hi.objectSize hi.num_eq (fun l => ?_) (fun l q => ?_) rfl
  · rw [countAlloc_list]
    exact KmemCache.listMove_nodup (hi.list_nodup l)
  · rw [countAlloc_list]
    exact hi.move (fun l' => SlabList.holds_inner (by omega) (by omega)) l q

theorem alloc_new (hi : s.Inv os num fl) (hos : 8 ≤ os) (hnum₂ : 2 ≤ num) (hnum : num < 2 ^ 32)
    (hneeds : s.NeedsPage) (hfits : s.Fits os num page) :
    ∃ a t rest, s.slabs.kmemCacheAlloc page = (a, t) ∧ a ≠ 0 ∧ slots os num page = a :: rest ∧
      Inv os num ⟨t, page :: s.pages, a :: s.live⟩ (Function.update fl page rest) := by
  obtain ⟨hpart, hfree⟩ := hneeds
  have hgrown := hi.grow hos (by omega) hfits.pos hfits.lt hfits.apart
  obtain ⟨a, rest, hslots⟩ := List.exists_cons_of_length_pos (l := slots os num page)
      (by rw [length_slots]; omega)
  have hfl : Function.update fl page (slots os num page) page = a :: rest := by
    rw [Function.update_self]
    exact hslots
  have hlen : rest.length + 1 = num := by rw [← List.length_cons, ← hslots, length_slots]
  have hok := hgrown.ok page List.mem_cons_self
  rw [hfl] at hok
  have hcache : (s.slabs.slabAlloc page).cache = s.slabs.cache := rfl
  have hobj := Slabs.slabAllocObj_eq (s := s.slabs.slabAlloc page)
      (by rw [hcache, hi.num_eq]; exact hok)
  have ha := hok.chain.2.1
  have heq : s.slabs.kmemCacheAlloc page = (a, ({ s.slabs.slabAlloc page with
      mem := taken (s.slabs.slabAlloc page).mem page a
      cache := { s.slabs.cache with slabsPartial := page :: s.slabs.cache.slabsPartial }
      totalSlabs := atomicAdd 1 s.slabs.totalSlabs
      totalObjects := atomicAdd s.slabs.cache.num s.slabs.totalObjects } : Slabs).countAlloc) := by
    conv_lhs => rw [Slabs.kmemCacheAlloc, hpart, hfree]
    dsimp only
    rw [if_neg hfits.pos.ne', hobj]
    dsimp only
    rw [if_pos ha]
    rfl
  rw [heq]
  refine ⟨a, _, rest, rfl, ha, hslots, ?_⟩
  have hidem : Function.update (Function.update fl page (slots os num page)) page rest =
      Function.update fl page rest :=
    Function.update_idem ..
  rw [← hidem]
  have hnew : page ∉ s.pages := (List.nodup_cons.mp hgrown.nodup).1
  have hunlisted (l : SlabList) : page ∉ s.slabs.cache.list l := fun hmem =>
      hnew ((hi.listed l page).mp hmem).1
  have hout (l : SlabList) (q : ℕ) : q ∈ s.slabs.cache.list l ↔ q ≠ page ∧ q ∈ s.slabs.cache.list l :=
    ⟨fun hq => ⟨fun hqp => hunlisted l (hqp ▸ hq), hq⟩, And.right⟩
  refine hgrown.take hos hnum List.mem_cons_self hfl rfl hi.objectSize hi.num_eq (fun l => ?_)
    (fun l q => ?_) rfl
  · rw [countAlloc_list]
    cases l with
    | full => exact hi.list_nodup .full
    | partly => exact List.nodup_cons.mpr ⟨hunlisted .partly, hi.list_nodup .partly⟩
    | free => exact hi.list_nodup .free
  · rw [countAlloc_list, SlabList.holds_inner (n := rest.length) (by omega) (by omega)]
    cases l with
    | full => simpa [KmemCache.list] using hout .full q
    | partly =>
      have := hout .partly q
      simp only [KmemCache.list, List.mem_cons] at this ⊢
      tauto
    | free =>
      have := hout .free q
      simp only [KmemCache.list, List.mem_cons] at this ⊢
      tauto

theorem alloc_old (hi : s.Inv os num fl) (page : ℕ) (hos : 8 ≤ os) (hnum₂ : 2 ≤ num)
    (hnum : num < 2 ^ 32)
    (hneeds : ¬s.NeedsPage) :
    ∃ a t p rest, s.slabs.kmemCacheAlloc page = (a, t) ∧ a ≠ 0 ∧ p ∈ s.pages ∧ fl p = a :: rest ∧
      Inv os num ⟨t, s.pages, a :: s.live⟩ (Function.update fl p rest) := by
  cases hpart : s.slabs.cache.slabsPartial with
  | cons p ps => exact hi.alloc_partly hos hnum hpart
  | nil =>
    cases hfree : s.slabs.cache.slabsFree with
    | cons p ps => exact hi.alloc_free hos hnum₂ hnum hpart hfree
    | nil => exact absurd ⟨hpart, hfree⟩ hneeds

/-! ## Frees and writes -/

theorem find (hi : s.Inv os num fl) (hos : 0 < os) (hp : p ∈ s.pages) (ha : a ∈ slots os num p) :
    s.slabs.slabFindObj a = some p := by
  have hcontains (q : ℕ) (hq : q ∈ s.pages) : s.slabs.slabContainsObj q a = true ↔
      q + slabHeader.size ≤ a ∧ a < q + extent os num := by
    have hok := hi.ok q hq
    have hbound := (hi.bound q hq).2
    rw [← hi.objectSize, ← hi.num_eq] at hok hbound ⊢
    exact Slabs.slabContainsObj_iff hok hbound
  have hmem (q : ℕ) : q ∈ s.slabs.cache.slabs → q ∈ s.pages := fun hq => by
    obtain ⟨l, hl⟩ := KmemCache.mem_slabs.mp hq
    exact ((hi.listed l q).mp hl).1
  have hbounds := slots_bounds ha
  have hpl : p ∈ s.slabs.cache.slabs := by
    apply KmemCache.mem_slabs.mpr
    have hcount := (hi.ok p hp).count
    obtain ⟨l, hl⟩ := SlabList.exists_holds (n := (fl p).length) (show _ ≤ num by omega)
    exact ⟨l, (hi.listed l p).mpr ⟨hp, hl⟩⟩
  have hsome : (s.slabs.slabFindObj a).isSome :=
    List.find?_isSome.mpr ⟨p, hpl, (hcontains p hp).mpr ⟨hbounds.1, by omega⟩⟩
  obtain ⟨q, hq⟩ := Option.isSome_iff_exists.mp hsome
  have hqp := hmem q (List.mem_of_find?_eq_some hq)
  have hfound : s.slabs.slabContainsObj q a = true :=
    List.find?_some (p := fun slab => s.slabs.slabContainsObj slab a) hq
  obtain ⟨hlo, hhi⟩ := (hcontains q hqp).mp hfound
  rw [hq, Option.some.injEq]
  by_contra hne
  rcases hi.apart q hqp p hp hne with h | h <;> omega

theorem free (hi : s.Inv os num fl) (hos : 8 ≤ os) (hnum₂ : 2 ≤ num) (hnum : num < 2 ^ 32)
    (ha : a ∈ s.live) : ∃ fl', Inv os num ⟨s.slabs.kmemCacheFree a, s.pages, s.live.erase a⟩ fl' := by
  obtain ⟨p, hp, hap, hfree⟩ := hi.live_slot a ha
  have hbounds := slots_bounds hap
  have hsize : 0 < slabHeader.size := by decide
  have hend := (hi.bound p hp).2
  have hlen := hi.length_lt hp hap hfree
  have hcount := ((hi.ok p hp).put hos hnum hap hfree (by omega) hlen).count
  rw [List.length_cons] at hcount
  have heq : s.slabs.kmemCacheFree a =
      let t : Slabs := { s.slabs with
        mem := returned s.slabs.mem p a
        cache := { s.slabs.cache with numActive := atomicAdd (-1) s.slabs.cache.numActive }
        totalAllocated := atomicAdd (-1) s.slabs.totalAllocated }
      if slabHeader.get (returned s.slabs.mem p a) p .inuse = 0 then t.listMove p .free
      else if slabHeader.get (returned s.slabs.mem p a) p .inuse = num - 1 then t.listMove p .partly
      else t := by
    rw [Slabs.kmemCacheFree, if_neg (by omega), hi.find (by omega) hp hap, ← hi.num_eq]
    rfl
  have hlists (l : SlabList) : KmemCache.list
      { s.slabs.cache with numActive := atomicAdd (-1) s.slabs.cache.numActive } l =
        s.slabs.cache.list l := by
    cases l <;> rfl
  have hmoved (l l' : SlabList) (q : ℕ) : q ∈ (KmemCache.listMove
      { s.slabs.cache with numActive := atomicAdd (-1) s.slabs.cache.numActive } p l).list l' ↔
      q ∈ (s.slabs.cache.listMove p l).list l' := by
    rw [KmemCache.listMove_congr hlists]
  refine ⟨Function.update fl p (a :: fl p), ?_⟩
  rw [heq]
  dsimp only
  split
  next hempty =>
    refine hi.put hos hnum hp hap hfree rfl hi.objectSize hi.num_eq (fun l => ?_) (fun l q => ?_) rfl
    · exact KmemCache.listMove_nodup (hlists l ▸ hi.list_nodup l)
    · rw [show (fl p).length + 1 = num by omega]
      exact (hmoved .free l q).trans (hi.move (fun l' => SlabList.holds_all (by omega)) l q)
  next hsome =>
    have hinner (l : SlabList) : l.Holds num ((fl p).length + 1) ↔ l = .partly :=
      SlabList.holds_inner (Nat.succ_pos _) (by omega)
    split
    next hlast =>
      refine hi.put hos hnum hp hap hfree rfl hi.objectSize hi.num_eq (fun l => ?_)
        (fun l q => ?_) rfl
      · exact KmemCache.listMove_nodup (hlists l ▸ hi.list_nodup l)
      · exact (hmoved .partly l q).trans (hi.move hinner l q)
    next hstays =>
      refine hi.put hos hnum hp hap hfree rfl hi.objectSize hi.num_eq (fun l => ?_)
        (fun l q => ?_) rfl
      · exact hlists l ▸ hi.list_nodup l
      · rw [hlists]
        refine hi.stay hp (fun l' => ?_) l q
        rw [hinner, SlabList.holds_inner (by omega) (by omega)]

theorem write (hi : s.Inv os num fl) {byte : UInt8}
    (hok : ∀ p ∈ s.pages, SlabOk (Function.update s.slabs.mem x byte) os num p (fl p)) :
    Inv os num { s with slabs := { s.slabs with mem := Function.update s.slabs.mem x byte } } fl :=
  ⟨hi.objectSize, hi.num_eq, hi.nodup, hi.bound, hi.apart, hok, hi.list_nodup, hi.listed, hi.live_nodup,
    hi.live_slot, hi.active⟩

theorem step {c : SlabAction} {s' : SlabSystem} (hi : s.Inv os num fl) (hos : 8 ≤ os) (hnum₂ : 2 ≤ num)
    (hfit : extent os num ≤ pageSize) (h : Step s c s') : ∃ fl', s'.Inv os num fl' := by
  have hsize : slabHeader.size = 72 := rfl
  have hnum : num < 2 ^ 32 := by
    have hmul : num * 8 ≤ num * os := Nat.mul_le_mul_left num hos
    unfold extent pageSize at hfit
    omega
  cases h with
  | @alloc page obj t hfresh hcall =>
    have hfits (hpage : page ≠ 0) : s.Fits os num page := by
      obtain ⟨hend, hapart⟩ := hfresh hpage
      refine ⟨by omega, by omega, fun q hq => ?_⟩
      have := hapart q hq
      omega
    by_cases hneeds : s.NeedsPage
    · by_cases hpage : page = 0
      · have heq : s.slabs.kmemCacheAlloc page = (0, s.slabs) := by
          obtain ⟨hpart, hfree⟩ := hneeds
          rw [Slabs.kmemCacheAlloc, hpart, hfree]
          dsimp only
          rw [if_pos hpage]
          rfl
        obtain ⟨rfl, rfl⟩ := Prod.mk.inj (hcall.symm.trans heq)
        have hpages : s.allocPages page = s.pages := if_neg fun h => h.2 hpage
        rw [if_pos rfl, hpages]
        exact ⟨fl, hi⟩
      · obtain ⟨a, t', rest, heq, ha, -, hinv⟩ := hi.alloc_new hos hnum₂ hnum hneeds (hfits hpage)
        obtain ⟨rfl, rfl⟩ := Prod.mk.inj (hcall.symm.trans heq)
        have hpages : s.allocPages page = page :: s.pages := if_pos ⟨hneeds, hpage⟩
        rw [if_neg ha, hpages]
        exact ⟨_, hinv⟩
    · obtain ⟨a, t', p, rest, heq, ha, -, -, hinv⟩ := hi.alloc_old page hos hnum₂ hnum hneeds
      obtain ⟨rfl, rfl⟩ := Prod.mk.inj (hcall.symm.trans heq)
      have hpages : s.allocPages page = s.pages := if_neg fun h => hneeds h.1
      rw [if_neg ha, hpages]
      exact ⟨_, hinv⟩
  | free hlive => exact hi.free hos hnum₂ hnum hlive
  | @write addr obj byte hlive hlo hhi =>
    rw [hi.objectSize] at hhi
    obtain ⟨q, hq, hslot, hfree⟩ := hi.live_slot obj hlive
    have hbounds := slots_bounds hslot
    refine ⟨fl, hi.write fun p hp => ?_⟩
    by_cases hpq : p = q
    · rw [hpq]
      exact (hi.ok q hq).write hos hslot hfree hlo hhi byte
    · refine (hi.ok p hp).frame hos fun x _ _ => Function.update_of_ne ?_ ..
      rcases hi.apart p hp q hq hpq with h | h <;> omega
  | @outside addr byte hout =>
    refine ⟨fl, hi.write fun p hp => (hi.ok p hp).frame hos fun x _ _ => Function.update_of_ne ?_ ..⟩
    have := hout p hp
    omega

end Inv

structure Consistent (s : SlabSystem) : Prop where
  full : ∀ p ∈ s.pages, p ∈ s.slabs.cache.slabsFull ↔ s.slabs.hdr p .inuse = s.slabs.cache.num
  partly : ∀ p ∈ s.pages, p ∈ s.slabs.cache.slabsPartial ↔
    0 < s.slabs.hdr p .inuse ∧ s.slabs.hdr p .inuse < s.slabs.cache.num
  free : ∀ p ∈ s.pages, p ∈ s.slabs.cache.slabsFree ↔ s.slabs.hdr p .inuse = 0
  lists : s.slabs.cache.slabs.Perm s.pages
  freelist : ∀ p ∈ s.pages, ∃ l, Chain 0 (freeLink s.slabs.mem) (s.slabs.hdr p .freelist) l ∧ l.Nodup ∧
    s.slabs.hdr p .inuse + l.length = s.slabs.cache.num ∧
    ∀ a ∈ l, a ∈ slots s.slabs.cache.objectSize s.slabs.cache.num p ∧ a ∉ s.live
  active : s.slabs.cache.numActive = ((s.pages.map fun p => (s.slabs.hdr p .inuse : ℤ)).sum).bmod
    (2 ^ 32)
  live : s.live.Nodup

theorem Inv.consistent (hi : s.Inv os num fl) (hos : 0 < os) (hnum : 0 < num) : s.Consistent := by
  have hinuse (p : ℕ) (hp : p ∈ s.pages) : s.slabs.hdr p .inuse + (fl p).length = num :=
    (hi.ok p hp).count
  have hlisted (l : SlabList) (p : ℕ) (hp : p ∈ s.pages) : p ∈ s.slabs.cache.list l ↔
      l.Holds num (fl p).length :=
    (hi.listed l p).trans (and_iff_right hp)
  refine ⟨fun p hp => ?_, fun p hp => ?_, fun p hp => ?_, ?_, fun p hp => ?_, ?_, hi.live_nodup⟩
  · have := hinuse p hp
    rw [hi.num_eq]
    exact (hlisted .full p hp).trans (show (fl p).length = 0 ↔ _ by omega)
  · have := hinuse p hp
    rw [hi.num_eq]
    exact (hlisted .partly p hp).trans (show 0 < (fl p).length ∧ (fl p).length < num ↔ _ by omega)
  · have := hinuse p hp
    exact (hlisted .free p hp).trans (show (fl p).length = num ↔ _ by omega)
  · have hmem (p : ℕ) : p ∈ s.slabs.cache.slabs ↔ p ∈ s.pages := by
      rw [KmemCache.mem_slabs]
      constructor
      · rintro ⟨l, hl⟩
        exact ((hi.listed l p).mp hl).1
      · intro hp
        obtain ⟨l, hl⟩ := SlabList.exists_holds (n := (fl p).length)
            (show _ ≤ num by have := hinuse p hp; omega)
        exact ⟨l, (hlisted l p hp).mpr hl⟩
    have hdisj (l l' : SlabList) (hne : l ≠ l') :
        (s.slabs.cache.list l).Disjoint (s.slabs.cache.list l') := by
      intro p hl hl'
      obtain ⟨hp, h⟩ := (hi.listed l p).mp hl
      have h' := ((hi.listed l' p).mp hl').2
      exact hne (SlabList.holds_unique hnum h h')
    have hnd : s.slabs.cache.slabs.Nodup := by
      refine ((hi.list_nodup .full).append (hi.list_nodup .partly) (hdisj _ _ (by decide))).append
        (hi.list_nodup .free) ?_
      have hfull : s.slabs.cache.slabsFull.Disjoint s.slabs.cache.slabsFree :=
        hdisj .full .free (by decide)
      have hpartly : s.slabs.cache.slabsPartial.Disjoint s.slabs.cache.slabsFree :=
        hdisj .partly .free (by decide)
      exact List.disjoint_append_left.mpr ⟨hfull, hpartly⟩
    exact (List.perm_ext_iff_of_nodup hnd hi.nodup).mpr hmem
  · have hok := hi.ok p hp
    refine ⟨fl p, hok.chain, hok.nodup, ?_, fun a ha => ⟨?_, fun hlive => ?_⟩⟩
    · rw [hi.num_eq]
      exact hok.count
    · rw [hi.num_eq, hi.objectSize]
      exact hok.sub a ha
    · obtain ⟨q, hq, haq, hfree⟩ := hi.live_slot a hlive
      obtain rfl := hi.slot_unique hos hp hq (hok.sub a ha) haq
      exact hfree ha
  · rw [hi.active, inUse]
    congr 2
    refine List.map_congr_left fun p hp => ?_
    have := hinuse p hp
    omega

theorem init_inv {c : KmemCache} (mem : Bytes) (cacheAddr : ℕ) (hlists : c.slabs = [])
    (hactive : c.numActive = 0) :
    (init mem c cacheAddr).Inv c.objectSize c.num fun _ => [] := by
  have hempty (l : SlabList) : c.list l = [] := by
    refine List.eq_nil_iff_forall_not_mem.mpr fun p hp => ?_
    have : p ∈ c.slabs := KmemCache.mem_slabs.mpr ⟨l, hp⟩
    rw [hlists] at this
    exact absurd this List.not_mem_nil
  refine ⟨rfl, rfl, .nil, fun p hp => absurd hp List.not_mem_nil, fun p hp =>
    absurd hp List.not_mem_nil,
    fun p hp => absurd hp List.not_mem_nil, fun l => ?_, fun l p => ?_, .nil,
    fun p hp => absurd hp List.not_mem_nil, hactive⟩
  · exact hempty l ▸ List.nodup_nil
  · have hnone : p ∉ (init mem c cacheAddr).slabs.cache.list l := hempty l ▸ List.not_mem_nil
    exact iff_of_false hnone fun h => absurd h.1 List.not_mem_nil

end SlabSystem

open SlabSystem

/-- In every run of a cache whose slots fit in a page, headers, lists, free lists and the counter
agree, and no object is handed out twice. -/
theorem slab_cache_consistent {mem : Bytes} {c : KmemCache} {cacheAddr : ℕ} {as : List SlabAction}
    {s : SlabSystem}
    (hlists : c.slabs = []) (hactive : c.numActive = 0) (hnum : 2 ≤ c.num) (hos : 8 ≤ c.objectSize)
    (hfit : slabHeader.size + c.num * c.objectSize ≤ pageSize)
    (hrun : Exec Step (SlabSystem.init mem c cacheAddr) as s) : s.Consistent := by
  obtain ⟨fl, hinv⟩ := hrun.invariant (I := fun s => ∃ fl, s.Inv c.objectSize c.num fl)
    (fun _ _ _ ⟨_, hi⟩ hstep => hi.step hos hnum hfit hstep) ⟨_, init_inv mem cacheAddr hlists hactive⟩
  exact hinv.consistent (by omega) (by omega)

namespace SlabSystem

instance (s : SlabSystem) (page : ℕ) : Decidable (s.FreshPage page) :=
  inferInstanceAs (Decidable (_ ∧ ∀ p ∈ s.pages, _))

def afterAlloc (s : SlabSystem) (page : ℕ) : SlabSystem where
  slabs := (s.slabs.kmemCacheAlloc page).2
  pages := s.allocPages page
  live := if (s.slabs.kmemCacheAlloc page).1 = 0 then s.live else
    (s.slabs.kmemCacheAlloc page).1 :: s.live

theorem step_afterAlloc (hfresh : page ≠ 0 → s.FreshPage page) :
    Step s (.alloc page) (s.afterAlloc page) :=
  .alloc hfresh rfl

def afterFree (s : SlabSystem) (obj : ℕ) : SlabSystem :=
  ⟨s.slabs.kmemCacheFree obj, s.pages, s.live.erase obj⟩

end SlabSystem

/-- A cache such as `kmem_cache_create` makes for objects that are aligned to 8 bytes. -/
def cacheOf (size num : ℕ) : KmemCache where
  name := []
  objectSize := size
  align := 8
  flags := 0
  num

theorem slab_cache_consistent_two : ∃ s, Exec Step
    (SlabSystem.init (fun _ => 0) (cacheOf 1000 4) 0x42000100)
      [.alloc 0x43000000, .alloc 0, .free 0x43000048] s ∧ s.live = [0x43000430] ∧ s.Consistent := by
  let s₀ := SlabSystem.init (fun _ => 0) (cacheOf 1000 4) 0x42000100
  let s₁ := s₀.afterAlloc 0x43000000
  let s₂ := s₁.afterAlloc 0
  have hrun : Exec Step s₀ [.alloc 0x43000000, .alloc 0, .free 0x43000048] (s₂.afterFree 0x43000048) :=
    .cons (u := s₁) (step_afterAlloc fun _ => by decide +kernel)
      (.cons (u := s₂) (step_afterAlloc fun h => absurd rfl h)
        (.cons (.free (by decide +kernel)) (.nil _)))
  exact ⟨_, hrun, by decide +kernel,
    slab_cache_consistent rfl rfl (by decide) (by decide) (by decide) hrun⟩

/-- Two objects of 4000 bytes do not fit in a page: one of the next slab is taken for one of the
first. -/
theorem slab_objects_overlap : ∃ s, Exec Step (SlabSystem.init (fun _ => 0) (cacheOf 4000 2) 0x42000100)
      [.alloc 0x43000000, .alloc 0, .alloc 0x43001000, .free 0x43001048] s ∧ ¬s.Consistent := by
  let s₀ := SlabSystem.init (fun _ => 0) (cacheOf 4000 2) 0x42000100
  let s₁ := s₀.afterAlloc 0x43000000
  let s₂ := s₁.afterAlloc 0
  let s₃ := s₂.afterAlloc 0x43001000
  have hrun : Exec Step s₀ [.alloc 0x43000000, .alloc 0, .alloc 0x43001000, .free 0x43001048]
      (s₃.afterFree 0x43001048) :=
    .cons (u := s₁) (step_afterAlloc fun _ => by decide +kernel)
      (.cons (u := s₂) (step_afterAlloc fun h => absurd rfl h)
      (.cons (u := s₃) (step_afterAlloc fun _ => by decide +kernel)
        (.cons (.free (by decide +kernel)) (.nil _))))
  refine ⟨_, hrun, fun hs => ?_⟩
  have hpage : 0x43000000 ∈ (s₃.afterFree 0x43001048).pages := by decide +kernel
  have hhead : (s₃.afterFree 0x43001048).slabs.hdr 0x43000000 .freelist = 0x43001048 := by
    decide +kernel
  have hshape : (s₃.afterFree 0x43001048).slabs.cache.objectSize = 4000 ∧
      (s₃.afterFree 0x43001048).slabs.cache.num = 2 := by decide +kernel
  obtain ⟨l, hchain, -, -, hslots⟩ := hs.freelist _ hpage
  cases l with
  | nil => exact absurd (hhead.symm.trans hchain) (by decide)
  | cons a l =>
    have ha := (hslots a List.mem_cons_self).1
    rw [← hchain.1, hhead, hshape.1, hshape.2] at ha
    exact absurd ha (by decide)

end GcAos.Mm
