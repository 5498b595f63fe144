import GcAos.Lib.Chain
import GcAos.Mm.Slab

/-! One slab in memory: its header, the slots of its objects and the free list through them. -/

namespace GcAos.Mm
open Lib

/-- `n` slots of `os` bytes from `a` on. -/
def slotsFrom (os : ℕ) : ℕ → ℕ → List ℕ
  | _, 0 => []
  | a, n + 1 => a :: slotsFrom os (a + os) n

def slots (os num p : ℕ) : List ℕ := slotsFrom os (p + slabHeader.size) num

def extent (os num : ℕ) : ℕ := slabHeader.size + num * os

/-- The word at `a`, as a pointer to the next free object. -/
def freeLink (m : Bytes) (a : ℕ) : ℕ := m.load a 8

/-- The slab at `p`, with `num` slots of `os` bytes, has the free list `fl`. -/
structure SlabOk (m : Bytes) (os num p : ℕ) (fl : List ℕ) : Prop where
  sMem : slabHeader.get m p .sMem = p + slabHeader.size
  chain : Chain 0 (freeLink m) (slabHeader.get m p .freelist) fl
  nodup : fl.Nodup
  sub : ∀ a ∈ fl, a ∈ slots os num p
  count : slabHeader.get m p .inuse + fl.length = num

/-- Memory after the free object `a` of the slab at `p` was taken off the list, and after it was put on
it. -/
def taken (m : Bytes) (p a : ℕ) : Bytes :=
  slabHeader.set (slabHeader.set m p .freelist (freeLink m a)) p .inuse (slabHeader.get m p .inuse + 1)

def returned (m : Bytes) (p a : ℕ) : Bytes :=
  let m' := m.store a 8 (slabHeader.get m p .freelist)
  let m' := slabHeader.set m' p .freelist a
  slabHeader.set m' p .inuse ((slabHeader.get m' p .inuse + 2 ^ 32 - 1) % 2 ^ 32)

variable {m m' : Bytes} {os num n p a b link x : ℕ} {fl : List ℕ}

/-! ## Slots -/

theorem mem_slotsFrom : b ∈ slotsFrom os a n ↔ ∃ i < n, b = a + i * os := by
  induction n generalizing a with
  | zero => simp [slotsFrom]
  | succ n ih =>
    rw [slotsFrom, List.mem_cons, ih]
    constructor
    · rintro (rfl | ⟨i, hi, rfl⟩)
      · exact ⟨0, Nat.succ_pos n, by simp⟩
      · exact ⟨i + 1, Nat.succ_lt_succ hi, by rw [Nat.succ_mul, Nat.add_assoc, Nat.add_comm os]⟩
    · rintro ⟨_ | i, hi, rfl⟩
      · exact .inl (by simp)
      · exact .inr ⟨i, Nat.lt_of_succ_lt_succ hi, by rw [Nat.succ_mul, Nat.add_assoc, Nat.add_comm os]⟩

theorem length_slotsFrom : (slotsFrom os a n).length = n := by
  induction n generalizing a with
  | zero => rfl
  | succ n ih => rw [slotsFrom, List.length_cons, ih]

theorem slotsFrom_nodup (hos : 0 < os) : (slotsFrom os a n).Nodup := by
  induction n generalizing a with
  | zero => exact .nil
  | succ n ih =>
    refine List.nodup_cons.mpr ⟨fun hmem => ?_, ih⟩
    obtain ⟨i, -, heq⟩ := mem_slotsFrom.mp hmem
    omega

theorem mem_slots : a ∈ slots os num p ↔ ∃ i < num, a = p + slabHeader.size + i * os := mem_slotsFrom

theorem length_slots : (slots os num p).length = num := length_slotsFrom

theorem slots_bounds (ha : a ∈ slots os num p) :
    p + slabHeader.size ≤ a ∧ a + os ≤ p + extent os num := by
  obtain ⟨i, hi, rfl⟩ := mem_slots.mp ha
  have hmul := Nat.mul_le_mul_right os (Nat.succ_le_of_lt hi)
  rw [Nat.succ_mul] at hmul
  unfold extent
  omega

theorem slots_apart (ha : a ∈ slots os num p) (hb : b ∈ slots os num p) (hne : a ≠ b) :
    a + os ≤ b ∨ b + os ≤ a := by
  obtain ⟨i, -, rfl⟩ := mem_slots.mp ha
  obtain ⟨j, -, rfl⟩ := mem_slots.mp hb
  rcases Nat.lt_trichotomy i j with hlt | rfl | hlt
  · have hmul := Nat.mul_le_mul_right os (Nat.succ_le_of_lt hlt)
    rw [Nat.succ_mul] at hmul
    omega
  · exact absurd rfl hne
  · have hmul := Nat.mul_le_mul_right os (Nat.succ_le_of_lt hlt)
    rw [Nat.succ_mul] at hmul
    omega

/-! ## What changes nothing -/

namespace SlabOk

theorem freelist_lt : slabHeader.get m p .freelist < 2 ^ 64 := Layout.get_lt

theorem congr (h : SlabOk m os num p fl) (hhdr : ∀ f, slabHeader.get m' p f = slabHeader.get m p f)
    (hlink : ∀ a ∈ fl, freeLink m' a = freeLink m a) : SlabOk m' os num p fl := by
  refine ⟨?_, ?_, h.nodup, h.sub, ?_⟩
  · rw [hhdr]
    exact h.sMem
  · rw [hhdr]
    exact h.chain.congr hlink
  · rw [hhdr]
    exact h.count

theorem congr_bytes (h : SlabOk m os num p fl) (hos : 8 ≤ os)
    (hhdr : ∀ x, p ≤ x → x < p + slabHeader.size → m' x = m x)
    (hslot : ∀ a ∈ fl, ∀ x, a ≤ x → x < a + os → m' x = m x) : SlabOk m' os num p fl := by
  refine h.congr (fun f => Layout.get_congr fun i hi => hhdr _ (by omega) (by omega)) fun a ha => ?_
  exact Bytes.load_congr fun i hi => hslot a ha _ (by omega) (by omega)

theorem frame (h : SlabOk m os num p fl) (hos : 8 ≤ os)
    (hsame : ∀ x, p ≤ x → x < p + extent os num → m' x = m x) : SlabOk m' os num p fl := by
  refine h.congr_bytes hos (fun x hlo hhi => hsame x hlo ?_) fun a ha x hlo hhi => ?_
  · unfold extent
    omega
  · have := slots_bounds (h.sub a ha)
    exact hsame x (by omega) (by omega)

theorem write (h : SlabOk m os num p fl) (hos : 8 ≤ os) (hb : b ∈ slots os num p) (hfree : b ∉ fl)
    (hlo : b ≤ x) (hhi : x < b + os) (byte : UInt8) :
      SlabOk (Function.update m x byte) os num p fl := by
  have hbounds := slots_bounds hb
  refine h.congr_bytes hos (fun y _ hy => Function.update_of_ne (by omega) ..) fun a ha y hay hya => ?_
  have hne : a ≠ b := fun hab => hfree (hab ▸ ha)
  have := slots_apart (h.sub a ha) hb hne
  exact Function.update_of_ne (by omega) ..

end SlabOk

/-! ## What an allocation and a free do -/

theorem taken_sMem : slabHeader.get (taken m p a) p .sMem = slabHeader.get m p .sMem := by
  rw [taken, Layout.get_set_of_field_ne (by decide), Layout.get_set_of_field_ne (by decide)]

theorem taken_freelist : slabHeader.get (taken m p a) p .freelist = freeLink m a := by
  rw [taken, Layout.get_set_of_field_ne (by decide), Layout.get_set_self]
  exact Nat.mod_eq_of_lt (Bytes.load_lt ..)

theorem taken_inuse (h : slabHeader.get m p .inuse + 1 < 2 ^ 32) :
    slabHeader.get (taken m p a) p .inuse = slabHeader.get m p .inuse + 1 := by
  rw [taken, Layout.get_set_self]
  exact Nat.mod_eq_of_lt h

theorem taken_of_outside (hx : x < p ∨ p + slabHeader.size ≤ x) : taken m p a x = m x := by
  rw [taken, Layout.set_of_outside hx, Layout.set_of_outside hx]

theorem returned_of_outside (hx : x < p ∨ p + slabHeader.size ≤ x) :
    returned m p a x = m.store a 8 (slabHeader.get m p .freelist) x := by
  rw [returned, Layout.set_of_outside hx, Layout.set_of_outside hx]

theorem returned_sMem (ha : p + slabHeader.size ≤ a) :
    slabHeader.get (returned m p a) p .sMem = slabHeader.get m p .sMem := by
  rw [returned, Layout.get_set_of_field_ne (by decide), Layout.get_set_of_field_ne (by decide)]
  exact Layout.get_blit_of_apart (.inr ha)

theorem returned_freelist (ha : a < 2 ^ 64) : slabHeader.get (returned m p a) p .freelist = a := by
  rw [returned, Layout.get_set_of_field_ne (by decide), Layout.get_set_self]
  exact Nat.mod_eq_of_lt ha

theorem returned_inuse (ha : p + slabHeader.size ≤ a) : slabHeader.get (returned m p a) p .inuse =
    (slabHeader.get m p .inuse + 2 ^ 32 - 1) % 2 ^ 32 := by
  have hkeep : slabHeader.get (m.store a 8 (slabHeader.get m p .freelist)) p .inuse =
      slabHeader.get m p .inuse := Layout.get_blit_of_apart (.inr ha)
  rw [returned, Layout.get_set_self, Layout.get_set_of_field_ne (by decide), hkeep]
  exact Nat.mod_mod _ (2 ^ 32)

namespace SlabOk

theorem take (h : SlabOk m os num p (a :: fl)) (hnum : num < 2 ^ 32) :
    SlabOk (taken m p a) os num p fl := by
  have hcount := h.count
  rw [List.length_cons] at hcount
  have hlink (b : ℕ) (hb : b ∈ fl) : freeLink (taken m p a) b = freeLink m b := by
    have := slots_bounds (h.sub b (List.mem_cons_of_mem a hb))
    exact Bytes.load_congr fun i _ => taken_of_outside (.inr (by omega))
  refine ⟨?_, ?_, (List.nodup_cons.mp h.nodup).2, fun b hb => h.sub b (List.mem_cons_of_mem a hb), ?_⟩
  · rw [taken_sMem]
    exact h.sMem
  · rw [taken_freelist]
    exact h.chain.2.2.congr hlink
  · rw [taken_inuse (by omega)]
    omega

theorem put (h : SlabOk m os num p fl) (hos : 8 ≤ os) (hnum : num < 2 ^ 32) (ha : a ∈ slots os num p)
    (hfree : a ∉ fl) (halt : a < 2 ^ 64) (hlt : fl.length < num) :
      SlabOk (returned m p a) os num p (a :: fl) := by
  have hcount := h.count
  have hlo := (slots_bounds ha).1
  have hsize : 0 < slabHeader.size := by decide
  have hself : freeLink (returned m p a) a = slabHeader.get m p .freelist := by
    have hstore : freeLink (m.store a 8 (slabHeader.get m p .freelist)) a =
        slabHeader.get m p .freelist :=
      (Bytes.load_store ..).trans (Nat.mod_eq_of_lt freelist_lt)
    refine Eq.trans ?_ hstore
    exact Bytes.load_congr fun i _ => returned_of_outside (.inr (by omega))
  have hlink (b : ℕ) (hb : b ∈ fl) : freeLink (returned m p a) b = freeLink m b := by
    have hb' := slots_bounds (h.sub b hb)
    have hne : b ≠ a := fun hab => hfree (hab ▸ hb)
    have hapart := slots_apart (h.sub b hb) ha hne
    apply Bytes.load_congr
    intro i _
    rw [returned_of_outside (.inr (by omega)), Bytes.store_of_outside (by omega)]
  refine ⟨?_, ?_, List.nodup_cons.mpr ⟨hfree, h.nodup⟩, List.forall_mem_cons.mpr ⟨ha, h.sub⟩, ?_⟩
  · rw [returned_sMem hlo]
    exact h.sMem
  · rw [returned_freelist halt]
    refine ⟨rfl, by omega, ?_⟩
    rw [hself]
    exact h.chain.congr hlink
  · rw [returned_inuse hlo, List.length_cons]
    omega

end SlabOk

/-! ## A new slab -/

theorem setupFreelist_spec (hos : 8 ≤ os) (hlink : link + 8 ≤ a) (hend : a + n * os < 2 ^ 64) :
    Chain 0 (freeLink (setupFreelist os n m link a)) (freeLink (setupFreelist os n m link a) link)
        (slotsFrom os a n) ∧
      ∀ x, x < link ∨ link + 8 ≤ x → x < a ∨ a + n * os ≤ x → setupFreelist os n m link a x = m x := by
  induction n generalizing m link a with
  | zero =>
    refine ⟨(Bytes.load_store ..).trans (Nat.zero_mod _), fun x hx _ => Bytes.store_of_outside hx⟩
  | succ n ih =>
    rw [Nat.succ_mul] at hend
    have hmod : (a + os) % 2 ^ 64 = a + os := Nat.mod_eq_of_lt (by omega)
    rw [setupFreelist, slotsFrom, hmod]
    obtain ⟨hchain, hframe⟩ := ih (m := m.store link 8 a) (a := a + os) (show a + 8 ≤ a + os by omega)
        (by omega)
    have hhead : freeLink (setupFreelist os n (m.store link 8 a) a (a + os)) link = a := by
      have hstore : freeLink (m.store link 8 a) link = a :=
        (Bytes.load_store ..).trans (Nat.mod_eq_of_lt (by omega))
      refine Eq.trans ?_ hstore
      exact Bytes.load_congr fun i hi => hframe _ (by omega) (by omega)
    refine ⟨?_, fun x hx hx' => ?_⟩
    · rw [hhead]
      exact ⟨rfl, by omega, hchain⟩
    · rw [Nat.succ_mul] at hx'
      rw [hframe x (by omega) (by omega), Bytes.store_of_outside hx]

variable {s : Slabs}

/-- The memory of a new slab, before its free list is set up. -/
def header (m : Bytes) (page cacheAddr : ℕ) : Bytes :=
  let m := m.blit page slabHeader.size fun _ => 0
  let m := slabHeader.set m page .cache cacheAddr
  let m := slabHeader.set m page .sMem (page + slabHeader.size)
  let m := slabHeader.set m page .inuse 0
  slabHeader.set m page .nrPages 1

theorem header_sMem (m : Bytes) (cacheAddr : ℕ) (hp : p + slabHeader.size < 2 ^ 64) :
    slabHeader.get (header m p cacheAddr) p .sMem = p + slabHeader.size := by
  rw [header, Layout.get_set_of_field_ne (by decide), Layout.get_set_of_field_ne (by decide),
    Layout.get_set_self]
  exact Nat.mod_eq_of_lt hp

theorem header_inuse {cacheAddr : ℕ} : slabHeader.get (header m p cacheAddr) p .inuse = 0 := by
  rw [header, Layout.get_set_of_field_ne (by decide), Layout.get_set_self]
  exact Nat.zero_mod _

theorem header_of_outside {cacheAddr : ℕ} (hx : x < p ∨ p + slabHeader.size ≤ x) :
    header m p cacheAddr x = m x := by
  rw [header, Layout.set_of_outside hx, Layout.set_of_outside hx, Layout.set_of_outside hx,
    Layout.set_of_outside hx]
  exact hx.elim Bytes.blit_of_lt Bytes.blit_of_le

namespace Slabs

theorem slabAlloc_eq (hp : p + slabHeader.size < 2 ^ 64) : s.slabAlloc p =
    { s with
      mem := setupFreelist s.cache.objectSize s.cache.num (header s.mem p s.cacheAddr)
        (p + slabHeader.off .freelist) (p + slabHeader.size) } := by
  have hsMem := header_sMem s.mem s.cacheAddr hp
  unfold slabAlloc slabSetupFreelist
  exact congrArg (fun a => { s with
    mem := setupFreelist s.cache.objectSize s.cache.num (header s.mem p s.cacheAddr)
      (p + slabHeader.off .freelist) a }) hsMem

theorem slabAlloc_ok (hos : 8 ≤ s.cache.objectSize)
    (hp : p + extent s.cache.objectSize s.cache.num < 2 ^ 64) :
    SlabOk (s.slabAlloc p).mem s.cache.objectSize s.cache.num p
      (slots s.cache.objectSize s.cache.num p) ∧
      ∀ x, x < p ∨ p + extent s.cache.objectSize s.cache.num ≤ x → (s.slabAlloc p).mem x = s.mem x := by
  have hsize : slabHeader.size = 72 := rfl
  have hoff : slabHeader.off .freelist = 40 := rfl
  unfold extent at hp
  rw [slabAlloc_eq (by omega)]
  obtain ⟨hchain, hframe⟩ := setupFreelist_spec (m := header s.mem p s.cacheAddr) (n := s.cache.num)
    (a := p + slabHeader.size) hos
    (show p + slabHeader.off .freelist + 8 ≤ p + slabHeader.size by omega) (by omega)
  have hkeep (f : SlabField) (hf : slabHeader.off f + slabHeader.len f ≤ 40) :
      slabHeader.get (setupFreelist s.cache.objectSize s.cache.num (header s.mem p s.cacheAddr)
        (p + slabHeader.off .freelist) (p + slabHeader.size)) p f =
      slabHeader.get (header s.mem p s.cacheAddr) p f :=
    Bytes.load_congr fun i hi => hframe _ (by omega) (by omega)
  refine ⟨⟨?_, hchain, slotsFrom_nodup (by omega), fun _ h => h, ?_⟩, fun x hx => ?_⟩
  · rw [hkeep .sMem (by decide), header_sMem _ _ (by omega)]
  · rw [hkeep .inuse (by decide), header_inuse, length_slots, Nat.zero_add]
  · unfold extent at hx
    exact (hframe x (by omega) (by omega)).trans (header_of_outside (by omega))

theorem slabAllocObj_eq (h : SlabOk s.mem os s.cache.num p (a :: fl)) :
    s.slabAllocObj p = (a, { s with mem := taken s.mem p a }) := by
  have hcount := h.count
  rw [List.length_cons] at hcount
  have hinuse : ¬s.cache.num ≤ s.hdr p .inuse := by
    unfold hdr
    omega
  have hhead : s.hdr p .freelist = a := h.chain.1
  rw [slabAllocObj, if_neg hinuse]
  dsimp only
  rw [hhead, if_pos h.chain.2.1]
  have hkeep : slabHeader.get (slabHeader.set s.mem p .freelist (freeLink s.mem a)) p .inuse =
      slabHeader.get s.mem p .inuse := Layout.get_set_of_field_ne (by decide)
  unfold taken
  rw [← hkeep]
  rfl

theorem slabContainsObj_iff (h : SlabOk s.mem s.cache.objectSize s.cache.num p fl)
    (hp : p + extent s.cache.objectSize s.cache.num < 2 ^ 64) : s.slabContainsObj p a = true ↔
      p + slabHeader.size ≤ a ∧ a < p + extent s.cache.objectSize s.cache.num := by
  have hsMem : s.hdr p .sMem = p + slabHeader.size := h.sMem
  unfold extent at hp ⊢
  rw [slabContainsObj, hsMem, decide_eq_true_eq, Nat.mod_eq_of_lt (by omega), Nat.add_assoc]

end Slabs

end GcAos.Mm
