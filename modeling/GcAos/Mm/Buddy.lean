import GcAos.Lib.Chain
import GcAos.Lib.Halves
import GcAos.Mm.Pmm

/-! The buddy allocator of `kernel/mm/pmm.c`, behind `early_mode`, with the page array in place. A
call of the model is `none` where the code writes through a null pointer. -/

namespace GcAos.Mm
open Lib

def pageFlagFree : ℕ := 0
def pageFlagUsed : ℕ := 1

/-- `struct page`, with `next` as an index of the page array. -/
structure Page where
  flags : ℕ
  order : ℕ
  next : Option ℕ

structure Buddy where
  freeLists : ℕ → Option ℕ
  pageArray : ℕ → Page
  freePagesCount : ℕ
  memoryStart : ℕ
  memoryEnd : ℕ
  -- `pmm_set_memory_range` refuses a base of 0
  memoryStart_pos : 0 < memoryStart
  memoryEnd_lt : memoryEnd < 2 ^ 64

def buddyAddress (addr order : ℕ) : ℕ := addr ^^^ (pageSize <<< order)

namespace Buddy

def pmmPageToPhys (b : Buddy) : Option ℕ → ℕ
  | none => 0
  | some index => (b.memoryStart + index * pageSize) % 2 ^ 64

def pmmPhysToPage (b : Buddy) (addr : ℕ) : Option ℕ :=
  if addr < b.memoryStart ∨ b.memoryEnd ≤ addr then none
  else some ((addr - b.memoryStart) / pageSize)

def buddyAddToList (b : Buddy) (addr order : ℕ) : Option Buddy := do
  let page ← b.pmmPhysToPage addr
  some { b with
    pageArray := Function.update b.pageArray page ⟨pageFlagFree, order, b.freeLists order⟩
    freeLists := Function.update b.freeLists order (some page) }

def buddyRemoveFromList (b : Buddy) (order : ℕ) : ℕ × Buddy :=
  match b.freeLists order with
  | none => (0, b)
  | some page =>
    let p := b.pageArray page
    (b.pmmPageToPhys (some page), { b with
      freeLists := Function.update b.freeLists order p.next
      pageArray := Function.update b.pageArray page { p with next := none, flags := pageFlagUsed } })

/-- The loop that splits a block of order `o` at `addr`. -/
def splitTo (b : Buddy) (addr order : ℕ) : ℕ → Option Buddy
  | 0 => some b
  | o + 1 =>
    if order < o + 1 then do
      let b ← b.buddyAddToList (buddyAddress addr o) o
      splitTo b addr order o
    else some b

/-- The loop over the next `n` orders from `o` on. -/
def allocFrom (b : Buddy) (order : ℕ) : ℕ → ℕ → Option (ℕ × Buddy)
  | 0, _ => some (0, b)
  | n + 1, o =>
    let (addr, b) := b.buddyRemoveFromList o
    if addr ≠ 0 then do
      let b ← b.splitTo addr order o
      some (addr, { b with
        freePagesCount := (b.freePagesCount + 2 ^ 64 - orderToPages order) % 2 ^ 64 })
    else allocFrom b order n (o + 1)

def pmmAllocPages (b : Buddy) (order : ℕ) : Option (ℕ × Buddy) :=
  if maxOrder < order then some (0, b) else b.allocFrom order (maxOrder + 1 - order) order

def buddyIsFree (b : Buddy) (addr order : ℕ) : Bool :=
  match b.pmmPhysToPage (buddyAddress addr order) with
  | none => false
  | some page => (b.pageArray page).flags == pageFlagFree && (b.pageArray page).order == order

/-- The merge loop of `pmm_free_pages`, at most `n` times: the buddy stays on its list. -/
def merge (b : Buddy) : ℕ → ℕ → ℕ → ℕ × ℕ
  | 0, addr, order => (addr, order)
  | n + 1, addr, order =>
    if b.buddyIsFree addr order then
      let buddy := buddyAddress addr order
      merge b n (if buddy < addr then buddy else addr) (order + 1)
    else (addr, order)

def pmmFreePages (b : Buddy) (addr order : ℕ) : Option Buddy :=
  if addr = 0 ∨ maxOrder < order then some b
  else do
    let (addr, order) := b.merge (maxOrder - order) addr order
    let b ← b.buddyAddToList addr order
    some { b with freePagesCount := (b.freePagesCount + orderToPages order) % 2 ^ 64 }

end Buddy

/-- The allocator with the allocations that have not been freed: address and order. -/
structure BuddyRun where
  mem : Buddy
  live : List (ℕ × ℕ)

inductive BuddyCall
  | alloc (order : ℕ)
  | free (addr order : ℕ)

def BuddyRun.call (r : BuddyRun) : BuddyCall → Option BuddyRun
  | .alloc order => do
    let (addr, b) ← r.mem.pmmAllocPages order
    some ⟨b, if addr = 0 then r.live else (addr, order) :: r.live⟩
  | .free addr order => do
    let b ← r.mem.pmmFreePages addr order
    some ⟨b, r.live.erase (addr, order)⟩

namespace Buddy

def pages (b : Buddy) : ℕ := (b.memoryEnd - b.memoryStart) / pageSize

def addrOf (b : Buddy) (index : ℕ) : ℕ := b.memoryStart + index * pageSize

def next (b : Buddy) (page : Option ℕ) : Option ℕ := page.bind fun i => (b.pageArray i).next

/-- A block of order `o` can lie at page `i` of `n`. -/
structure Fits (n o i : ℕ) : Prop where
  order_le : o ≤ maxOrder
  aligned : 2 ^ o ∣ i
  le_pages : i + 2 ^ o ≤ n

def held (lists : ℕ → List ℕ) (hand : List (ℕ × ℕ)) : ℕ :=
  total (fun o _ => 2 ^ o) (maxOrder + 1) lists hand

/-- The free lists hold the blocks of `lists`, and those of `hand` are in use: page and order. -/
structure Inv (b : Buddy) (lists : ℕ → List ℕ) (hand : List (ℕ × ℕ)) : Prop where
  chain : ∀ o ≤ maxOrder, Chain none b.next (b.freeLists o) ((lists o).map some)
  order : ∀ o ≤ maxOrder, ∀ i ∈ lists o, (b.pageArray i).order = o
  fits : ∀ o ≤ maxOrder, ∀ i ∈ lists o, Fits b.pages o i
  hand_fits : ∀ x ∈ hand, Fits b.pages x.2 x.1
  once : ∀ p, total (holds p) (maxOrder + 1) lists hand ≤ 1
  size : held lists hand < 2 ^ 64

variable {b b' : Buddy} {lists : ℕ → List ℕ} {hand : List (ℕ × ℕ)} {o i : ℕ}

theorem held_hand : held lists hand = held lists [] + (hand.map fun x => 2 ^ x.2).sum := by
  unfold held total
  rw [List.map_nil, List.sum_nil, add_zero]

theorem held_perm {hand' : List (ℕ × ℕ)} (h : hand.Perm hand') : held lists hand = held lists hand' :=
  total_perm h

theorem held_split : held lists ((i, o + 1) :: hand) = held lists ((i, o) :: (i + 2 ^ o, o) :: hand) :=
  total_split splits_length

theorem held_push (ho : o ≤ maxOrder) : held (Function.update lists o (i :: lists o)) hand =
    held lists ((i, o) :: hand) := total_push (Nat.lt_succ_of_le ho)

theorem held_pop {l : List ℕ} (ho : o ≤ maxOrder) (hl : lists o = i :: l) :
    held lists hand = held (Function.update lists o l) ((i, o) :: hand) :=
  total_pop (Nat.lt_succ_of_le ho) hl

theorem addrOf_injective (b : Buddy) : Function.Injective b.addrOf := by
  intro i j hij
  unfold addrOf pageSize at hij
  omega

theorem addrOf_ne_zero (b : Buddy) (i : ℕ) : b.addrOf i ≠ 0 := by
  have hpos := b.memoryStart_pos
  unfold addrOf
  omega

theorem Fits.lt_pages {n : ℕ} (h : Fits n o i) : i < n :=
  (Nat.lt_add_of_pos_right (Nat.two_pow_pos o)).trans_le h.le_pages

theorem addrOf_lt (h : i < b.pages) : b.addrOf i < b.memoryEnd := by
  unfold addrOf
  unfold pages pageSize at *
  omega

theorem pmmPhysToPage_addrOf (h : i < b.pages) : b.pmmPhysToPage (b.addrOf i) = some i := by
  have hlt := addrOf_lt h
  have hsub : b.addrOf i - b.memoryStart = i * pageSize := Nat.add_sub_cancel_left _ _
  have hle : b.memoryStart ≤ b.addrOf i := Nat.le_add_right _ _
  unfold pmmPhysToPage
  rw [if_neg (by omega), hsub, Nat.mul_div_cancel _ (by decide)]

theorem pmmPageToPhys_some (h : i < b.pages) : b.pmmPageToPhys (some i) = b.addrOf i :=
  Nat.mod_eq_of_lt ((addrOf_lt h).trans b.memoryEnd_lt)

theorem buddyAddress_addrOf (hstart : orderToSize maxOrder ∣ b.memoryStart) (ho : o + 1 ≤ maxOrder)
    (hi : 2 ^ (o + 1) ∣ i) : buddyAddress (b.addrOf i) o = b.addrOf (i + 2 ^ o) := by
  have hsize : pageSize <<< o = 2 ^ (o + 12) := by
    rw [Nat.shiftLeft_eq, pow_add, Nat.mul_comm]
    rfl
  have hstart' : 2 ^ (o + 12 + 1) ∣ b.memoryStart :=
    (pow_dvd_pow 2 (by unfold maxOrder at ho; omega : o + 12 + 1 ≤ 23)).trans hstart
  have hpage : 2 ^ (o + 12 + 1) ∣ i * pageSize := by
    rw [show o + 12 + 1 = o + 1 + 12 by omega, pow_add]
    exact Nat.mul_dvd_mul hi (dvd_refl _)
  rw [buddyAddress, hsize, addrOf, xor_two_pow (Nat.dvd_add hstart' hpage), addrOf, Nat.add_mul,
    ← Nat.add_assoc, pow_add]
  rfl

/-- The address and the order that the caller knows. -/
def allocation (b : Buddy) (x : ℕ × ℕ) : ℕ × ℕ := (b.addrOf x.1, x.2)

theorem allocation_injective (b : Buddy) : Function.Injective b.allocation := by
  rintro ⟨i, o⟩ ⟨j, o'⟩ h
  obtain ⟨hi, rfl⟩ := Prod.mk.inj h
  exact congrArg (·, o) (b.addrOf_injective hi)

structure SameMemory (b' b : Buddy) : Prop where
  start : b'.memoryStart = b.memoryStart
  stop : b'.memoryEnd = b.memoryEnd

theorem SameMemory.trans {c : Buddy} (h : c.SameMemory b') (h' : b'.SameMemory b) : c.SameMemory b :=
  ⟨h.start.trans h'.start, h.stop.trans h'.stop⟩

theorem SameMemory.addrOf (h : b'.SameMemory b) (i : ℕ) : b'.addrOf i = b.addrOf i := by
  unfold Buddy.addrOf
  rw [h.start]

theorem SameMemory.allocation (h : b'.SameMemory b) : b'.allocation = b.allocation := by
  funext x
  rw [Buddy.allocation, h.addrOf]
  rfl

def Aligned (b : Buddy) : Prop := orderToSize maxOrder ∣ b.memoryStart

theorem SameMemory.aligned (h : b'.SameMemory b) (hb : b.Aligned) : b'.Aligned := by
  unfold Aligned
  rw [h.start]
  exact hb

/-- What `buddy_add_to_list` does with page `i`. -/
def putFirst (b : Buddy) (i order : ℕ) : Buddy :=
  { b with
    pageArray := Function.update b.pageArray i ⟨pageFlagFree, order, b.freeLists order⟩
    freeLists := Function.update b.freeLists order (some i) }

/-- What `buddy_remove_from_list` does with the first page `i`. -/
def takeFirst (b : Buddy) (i order : ℕ) : Buddy :=
  { b with
    freeLists := Function.update b.freeLists order (b.pageArray i).next
    pageArray := Function.update b.pageArray i
      { b.pageArray i with next := none, flags := pageFlagUsed } }

theorem buddyAddToList_addrOf (h : i < b.pages) :
    b.buddyAddToList (b.addrOf i) o = some (b.putFirst i o) := by
  unfold buddyAddToList
  rw [pmmPhysToPage_addrOf h]
  rfl

namespace Inv

theorem perm {hand' : List (ℕ × ℕ)} (h : b.Inv lists hand) (hp : hand.Perm hand') :
    b.Inv lists hand' where
  chain := h.chain
  order := h.order
  fits := h.fits
  hand_fits x hx := h.hand_fits x (hp.mem_iff.mpr hx)
  once p := total_perm hp ▸ h.once p
  size := held_perm hp ▸ h.size

theorem head_mem (h : b.Inv lists hand) (ho : o ≤ maxOrder) (hhead : b.freeLists o = some i) :
    i ∈ lists o := by
  have hchain := h.chain o ho
  rw [hhead] at hchain
  cases hl : lists o with
  | nil =>
    rw [hl] at hchain
    exact absurd hchain (by simp [Chain])
  | cons j l =>
    rw [hl] at hchain
    obtain rfl := Option.some.inj hchain.1
    exact List.mem_cons_self

theorem chain_congr (h : b.Inv lists hand) {k : ℕ} (hk : k ≤ maxOrder) (hi : i ∉ lists k)
    (hpage : ∀ j, j ≠ i → b'.pageArray j = b.pageArray j) :
    Chain none b'.next (b.freeLists k) ((lists k).map some) := by
  refine (h.chain k hk).congr fun x hx => ?_
  obtain ⟨j, hj, rfl⟩ := List.mem_map.mp hx
  have hji : j ≠ i := fun heq => hi (heq ▸ hj)
  show (b'.pageArray j).next = (b.pageArray j).next
  rw [hpage j hji]

theorem push (h : b.Inv lists ((i, o) :: hand)) :
    ∃ b', b.buddyAddToList (b.addrOf i) o = some b' ∧
      b'.Inv (Function.update lists o (i :: lists o)) hand ∧ b'.SameMemory b ∧
      b'.freePagesCount = b.freePagesCount := by
  have hfits : Fits b.pages o i := h.hand_fits (i, o) List.mem_cons_self
  have ho : o < maxOrder + 1 := Nat.lt_succ_of_le hfits.order_le
  have hnot : ∀ k ≤ maxOrder, i ∉ lists k := fun k hk =>
    notMem_of_total (h.once i) (Nat.lt_succ_of_le hk)
  refine ⟨b.putFirst i o, buddyAddToList_addrOf hfits.lt_pages, ?_, ⟨rfl, rfl⟩, rfl⟩
  have hpage : ∀ j, j ≠ i → (b.putFirst i o).pageArray j = b.pageArray j :=
    fun j hj => Function.update_of_ne hj _ _
  have hself : (b.putFirst i o).pageArray i = ⟨pageFlagFree, o, b.freeLists o⟩ :=
    Function.update_self ..
  constructor
  · intro k hk
    by_cases hko : k = o
    · subst hko
      have htail : Chain none (b.putFirst i k).next (b.freeLists k) ((lists k).map some) :=
        h.chain_congr hk (hnot k hk) hpage
      rw [Function.update_self]
      refine ⟨Function.update_self .., by simp, ?_⟩
      show Chain none _ ((b.putFirst i k).pageArray i).next _
      rw [hself]
      exact htail
    · have hhead : (b.putFirst i o).freeLists k = b.freeLists k := Function.update_of_ne hko _ _
      rw [Function.update_of_ne hko, hhead]
      exact h.chain_congr hk (hnot k hk) hpage
  · intro k hk j hj
    by_cases hji : j = i
    · subst hji
      rcases mem_push hj with ⟨-, rfl⟩ | hj
      · rw [hself]
      · exact absurd hj (hnot k hk)
    · rw [hpage j hji]
      exact h.order k hk j ((mem_push hj).resolve_left fun hj => hji hj.1)
  · intro k hk j hj
    rcases mem_push hj with ⟨rfl, rfl⟩ | hj
    · exact hfits
    · exact h.fits k hk j hj
  · exact fun x hx => h.hand_fits x (List.mem_cons_of_mem _ hx)
  · intro p
    rw [total_push ho]
    exact h.once p
  · rw [held_push hfits.order_le]
    exact h.size

theorem pop (h : b.Inv lists hand) (ho : o ≤ maxOrder) :
    (b.buddyRemoveFromList o = (0, b)) ∨ ∃ i l b', lists o = i :: l ∧
      b.buddyRemoveFromList o = (b.addrOf i, b') ∧
      b'.Inv (Function.update lists o l) ((i, o) :: hand) ∧ b'.SameMemory b ∧
      b'.freePagesCount = b.freePagesCount := by
  have hchain := h.chain o ho
  cases hl : lists o with
  | nil =>
    rw [hl] at hchain
    have hnone : b.freeLists o = none := hchain
    refine .inl ?_
    unfold buddyRemoveFromList
    rw [hnone]
  | cons i l =>
  rw [hl] at hchain
  obtain ⟨hhead, -, htail⟩ := hchain
  have hmem : i ∈ lists o := hl ▸ List.mem_cons_self
  have hfits := h.fits o ho i hmem
  have ho' : o < maxOrder + 1 := Nat.lt_succ_of_le ho
  have hnot : ∀ k ≤ maxOrder, i ∉ Function.update lists o l k := fun k hk =>
    notMem_of_total (total_pop ho' hl ▸ h.once i) (Nat.lt_succ_of_le hk)
  refine .inr ⟨i, l, b.takeFirst i o, rfl, ?_, ?_, ⟨rfl, rfl⟩, rfl⟩
  · unfold buddyRemoveFromList
    rw [hhead]
    dsimp only
    rw [pmmPageToPhys_some hfits.lt_pages]
    rfl
  have hpage : ∀ j, j ≠ i → (b.takeFirst i o).pageArray j = b.pageArray j :=
    fun j hj => Function.update_of_ne hj _ _
  constructor
  · intro k hk
    have hnotk := hnot k hk
    by_cases hko : k = o
    · subst hko
      rw [Function.update_self] at hnotk ⊢
      have hrest : Chain none (b.takeFirst i k).next (b.next (some i)) (l.map some) := by
        refine htail.congr fun x hx => ?_
        obtain ⟨j, hj, rfl⟩ := List.mem_map.mp hx
        show ((b.takeFirst i k).pageArray j).next = (b.pageArray j).next
        rw [hpage j fun heq => hnotk (heq ▸ hj)]
      rwa [show (b.takeFirst i k).freeLists k = b.next (some i) from Function.update_self ..]
    · have hhead : (b.takeFirst i o).freeLists k = b.freeLists k := Function.update_of_ne hko _ _
      rw [Function.update_of_ne hko] at hnotk ⊢
      rw [hhead]
      exact h.chain_congr hk hnotk hpage
  · intro k hk j hj
    rw [hpage j fun heq => hnot k hk (heq ▸ hj)]
    exact h.order k hk j (mem_pop hl hj)
  · exact fun k hk j hj => h.fits k hk j (mem_pop hl hj)
  · intro x hx
    rcases List.mem_cons.mp hx with rfl | hx
    · exact hfits
    · exact h.hand_fits x hx
  · intro p
    rw [← total_pop ho' hl]
    exact h.once p
  · rw [← held_pop ho hl]
    exact h.size

theorem split (h : b.Inv lists ((i, o + 1) :: hand)) :
    b.Inv lists ((i, o) :: (i + 2 ^ o, o) :: hand) := by
  have hfits : Fits b.pages (o + 1) i := h.hand_fits (i, o + 1) List.mem_cons_self
  have hpow : 2 ^ (o + 1) = 2 ^ o + 2 ^ o := (pow_succ 2 o).trans (Nat.mul_two _)
  have hle := hfits.le_pages
  have hdvd : 2 ^ o ∣ i := (pow_dvd_pow 2 (Nat.le_succ o)).trans hfits.aligned
  have hlow : Fits b.pages o i := ⟨Nat.le_of_succ_le hfits.order_le, hdvd, by omega⟩
  have hhigh : Fits b.pages o (i + 2 ^ o) :=
    ⟨hlow.order_le, Nat.dvd_add hdvd (dvd_refl _), by omega⟩
  refine ⟨h.chain, h.order, h.fits, ?_, ?_, ?_⟩
  · intro x hx
    rcases List.mem_cons.mp hx with rfl | hx
    · exact hlow
    rcases List.mem_cons.mp hx with rfl | hx
    · exact hhigh
    · exact h.hand_fits x (List.mem_cons_of_mem _ hx)
  · intro p
    rw [← total_split (splits_holds p)]
    exact h.once p
  · rw [← held_split]
    exact h.size

end Inv

variable {order : ℕ}

namespace Inv

theorem splitTo (hb : b.Aligned) (h : b.Inv lists ((i, o) :: hand)) (ho : order ≤ o) :
    ∃ b' lists', b.splitTo (b.addrOf i) order o = some b' ∧ b'.Inv lists' ((i, order) :: hand) ∧
      b'.SameMemory b ∧ b'.freePagesCount = b.freePagesCount ∧
      held lists' ((i, order) :: hand) = held lists ((i, o) :: hand) := by
  induction o generalizing b lists with
  | zero =>
    obtain rfl : order = 0 := Nat.le_zero.mp ho
    exact ⟨b, lists, rfl, h, ⟨rfl, rfl⟩, rfl, rfl⟩
  | succ o ih =>
    by_cases hlt : order < o + 1
    · have hfits : Fits b.pages (o + 1) i := h.hand_fits (i, o + 1) List.mem_cons_self
      have hsplit := h.split.perm (List.Perm.swap _ _ _)
      obtain ⟨b₁, hadd, h₁, hsame, hcount⟩ := hsplit.push
      obtain ⟨b', lists', hrest, h', hsame', hcount', hheld⟩ :=
        ih (hsame.aligned hb) h₁ (Nat.le_of_lt_succ hlt)
      refine ⟨b', lists', ?_, h', hsame'.trans hsame, hcount'.trans hcount, ?_⟩
      · rw [Buddy.splitTo, if_pos hlt, buddyAddress_addrOf hb hfits.order_le hfits.aligned, hadd,
          ← hsame.addrOf]
        exact hrest
      · rw [hheld, held_push (Nat.le_of_succ_le hfits.order_le), held_perm (List.Perm.swap _ _ _),
          ← held_split]
    · obtain rfl : order = o + 1 := Nat.le_antisymm ho (Nat.le_of_not_lt hlt)
      exact ⟨b, lists, if_neg hlt, h, ⟨rfl, rfl⟩, rfl, rfl⟩

end Inv

structure Counted (b : Buddy) (lists : ℕ → List ℕ) (hand : List (ℕ × ℕ)) : Prop extends
    b.Inv lists hand where
  count : b.freePagesCount = held lists []

theorem Counted.perm {hand' : List (ℕ × ℕ)} (h : b.Counted lists hand) (hp : hand.Perm hand') :
    b.Counted lists hand' := ⟨h.toInv.perm hp, h.count⟩

theorem Inv.recount (h : b.Inv lists hand) {n : ℕ} (hn : n = held lists []) :
    Counted { b with freePagesCount := n } lists hand :=
  ⟨⟨h.chain, h.order, h.fits, h.hand_fits, h.once, h.size⟩, hn⟩

theorem allocFrom_counted (hb : b.Aligned) (h : b.Counted lists hand) {n : ℕ}
    (hn : o + n ≤ maxOrder + 1) (ho : order ≤ o) :
    (b.allocFrom order n o = some (0, b)) ∨
      ∃ i b' lists', b.allocFrom order n o = some (b.addrOf i, b') ∧
        b'.Counted lists' ((i, order) :: hand) ∧ b'.SameMemory b := by
  induction n generalizing o with
  | zero => exact .inl rfl
  | succ n ih =>
    have ho' : o < maxOrder + 1 := by omega
    rw [allocFrom]
    rcases h.pop (Nat.le_of_lt_succ ho') with hnone | ⟨i, l, b₁, hl, hremove, h₁, hsame, hcount⟩
    · rw [hnone]
      dsimp only
      rw [if_neg (by simp)]
      exact ih (by omega) (by omega)
    · obtain ⟨b₂, lists', hsplit, h₂, hsame', hcount', hheld⟩ := h₁.splitTo (hsame.aligned hb) ho
      rw [hsame.addrOf] at hsplit
      -- what is in hand now was free
      have hpages : held lists' ((i, order) :: hand) = held lists hand := by
        rw [hheld, ← held_pop (Nat.le_of_lt_succ ho') hl]
      have hbefore : held lists hand = held lists [] + (hand.map fun x => 2 ^ x.2).sum := held_hand
      have hafter : held lists' ((i, order) :: hand) =
          held lists' [] + (2 ^ order + (hand.map fun x => 2 ^ x.2).sum) := held_hand
      have hsize := h.size
      have hcounted : (b₂.freePagesCount + 2 ^ 64 - orderToPages order) % 2 ^ 64 = held lists' [] := by
        have hpos := Nat.two_pow_pos order
        have hdiff : held lists [] + 2 ^ 64 - 2 ^ order = held lists' [] + 2 ^ 64 := by omega
        rw [hcount', hcount, h.count, orderToPages, Nat.one_shiftLeft, hdiff, Nat.add_mod_right]
        exact Nat.mod_eq_of_lt (by omega)
      refine .inr ⟨i, _, lists', ?_, h₂.recount hcounted, ⟨(hsame'.trans hsame).start,
        (hsame'.trans hsame).stop⟩⟩
      rw [hremove]
      dsimp only
      rw [if_pos (addrOf_ne_zero b i), hsplit]
      rfl

theorem pmmAllocPages_counted (b : Buddy) (hb : b.Aligned) (h : b.Counted lists hand) (order : ℕ) :
    b.pmmAllocPages order = some (0, b) ∨
      ∃ i b' lists', b.pmmAllocPages order = some (b.addrOf i, b') ∧
        b'.Counted lists' ((i, order) :: hand) ∧ b'.SameMemory b := by
  unfold pmmAllocPages
  by_cases horder : maxOrder < order
  · rw [if_pos horder]
    exact .inl rfl
  · rw [if_neg horder]
    exact allocFrom_counted hb h (by omega) le_rfl

/-- `pmm_free_pages` does not get so far as to merge. -/
def NoMerge (b : Buddy) (addr order : ℕ) : Prop :=
  order < maxOrder → b.buddyIsFree addr order = false

theorem merge_eq {addr : ℕ} (h : b.NoMerge addr order) :
    b.merge (maxOrder - order) addr order = (addr, order) := by
  by_cases horder : order < maxOrder
  · obtain ⟨n, hn⟩ := Nat.exists_eq_succ_of_ne_zero (Nat.sub_ne_zero_of_lt horder)
    rw [hn, merge, h horder]
    rfl
  · rw [Nat.sub_eq_zero_of_le (Nat.le_of_not_lt horder)]
    rfl

theorem Counted.pmmFreePages (h : b.Counted lists ((i, order) :: hand))
    (hno : b.NoMerge (b.addrOf i) order) :
    ∃ b' lists', b.pmmFreePages (b.addrOf i) order = some b' ∧ b'.Counted lists' hand ∧
      b'.SameMemory b := by
  have hfits : Fits b.pages order i := h.hand_fits (i, order) List.mem_cons_self
  obtain ⟨b₁, hadd, h₁, hsame, hcount₁⟩ := h.push
  have hcount : (b₁.freePagesCount + orderToPages order) % 2 ^ 64 =
      held (Function.update lists order (i :: lists order)) [] := by
    have hsize := h₁.size
    rw [held_push hfits.order_le, held_hand, List.map_cons, List.sum_cons] at hsize
    rw [held_push hfits.order_le, held_hand, hcount₁, h.count, orderToPages, Nat.one_shiftLeft]
    dsimp only [List.map_cons, List.map_nil, List.sum_cons, List.sum_nil] at hsize ⊢
    exact Nat.mod_eq_of_lt (by omega)
  refine ⟨_, _, ?_, h₁.recount hcount, ⟨hsame.start, hsame.stop⟩⟩
  unfold Buddy.pmmFreePages
  rw [if_neg (not_or.mpr ⟨addrOf_ne_zero b i, Nat.not_lt.mpr hfits.order_le⟩), merge_eq hno]
  dsimp only
  rw [hadd]
  rfl

end Buddy

/-! Runs. -/

namespace BuddyRun

variable {r r' : BuddyRun}

/-- Each page is in one block at most, a free one or that of an allocation; each free list holds
blocks of its order at multiples of their size; the counter is the sum of the free blocks. -/
structure WellFormed (r : BuddyRun) : Prop where
  aligned : r.mem.Aligned
  blocks : ∃ lists hand, r.live = hand.map (r.mem.allocation) ∧ r.mem.Counted lists hand

def Proper (r : BuddyRun) : BuddyCall → Prop
  | .alloc _ => True
  | .free addr order => (addr, order) ∈ r.live ∧ r.mem.NoMerge addr order

theorem WellFormed.call (h : r.WellFormed) {c : BuddyCall} (hc : r.Proper c) :
    ∃ r', r.call c = some r' ∧ r'.WellFormed := by
  obtain ⟨b, live⟩ := r
  obtain ⟨haligned, lists, hand, hlive, hcounted⟩ := h
  obtain rfl : live = hand.map b.allocation := hlive
  cases c with
  | alloc order =>
    rcases b.pmmAllocPages_counted haligned hcounted order with
      hnone | ⟨i, b', lists', halloc, h', hmem⟩
    · refine ⟨⟨b, hand.map b.allocation⟩, ?_, haligned, lists, hand, rfl, hcounted⟩
      rw [BuddyRun.call, hnone]
      rfl
    · refine ⟨⟨b', (b.addrOf i, order) :: hand.map b.allocation⟩, ?_, hmem.aligned haligned, lists',
        (i, order) :: hand, ?_, h'⟩
      · rw [BuddyRun.call, halloc]
        dsimp only [Option.bind_eq_bind, Option.bind_some]
        rw [if_neg (Buddy.addrOf_ne_zero b i)]
      · dsimp only
        rw [hmem.allocation]
        rfl
  | free addr order =>
    obtain ⟨hx, hno⟩ := hc
    obtain ⟨⟨i, o⟩, hmem, hxi⟩ := List.mem_map.mp hx
    obtain ⟨rfl, rfl⟩ := Prod.mk.inj hxi
    obtain ⟨b', lists', hfree, h', hmem'⟩ :=
      (hcounted.perm (List.perm_cons_erase hmem)).pmmFreePages hno
    refine ⟨⟨b', (hand.map b.allocation).erase (b.addrOf i, o)⟩, ?_, hmem'.aligned haligned, lists',
      hand.erase (i, o), ?_, h'⟩
    · rw [BuddyRun.call, hfree]
      rfl
    · show (hand.map b.allocation).erase (b.allocation (i, o)) = _
      rw [← List.map_erase b.allocation_injective, hmem'.allocation]

end BuddyRun

/-- Runs in which no allocation is freed beside a free buddy. -/
theorem buddy_lists_disjoint {r : BuddyRun} {calls : List BuddyCall} (h : r.WellFormed)
    (hcalls : Meets BuddyRun.call BuddyRun.Proper r calls) :
    ∃ r', calls.foldlM BuddyRun.call r = some r' ∧ r'.WellFormed :=
  hcalls.foldlM (I := fun _ r => r.WellFormed) (N := calls.length) (k := 0)
    (fun _ _ _ _ h hc => h.call hc) h (Nat.zero_add _).le

/-- One free block of order `o`, which is all the memory. -/
def oneBlock (o : ℕ) (h : o ≤ maxOrder) : Buddy where
  freeLists := fun k => if k = o then some 0 else none
  pageArray := fun _ => ⟨pageFlagFree, o, none⟩
  freePagesCount := 2 ^ o
  memoryStart := memoryBase
  memoryEnd := memoryBase + 2 ^ o * pageSize
  memoryStart_pos := MemoryRange.boot.base_pos
  memoryEnd_lt := by
    have hpow : 2 ^ o ≤ 2 ^ 11 := Nat.pow_le_pow_right (by decide) h
    unfold memoryBase pageSize
    omega

theorem oneBlock_wellFormed (o : ℕ) (h : o ≤ maxOrder) : BuddyRun.WellFormed ⟨oneBlock o h, []⟩ := by
  have htotal : ∀ g : ℕ → ℕ → ℕ,
      total g (maxOrder + 1) (fun k => if k = o then [0] else []) [] = g o 0 := by
    intro g
    unfold total
    rw [Finset.sum_eq_single o]
    · simp
    · intro k _ hk
      simp [hk]
    · intro hno
      exact absurd (Finset.mem_range.mpr (Nat.lt_succ_of_le h)) hno
  have hmem : ∀ {k i}, i ∈ (if k = o then [0] else []) → k = o ∧ i = 0 := by
    intro k i hi
    split at hi
    · next hk => exact ⟨hk, List.mem_singleton.mp hi⟩
    · exact absurd hi List.not_mem_nil
  have hpages : (oneBlock o h).pages = 2 ^ o := by
    unfold Buddy.pages oneBlock
    rw [Nat.add_sub_cancel_left, Nat.mul_div_cancel _ (by decide)]
  have haligned : orderToSize maxOrder ∣ memoryBase := by decide
  refine ⟨haligned, fun k => if k = o then [0] else [], [], rfl,
    ⟨?_, ?_, ?_, fun _ hx => absurd hx List.not_mem_nil, ?_, ?_⟩, ?_⟩
  · intro k _
    show Chain none _ (if k = o then some 0 else none) _
    split
    · exact ⟨rfl, by simp, rfl⟩
    · exact rfl
  · intro k _ i hi
    exact (hmem hi).1.symm
  · intro k hk i hi
    obtain ⟨rfl, rfl⟩ := hmem hi
    exact ⟨hk, dvd_zero _, by rw [hpages, Nat.zero_add]⟩
  · intro p
    rw [htotal, holds]
    split <;> decide
  · rw [Buddy.held, htotal]
    exact Nat.pow_lt_pow_right (by decide) (by unfold maxOrder at h; omega)
  · exact (htotal fun o _ => 2 ^ o).symm

/-- Four pages: a pair and a single page are allocated, and the pair is freed. -/
theorem buddy_lists_disjoint_four :
    ∃ r', [.alloc 1, .alloc 0, .free memoryBase 1].foldlM BuddyRun.call
      ⟨oneBlock 2 (by decide), []⟩ = some r' ∧ r'.WellFormed := by
  have heval : ((BuddyRun.call ⟨oneBlock 2 (by decide), []⟩ (.alloc 1)).bind fun r₁ =>
      (r₁.call (.alloc 0)).map fun r₂ =>
        decide ((memoryBase, 1) ∈ r₂.live) && !r₂.mem.buddyIsFree memoryBase 1) = some true := by
    decide +kernel
  obtain ⟨r₁, h₁, heval⟩ := Option.bind_eq_some_iff.mp heval
  obtain ⟨r₂, h₂, heval⟩ := Option.map_eq_some_iff.mp heval
  rw [Bool.and_eq_true, decide_eq_true_eq, Bool.not_eq_true'] at heval
  refine buddy_lists_disjoint (oneBlock_wellFormed 2 _) ⟨trivial, ?_⟩
  rintro t ht
  obtain rfl := Option.some.inj (h₁.symm.trans ht)
  refine ⟨trivial, ?_⟩
  rintro t ht
  obtain rfl := Option.some.inj (h₂.symm.trans ht)
  exact ⟨⟨heval.1, fun _ => heval.2⟩, fun _ _ => trivial⟩

/-- Two pages: the first is allocated and freed again. It is merged with the second, which stays on
its list. -/
theorem buddy_merge_overlaps :
    ¬ ∀ (r r' : BuddyRun) (calls : List BuddyCall), r.WellFormed →
      Meets BuddyRun.call (fun r c => ∀ addr order, c = .free addr order → (addr, order) ∈ r.live)
        r calls → calls.foldlM BuddyRun.call r = some r' → r'.WellFormed := by
  intro hall
  have heval : ((BuddyRun.call ⟨oneBlock 1 (by decide), []⟩ (.alloc 0)).bind fun r₁ =>
      (r₁.call (.free memoryBase 0)).map fun r₂ => decide ((memoryBase, 0) ∈ r₁.live) &&
        (r₂.mem.freeLists 0 == some 1) && (r₂.mem.freeLists 1 == some 0)) = some true := by
    decide +kernel
  obtain ⟨r₁, h₁, heval⟩ := Option.bind_eq_some_iff.mp heval
  obtain ⟨r₂, h₂, heval⟩ := Option.map_eq_some_iff.mp heval
  simp only [Bool.and_eq_true, decide_eq_true_eq, beq_iff_eq] at heval
  obtain ⟨⟨hlive, hone⟩, htwo⟩ := heval
  have hrun : [.alloc 0, .free memoryBase 0].foldlM BuddyRun.call ⟨oneBlock 1 (by decide), []⟩ =
      some r₂ := by
    rw [List.foldlM_cons, h₁]
    dsimp only [Option.bind_eq_bind, Option.bind_some]
    rw [List.foldlM_cons, h₂]
    rfl
  have hwf := hall _ r₂ _ (oneBlock_wellFormed 1 (by decide)) ?_ hrun
  · obtain ⟨-, lists, hand, -, hcounted⟩ := hwf
    have hle : holds 1 0 1 + holds 1 1 0 ≤ total (holds 1) (maxOrder + 1) lists hand :=
      add_le_total (by decide) (by decide) (by decide) (hcounted.head_mem (by decide) hone)
        (hcounted.head_mem (by decide) htwo)
    exact absurd (hle.trans (hcounted.once 1)) (by decide)
  · refine ⟨fun _ _ h => absurd h (by simp), ?_⟩
    rintro t ht
    obtain rfl := Option.some.inj (h₁.symm.trans ht)
    refine ⟨?_, fun _ _ => trivial⟩
    intro addr order h
    obtain ⟨rfl, rfl⟩ := BuddyCall.free.inj h
    exact hlive

end GcAos.Mm
