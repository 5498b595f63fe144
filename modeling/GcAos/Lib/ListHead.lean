import Mathlib.Data.List.Nodup
import Mathlib.Logic.Function.Basic
import Mathlib.Tactic

/-! Circular doubly linked lists, as kernels build them from a `list_head`. A list has a head that is
no entry, and a node that is in no list points to itself. -/

namespace GcAos.Lib

/-- Following `next` from `x` meets the nodes of `l` and then `y`. -/
def Path {ν : Type*} (next : ν → ν) : ν → List ν → ν → Prop
  | x, [], y => next x = y
  | x, a :: l, y => next x = a ∧ Path next a l y

namespace Path

variable {ν : Type*} {next next' : ν → ν} {x y y' a : ν} {l l' : List ν}

theorem append_iff : Path next x (l ++ a :: l') y ↔ Path next x l a ∧ Path next a l' y := by
  induction l generalizing x with
  | nil => exact Iff.rfl
  | cons b l ih => exact (and_congr_right fun _ => ih).trans and_assoc.symm

theorem congr (h : Path next x l y) (hnext : ∀ z ∈ x :: l, next' z = next z) : Path next' x l y := by
  induction l generalizing x with
  | nil => exact (hnext x List.mem_cons_self).trans h
  | cons b l ih =>
    exact ⟨(hnext x List.mem_cons_self).trans h.1, ih h.2 fun z hz =>
      hnext z (List.mem_cons_of_mem x hz)⟩

theorem next_getLast (h : Path next x l y) : next ((x :: l).getLast (List.cons_ne_nil x l)) = y := by
  induction l generalizing x with
  | nil => exact h
  | cons b l ih =>
    rw [List.getLast_cons (List.cons_ne_nil b l)]
    exact ih h.2

theorem retarget (h : Path next x l y) (hnd : (x :: l).Nodup)
    (hnext : ∀ z ∈ x :: l, z ≠ (x :: l).getLast (List.cons_ne_nil x l) → next' z = next z)
    (hlast : next' ((x :: l).getLast (List.cons_ne_nil x l)) = y') : Path next' x l y' := by
  induction l generalizing x with
  | nil => exact hlast
  | cons b l ih =>
    obtain ⟨hx, hnd⟩ := List.nodup_cons.mp hnd
    rw [List.getLast_cons (List.cons_ne_nil b l)] at hnext hlast
    have hne : x ≠ (b :: l).getLast (List.cons_ne_nil b l) := fun heq =>
      hx (heq ▸ List.getLast_mem (List.cons_ne_nil b l))
    exact ⟨(hnext x List.mem_cons_self hne).trans h.1,
      ih h.2 hnd (fun z hz => hnext z (List.mem_cons_of_mem x hz)) hlast⟩

theorem start (h : Path next x l y) {x' : ν} (hx : next' x' = next x)
    (hnext : ∀ z ∈ l, next' z = next z) : Path next' x' l y := by
  cases l with
  | nil => exact hx.trans h
  | cons b l => exact ⟨hx.trans h.1, h.2.congr hnext⟩

theorem getLast_reverse (h : Path next x l.reverse y) :
    (y :: l).getLast (List.cons_ne_nil y l) = next x := by
  rcases List.eq_nil_or_concat l with rfl | ⟨l', b, rfl⟩
  · exact Eq.symm h
  · rw [List.concat_eq_append, List.reverse_append] at h
    simpa using h.1.symm

theorem unlink [DecidableEq ν] {xs ys : List ν} {e p : ν} (h : Path next x (xs ++ e :: ys) y)
    (hnd : (x :: (xs ++ e :: ys)).Nodup) (hlast : (x :: xs).getLast (List.cons_ne_nil x xs) = p)
    (hnext : ∀ z ∈ x :: (xs ++ ys), next' z = if z = p then next e else next z) :
    Path next' x (xs ++ ys) y := by
  obtain ⟨hfront, hback⟩ := append_iff.mp h
  have hpm : p ∈ x :: xs := hlast ▸ List.getLast_mem _
  rw [← List.cons_append] at hnd hnext
  obtain ⟨hndx, hndy, hapart⟩ := List.nodup_append.mp hnd
  have hto : Path next' x xs (next e) := by
    refine hfront.retarget hndx (fun z hz hne => ?_) ?_
    · rw [hlast] at hne
      rw [hnext z (List.mem_append_left ys hz), if_neg hne]
    · rw [hlast, hnext p (List.mem_append_left ys hpm), if_pos rfl]
  cases ys with
  | nil =>
    rw [List.append_nil]
    have hend : next e = y := hback
    rwa [hend] at hto
  | cons c ys =>
    rw [hback.1] at hto
    refine append_iff.mpr ⟨hto, hback.2.congr fun z hz => ?_⟩
    have hzp : z ≠ p := fun heq => hapart p hpm z (List.mem_cons_of_mem e hz) heq.symm
    rw [hnext z (List.mem_append_right (x :: xs) hz), if_neg hzp]

end Path

structure Apart {ν : Type*} (heads : Set ν) (q : ν → List ν) : Prop where
  nodup : ∀ h ∈ heads, (q h).Nodup
  entry : ∀ h ∈ heads, ∀ x ∈ q h, x ∉ heads
  apart : ∀ h ∈ heads, ∀ h' ∈ heads, ∀ x, x ∈ q h → x ∈ q h' → h = h'

structure ListHeads (ν : Type*) where
  next : ν → ν
  prev : ν → ν

namespace ListHeads

variable {ν : Type*} {m : ListHeads ν} {heads : Set ν} {q : ν → List ν} {h e x : ν} {xs ys l : List ν}

def ListEmpty (m : ListHeads ν) (head : ν) : Prop := m.next head = head

/-- `next` and `prev` lead back from each other. -/
structure Paired (m : ListHeads ν) : Prop where
  prev_next : ∀ x, m.prev (m.next x) = x
  next_prev : ∀ x, m.next (m.prev x) = x

theorem Paired.next_inj (hm : m.Paired) {x y : ν} (heq : m.next x = m.next y) : x = y := by
  rw [← hm.prev_next x, heq, hm.prev_next]

theorem Paired.prev_inj (hm : m.Paired) {x y : ν} (heq : m.prev x = m.prev y) : x = y := by
  rw [← hm.next_prev x, heq, hm.next_prev]

/-- Both directions of a list with a head, and no entry twice. -/
structure Circular (m : ListHeads ν) (h : ν) (l : List ν) : Prop where
  next : Path m.next h l h
  prev : Path m.prev h l.reverse h
  nodup : (h :: l).Nodup

theorem Circular.empty (hnext : m.next h = h) (hprev : m.prev h = h) : m.Circular h [] :=
  ⟨hnext, hprev, List.nodup_singleton h⟩

namespace Circular

variable {m' : ListHeads ν}

theorem congr (hc : m.Circular h l) (hnext : ∀ x ∈ h :: l, m'.next x = m.next x)
    (hprev : ∀ x ∈ h :: l, m'.prev x = m.prev x) : m'.Circular h l := by
  refine ⟨hc.next.congr hnext, hc.prev.congr fun x hx => hprev x ?_, hc.nodup⟩
  simpa using hx

theorem getLast_eq_prev (hc : m.Circular h l) : (h :: l).getLast (List.cons_ne_nil h l) = m.prev h :=
  hc.prev.getLast_reverse

theorem prev_head_mem (hc : m.Circular h l) : m.prev h ∈ h :: l :=
  hc.getLast_eq_prev ▸ List.getLast_mem _

theorem around (hc : m.Circular h (xs ++ e :: ys)) :
    (h :: xs).getLast (List.cons_ne_nil h xs) = m.prev e ∧
      (h :: ys.reverse).getLast (List.cons_ne_nil h ys.reverse) = m.next e := by
  have hprev := hc.prev
  rw [List.reverse_append, List.reverse_cons, List.append_assoc, List.singleton_append] at hprev
  have hback := (Path.append_iff.mp hc.next).2
  rw [← List.reverse_reverse ys] at hback
  exact ⟨(Path.append_iff.mp hprev).2.getLast_reverse, hback.getLast_reverse⟩

theorem rotate (hc : m.Circular h (xs ++ e :: ys)) : m.Circular e (ys ++ h :: xs) := by
  obtain ⟨hnext, hprev, hnodup⟩ := hc
  rw [List.reverse_append, List.reverse_cons, List.append_assoc, List.singleton_append] at hprev
  refine ⟨?_, ?_, ?_⟩
  · exact Path.append_iff.mpr (Path.append_iff.mp hnext).symm
  · rw [List.reverse_append, List.reverse_cons, List.append_assoc, List.singleton_append]
    exact Path.append_iff.mpr (Path.append_iff.mp hprev).symm
  · have hperm : (h :: (xs ++ e :: ys)).Perm (e :: (ys ++ h :: xs)) := by
      rw [← List.cons_append, ← List.cons_append]
      exact List.perm_append_comm
    exact hperm.nodup_iff.mp hnodup

theorem prev_mem (hc : m.Circular h l) (he : e ∈ l) : m.prev e ∈ h :: l := by
  obtain ⟨xs, ys, rfl⟩ := List.append_of_mem he
  rw [← hc.around.1, ← List.cons_append]
  exact List.mem_append_left _ (List.getLast_mem _)

theorem next_mem (hc : m.Circular h l) (he : e ∈ l) : m.next e ∈ h :: l := by
  obtain ⟨xs, ys, rfl⟩ := List.append_of_mem he
  rw [← hc.around.2]
  rcases List.mem_cons.mp (List.getLast_mem (List.cons_ne_nil h ys.reverse)) with heq | hmem
  · rw [heq]
    exact List.mem_cons_self
  · exact List.mem_cons_of_mem h (by simp [List.mem_reverse.mp hmem])

end Circular

/-- The nodes in `heads` are the heads of the lists `q`. -/
structure Rings (m : ListHeads ν) (heads : Set ν) (q : ν → List ν) : Prop
    extends Apart heads q, Paired m where
  ring : ∀ h ∈ heads, Path m.next h (q h) h
  alone : ∀ x ∉ heads, (∀ h ∈ heads, x ∉ q h) → m.next x = x

namespace Rings

theorem nodup_cons (hm : m.Rings heads q) (hh : h ∈ heads) : (h :: q h).Nodup :=
  List.nodup_cons.mpr ⟨fun hmem => hm.entry h hh h hmem hh, hm.nodup h hh⟩

theorem getLast_eq_prev (hm : m.Rings heads q) (hh : h ∈ heads) :
    (h :: q h).getLast (List.cons_ne_nil h (q h)) = m.prev h := by
  rw [← hm.prev_next ((h :: q h).getLast _), (hm.ring h hh).next_getLast]

theorem next_head (hm : m.Rings heads q) (hh : h ∈ heads) (hq : q h = e :: xs) : m.next h = e := by
  have := hm.ring h hh
  rw [hq] at this
  exact this.1

theorem ne_of_mem (hm : m.Rings heads q) (hh : h ∈ heads) {h' y z : ν} (hh' : h' ∈ heads) (hne : h' ≠ h)
    (hy : y ∈ h :: q h) (hz : z ∈ h' :: q h') : z ≠ y := by
  rintro rfl
  rcases List.mem_cons.mp hy with rfl | hy <;> rcases List.mem_cons.mp hz with rfl | hz
  · exact hne rfl
  · exact hm.entry h' hh' z hz hh
  · exact hm.entry h hh z hy hh'
  · exact hne (hm.apart h' hh' h hh z hz hy)

theorem ne_of_alone (hh : h ∈ heads) (hx : x ∉ heads) (hout : ∀ h ∈ heads, x ∉ q h) {z : ν}
    (hz : z ∈ h :: q h) : z ≠ x := by
  rintro rfl
  rcases List.mem_cons.mp hz with rfl | hz
  · exact hx hh
  · exact hout h hh hz

theorem next_ne_self (hm : m.Rings heads q) (hh : h ∈ heads) (he : e ∈ q h) : m.next e ≠ e := by
  intro heq
  have hring := hm.ring h hh
  have hnd := hm.nodup h hh
  have hout := hm.entry h hh e he
  obtain ⟨xs, ys, hq⟩ := List.append_of_mem he
  rw [hq] at hring hnd
  have hafter := (Path.append_iff.mp hring).2
  cases ys with
  | nil => exact hout ((heq.symm.trans hafter) ▸ hh)
  | cons c ys =>
    obtain rfl : e = c := heq.symm.trans hafter.1
    exact (List.nodup_cons.mp (List.nodup_append.mp hnd).2.1).1 List.mem_cons_self

theorem listEmpty_head (hm : m.Rings heads q) (hh : h ∈ heads) : m.ListEmpty h ↔ q h = [] := by
  have hring := hm.ring h hh
  cases hq : q h with
  | nil =>
    rw [hq] at hring
    exact iff_of_true hring rfl
  | cons a l =>
    rw [hq] at hring
    refine iff_of_false (fun hempty => ?_) (List.cons_ne_nil a l)
    have ha : a = h := hring.1.symm.trans hempty
    exact hm.entry h hh a (hq ▸ List.mem_cons_self) (ha ▸ hh)

theorem listEmpty_entry (hm : m.Rings heads q) (hx : x ∉ heads) :
    m.ListEmpty x ↔ ∀ h ∈ heads, x ∉ q h :=
  ⟨fun heq _ hh hmem => hm.next_ne_self hh hmem heq, hm.alone x hx⟩

end Rings

/-! Lists of one kind of node, where the pointers of a node that is in no list are null. -/

section Intrusive

variable {κ : Type*} {null : ν} {f : κ → ν} {k : κ} {ks : List κ} {r : ν → List κ}

/-- The nodes `f k` of the keys, apart from each other, from the heads and from null. -/
structure NodeKind (null : ν) (heads : Set ν) (f : κ → ν) : Prop where
  inj : Function.Injective f
  not_head : ∀ k, f k ∉ heads
  ne_null : ∀ k, f k ≠ null
  null_notMem : null ∉ heads

theorem NodeKind.null_notMem_list (hf : NodeKind null heads f) (hh : h ∈ heads) :
    null ∉ h :: ks.map f := by
  rw [List.mem_cons, List.mem_map]
  rintro (rfl | ⟨k, -, hk⟩)
  · exact hf.null_notMem hh
  · exact hf.ne_null k hk

theorem NodeKind.notMem_list (hf : NodeKind null heads f) (hh : h ∈ heads) (hk : k ∉ ks) :
    f k ∉ h :: ks.map f := by
  rw [List.mem_cons, List.mem_map]
  rintro (heq | ⟨k', hk', heq⟩)
  · exact hf.not_head k (heq ▸ hh)
  · exact hk (hf.inj heq ▸ hk')

/-- The lists `r` of the heads; a node with a null pointer is in none. -/
structure Intrusive (m : ListHeads ν) (null : ν) (heads : Set ν) (f : κ → ν) (r : ν → List κ) :
    Prop where
  kind : NodeKind null heads f
  ring : ∀ h ∈ heads, m.Circular h ((r h).map f)
  free : ∀ k, m.next (f k) = null ↔ ∀ h ∈ heads, k ∉ r h
  apart : ∀ h ∈ heads, ∀ h' ∈ heads, ∀ k, k ∈ r h → k ∈ r h' → h = h'

namespace Intrusive

theorem nodup (hm : m.Intrusive null heads f r) (hh : h ∈ heads) : (r h).Nodup :=
  ((List.nodup_cons.mp (hm.ring h hh).nodup).2).of_map

theorem notMem_other (hm : m.Intrusive null heads f r) (hh : h ∈ heads) {h' y : ν} (hh' : h' ∈ heads)
    (hne : h' ≠ h) (hy : y ∈ h' :: (r h').map f) : y ∉ h :: (r h).map f := by
  rcases List.mem_cons.mp hy with rfl | hy
  · rw [List.mem_cons, List.mem_map]
    rintro (heq | ⟨k, -, rfl⟩)
    · exact hne heq
    · exact hm.kind.not_head k hh'
  · obtain ⟨k, hk, rfl⟩ := List.mem_map.mp hy
    exact hm.kind.notMem_list hh fun hk' => hne (hm.apart h' hh' h hh k hk hk')

theorem of_rings (hf : NodeKind null heads f) (hring : ∀ h ∈ heads, m.Circular h ((r h).map f))
    (hfree : ∀ k, (∀ h ∈ heads, k ∉ r h) → m.next (f k) = null)
    (hapart : ∀ h ∈ heads, ∀ h' ∈ heads, ∀ k, k ∈ r h → k ∈ r h' → h = h') :
    m.Intrusive null heads f r := by
  refine ⟨hf, hring, fun k => ⟨fun hnull h hh hk => ?_, hfree k⟩, hapart⟩
  have hmem := (hring h hh).next_mem (List.mem_map_of_mem hk)
  rw [hnull] at hmem
  exact hf.null_notMem_list hh hmem

end Intrusive

end Intrusive

variable [DecidableEq ν]

theorem Apart.update (hq : Apart heads q) (hl : l.Nodup) (hentry : ∀ y ∈ l, y ∉ heads)
    (hapart : ∀ y ∈ l, ∀ h' ∈ heads, h' ≠ h → y ∉ q h') : Apart heads (Function.update q h l) := by
  have hself : Function.update q h l h = l := Function.update_self ..
  have hother {h' : ν} (hne : h' ≠ h) : Function.update q h l h' = q h' := Function.update_of_ne hne ..
  refine ⟨fun h' hh' => ?_, fun h' hh' y hy => ?_, fun h₁ hh₁ h₂ hh₂ y hy₁ hy₂ => ?_⟩
  · by_cases hne : h' = h
    · rw [hne, hself]
      exact hl
    · rw [hother hne]
      exact hq.nodup h' hh'
  · by_cases hne : h' = h
    · rw [hne, hself] at hy
      exact hentry y hy
    · rw [hother hne] at hy
      exact hq.entry h' hh' y hy
  · by_cases hne₁ : h₁ = h <;> by_cases hne₂ : h₂ = h
    · rw [hne₁, hne₂]
    · rw [hne₁, hself] at hy₁
      rw [hother hne₂] at hy₂
      exact absurd hy₂ (hapart y hy₁ h₂ hh₂ hne₂)
    · rw [hne₂, hself] at hy₂
      rw [hother hne₁] at hy₁
      exact absurd hy₁ (hapart y hy₂ h₁ hh₁ hne₁)
    · rw [hother hne₁] at hy₁
      rw [hother hne₂] at hy₂
      exact hq.apart h₁ hh₁ h₂ hh₂ y hy₁ hy₂

def setNext (m : ListHeads ν) (x y : ν) : ListHeads ν := { m with next := Function.update m.next x y }

def setPrev (m : ListHeads ν) (x y : ν) : ListHeads ν := { m with prev := Function.update m.prev x y }

def initListHead (m : ListHeads ν) (x : ν) : ListHeads ν := (m.setNext x x).setPrev x x

def listInsert (m : ListHeads ν) (new prev next : ν) : ListHeads ν :=
  (((m.setPrev next new).setNext new next).setPrev new prev).setNext prev new

def listAdd (m : ListHeads ν) (new head : ν) : ListHeads ν := m.listInsert new head (m.next head)

def listAddTail (m : ListHeads ν) (new head : ν) : ListHeads ν := m.listInsert new (m.prev head) head

def listDel (m : ListHeads ν) (null entry : ν) : ListHeads ν :=
  let prev := m.prev entry
  let next := m.next entry
  (((m.setPrev next prev).setNext prev next).setNext entry null).setPrev entry null

instance (m : ListHeads ν) (head : ν) : Decidable (m.ListEmpty head) :=
  inferInstanceAs (Decidable (_ = _))

section Apply

variable (m) (y new head null entry : ν)

theorem initListHead_next : (m.initListHead entry).next y = if y = entry then entry else m.next y := by
  simp [initListHead, setNext, setPrev, Function.update_apply]

theorem initListHead_prev : (m.initListHead entry).prev y = if y = entry then entry else m.prev y := by
  simp [initListHead, setNext, setPrev, Function.update_apply]

theorem listAdd_next : (m.listAdd new head).next y =
    if y = head then new else if y = new then m.next head else m.next y := by
  simp [listAdd, listInsert, setNext, setPrev, Function.update_apply]

theorem listDel_null_next : (m.listDel null entry).next y =
    if y = entry then null else if y = m.prev entry then m.next entry else m.next y := by
  simp only [listDel, setNext, setPrev, Function.update_apply]

theorem listAddTail_next : (m.listAddTail new head).next y =
    if y = m.prev head then new else if y = new then head else m.next y := by
  simp [listAddTail, listInsert, setNext, setPrev, Function.update_apply]

theorem listAddTail_prev : (m.listAddTail new head).prev y =
    if y = new then m.prev head else if y = head then new else m.prev y := by
  simp [listAddTail, listInsert, setNext, setPrev, Function.update_apply]

theorem listDel_null_prev : (m.listDel null entry).prev y =
    if y = entry then null else if y = m.next entry then m.prev entry else m.prev y := by
  simp only [listDel, setNext, setPrev, Function.update_apply]

theorem listDel_next : ((m.listDel null entry).initListHead entry).next y =
    if y = entry then entry else if y = m.prev entry then m.next entry else m.next y := by
  simp only [listDel, initListHead, setNext, setPrev, Function.update_apply]
  split <;> rfl

theorem listDel_prev : ((m.listDel null entry).initListHead entry).prev y =
    if y = entry then entry else if y = m.next entry then m.prev entry else m.prev y := by
  simp only [listDel, initListHead, setNext, setPrev, Function.update_apply]
  split <;> rfl

end Apply

namespace Circular

variable {y null : ν}

theorem listAddTail (hc : m.Circular h l) (hx : x ∉ h :: l) :
    (m.listAddTail x h).Circular h (l ++ [x]) := by
  have hxh : x ≠ h := List.ne_of_not_mem_cons hx
  have hne : ∀ z ∈ h :: l, z ≠ x := fun z hz heq => hx (heq ▸ hz)
  refine ⟨Path.append_iff.mpr ⟨hc.next.retarget hc.nodup (fun z hz hzl => ?_) ?_, ?_⟩, ?_, ?_⟩
  · rw [hc.getLast_eq_prev] at hzl
    rw [listAddTail_next, if_neg hzl, if_neg (hne z hz)]
  · rw [hc.getLast_eq_prev, listAddTail_next, if_pos rfl]
  · show (m.listAddTail x h).next x = h
    rw [listAddTail_next, if_neg (hne _ hc.prev_head_mem).symm, if_pos rfl]
  · rw [List.reverse_append]
    refine ⟨?_, hc.prev.start ?_ fun z hz => ?_⟩
    · rw [listAddTail_prev, if_neg hxh.symm, if_pos rfl]
    · rw [listAddTail_prev, if_pos rfl]
    · have hzl := List.mem_reverse.mp hz
      have hzh : z ≠ h := fun heq => (List.nodup_cons.mp hc.nodup).1 (heq ▸ hzl)
      rw [listAddTail_prev, if_neg (hne z (List.mem_cons_of_mem h hzl)), if_neg hzh]
  · rw [← List.cons_append]
    refine List.nodup_append.mpr ⟨hc.nodup, List.nodup_singleton x, fun z hz z' hz' => ?_⟩
    rw [List.mem_singleton.mp hz']
    exact hne z hz

theorem listAddTail_frame (hc : m.Circular h l) (hy : y ∉ h :: l) (hyx : y ≠ x) :
    (m.listAddTail x h).next y = m.next y ∧ (m.listAddTail x h).prev y = m.prev y := by
  have hyl : y ≠ m.prev h := fun heq => hy (heq ▸ hc.prev_head_mem)
  rw [listAddTail_next, if_neg hyl, if_neg hyx, listAddTail_prev, if_neg hyx,
    if_neg (List.ne_of_not_mem_cons hy)]
  exact ⟨rfl, rfl⟩

theorem listAddTail_headD (hc : m.Circular h (xs ++ ys)) (hx : x ∉ h :: (xs ++ ys)) :
    (m.listAddTail x (ys.headD h)).Circular h (xs ++ x :: ys) ∧
      ∀ y ∉ h :: (xs ++ ys), y ≠ x →
        (m.listAddTail x (ys.headD h)).next y = m.next y ∧
          (m.listAddTail x (ys.headD h)).prev y = m.prev y := by
  cases ys with
  | nil =>
    rw [List.append_nil] at hc hx ⊢
    exact ⟨hc.listAddTail hx, fun y hy hyx => hc.listAddTail_frame hy hyx⟩
  | cons e ys =>
    have hmem : ∀ y, y ∈ e :: (ys ++ h :: xs) ↔ y ∈ h :: (xs ++ e :: ys) := by
      intro y
      simp only [List.mem_cons, List.mem_append]
      tauto
    -- the entry is taken for the head
    have hrot := hc.rotate
    refine ⟨?_, fun y hy hyx => hrot.listAddTail_frame (fun hin => hy ((hmem y).mp hin)) hyx⟩
    have hadd := hrot.listAddTail fun hin => hx ((hmem x).mp hin)
    rw [List.append_assoc, List.cons_append] at hadd
    have hback := hadd.rotate
    rwa [List.append_assoc, List.singleton_append] at hback

theorem listAdd (hc : m.Circular h l) (hx : x ∉ h :: l) : (m.listAdd x h).Circular h (x :: l) := by
  have hlinks : m.next h = l.headD h ∧ m.prev (l.headD h) = h := by
    cases l with
    | nil => exact ⟨hc.next, hc.prev⟩
    | cons a l =>
      have hsplit : m.Circular h ([] ++ a :: l) := hc
      exact ⟨hc.next.1, hsplit.around.1.symm⟩
  have hadd : (m.listAddTail x (l.headD h)).Circular h ([] ++ x :: l) := (listAddTail_headD hc hx).1
  rw [ListHeads.listAddTail, hlinks.2, ← hlinks.1] at hadd
  exact hadd

theorem listAdd_entry (hc : m.Circular h (xs ++ e :: ys)) (hx : x ∉ h :: (xs ++ e :: ys)) :
    (m.listAdd x e).Circular h (xs ++ e :: x :: ys) := by
  have hnot : x ∉ e :: (ys ++ h :: xs) := by
    simp only [List.mem_cons, List.mem_append] at hx ⊢
    tauto
  have hadd : (m.listAdd x e).Circular e ((x :: ys) ++ h :: xs) := hc.rotate.listAdd hnot
  exact hadd.rotate

theorem listDel (hc : m.Circular h (xs ++ e :: ys)) : (m.listDel null e).Circular h (xs ++ ys) := by
  obtain ⟨hlast, hfirst⟩ := hc.around
  have hne : ∀ z ∈ h :: (xs ++ ys), z ≠ e := by
    have hnd := hc.nodup
    rw [← List.cons_append] at hnd ⊢
    rintro z hz rfl
    exact (List.nodup_cons.mp (List.nodup_middle.mp hnd)).1 hz
  refine ⟨hc.next.unlink hc.nodup hlast fun z hz => ?_, ?_, ?_⟩
  · rw [listDel_null_next, if_neg (hne z hz)]
  · have hprev := hc.prev
    have hnd := hc.nodup
    rw [List.reverse_append, List.reverse_cons, List.append_assoc, List.singleton_append] at hprev
    rw [List.reverse_append]
    refine hprev.unlink ?_ hfirst fun z hz => ?_
    · have hperm : (ys.reverse ++ e :: xs.reverse).Perm (xs ++ e :: ys) := by
        have := List.reverse_perm (xs ++ e :: ys)
        rwa [List.reverse_append, List.reverse_cons, List.append_assoc] at this
      exact (hperm.cons h).nodup_iff.mpr hnd
    · have hz' : z ∈ h :: (xs ++ ys) := by
        simp only [List.mem_cons, List.mem_append, List.mem_reverse] at hz ⊢
        tauto
      rw [listDel_null_prev, if_neg (hne z hz')]
  · have hnd := hc.nodup
    rw [← List.cons_append] at hnd ⊢
    exact (List.nodup_cons.mp (List.nodup_middle.mp hnd)).2

theorem listDel_frame (hc : m.Circular h l) (he : e ∈ l) (hy : y ∉ h :: l) :
    (m.listDel null e).next y = m.next y ∧ (m.listDel null e).prev y = m.prev y := by
  have hye : y ≠ e := fun heq => hy (heq ▸ List.mem_cons_of_mem h he)
  have hyp : y ≠ m.prev e := fun heq => hy (heq ▸ hc.prev_mem he)
  have hyn : y ≠ m.next e := fun heq => hy (heq ▸ hc.next_mem he)
  rw [listDel_null_next, if_neg hye, if_neg hyp, listDel_null_prev, if_neg hye, if_neg hyn]
  exact ⟨rfl, rfl⟩

end Circular

namespace Paired

theorem listAddTail (hm : m.Paired) (hself : m.next x = x) (hxh : x ≠ h) :
    (m.listAddTail x h).Paired := by
  have hlx : x ≠ m.prev h := by
    intro heq
    have hnext := hm.next_prev h
    rw [← heq, hself] at hnext
    exact hxh hnext
  refine ⟨fun y => ?_, fun y => ?_⟩
  · rw [listAddTail_next]
    split
    · next heq => rw [listAddTail_prev, if_pos rfl, heq]
    · next hyl =>
      split
      · next heq => rw [listAddTail_prev, if_neg hxh.symm, if_pos rfl, heq]
      · next hyx =>
        have h₁ : m.next y ≠ x := fun heq => hyx (hm.next_inj (heq.trans hself.symm))
        have h₂ : m.next y ≠ h := fun heq => hyl (by rw [← heq, hm.prev_next])
        rw [listAddTail_prev, if_neg h₁, if_neg h₂, hm.prev_next]
  · rw [listAddTail_prev]
    split
    · next heq => rw [listAddTail_next, if_pos rfl, heq]
    · next hyx =>
      split
      · next heq => rw [listAddTail_next, if_neg hlx, if_pos rfl, heq]
      · next hyh =>
        have h₁ : m.prev y ≠ m.prev h := fun heq => hyh (hm.prev_inj heq)
        have h₂ : m.prev y ≠ x := fun heq => hyx (by rw [← hm.next_prev y, heq, hself])
        rw [listAddTail_next, if_neg h₁, if_neg h₂, hm.next_prev]

theorem not_listAddTail (hm : m.Paired) (hself : m.next x ≠ x) (hxh : x ≠ h) :
    ¬(m.listAddTail x h).Paired := by
  intro hm'
  have hpred := hm.next_prev x
  have hpx : m.prev x ≠ x := by
    intro heq
    rw [heq] at hpred
    exact hself hpred
  -- the node before `x` and the last one of the list both lead to `x`
  have hph : m.prev x ≠ m.prev h := fun heq => hxh (hm.prev_inj heq)
  have h₁ : (m.listAddTail x h).next (m.prev x) = x := by
    rw [listAddTail_next, if_neg hph, if_neg hpx, hpred]
  have h₂ : (m.listAddTail x h).next (m.prev h) = x := by rw [listAddTail_next, if_pos rfl]
  exact hph (hm'.next_inj (h₁.trans h₂.symm))

theorem listDel (hm : m.Paired) (null e : ν) : ((m.listDel null e).initListHead e).Paired := by
  refine ⟨fun y => ?_, fun y => ?_⟩
  · rw [listDel_next]
    split
    · next heq => rw [listDel_prev, if_pos rfl, heq]
    · next hye =>
      split
      · next heq =>
        have hne : m.next e ≠ e := by
          intro hself
          have := hm.prev_next e
          rw [hself, ← heq] at this
          exact hye this
        rw [listDel_prev, if_neg hne, if_pos rfl, heq]
      · next hyp =>
        have h₁ : m.next y ≠ e := fun heq => hyp (by rw [← heq, hm.prev_next])
        have h₂ : m.next y ≠ m.next e := fun heq => hye (hm.next_inj heq)
        rw [listDel_prev, if_neg h₁, if_neg h₂, hm.prev_next]
  · rw [listDel_prev]
    split
    · next heq => rw [listDel_next, if_pos rfl, heq]
    · next hye =>
      split
      · next heq =>
        have hne : m.prev e ≠ e := by
          intro hself
          have := hm.next_prev e
          rw [hself, ← heq] at this
          exact hye this
        rw [listDel_next, if_neg hne, if_pos rfl, heq]
      · next hyn =>
        have h₁ : m.prev y ≠ e := fun heq => hyn (by rw [← heq, hm.next_prev])
        have h₂ : m.prev y ≠ m.prev e := fun heq => hye (hm.prev_inj heq)
        rw [listDel_next, if_neg h₁, if_neg h₂, hm.next_prev]

end Paired

namespace Rings

theorem listAddTail (hm : m.Rings heads q) (hh : h ∈ heads) (hx : x ∉ heads)
    (hout : ∀ h ∈ heads, x ∉ q h) :
    (m.listAddTail x h).Rings heads (Function.update q h (q h ++ [x])) := by
  have hself := hm.alone x hx hout
  have hlast := hm.getLast_eq_prev hh
  have hlastmem : m.prev h ∈ h :: q h := hlast ▸ List.getLast_mem _
  have hapart : Apart heads (Function.update q h (q h ++ [x])) := by
    apply Apart.update hm.toApart
    · refine List.nodup_append.mpr ⟨hm.nodup h hh, List.nodup_singleton x, ?_⟩
      rintro y hy z hz rfl
      exact hout h hh (List.mem_singleton.mp hz ▸ hy)
    · intro y hy
      rcases List.mem_append.mp hy with hy | hy
      · exact hm.entry h hh y hy
      · exact List.mem_singleton.mp hy ▸ hx
    · intro y hy h' hh' hne hy'
      rcases List.mem_append.mp hy with hy | hy
      · exact hne (hm.apart h' hh' h hh y hy' hy)
      · exact hout h' hh' (List.mem_singleton.mp hy ▸ hy')
  refine ⟨hapart, hm.toPaired.listAddTail hself fun heq => hx (heq ▸ hh), fun h' hh' => ?_,
    fun y hy hyout => ?_⟩
  · by_cases hne : h' = h
    · subst hne
      rw [Function.update_self]
      have hlx := ne_of_alone hh' hx hout hlastmem
      refine Path.append_iff.mpr ⟨(hm.ring h' hh').retarget (hm.nodup_cons hh') ?_ ?_, ?_⟩
      · intro z hz hzl
        rw [hlast] at hzl
        rw [listAddTail_next, if_neg hzl, if_neg (ne_of_alone hh' hx hout hz)]
      · rw [hlast, listAddTail_next, if_pos rfl]
      · change (m.listAddTail x h').next x = h'
        rw [listAddTail_next, if_neg hlx.symm, if_pos rfl]
    · rw [Function.update_of_ne hne]
      apply (hm.ring h' hh').congr
      intro z hz
      rw [listAddTail_next, if_neg (hm.ne_of_mem hh hh' hne hlastmem hz),
        if_neg (ne_of_alone hh' hx hout hz)]
  · have hyold (h' : ν) (hh' : h' ∈ heads) : y ∉ q h' := by
      have := hyout h' hh'
      by_cases hne : h' = h
      · subst hne
        rw [Function.update_self] at this
        exact fun hy => this (List.mem_append_left _ hy)
      · rwa [Function.update_of_ne hne] at this
    have hyx : y ≠ x := by
      rintro rfl
      apply hyout h hh
      rw [Function.update_self]
      exact List.mem_append_right _ (List.mem_singleton_self _)
    rw [listAddTail_next, if_neg (ne_of_alone hh hy hyold hlastmem).symm, if_neg hyx]
    exact hm.alone y hy hyold

theorem listDel (hm : m.Rings heads q) (hh : h ∈ heads) (hq : q h = xs ++ e :: ys) (null : ν) :
    ((m.listDel null e).initListHead e).Rings heads (Function.update q h (xs ++ ys)) := by
  have hring := hm.ring h hh
  have hnd := hm.nodup_cons hh
  rw [hq] at hring hnd
  obtain ⟨hfront, hback⟩ := Path.append_iff.mp hring
  have he : e ∈ q h := by simp [hq]
  have hsub {y : ν} (hy : y ∈ xs ++ ys) : y ∈ q h := by
    rw [hq]
    grind
  -- the node before `e` is the last of those before it
  have hlast : (h :: xs).getLast (List.cons_ne_nil h xs) = m.prev e := by
    rw [← hm.prev_next ((h :: xs).getLast _), hfront.next_getLast]
  have hlastmem : m.prev e ∈ h :: xs := hlast ▸ List.getLast_mem _
  have hprevmem : m.prev e ∈ h :: q h := by
    rw [hq]
    grind
  have hpe : m.prev e ≠ e := by grind
  have hapart : Apart heads (Function.update q h (xs ++ ys)) := by
    apply Apart.update hm.toApart
    · grind
    · exact fun y hy => hm.entry h hh y (hsub hy)
    · exact fun y hy h' hh' hne hy' => hne (hm.apart h' hh' h hh y hy' (hsub hy))
  refine ⟨hapart, hm.toPaired.listDel null e, fun h' hh' => ?_, fun y hy hyout => ?_⟩
  · by_cases hne : h' = h
    · subst hne
      rw [Function.update_self]
      have hto : Path ((m.listDel null e).initListHead e).next h' xs (m.next e) := by
        apply hfront.retarget (by grind)
        · intro z hz hzl
          rw [hlast] at hzl
          rw [listDel_next, if_neg (by grind), if_neg hzl]
        · rw [hlast, listDel_next, if_neg hpe, if_pos rfl]
      cases ys with
      | nil =>
        rw [List.append_nil]
        have hend : m.next e = h' := hback
        rwa [hend] at hto
      | cons c ys =>
        rw [hback.1] at hto
        refine Path.append_iff.mpr ⟨hto, hback.2.congr fun z hz => ?_⟩
        rw [listDel_next, if_neg (by grind), if_neg (by grind)]
    · rw [Function.update_of_ne hne]
      apply (hm.ring h' hh').congr
      intro z hz
      rw [listDel_next, if_neg (hm.ne_of_mem hh hh' hne (List.mem_cons_of_mem _ he) hz),
        if_neg (hm.ne_of_mem hh hh' hne hprevmem hz)]
  · by_cases hye : y = e
    · rw [hye, listDel_next, if_pos rfl]
    · have hyold (h' : ν) (hh' : h' ∈ heads) : y ∉ q h' := by
        have := hyout h' hh'
        by_cases hne : h' = h
        · subst hne
          rw [Function.update_self] at this
          rw [hq]
          grind
        · rwa [Function.update_of_ne hne] at this
      rw [listDel_next, if_neg hye, if_neg (ne_of_alone hh hy hyold hprevmem).symm]
      exact hm.alone y hy hyold

end Rings

section Intrusive

variable {κ : Type*} {null : ν} {f : κ → ν} {k : κ} {ks ks' : List κ} {r : ν → List κ}

namespace Intrusive

theorem listAddTail (hm : m.Intrusive null heads f r) (hh : h ∈ heads) (hk : m.next (f k) = null) :
    m.prev h ≠ null ∧
      (m.listAddTail (f k) h).Intrusive null heads f (Function.update r h (r h ++ [k])) := by
  have hout := (hm.free k).mp hk
  have hnew := hm.kind.notMem_list hh (hout h hh)
  have hself : Function.update r h (r h ++ [k]) h = r h ++ [k] := Function.update_self ..
  have hother {h' : ν} (hne : h' ≠ h) : Function.update r h (r h ++ [k]) h' = r h' :=
    Function.update_of_ne hne ..
  refine ⟨fun hnull => ?_, of_rings hm.kind (fun h' hh' => ?_) (fun k' hk' => ?_)
    fun h₁ hh₁ h₂ hh₂ k' hk₁ hk₂ => ?_⟩
  · exact hm.kind.null_notMem_list hh (hnull ▸ (hm.ring h hh).prev_head_mem)
  · by_cases hne : h' = h
    · rw [hne, hself, List.map_append]
      exact (hm.ring h hh).listAddTail hnew
    · rw [hother hne]
      have hframe : ∀ y ∈ h' :: (r h').map f, (m.listAddTail (f k) h).next y = m.next y ∧
          (m.listAddTail (f k) h).prev y = m.prev y := by
        intro y hy
        refine (hm.ring h hh).listAddTail_frame (hm.notMem_other hh hh' hne hy) ?_
        rintro rfl
        exact hm.kind.notMem_list hh' (hout h' hh') hy
      exact (hm.ring h' hh').congr (fun y hy => (hframe y hy).1) fun y hy => (hframe y hy).2
  · have hk₀ := hk' h hh
    rw [hself, List.mem_append, List.mem_singleton, not_or] at hk₀
    have hframe := (hm.ring h hh).listAddTail_frame (hm.kind.notMem_list hh hk₀.1)
      fun heq => hk₀.2 (hm.kind.inj heq)
    rw [hframe.1, hm.free k']
    intro h' hh'
    by_cases hne : h' = h
    · rw [hne]
      exact hk₀.1
    · rw [← hother hne]
      exact hk' h' hh'
  · by_cases hne₁ : h₁ = h <;> by_cases hne₂ : h₂ = h
    · rw [hne₁, hne₂]
    · rw [hne₁, hself, List.mem_append, List.mem_singleton] at hk₁
      rw [hother hne₂] at hk₂
      rcases hk₁ with hk₁ | rfl
      · exact hne₁.trans (hm.apart h hh h₂ hh₂ k' hk₁ hk₂)
      · exact absurd hk₂ (hout h₂ hh₂)
    · rw [hne₂, hself, List.mem_append, List.mem_singleton] at hk₂
      rw [hother hne₁] at hk₁
      rcases hk₂ with hk₂ | rfl
      · exact (hm.apart h₁ hh₁ h hh k' hk₁ hk₂).trans hne₂.symm
      · exact absurd hk₁ (hout h₁ hh₁)
    · rw [hother hne₁] at hk₁
      rw [hother hne₂] at hk₂
      exact hm.apart h₁ hh₁ h₂ hh₂ k' hk₁ hk₂

theorem listDel (hm : m.Intrusive null heads f r) (hh : h ∈ heads) (hr : r h = ks ++ k :: ks') :
    m.prev (f k) ≠ null ∧ m.next (f k) ≠ null ∧
      (m.listDel null (f k)).Intrusive null heads f (Function.update r h (ks ++ ks')) := by
  have hring := hm.ring h hh
  have hk : k ∈ r h := by simp [hr]
  have hmem : f k ∈ (r h).map f := List.mem_map_of_mem hk
  have hsplit : (r h).map f = ks.map f ++ f k :: ks'.map f := by simp [hr]
  have hself : Function.update r h (ks ++ ks') h = ks ++ ks' := Function.update_self ..
  have hother {h' : ν} (hne : h' ≠ h) : Function.update r h (ks ++ ks') h' = r h' :=
    Function.update_of_ne hne ..
  have hsub : ∀ h', ∀ k' ∈ Function.update r h (ks ++ ks') h', k' ∈ r h' := by
    intro h' k' hk'
    by_cases hne : h' = h
    · rw [hne, hself] at hk'
      rw [hne, hr]
      exact ((List.sublist_cons_self k ks').append_left ks).subset hk'
    · rwa [hother hne] at hk'
  refine ⟨fun hnull => ?_, fun hnull => ?_, of_rings hm.kind (fun h' hh' => ?_) (fun k' hk' => ?_)
    fun h₁ hh₁ h₂ hh₂ k' hk₁ hk₂ => hm.apart h₁ hh₁ h₂ hh₂ k' (hsub h₁ k' hk₁) (hsub h₂ k' hk₂)⟩
  · exact hm.kind.null_notMem_list hh (hnull ▸ hring.prev_mem hmem)
  · exact hm.kind.null_notMem_list hh (hnull ▸ hring.next_mem hmem)
  · by_cases hne : h' = h
    · rw [hne, hself, List.map_append]
      exact (hsplit ▸ hring).listDel
    · rw [hother hne]
      have hframe : ∀ y ∈ h' :: (r h').map f, (m.listDel null (f k)).next y = m.next y ∧
          (m.listDel null (f k)).prev y = m.prev y := fun y hy =>
        hring.listDel_frame hmem (hm.notMem_other hh hh' hne hy)
      exact (hm.ring h' hh').congr (fun y hy => (hframe y hy).1) fun y hy => (hframe y hy).2
  · by_cases heq : k' = k
    · rw [heq, listDel_null_next, if_pos rfl]
    · have hk₀ : k' ∉ r h := by
        have hk₀ := hk' h hh
        rw [hself] at hk₀
        rw [hr]
        simpa [heq] using hk₀
      rw [(hring.listDel_frame hmem (hm.kind.notMem_list hh hk₀)).1, hm.free k']
      intro h' hh'
      by_cases hne : h' = h
      · rw [hne]
        exact hk₀
      · rw [← hother hne]
        exact hk' h' hh'

end Intrusive

end Intrusive

end ListHeads

end GcAos.Lib
