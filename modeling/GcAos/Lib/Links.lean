import Mathlib.Data.List.Chain
import Mathlib.Tactic

/-! Doubly linked lists through `next` and `prev` pointers. The pointer to the first node is
taken as the `next` of the null value `nil`, so that a list is a ring through `nil` and the
head, the tail and the inner nodes are unlinked by one rule. -/

namespace GcAos.Lib

variable {α : Type*} {nil : α} {nx pv nx' pv' : α → α} {l xs ys : List α} {b n : α}

/-- `y` follows `x`; the null value has no back pointer. -/
def Linked (nil : α) (nx pv : α → α) (x y : α) : Prop := nx x = y ∧ (y ≠ nil → pv y = x)

/-- `l` lists, once each, the nodes met from `nil` along `nx` back to `nil`. -/
structure Ring (nil : α) (nx pv : α → α) (l : List α) : Prop where
  chain : (nil :: (l ++ [nil])).IsChain (Linked nil nx pv)
  nodup : (nil :: l).Nodup

theorem chain_relink (h : l.IsChain (Linked nil nx pv)) (hn : ∀ x ∈ l.dropLast, nx' x = nx x)
    (hp : ∀ y ∈ l.tail, y ≠ nil → pv' y = pv y) : l.IsChain (Linked nil nx' pv') := by
  induction l with
  | nil => exact .nil
  | cons a l ih =>
    cases l with
    | nil => exact .singleton a
    | cons c l =>
      obtain ⟨⟨hnx, hpv⟩, hl⟩ := List.isChain_cons_cons.mp h
      refine List.isChain_cons_cons.mpr ⟨⟨?_, fun hc => ?_⟩, ih hl ?_ ?_⟩
      · rw [hn a (by simp), hnx]
      · rw [hp c (by simp) hc, hpv hc]
      · exact fun x hx => hn x (by simpa using .inr hx)
      · exact fun y hy => hp y (by simpa using .inr hy)

namespace Ring

theorem nil_notMem (h : Ring nil nx pv l) : nil ∉ l := (List.nodup_cons.mp h.nodup).1

theorem empty (h : nx nil = nil) : Ring nil nx pv [] :=
  ⟨List.isChain_pair.mpr ⟨h, fun hne => absurd rfl hne⟩, by simp⟩

theorem congr (h : Ring nil nx pv l) (hn : ∀ x ∈ nil :: l, nx' x = nx x)
    (hv : ∀ y ∈ l, pv' y = pv y) : Ring nil nx' pv' l := by
  refine ⟨chain_relink h.chain (fun x hx => hn x ?_) (fun y hy hne => hv y ?_), h.nodup⟩
  · rwa [← List.cons_append, List.dropLast_concat] at hx
  · rcases List.mem_append.mp hy with hy | hy
    · exact hy
    · exact absurd (List.mem_singleton.mp hy) hne

theorem cut (h : Ring nil nx pv (xs ++ ys)) :
    (nil :: xs).IsChain (Linked nil nx pv) ∧ (ys ++ [nil]).IsChain (Linked nil nx pv) ∧
      ∀ x ∈ (nil :: xs).getLast?, ∀ y ∈ (ys ++ [nil]).head?, Linked nil nx pv x y := by
  have hc := h.chain
  rw [List.append_assoc, ← List.cons_append] at hc
  exact List.isChain_append.mp hc

theorem head_eq (h : Ring nil nx pv l) : (l ++ [nil]).head? = some (nx nil) := by
  have hlink := (List.isChain_cons.mp h.chain).1
  cases l with
  | nil => rw [(hlink nil (by simp)).1]; rfl
  | cons c l => rw [(hlink c (by simp)).1]; rfl

theorem next_eq (h : Ring nil nx pv (xs ++ b :: ys)) : (ys ++ [nil]).head? = some (nx b) := by
  have hb := (List.isChain_cons.mp h.cut.2.1).1
  cases ys with
  | nil => rw [(hb nil (by simp)).1]; rfl
  | cons c ys => rw [(hb c (by simp)).1]; rfl

theorem prev_eq (h : Ring nil nx pv (xs ++ b :: ys)) : (nil :: xs).getLast? = some (pv b) := by
  have hb : b ≠ nil := by
    rintro rfl
    exact h.nil_notMem (by simp)
  have hp := List.getLast?_eq_some_getLast (List.cons_ne_nil nil xs)
  rw [hp, (h.cut.2.2 _ hp b (by simp)).2 hb]

theorem glue (h₁ : (nil :: xs).IsChain (Linked nil nx pv))
    (h₂ : (ys ++ [nil]).IsChain (Linked nil nx pv)) (hnd : (nil :: (xs ++ ys)).Nodup) {p c : α}
    (hp : (nil :: xs).getLast? = some p) (hc : (ys ++ [nil]).head? = some c)
    (hlink : Linked nil nx pv p c) : Ring nil nx pv (xs ++ ys) := by
  refine ⟨?_, hnd⟩
  rw [List.append_assoc, ← List.cons_append]
  refine List.isChain_append.mpr ⟨h₁, h₂, ?_⟩
  rintro x hx y hy
  cases hp.symm.trans hx
  cases hc.symm.trans hy
  exact hlink

theorem left_of_cut (h : Ring nil nx pv (xs ++ ys)) {p : α} (hp : (nil :: xs).getLast? = some p)
    (hn : ∀ x ∈ nil :: xs, x ≠ p → nx' x = nx x) (hv : ∀ y ∈ xs, pv' y = pv y) :
    (nil :: xs).IsChain (Linked nil nx' pv') := by
  refine chain_relink h.cut.1 (fun x hx => hn x (List.mem_of_mem_dropLast hx) ?_)
    fun y hy _ => hv y hy
  rintro rfl
  have hnd : (nil :: xs).Nodup := h.nodup.sublist (by simp)
  rw [← List.dropLast_append_getLast? x hp] at hnd
  exact List.disjoint_of_nodup_append hnd hx (by simp)

theorem right_of_cut (h : Ring nil nx pv (xs ++ ys)) {c : α} (hc : (ys ++ [nil]).head? = some c)
    (hn : ∀ x ∈ ys, nx' x = nx x) (hv : ∀ y ∈ ys, y ≠ c → pv' y = pv y) :
    (ys ++ [nil]).IsChain (Linked nil nx' pv') := by
  refine chain_relink h.cut.2.1 (fun x hx => hn x (by simpa using hx)) fun y hy hne => ?_
  cases ys with
  | nil => simp at hy
  | cons d ys =>
    obtain rfl : d = c := by simpa using hc
    have hnd : (d :: ys).Nodup := h.nodup.sublist ((List.sublist_append_right _ _).cons _)
    have hy' : y ∈ ys := by simpa [hne] using hy
    refine hv y (List.mem_cons_of_mem _ hy') ?_
    rintro rfl
    exact (List.nodup_cons.mp hnd).1 hy'

variable [DecidableEq α]

theorem unlink (h : Ring nil nx pv (xs ++ b :: ys))
    (hn : ∀ x ∈ nil :: (xs ++ ys), nx' x = if x = pv b then nx b else nx x)
    (hv : ∀ y ∈ xs ++ ys, pv' y = if y = nx b then pv b else pv y) : Ring nil nx' pv' (xs ++ ys) := by
  have hp := h.prev_eq
  have hc := h.next_eq
  have hnd := h.nodup
  have hcx : ∀ y ∈ xs, y ≠ nx b := by
    rintro y hy rfl
    have hmem := List.mem_of_mem_head? hc
    grind
  have hpy : ∀ x ∈ ys, x ≠ pv b := by
    rintro x hx rfl
    have hmem := List.mem_of_mem_getLast? hp
    grind
  have hright : Ring nil nx pv ((xs ++ [b]) ++ ys) := by simpa using h
  refine glue (h.left_of_cut hp ?_ ?_) (hright.right_of_cut hc ?_ ?_) (by grind) hp hc ⟨?_, ?_⟩
  · intro x hx hne
    rw [hn x (by grind), if_neg hne]
  · intro y hy
    rw [hv y (by grind), if_neg (hcx y hy)]
  · intro x hx
    rw [hn x (by grind), if_neg (hpy x hx)]
  · intro y hy hne
    rw [hv y (by grind), if_neg hne]
  · rw [hn _ (by have := List.mem_of_mem_getLast? hp; grind), if_pos rfl]
  · intro hne
    rw [hv _ (by have := List.mem_of_mem_head? hc; grind), if_pos rfl]

theorem link (h : Ring nil nx pv (xs ++ ys)) (hb : b ∉ nil :: (xs ++ ys)) {p c : α}
    (hp : (nil :: xs).getLast? = some p) (hc : (ys ++ [nil]).head? = some c)
    (hnb : nx' b = c) (hvb : pv' b = p)
    (hn : ∀ x ∈ nil :: (xs ++ ys), nx' x = if x = p then b else nx x)
    (hv : ∀ y ∈ xs ++ ys, pv' y = if y = c then b else pv y) : Ring nil nx' pv' (xs ++ b :: ys) := by
  have hnd := h.nodup
  have hcx : ∀ y ∈ xs, y ≠ c := by
    rintro y hy rfl
    have hmem := List.mem_of_mem_head? hc
    grind
  have hpy : ∀ x ∈ ys, x ≠ p := by
    rintro x hx rfl
    have hmem := List.mem_of_mem_getLast? hp
    grind
  have hright : (ys ++ [nil]).IsChain (Linked nil nx' pv') := by
    refine h.right_of_cut hc ?_ ?_
    · intro x hx
      rw [hn x (by grind), if_neg (hpy x hx)]
    · intro y hy hne
      rw [hv y (by grind), if_neg hne]
  have hpmem : p ∈ nil :: (xs ++ ys) := by have := List.mem_of_mem_getLast? hp; grind
  refine glue (h.left_of_cut hp ?_ ?_) ?_ (by grind) hp (c := b) rfl ⟨?_, fun _ => hvb⟩
  · intro x hx hne
    rw [hn x (by grind), if_neg hne]
  · intro y hy
    rw [hv y (by grind), if_neg (hcx y hy)]
  · refine List.isChain_cons.mpr ⟨fun y hy => ?_, hright⟩
    cases hc.symm.trans hy
    refine ⟨hnb, fun hne => ?_⟩
    rw [hv c (by have := List.mem_of_mem_head? hc; grind), if_pos rfl]
  · rw [hn p hpmem, if_pos rfl]

theorem push (h : Ring nil nx pv l) (hb : b ∉ nil :: l) (hnb : nx' b = nx nil) (hvb : pv' b = nil)
    (hn : ∀ x ∈ nil :: l, nx' x = if x = nil then b else nx x)
    (hv : ∀ y ∈ l, pv' y = if y = nx nil then b else pv y) : Ring nil nx' pv' (b :: l) := by
  have hcut : Ring nil nx pv ([] ++ l) := h
  exact hcut.link hb rfl h.head_eq hnb hvb hn hv

end Ring

end GcAos.Lib
