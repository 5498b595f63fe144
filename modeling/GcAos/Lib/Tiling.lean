import Mathlib.Data.List.Nodup
import Mathlib.Tactic

/-! Intervals tiled by consecutive pieces: each piece starts where the one before it ends,
by the length recorded for it. -/

namespace GcAos.Lib

/-- The pieces starting at `bs`, with lengths `len`, tile `[a, e)` from left to right. -/
def Tiles (len : ℕ → ℕ) : ℕ → List ℕ → ℕ → Prop
  | a, [], e => a = e
  | a, b :: bs, e => b = a ∧ 0 < len b ∧ Tiles len (b + len b) bs e

variable {len len' : ℕ → ℕ} {a b c e n : ℕ} {bs xs ys : List ℕ}

@[simp] theorem tiles_nil : Tiles len a [] e ↔ a = e := Iff.rfl

@[simp] theorem tiles_cons :
    Tiles len a (b :: bs) e ↔ b = a ∧ 0 < len b ∧ Tiles len (b + len b) bs e := Iff.rfl

theorem tiles_append : Tiles len a (xs ++ ys) e ↔ ∃ m, Tiles len a xs m ∧ Tiles len m ys e := by
  induction xs generalizing a with
  | nil => simp
  | cons x xs ih =>
    simp only [List.cons_append, tiles_cons, ih]
    constructor
    · rintro ⟨hx, hpos, m, hxs, hys⟩
      exact ⟨m, ⟨hx, hpos, hxs⟩, hys⟩
    · rintro ⟨m, ⟨hx, hpos, hxs⟩, hys⟩
      exact ⟨hx, hpos, m, hxs, hys⟩

namespace Tiles

theorem congr (h : Tiles len a bs e) (hlen : ∀ b ∈ bs, len' b = len b) : Tiles len' a bs e := by
  induction bs generalizing a with
  | nil => exact h
  | cons b bs ih =>
    obtain ⟨hb, hpos, hbs⟩ := h
    have hlb := hlen b (List.mem_cons_self ..)
    refine ⟨hb, hlb ▸ hpos, ?_⟩
    rw [hlb]
    exact ih hbs fun c hc => hlen c (List.mem_cons_of_mem _ hc)

theorem le (h : Tiles len a bs e) : a ≤ e := by
  induction bs generalizing a with
  | nil => exact h.le
  | cons b bs ih =>
    obtain ⟨hb, hpos, hbs⟩ := h
    have := ih hbs
    omega

theorem mem_bounds (h : Tiles len a bs e) (hb : b ∈ bs) : a ≤ b ∧ 0 < len b ∧ b + len b ≤ e := by
  obtain ⟨xs, ys, rfl⟩ := List.append_of_mem hb
  obtain ⟨m, hxs, rfl, hpos, hys⟩ := tiles_append.mp h
  exact ⟨hxs.le, hpos, hys.le⟩

theorem apart (h : Tiles len a bs e) (hb : b ∈ bs) (hc : c ∈ bs) (hne : b ≠ c) :
    b + len b ≤ c ∨ c + len c ≤ b := by
  obtain ⟨xs, ys, rfl⟩ := List.append_of_mem hb
  obtain ⟨m, hxs, rfl, _, hys⟩ := tiles_append.mp h
  rcases List.mem_append.mp hc with hc | hc
  · exact .inr (hxs.mem_bounds hc).2.2
  · rcases List.mem_cons.mp hc with rfl | hc
    · exact absurd rfl hne
    · exact .inl (hys.mem_bounds hc).1

theorem nodup (h : Tiles len a bs e) : bs.Nodup := by
  induction bs generalizing a with
  | nil => exact List.nodup_nil
  | cons b bs ih =>
    obtain ⟨_, hpos, hbs⟩ := h
    refine List.nodup_cons.mpr ⟨fun hb => ?_, ih hbs⟩
    have := (hbs.mem_bounds hb).1
    omega

theorem length_mul_le {k : ℕ} (h : Tiles len a bs e) (hk : ∀ b ∈ bs, k ≤ len b) :
    a + k * bs.length ≤ e := by
  induction bs generalizing a with
  | nil => simpa using h.le
  | cons b bs ih =>
    obtain ⟨rfl, _, hbs⟩ := h
    have hb := hk b (List.mem_cons_self ..)
    have hrest := ih hbs fun c hc => hk c (List.mem_cons_of_mem _ hc)
    rw [List.length_cons, Nat.mul_succ]
    omega

theorem exists_next (h : Tiles len a (xs ++ b :: ys) e) (hend : b + len b < e) :
    ∃ zs, ys = (b + len b) :: zs := by
  obtain ⟨m, _, _, _, hys⟩ := tiles_append.mp h
  cases ys with
  | nil => exact absurd hys hend.ne
  | cons c zs =>
    obtain ⟨rfl, _⟩ := hys
    exact ⟨zs, rfl⟩

theorem exists_prev (h : Tiles len a bs e) (hc : c ∈ bs) (hne : c ≠ a) : ∃ b ∈ bs, b + len b = c := by
  induction bs generalizing a with
  | nil => exact absurd hc List.not_mem_nil
  | cons b bs ih =>
    obtain ⟨rfl, _, hbs⟩ := h
    have hc' := (List.mem_cons.mp hc).resolve_left hne
    by_cases heq : c = b + len b
    · exact ⟨b, List.mem_cons_self, heq.symm⟩
    · obtain ⟨d, hd, hdc⟩ := ih hbs hc' heq
      exact ⟨d, List.mem_cons_of_mem b hd, hdc⟩

theorem eq_cons (h : Tiles len a bs e) (hlt : a < e) : ∃ ys, bs = a :: ys := by
  cases bs with
  | nil => exact absurd h hlt.ne
  | cons b bs =>
    obtain ⟨rfl, _⟩ := h
    exact ⟨bs, rfl⟩

theorem eq_singleton_iff (h : Tiles len a bs e) (hlt : a < e) : bs = [a] ↔ ∀ b ∈ bs, b = a := by
  constructor
  · rintro rfl b hb
    exact List.mem_singleton.mp hb
  · intro hall
    obtain ⟨ys, rfl⟩ := h.eq_cons hlt
    cases ys with
    | nil => rfl
    | cons c ys =>
      have hca : c = a := hall c (List.mem_cons_of_mem a List.mem_cons_self)
      obtain ⟨_, hpos, hc, _⟩ := h
      omega

theorem split (h : Tiles len a (xs ++ b :: ys) e) (hn : n = b + len' b) (hpos : 0 < len' b)
    (hpos' : 0 < len' n) (hsum : len' b + len' n = len b)
    (hlen : ∀ c, c ∈ xs ∨ c ∈ ys → len' c = len c) : Tiles len' a (xs ++ b :: n :: ys) e := by
  obtain ⟨m, hxs, hb, _, hys⟩ := tiles_append.mp h
  refine tiles_append.mpr ⟨m, hxs.congr fun c hc => hlen c (.inl hc), hb, hpos, hn, hpos', ?_⟩
  rw [hn, Nat.add_assoc, ← hn, hsum]
  exact hys.congr fun c hc => hlen c (.inr hc)

theorem merge (h : Tiles len a (xs ++ b :: c :: ys) e) (hsum : len' b = len b + len c)
    (hlen : ∀ d, d ∈ xs ∨ d ∈ ys → len' d = len d) : Tiles len' a (xs ++ b :: ys) e := by
  obtain ⟨m, hxs, hb, hpos, rfl, hpos', hys⟩ := tiles_append.mp h
  refine tiles_append.mpr ⟨m, hxs.congr fun d hd => hlen d (.inl hd), hb, by omega, ?_⟩
  rw [hsum, ← Nat.add_assoc]
  exact hys.congr fun d hd => hlen d (.inr hd)

end Tiles

end GcAos.Lib
