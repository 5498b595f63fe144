import GcAos.Lib.Loop
import GcAos.Net.Dns

/-! Whether `dns_decode_name` comes to an end: it does not check where a compression pointer leads. -/

namespace GcAos.Dns
open Lib StateTransition

def IsPointer (response : List UInt8) (offset : ℕ) : Prop :=
  ∃ len ∈ response[offset]?, len &&& 0xC0 = 0xC0

def follow (response : List UInt8) (offset : ℕ) : Option ℕ := do
  let len ← response[offset]?
  if len = 0 then none
  else if len &&& 0xC0 = 0xC0 then do
    let next ← response[offset + 1]?
    some ((len.toNat &&& 0x3F) <<< 8 ||| next.toNat)
  else some (min (offset + 1 + len.toNat) response.length)

def NoPointerLoop (response : List UInt8) (offset : ℕ) : Prop :=
  ∀ o, Reaches (follow response) offset o → IsPointer response o → ¬Reaches₁ (follow response) o o

variable {response : List UInt8} {nameLen offset o o' : ℕ} {d : Decoder}

namespace Decoder

@[simp] theorem push_offset (d : Decoder) (nameLen : ℕ) (c : UInt8) :
    (d.push nameLen c).offset = d.offset := by
  unfold push
  split <;> rfl

theorem copyLabel_offset (left : ℕ) (h : d.offset ≤ response.length) :
    (copyLabel response nameLen left d).offset = min (d.offset + left) response.length := by
  induction left generalizing d with
  | zero => exact (min_eq_left h).symm
  | succ left ih =>
    unfold copyLabel
    split
    · next hnone =>
      have := List.getElem?_eq_none_iff.mp hnone
      omega
    · next c hc =>
      have hlt := (List.getElem?_eq_some_iff.mp hc).1
      refine (ih ?_).trans ?_
      · simp only [push_offset]
        omega
      · simp only [push_offset]
        congr 1
        omega

theorem label_offset (len : UInt8) (h : d.offset < response.length) :
    (d.label response nameLen len).offset = min (d.offset + 1 + len.toNat) response.length := by
  unfold label
  dsimp only
  split
  · refine (copyLabel_offset _ ?_).trans ?_
    · rw [push_offset]
      exact h
    · rw [push_offset]
  · exact copyLabel_offset _ h

/-- The loop is left after as many rounds as the name has parts. -/
theorem loop_isSome_iff (fuel : ℕ) : (loop response nameLen (fuel + 1) d).isSome ↔
    follow response (Loop.run (follow response) fuel d.offset) = none := by
  induction fuel generalizing d with
  | zero =>
    unfold loop follow Loop.run
    cases response[d.offset]? with
    | none => simp
    | some len =>
      dsimp only [Option.bind_eq_bind, Option.bind_some]
      split
      · simp
      · split
        · cases response[d.offset + 1]? <;> simp [loop]
        · simp [loop]
  | succ fuel ih =>
    unfold loop
    cases hlen : response[d.offset]? with
    | none =>
      have hstop : follow response d.offset = none := by
        rw [follow, hlen]
        rfl
      rw [Loop.run_of_none hstop, hstop]
      simp
    | some len =>
      dsimp only
      split
      · next hzero =>
        have hstop : follow response d.offset = none := by
          rw [follow, hlen]
          exact if_pos hzero
        rw [Loop.run_of_none hstop, hstop]
        simp
      · next hzero =>
        split
        · next hpointer =>
          have hfollow : follow response d.offset = (response[d.offset + 1]?).bind fun next =>
              some ((len.toNat &&& 0x3F) <<< 8 ||| next.toNat) := by
            rw [follow, hlen]
            exact (if_neg hzero).trans (if_pos hpointer)
          cases hnext : response[d.offset + 1]? with
          | none =>
            rw [hnext] at hfollow
            rw [Loop.run_of_none hfollow, hfollow]
            simp
          | some next =>
            rw [hnext] at hfollow
            rw [Loop.run_of_some hfollow]
            exact ih
        · next hpointer =>
          have hlt := (List.getElem?_eq_some_iff.mp hlen).1
          have hfollow : follow response d.offset =
              some (min (d.offset + 1 + len.toNat) response.length) := by
            rw [follow, hlen]
            exact (if_neg hzero).trans (if_neg hpointer)
          rw [Loop.run_of_some hfollow, ← label_offset len hlt]
          exact ih

end Decoder

theorem lt_length_of_follow (h : follow response o ≠ none) : o < response.length := by
  by_contra hge
  refine h ?_
  rw [follow, List.getElem?_eq_none (not_lt.mp hge)]
  rfl

theorem isPointer_or_lt (h : follow response o = some o') : IsPointer response o ∨ o < o' := by
  have hlt := lt_length_of_follow (h ▸ Option.some_ne_none o')
  have hget := List.getElem?_eq_getElem hlt
  by_cases hpointer : response[o] &&& 0xC0 = 0xC0
  · exact .inl ⟨_, hget, hpointer⟩
  · right
    rw [follow, hget] at h
    dsimp only [Option.bind_eq_bind, Option.bind_some] at h
    split at h
    · exact absurd h (by simp)
    · obtain rfl := Option.some.inj h
      omega

theorem exists_pointer_or_lt (h : Reaches₁ (follow response) o o') :
    (∃ p, Reaches (follow response) o p ∧ IsPointer response p) ∨ o < o' := by
  induction h using Relation.TransGen.head_induction_on with
  | single h => exact (isPointer_or_lt h).imp_left fun hp => ⟨_, .refl, hp⟩
  | head h _ ih =>
    rcases isPointer_or_lt h with hp | hlt
    · exact .inl ⟨_, .refl, hp⟩
    · rcases ih with ⟨p, hreach, hp⟩ | hlt'
      · exact .inl ⟨p, .head h hreach, hp⟩
      · exact .inr (hlt.trans hlt')

theorem NoPointerLoop.not_returns (h : NoPointerLoop response offset)
    (ho : Reaches (follow response) offset o) : ¬Reaches₁ (follow response) o o := by
  intro hback
  rcases exists_pointer_or_lt hback with ⟨p, hp, hpointer⟩ | hlt
  · exact h p (ho.trans hp) hpointer (Loop.returns_of_reaches hback hp)
  · exact lt_irrefl o hlt

theorem noPointerLoop_of_ends {fuel : ℕ} (h : (dnsDecodeName fuel response offset nameLen).isSome) :
    NoPointerLoop response offset := by
  cases fuel with
  | zero => exact absurd h (by simp [dnsDecodeName, Decoder.loop])
  | succ fuel =>
    have hstop := (Decoder.loop_isSome_iff fuel).mp h
    exact fun o ho _ => Loop.not_returns_of_stop hstop ho

theorem NoPointerLoop.ends (h : NoPointerLoop response offset) :
    (dnsDecodeName (response.length + 1) response offset nameLen).isSome := by
  refine (Decoder.loop_isSome_iff _).mpr ?_
  have hstop := Loop.run_stops_of_not_returns (Finset.range response.length)
    (fun o ho => Finset.mem_range.mpr (lt_length_of_follow ho)) fun o ho => h.not_returns ho
  rwa [Finset.card_range] at hstop

/-- The loop ends, and then within one round more than the response has bytes, just when no pointer on its
way leads back to itself. -/
theorem decodeName_ends_iff (response : List UInt8) (offset nameLen : ℕ) :
    ((∃ fuel, (dnsDecodeName fuel response offset nameLen).isSome) ↔ NoPointerLoop response offset) ∧
      ((dnsDecodeName (response.length + 1) response offset nameLen).isSome ↔
        NoPointerLoop response offset) := by
  refine ⟨⟨fun ⟨_, h⟩ => noPointerLoop_of_ends h, fun h => ⟨_, h.ends⟩⟩, ?_⟩
  exact ⟨noPointerLoop_of_ends, NoPointerLoop.ends⟩

theorem decodeName_loops : ∃ response, ∀ fuel nameLen, dnsDecodeName fuel response 0 nameLen = none := by
  refine ⟨[0xC0, 0x00], fun fuel nameLen => ?_⟩
  by_contra h
  have hends := noPointerLoop_of_ends (Option.isSome_iff_ne_none.mpr h)
  exact hends 0 .refl ⟨0xC0, rfl, rfl⟩ (.single rfl)

end GcAos.Dns
