import GcAos.Syscall.FdTable

/-! The check of user pointers in `kernel/syscall/syscall.c`. -/

namespace GcAos.Syscall

def loadStart : ℕ := 0x44000000
def loadEnd : ℕ := 0x50000000

def KernelOnly (a : ℕ) : Prop := (kernelStart ≤ a ∧ a < kernelEnd) ∧ ¬(loadStart ≤ a ∧ a < loadEnd)

variable {ptr len : UInt64}

theorem kernelOnly_iff {a : ℕ} : KernelOnly a ↔ kernelStart ≤ a ∧ a < loadStart := by
  unfold KernelOnly kernelStart kernelEnd loadStart loadEnd
  omega

theorem isValidUserPtr_iff : isValidUserPtr ptr len = true ↔
    ptr ≠ 0 ∧ ptr.toNat + len.toNat < 2 ^ 64 ∧
      (ptr.toNat < kernelStart ∨ kernelEnd ≤ ptr.toNat ∨
        loadStart ≤ ptr.toNat ∧ ptr.toNat + len.toNat < loadEnd) := by
  have hptr := ptr.toNat_lt
  have hlen := len.toNat_lt
  unfold isValidUserPtr kernelStart kernelEnd loadStart loadEnd
  by_cases hnull : ptr = 0
  · simp [hnull]
  rw [if_neg hnull]
  by_cases hwrap : 0 < len.toNat ∧ 2 ^ 64 - 1 - len.toNat < ptr.toNat
  · rw [if_pos hwrap]
    refine iff_of_false (by decide) fun h => ?_
    omega
  rw [if_neg hwrap]
  dsimp only
  have hfits : ptr.toNat + len.toNat < 2 ^ 64 := by omega
  rw [and_iff_right hnull, and_iff_right hfits]
  split_ifs with hheap hload hkernel
  · exact iff_of_true rfl (by omega)
  · exact iff_of_true rfl (by omega)
  · exact iff_of_false (by decide) (by omega)
  · exact iff_of_true rfl (by omega)

/-- An accepted buffer keeps out of the kernel unless it starts below it and ends above its start. -/
theorem user_ptr_iff (ptr len : UInt64) :
    (isValidUserPtr ptr len = true →
        ∀ a, ptr.toNat ≤ a → a < ptr.toNat + len.toNat → ¬KernelOnly a) ↔
      ptr = 0 ∨ 2 ^ 64 ≤ ptr.toNat + len.toNat ∨ kernelStart ≤ ptr.toNat ∨
        ptr.toNat + len.toNat ≤ kernelStart := by
  simp only [isValidUserPtr_iff, kernelOnly_iff]
  constructor
  · intro hsafe
    by_contra! hcond
    obtain ⟨hnull, hfits, hlow, hend⟩ := hcond
    have hstart : kernelStart < loadStart := by decide
    exact hsafe ⟨hnull, hfits, .inl hlow⟩ kernelStart hlow.le hend ⟨le_rfl, hstart⟩
  · rintro hcond ⟨hnull, hfits, hplace⟩ a hlo hhi ⟨hstart, hload⟩
    rcases hcond with hzero | hwrap | hcond
    · exact hnull hzero
    · omega
    · have hkernel : loadStart < kernelEnd := by decide
      omega

theorem user_ptr_straddles : isValidUserPtr 0x3FFFFFFF 2 = true ∧
    ∃ a, (0x3FFFFFFF : UInt64).toNat ≤ a ∧ a < (0x3FFFFFFF : UInt64).toNat + (2 : UInt64).toNat ∧
      KernelOnly a := by
  refine ⟨by decide, kernelStart, by decide, by decide, ?_⟩
  rw [kernelOnly_iff]
  decide

end GcAos.Syscall
