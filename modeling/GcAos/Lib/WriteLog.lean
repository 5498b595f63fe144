import GcAos.Lib.Bytes

/-! What the writes to a file, newest first, say that it contains: where each one starts and the
bytes it writes. -/

namespace GcAos.Lib

abbrev WriteLog := List (ℕ × List UInt8)

namespace WriteLog

/-- The byte that was written last at offset `i`, 0 if there was none. -/
def byteAt : WriteLog → ℕ → UInt8
  | [], _ => 0
  | (pos, buf) :: log, i => if pos ≤ i ∧ i < pos + buf.length then buf.getD (i - pos) 0 else byteAt log i

def size : WriteLog → ℕ
  | [] => 0
  | (pos, buf) :: log => if buf = [] then size log else max (pos + buf.length) (size log)

/-- What a reader at `pos` who asks for `count` bytes should get. -/
def read (log : WriteLog) (pos count : ℕ) : List UInt8 :=
  (List.range (min count (log.size - pos))).map fun i => log.byteAt (pos + i)

variable {log : WriteLog} {buf : List UInt8} {pos i : ℕ}

theorem byteAt_cons (log : WriteLog) (pos : ℕ) (buf : List UInt8) :
    byteAt ((pos, buf) :: log) = Bytes.blit log.byteAt pos buf.length fun i => buf.getD i 0 := rfl

theorem size_cons (h : buf ≠ []) : size ((pos, buf) :: log) = max (pos + buf.length) log.size :=
  if_neg h

theorem size_cons_nil : size ((pos, []) :: log) = log.size := if_pos rfl

theorem byteAt_of_size_le (h : log.size ≤ i) : log.byteAt i = 0 := by
  induction log with
  | nil => rfl
  | cons w log ih =>
    obtain ⟨pos, buf⟩ := w
    by_cases hbuf : buf = []
    · subst hbuf
      rw [byteAt_cons, List.length_nil, Bytes.blit_empty]
      exact ih (size_cons_nil ▸ h)
    · rw [size_cons hbuf] at h
      rw [byteAt_cons, Bytes.blit_of_le (le_of_max_le_left h)]
      exact ih (le_of_max_le_right h)

end WriteLog

end GcAos.Lib
