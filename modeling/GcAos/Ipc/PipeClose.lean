import GcAos.Ipc.Pipe

/-! The two files of a pipe and `vfs_close` on them. -/

namespace GcAos.Ipc
open Lib

/-- `struct file` as far as `vfs_close` looks at it; 0 is the null pointer. -/
structure PipeFile where
  fDentry : ℕ
  fCount : ℤ
  -- the file was given back by its last close
  closed : Bool

structure Ends where
  system : System
  readFile : PipeFile
  writeFile : PipeFile
  -- how often the pipe was given back
  frees : ℕ

/-- The files `do_pipe` returns are zeroed, then `f_op`, `f_flags`, `private_data` and `f_count`
are set. -/
def doPipeFiles (buffer : ℕ → UInt8) : Ends where
  system := .init buffer
  readFile := { fDentry := 0, fCount := 1, closed := false }
  writeFile := { fDentry := 0, fCount := 1, closed := false }
  frees := 0

/-- `vfs_close` on one of the files, with the release operation of that file. -/
def vfsClose (f : PipeFile) (release : Action) (s : System) : Option (PipeFile × System) := do
  if f.closed then none
  else
    let s ← if f.fDentry ≠ 0 then s.step release else some s
    let fCount := f.fCount - 1
    some ({ f with fCount := fCount, closed := fCount ≤ 0 }, s)

inductive EndAction
  | read (tid count : ℕ)
  | write (tid : ℕ) (buf : List UInt8)
  | lockedSection (tid : ℕ)
  | closeRead
  | closeWrite

namespace Ends

/-- One step; a file that was given back cannot be used again. -/
def step (e : Ends) : EndAction → Option Ends
  | .read tid count =>
    if e.readFile.closed then none
    else do
      let s ← e.system.step (.callRead tid count)
      some { e with system := s }
  | .write tid buf =>
    if e.writeFile.closed then none
    else do
      let s ← e.system.step (.callWrite tid buf)
      some { e with system := s }
  | .lockedSection tid => do
    let s ← e.system.step (.lockedSection tid)
    some { e with system := s }
  | .closeRead => do
    let (f, s) ← vfsClose e.readFile .releaseRead e.system
    some { e with readFile := f, system := s, frees := e.frees + s.freed.toNat }
  | .closeWrite => do
    let (f, s) ← vfsClose e.writeFile .releaseWrite e.system
    some { e with writeFile := f, system := s, frees := e.frees + s.freed.toNat }

def Step (e : Ends) (a : EndAction) (e' : Ends) : Prop := e.step a = some e'

/-- What closing the ends is for, from the state `e` on. -/
structure EndOfFile (e : Ends) : Prop where
  eof : e.writeFile.closed = true → e.system.pipe.count = 0 →
    ∀ as e', Exec Step e as e' → ∀ count, (pipeRead e'.system.pipe count).1 = some []
  broken : e.readFile.closed = true →
    ∀ as e', Exec Step e as e' → ∀ buf, (pipeWrite e'.system.pipe buf).1 = .ret (-EPIPE)
  freed : e.frees = if e.readFile.closed ∧ e.writeFile.closed then 1 else 0

end Ends

/-! ## The counts of readers and writers -/

theorem copyOut_users (n : ℕ) (p : Pipe) :
    (copyOut n p).2.readers = p.readers ∧ (copyOut n p).2.writers = p.writers := by
  induction n generalizing p with
  | zero => exact ⟨rfl, rfl⟩
  | succ n ih => exact ih { p with readPos := (p.readPos + 1) % pipeSize }

theorem copyIn_users (bs : List UInt8) (p : Pipe) :
    (copyIn bs p).readers = p.readers ∧ (copyIn bs p).writers = p.writers := by
  induction bs generalizing p with
  | nil => exact ⟨rfl, rfl⟩
  | cons b bs ih => exact ih _

theorem pipeReadResume_users (p : Pipe) (count : ℕ) :
    (pipeReadResume p count).2.readers = p.readers ∧
      (pipeReadResume p count).2.writers = p.writers := by
  unfold pipeReadResume
  split
  · exact ⟨rfl, rfl⟩
  · exact copyOut_users _ p

theorem pipeRead_users (p : Pipe) (count : ℕ) :
    (pipeRead p count).2.readers = p.readers ∧ (pipeRead p count).2.writers = p.writers := by
  unfold pipeRead
  split
  · exact ⟨rfl, rfl⟩
  · exact pipeReadResume_users p count

theorem pipeWriteResume_users (fuel : ℕ) (p : Pipe) (buf : List UInt8) (written : ℕ) :
    (pipeWriteResume fuel p buf written).2.2.readers = p.readers ∧
      (pipeWriteResume fuel p buf written).2.2.writers = p.writers := by
  induction fuel generalizing p written with
  | zero => exact ⟨rfl, rfl⟩
  | succ fuel ih =>
    unfold pipeWriteResume
    split
    · split
      · exact ⟨rfl, rfl⟩
      · split
        · exact ⟨rfl, rfl⟩
        · dsimp only
          obtain ⟨hr, hw⟩ := copyIn_users ((buf.drop written).take
            (min (buf.length - written) ((pipeSize + 2 ^ 64 - p.count) % 2 ^ 64))) p
          rw [← hr, ← hw]
          exact ih _ _
    · exact ⟨rfl, rfl⟩

theorem pipeWrite_users (p : Pipe) (buf : List UInt8) :
    (pipeWrite p buf).2.2.readers = p.readers ∧ (pipeWrite p buf).2.2.writers = p.writers := by
  unfold pipeWrite
  split
  · exact ⟨rfl, rfl⟩
  · exact pipeWriteResume_users _ p buf 0

namespace Ends

structure Untouched (e : Ends) : Prop where
  readers : e.system.pipe.readers = 1
  writers : e.system.pipe.writers = 1
  freed : e.system.freed = false
  frees : e.frees = 0
  dentries : e.readFile.fDentry = 0 ∧ e.writeFile.fDentry = 0

theorem doPipeFiles_untouched (buffer : ℕ → UInt8) : (doPipeFiles buffer).Untouched :=
  ⟨rfl, rfl, rfl, rfl, rfl, rfl⟩

end Ends

theorem System.lockedSection_users {s t : System} {tid : ℕ} (h : s.lockedSection tid = some t) :
    t.pipe.readers = s.pipe.readers ∧ t.pipe.writers = s.pipe.writers ∧ t.freed = s.freed := by
  have hread (count : ℕ) {r : Option (List UInt8) × Pipe} (ht : some (s.endRead tid count r) = some t) :
      t.pipe = r.2 ∧ t.freed = s.freed := by
    cases ht
    unfold endRead
    split <;> exact ⟨rfl, rfl⟩
  have hwrite {buf : List UInt8} {r : WriteOutcome × List UInt8 × Pipe}
      (ht : s.endWrite tid buf r = some t) : t.pipe = r.2.2 ∧ t.freed = s.freed := by
    unfold endWrite at ht
    split at ht <;> cases ht <;> exact ⟨rfl, rfl⟩
  unfold lockedSection at h
  split at h
  · cases h
  · obtain ⟨hp, hf⟩ := hread _ h
    rw [hp]
    exact ⟨(pipeRead_users _ _).1, (pipeRead_users _ _).2, hf⟩
  · obtain ⟨hp, hf⟩ := hread _ h
    rw [hp]
    exact ⟨(pipeReadResume_users _ _).1, (pipeReadResume_users _ _).2, hf⟩
  · obtain ⟨hp, hf⟩ := hwrite h
    rw [hp]
    exact ⟨(pipeWrite_users _ _).1, (pipeWrite_users _ _).2, hf⟩
  · obtain ⟨hp, hf⟩ := hwrite h
    rw [hp]
    exact ⟨(pipeWriteResume_users _ _ _ _).1, (pipeWriteResume_users _ _ _ _).2, hf⟩

theorem System.step_users {s t : System} {a : Action} (h : s.step a = some t)
    (ha : a ≠ .releaseRead ∧ a ≠ .releaseWrite) :
    t.pipe.readers = s.pipe.readers ∧ t.pipe.writers = s.pipe.writers ∧ t.freed = s.freed := by
  unfold step at h
  split at h
  · cases h
  · cases a with
    | callRead tid count =>
      dsimp only at h
      split at h <;> cases h
      exact ⟨rfl, rfl, rfl⟩
    | callWrite tid buf =>
      dsimp only at h
      split at h <;> cases h
      exact ⟨rfl, rfl, rfl⟩
    | lockedSection tid => exact lockedSection_users h
    | releaseRead => exact absurd rfl ha.1
    | releaseWrite => exact absurd rfl ha.2

theorem vfsClose_eq {f f' : PipeFile} {release : Action} {s s' : System} (hf : f.fDentry = 0)
    (h : vfsClose f release s = some (f', s')) : s' = s ∧ f'.fDentry = 0 := by
  unfold vfsClose at h
  split at h
  · cases h
  · rw [if_neg (not_not.mpr hf)] at h
    cases h
    exact ⟨rfl, hf⟩

namespace Ends

theorem step_untouched (e : Ends) (a : EndAction) (e' : Ends) (he : e.Untouched) (h : Step e a e') :
    e'.Untouched := by
  have hquiet {a : Action} {s : System} (ha : a ≠ .releaseRead ∧ a ≠ .releaseWrite)
      (hs : e.system.step a = some s) : Untouched { e with system := s } := by
    obtain ⟨hr, hw, hf⟩ := System.step_users hs ha
    exact ⟨hr.trans he.readers, hw.trans he.writers, hf.trans he.freed, he.frees, he.dentries⟩
  unfold Step at h
  cases a with
  | read tid count =>
    rw [step] at h
    split at h
    · cases h
    · obtain ⟨s, hs, ht⟩ := Option.bind_eq_some_iff.mp h
      cases ht
      exact hquiet ⟨Action.noConfusion, Action.noConfusion⟩ hs
  | write tid buf =>
    rw [step] at h
    split at h
    · cases h
    · obtain ⟨s, hs, ht⟩ := Option.bind_eq_some_iff.mp h
      cases ht
      exact hquiet ⟨Action.noConfusion, Action.noConfusion⟩ hs
  | lockedSection tid =>
    obtain ⟨s, hs, ht⟩ := Option.bind_eq_some_iff.mp h
    cases ht
    exact hquiet ⟨Action.noConfusion, Action.noConfusion⟩ hs
  | closeRead =>
    obtain ⟨⟨f, s⟩, hs, ht⟩ := Option.bind_eq_some_iff.mp h
    obtain ⟨rfl, hf⟩ := vfsClose_eq he.dentries.1 hs
    cases ht
    exact ⟨he.readers, he.writers, he.freed, by rw [he.frees, he.freed]; rfl, hf, he.dentries.2⟩
  | closeWrite =>
    obtain ⟨⟨f, s⟩, hs, ht⟩ := Option.bind_eq_some_iff.mp h
    obtain ⟨rfl, hf⟩ := vfsClose_eq he.dentries.2 hs
    cases ht
    exact ⟨he.readers, he.writers, he.freed, by rw [he.frees, he.freed]; rfl, he.dentries.1, hf⟩

theorem Untouched.waits {e : Ends} (he : e.Untouched) :
    (e.system.pipe.count = 0 → ∀ count, (pipeRead e.system.pipe count).1 = none) ∧
      (pipeWrite e.system.pipe []).1 = .ret 0 := by
  constructor
  · intro hempty count
    have hopen : ¬(e.system.pipe.writers = 0 ∧ e.system.pipe.count = 0) := by
      rw [he.writers]
      exact fun h => absurd h.1 (by decide)
    have hwait : e.system.pipe.count = 0 ∧ 0 < e.system.pipe.writers := by
      rw [he.writers]
      exact ⟨hempty, by decide⟩
    rw [pipeRead, if_neg hopen, pipeReadResume, if_pos hwait]
  · have hopen : e.system.pipe.readers ≠ 0 := by
      rw [he.readers]
      decide
    rw [pipeWrite, if_neg hopen]
    rfl

/-- In every run the closes never reach the pipe, so that it behaves as it should as long as the
read end is open, and the write end is open or there is something left to read. -/
theorem end_of_file_iff {buffer : ℕ → UInt8} {as : List EndAction} {e : Ends}
    (hrun : Exec Step (doPipeFiles buffer) as e) :
    e.EndOfFile ↔ e.readFile.closed = false ∧ (e.writeFile.closed = false ∨ e.system.pipe.count ≠ 0) := by
  have he : e.Untouched := hrun.invariant step_untouched (doPipeFiles_untouched buffer)
  obtain ⟨hread, hwrite⟩ := he.waits
  constructor
  · intro h
    constructor
    · by_contra hclosed
      have hpipe := h.broken (by simpa using hclosed) [] e (.nil e) []
      rw [hwrite] at hpipe
      exact absurd hpipe (by decide)
    · by_contra hclosed
      obtain ⟨hw, hempty⟩ := not_or.mp hclosed
      have heof := h.eof (by simpa using hw) (not_not.mp hempty) [] e (.nil e) 0
      rw [hread (not_not.mp hempty)] at heof
      cases heof
  · rintro ⟨hr, hw⟩
    refine ⟨fun hclosed hempty => ?_, fun hclosed => ?_, ?_⟩
    · rcases hw with hw | hw
      · rw [hw] at hclosed
        cases hclosed
      · exact absurd hempty hw
    · rw [hr] at hclosed
      cases hclosed
    · rw [he.frees, hr]
      rfl

theorem end_of_file_iff_first_write :
    ∃ e, Exec Step (doPipeFiles fun _ => 0) [.write 0 [7], .lockedSection 0, .closeWrite] e ∧
      e.EndOfFile := by
  obtain ⟨e, hrun, hr, hcount⟩ : ∃ e, Exec Step (doPipeFiles fun _ => 0)
      [.write 0 [7], .lockedSection 0, .closeWrite] e ∧ e.readFile.closed = false ∧
      e.system.pipe.count ≠ 0 :=
    ⟨_, .cons rfl (.cons rfl (.cons rfl (.nil _))), by decide, by decide⟩
  exact ⟨e, hrun, (end_of_file_iff hrun).mpr ⟨hr, .inr hcount⟩⟩

/-- Both ends are closed right after `do_pipe`: a read would wait, a write would succeed, and the
pipe is still there. -/
theorem closes_do_not_reach_pipe :
    ∃ e, Exec Step (doPipeFiles fun _ => 0) [.closeWrite, .closeRead] e ∧ e.frees = 0 ∧
      (pipeRead e.system.pipe 1).1 = none ∧ (pipeWrite e.system.pipe []).1 = .ret 0 ∧ ¬e.EndOfFile := by
  refine ⟨_, .cons rfl (.cons rfl (.nil _)), rfl, rfl, rfl, fun h => ?_⟩
  exact absurd h.freed (by decide)

end Ends

end GcAos.Ipc
