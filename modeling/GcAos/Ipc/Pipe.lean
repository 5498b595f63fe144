import GcAos.Lib.Exec
import GcAos.Lib.Window

/-! The pipe of `kernel/ipc/pipe.c`. A call of `pipe_read` or `pipe_write` is cut at the
points where it drops the lock to wait, so that each function below runs one
lock-protected section. The system interleaves the sections of any number of calls. -/

namespace GcAos.Ipc
open Lib

def pipeSize : ℕ := 4096

def EPIPE : ℤ := 32

structure Pipe where
  buffer : ℕ → UInt8
  readPos : ℕ
  writePos : ℕ
  count : ℕ
  readers : ℤ
  writers : ℤ

/-- The pipe `do_pipe` sets up; the buffer comes from `kmalloc` with whatever bytes it held. -/
def doPipe (buffer : ℕ → UInt8) : Pipe :=
  { buffer, readPos := 0, writePos := 0, count := 0, readers := 1, writers := 1 }

def copyOut : ℕ → Pipe → List UInt8 × Pipe
  | 0, p => ([], p)
  | n + 1, p =>
    let r := copyOut n { p with readPos := (p.readPos + 1) % pipeSize }
    (p.buffer p.readPos :: r.1, r.2)

def copyIn : List UInt8 → Pipe → Pipe
  | [], p => p
  | b :: bs, p =>
    copyIn bs { p with
      buffer := Function.update p.buffer p.writePos b
      writePos := (p.writePos + 1) % pipeSize }

/-- `pipe_read` from the test of its waiting loop on; `none` when it goes on waiting. -/
def pipeReadResume (p : Pipe) (count : ℕ) : Option (List UInt8) × Pipe :=
  if p.count = 0 ∧ 0 < p.writers then (none, p)
  else
    let toRead := min count p.count
    let r := copyOut toRead p
    (some r.1, { r.2 with count := r.2.count - toRead })

def pipeRead (p : Pipe) (count : ℕ) : Option (List UInt8) × Pipe :=
  if p.writers = 0 ∧ p.count = 0 then (some [], p) else pipeReadResume p count

inductive WriteOutcome
  | wait (written : ℕ)
  | ret (value : ℤ)
  -- the loop turns without waiting and without progress, the lock held
  | spin
  deriving DecidableEq

/-- The outer loop of `pipe_write` up to its next wait or its return, with the bytes it moves
into the buffer on the way. -/
def pipeWriteResume : ℕ → Pipe → List UInt8 → ℕ → WriteOutcome × List UInt8 × Pipe
  | 0, p, _, _ => (.spin, [], p)
  | fuel + 1, p, buf, written =>
    if written < buf.length then
      if pipeSize ≤ p.count ∧ 0 < p.readers then (.wait written, [], p)
      else if p.readers = 0 then (.ret (if 0 < written then written else -EPIPE), [], p)
      else
        let space := (pipeSize + 2 ^ 64 - p.count) % 2 ^ 64
        let toWrite := min (buf.length - written) space
        let chunk := (buf.drop written).take toWrite
        let p' := copyIn chunk p
        let r := pipeWriteResume fuel { p' with count := p'.count + toWrite } buf (written + toWrite)
        (r.1, chunk ++ r.2.1, r.2.2)
    else (.ret written, [], p)

def pipeWrite (p : Pipe) (buf : List UInt8) : WriteOutcome × List UInt8 × Pipe :=
  if p.readers = 0 then (.ret (-EPIPE), [], p) else pipeWriteResume (buf.length + 1) p buf 0

def pipeReleaseRead (p : Pipe) : Pipe × Bool :=
  let p := { p with readers := p.readers - 1 }
  (p, p.readers = 0 ∧ p.writers = 0)

def pipeReleaseWrite (p : Pipe) : Pipe × Bool :=
  let p := { p with writers := p.writers - 1 }
  (p, p.readers = 0 ∧ p.writers = 0)

/-- Where a call stands when it does not hold the lock. -/
inductive Call
  | read (count : ℕ)
  | readWait (count : ℕ)
  | write (buf : List UInt8)
  | writeWait (buf : List UInt8) (written : ℕ)

structure System where
  pipe : Pipe
  calls : ℕ → Option Call
  freed : Bool
  -- what the locked sections moved out of and into the buffer, in their order
  delivered : List UInt8
  accepted : List UInt8
  returned : List (ℕ × ℤ)

inductive Action
  | callRead (tid count : ℕ)
  | callWrite (tid : ℕ) (buf : List UInt8)
  | lockedSection (tid : ℕ)
  | releaseRead
  | releaseWrite

namespace System

def init (buffer : ℕ → UInt8) : System :=
  { pipe := doPipe buffer, calls := fun _ => none, freed := false,
    delivered := [], accepted := [], returned := [] }

def endRead (s : System) (tid count : ℕ) (r : Option (List UInt8) × Pipe) : System :=
  match r.1 with
  | none => { s with pipe := r.2, calls := Function.update s.calls tid (some (.readWait count)) }
  | some data =>
    { s with
      pipe := r.2
      calls := Function.update s.calls tid none
      delivered := s.delivered ++ data
      returned := s.returned ++ [(tid, (data.length : ℤ))] }

def endWrite (s : System) (tid : ℕ) (buf : List UInt8)
    (r : WriteOutcome × List UInt8 × Pipe) : Option System :=
  let s := { s with pipe := r.2.2, accepted := s.accepted ++ r.2.1 }
  match r.1 with
  | .wait written => some { s with calls := Function.update s.calls tid (some (.writeWait buf written)) }
  | .ret value =>
    some { s with
      calls := Function.update s.calls tid none
      returned := s.returned ++ [(tid, value)] }
  | .spin => none

def lockedSection (s : System) (tid : ℕ) : Option System :=
  match s.calls tid with
  | none => none
  | some (.read count) => some (s.endRead tid count (pipeRead s.pipe count))
  | some (.readWait count) => some (s.endRead tid count (pipeReadResume s.pipe count))
  | some (.write buf) => s.endWrite tid buf (pipeWrite s.pipe buf)
  | some (.writeWait buf written) =>
    s.endWrite tid buf (pipeWriteResume (buf.length + 1) s.pipe buf written)

def step (s : System) (a : Action) : Option System :=
  if s.freed then none
  else match a with
    | .callRead tid count =>
      if (s.calls tid).isNone then
        some { s with calls := Function.update s.calls tid (some (.read count)) }
      else none
    | .callWrite tid buf =>
      if (s.calls tid).isNone then
        some { s with calls := Function.update s.calls tid (some (.write buf)) }
      else none
    | .lockedSection tid => s.lockedSection tid
    | .releaseRead =>
      let r := pipeReleaseRead s.pipe
      some { s with pipe := r.1, freed := r.2 }
    | .releaseWrite =>
      let r := pipeReleaseWrite s.pipe
      some { s with pipe := r.1, freed := r.2 }

def Step (s : System) (a : Action) (t : System) : Prop := s.step a = some t

end System

/-! ## The buffer as a queue -/

def Pipe.buffered (p : Pipe) : List UInt8 := window pipeSize p.buffer p.readPos p.count

structure Pipe.Ring (p : Pipe) : Prop where
  count_le : p.count ≤ pipeSize
  readPos_lt : p.readPos < pipeSize
  writePos_eq : p.writePos = (p.readPos + p.count) % pipeSize

theorem doPipe_ring (buffer : ℕ → UInt8) : (doPipe buffer).Ring :=
  ⟨Nat.zero_le _, by simp [doPipe, pipeSize], rfl⟩

theorem Pipe.Ring.space_eq {p : Pipe} (hp : p.Ring) :
    (pipeSize + 2 ^ 64 - p.count) % 2 ^ 64 = pipeSize - p.count := by
  have hle := hp.count_le
  have hsize : pipeSize = 4096 := rfl
  omega

theorem copyOut_eq (n : ℕ) {p : Pipe} (hp : p.readPos < pipeSize) :
    copyOut n p = (window pipeSize p.buffer p.readPos n,
      { p with readPos := (p.readPos + n) % pipeSize }) := by
  induction n generalizing p with
  | zero => simp [copyOut, Nat.mod_eq_of_lt hp]
  | succ n ih =>
    have hlt : (p.readPos + 1) % pipeSize < pipeSize := Nat.mod_lt _ (by decide)
    rw [copyOut, ih hlt]
    simp only [window_mod, window_cons, Nat.mod_eq_of_lt hp, Nat.mod_add_mod]
    rw [Nat.add_assoc, Nat.add_comm 1 n]

theorem copyIn_spec {c : ℕ} (bs : List UInt8) {p : Pipe}
    (hw : p.writePos = (p.readPos + c) % pipeSize) (hroom : c + bs.length ≤ pipeSize) :
    window pipeSize (copyIn bs p).buffer p.readPos (c + bs.length) =
        window pipeSize p.buffer p.readPos c ++ bs ∧
      copyIn bs p = { p with
        buffer := (copyIn bs p).buffer
        writePos := (p.readPos + (c + bs.length)) % pipeSize } := by
  induction bs generalizing p c with
  | nil => simp [copyIn, hw.symm]
  | cons b bs ih =>
    simp only [List.length_cons] at hroom
    have hc : c < pipeSize := by omega
    have hw' : (p.writePos + 1) % pipeSize = (p.readPos + (c + 1)) % pipeSize := by
      rw [hw, Nat.mod_add_mod, Nat.add_assoc]
    obtain ⟨hwin, heq⟩ := ih (c := c + 1) (p := { p with
      buffer := Function.update p.buffer p.writePos b
      writePos := (p.writePos + 1) % pipeSize }) hw' (by omega)
    have hlen : c + (b :: bs).length = c + 1 + bs.length := by simp only [List.length_cons]; omega
    rw [hlen]
    constructor
    · rw [copyIn, hwin, hw, window_push _ _ hc, List.append_assoc, List.singleton_append]
    · rw [copyIn]
      exact heq

/-! ## Locked sections keep the queue -/

theorem pipeReadResume_spec {p : Pipe} (hp : p.Ring) (count : ℕ) :
    (pipeReadResume p count).2.Ring ∧
      (pipeReadResume p count).1.getD [] ++ (pipeReadResume p count).2.buffered = p.buffered := by
  unfold pipeReadResume
  split_ifs with hwait
  · exact ⟨hp, rfl⟩
  · simp only [copyOut_eq _ hp.readPos_lt, Option.getD_some, Pipe.buffered, window_mod]
    have hle : min count p.count ≤ p.count := Nat.min_le_right _ _
    refine ⟨⟨(Nat.sub_le _ _).trans hp.count_le, Nat.mod_lt _ (by decide), ?_⟩, ?_⟩
    · rw [hp.writePos_eq, Nat.mod_add_mod, Nat.add_assoc, Nat.add_sub_cancel' hle]
    · rw [← window_add, Nat.add_sub_cancel' hle]

theorem pipeRead_spec {p : Pipe} (hp : p.Ring) (count : ℕ) :
    (pipeRead p count).2.Ring ∧
      (pipeRead p count).1.getD [] ++ (pipeRead p count).2.buffered = p.buffered := by
  unfold pipeRead
  split_ifs with heof
  · exact ⟨hp, rfl⟩
  · exact pipeReadResume_spec hp count

theorem copyIn_chunk {p : Pipe} (hp : p.Ring) (chunk : List UInt8)
    (hroom : p.count + chunk.length ≤ pipeSize) :
    Pipe.Ring { copyIn chunk p with count := (copyIn chunk p).count + chunk.length } ∧
      Pipe.buffered { copyIn chunk p with count := (copyIn chunk p).count + chunk.length } =
        p.buffered ++ chunk := by
  obtain ⟨hwin, heq⟩ := copyIn_spec chunk hp.writePos_eq hroom
  have hcount : (copyIn chunk p).count = p.count := by rw [heq]
  have hread : (copyIn chunk p).readPos = p.readPos := by rw [heq]
  have hwrite : (copyIn chunk p).writePos = (p.readPos + (p.count + chunk.length)) % pipeSize := by
    rw [heq]
  refine ⟨⟨?_, ?_, ?_⟩, ?_⟩
  · simpa only [hcount] using hroom
  · simpa only [hread] using hp.readPos_lt
  · simp only [hcount, hread, hwrite]
  · simp only [Pipe.buffered, hcount, hread, hwin]

theorem pipeWriteResume_spec (fuel : ℕ) {p : Pipe} (hp : p.Ring) (buf : List UInt8) (written : ℕ) :
    (pipeWriteResume fuel p buf written).2.2.Ring ∧
      (pipeWriteResume fuel p buf written).2.2.buffered =
        p.buffered ++ (pipeWriteResume fuel p buf written).2.1 := by
  induction fuel generalizing p written with
  | zero => exact ⟨hp, by simp [pipeWriteResume]⟩
  | succ fuel ih =>
    unfold pipeWriteResume
    split
    · split
      · exact ⟨hp, by simp⟩
      · split
        · exact ⟨hp, by simp⟩
        · simp only [hp.space_eq]
          generalize htw : min (buf.length - written) (pipeSize - p.count) = toWrite
          -- the chunk is as long as the code's counter says, since it is cut from the rest of `buf`
          have hchunk : ((buf.drop written).take toWrite).length = toWrite := by
            simp only [List.length_take, List.length_drop]
            omega
          have hroom : p.count + ((buf.drop written).take toWrite).length ≤ pipeSize := by
            have := hp.count_le
            omega
          obtain ⟨hring, hbuf⟩ := copyIn_chunk hp _ hroom
          simp only [hchunk] at hring hbuf
          obtain ⟨hring', hbuf'⟩ := ih hring (written + toWrite)
          exact ⟨hring', by rw [hbuf', hbuf, List.append_assoc]⟩
    · exact ⟨hp, by simp⟩

theorem pipeWrite_spec {p : Pipe} (hp : p.Ring) (buf : List UInt8) :
    (pipeWrite p buf).2.2.Ring ∧
      (pipeWrite p buf).2.2.buffered = p.buffered ++ (pipeWrite p buf).2.1 := by
  unfold pipeWrite
  split_ifs with hclosed
  · exact ⟨hp, by simp⟩
  · exact pipeWriteResume_spec _ hp buf 0

/-- From `written` on a write call takes the next `n` bytes of its buffer, and counts them. -/
structure Continues (buf : List UInt8) (written n : ℕ) (r : WriteOutcome × List UInt8 × Pipe) : Prop where
  le : n ≤ buf.length - written
  bytes : r.2.1 = (buf.drop written).take n
  wait : ∀ w, r.1 = .wait w → w = written + n
  ret : ∀ v, r.1 = .ret v → v = (written + n : ℕ) ∨ v = -EPIPE ∧ written + n = 0

theorem pipeWriteResume_continues (fuel : ℕ) (p : Pipe) (buf : List UInt8) (written : ℕ) :
    ∃ n, Continues buf written n (pipeWriteResume fuel p buf written) := by
  induction fuel generalizing p written with
  | zero => exact ⟨0, Nat.zero_le _, by simp [pipeWriteResume], nofun, nofun⟩
  | succ fuel ih =>
    unfold pipeWriteResume
    split
    · split
      · exact ⟨0, Nat.zero_le _, by simp, fun _ h => (WriteOutcome.wait.inj h).symm, nofun⟩
      · split
        · refine ⟨0, Nat.zero_le _, by simp, nofun, fun v h => ?_⟩
          obtain rfl := WriteOutcome.ret.inj h
          split_ifs with hsome
          · exact .inl rfl
          · exact .inr ⟨rfl, Nat.eq_zero_of_not_pos hsome⟩
        · simp only
          generalize hmove : min (buf.length - written) ((pipeSize + 2 ^ 64 - p.count) % 2 ^ 64) = toWrite
          have hle : toWrite ≤ buf.length - written := hmove ▸ Nat.min_le_left _ _
          obtain ⟨n, h⟩ := ih { copyIn ((buf.drop written).take toWrite) p with
            count := (copyIn ((buf.drop written).take toWrite) p).count + toWrite } (written + toWrite)
          have hadd : written + toWrite + n = written + (toWrite + n) := Nat.add_assoc ..
          refine ⟨toWrite + n, ?_, ?_, hadd ▸ h.wait, hadd ▸ h.ret⟩
          · have hn := h.le
            omega
          · rw [h.bytes, List.take_add, List.drop_drop]
    · refine ⟨0, Nat.zero_le _, by simp, nofun, fun v h => .inl ?_⟩
      exact (WriteOutcome.ret.inj h).symm

theorem pipeWrite_continues (p : Pipe) (buf : List UInt8) : ∃ n, Continues buf 0 n (pipeWrite p buf) := by
  unfold pipeWrite
  split_ifs
  · refine ⟨0, Nat.zero_le _, rfl, nofun, fun v h => .inr ⟨?_, rfl⟩⟩
    exact (WriteOutcome.ret.inj h).symm
  · exact pipeWriteResume_continues _ p buf 0

/-! ## Runs -/

namespace System

/-- The call of `tid` writes `buf`, of which `written` bytes have been accepted. -/
def Writing (s : System) (tid : ℕ) (buf : List UInt8) (written : ℕ) : Prop :=
  s.calls tid = some (.write buf) ∧ written = 0 ∨ s.calls tid = some (.writeWait buf written)

/-- The call of `tid` has had the next `n` bytes of its buffer accepted, and goes on or returns how many
have been accepted in all, or that there were none. -/
def Accepts (s t : System) (tid : ℕ) (buf : List UInt8) (written n : ℕ) : Prop :=
  t.accepted = s.accepted ++ (buf.drop written).take n ∧
    (t.Writing tid buf (written + n) ∨
      t.calls tid = none ∧ ∃ v : ℤ, t.returned = s.returned ++ [(tid, v)] ∧
        (v = (written + n : ℕ) ∨ v = -EPIPE ∧ written + n = 0))

/-- What is accepted from a write call is a prefix of its buffer, section by section. -/
def AcceptsPrefixes (s : System) : Prop :=
  ∀ tid buf written t, s.Writing tid buf written → s.lockedSection tid = some t →
    ∃ n ≤ buf.length - written, s.Accepts t tid buf written n

theorem endWrite_accepts {s t : System} {tid written n : ℕ} {buf : List UInt8}
    {r : WriteOutcome × List UInt8 × Pipe} (hr : Continues buf written n r)
    (h : s.endWrite tid buf r = some t) : s.Accepts t tid buf written n := by
  unfold endWrite at h
  split at h
  · rename_i w hwait
    obtain rfl := Option.some.inj h
    obtain rfl := hr.wait w hwait
    exact ⟨by rw [hr.bytes], .inl (.inr (Function.update_self ..))⟩
  · rename_i v hret
    obtain rfl := Option.some.inj h
    exact ⟨by rw [hr.bytes], .inr ⟨Function.update_self .., v, rfl, hr.ret v hret⟩⟩
  · cases h

theorem acceptsPrefixes (s : System) : s.AcceptsPrefixes := by
  intro tid buf written t hwriting h
  unfold lockedSection at h
  rcases hwriting with ⟨hcall, rfl⟩ | hcall
  · rw [hcall] at h
    obtain ⟨n, hr⟩ := pipeWrite_continues s.pipe buf
    exact ⟨n, hr.le, endWrite_accepts hr h⟩
  · rw [hcall] at h
    obtain ⟨n, hr⟩ := pipeWriteResume_continues (buf.length + 1) s.pipe buf written
    exact ⟨n, hr.le, endWrite_accepts hr h⟩

/-- What every locked section keeps: the buffer is a ring, and what went in is what came out
followed by what is still inside. -/
structure Fifo (s : System) : Prop where
  ring : s.pipe.Ring
  stream : s.delivered ++ s.pipe.buffered = s.accepted

theorem init_fifo (buffer : ℕ → UInt8) : (init buffer).Fifo :=
  ⟨doPipe_ring buffer, rfl⟩

theorem endRead_fifo {s : System} (hs : s.Fifo) (tid count : ℕ) {r : Option (List UInt8) × Pipe}
    (hr : r.2.Ring ∧ r.1.getD [] ++ r.2.buffered = s.pipe.buffered) : (s.endRead tid count r).Fifo := by
  obtain ⟨data, p⟩ := r
  cases data with
  | none =>
    refine ⟨hr.1, ?_⟩
    change s.delivered ++ p.buffered = s.accepted
    rw [← hs.stream, ← hr.2]
    simp
  | some data =>
    refine ⟨hr.1, ?_⟩
    change (s.delivered ++ data) ++ p.buffered = s.accepted
    rw [List.append_assoc, ← hs.stream, ← hr.2]
    simp

theorem endWrite_fifo {s t : System} (hs : s.Fifo) {tid : ℕ} {buf : List UInt8}
    {r : WriteOutcome × List UInt8 × Pipe}
    (hr : r.2.2.Ring ∧ r.2.2.buffered = s.pipe.buffered ++ r.2.1)
    (h : s.endWrite tid buf r = some t) : t.Fifo := by
  have hstream : s.delivered ++ r.2.2.buffered = s.accepted ++ r.2.1 := by
    rw [hr.2, ← List.append_assoc, hs.stream]
  unfold endWrite at h
  split at h
  · cases h
    exact ⟨hr.1, hstream⟩
  · cases h
    exact ⟨hr.1, hstream⟩
  · cases h

theorem lockedSection_fifo {s t : System} {tid : ℕ} (hs : s.Fifo)
    (h : s.lockedSection tid = some t) : t.Fifo := by
  unfold lockedSection at h
  split at h
  · cases h
  · cases h
    exact endRead_fifo hs _ _ (pipeRead_spec hs.ring _)
  · cases h
    exact endRead_fifo hs _ _ (pipeReadResume_spec hs.ring _)
  · exact endWrite_fifo hs (pipeWrite_spec hs.ring _) h
  · exact endWrite_fifo hs (pipeWriteResume_spec _ hs.ring _ _) h

theorem step_fifo (s : System) (a : Action) (t : System) (hs : s.Fifo) (h : Step s a t) : t.Fifo := by
  unfold Step step at h
  split at h
  · cases h
  · split at h
    · split at h <;> cases h
      exact ⟨hs.ring, hs.stream⟩
    · split at h <;> cases h
      exact ⟨hs.ring, hs.stream⟩
    · exact lockedSection_fifo hs h
    -- closing an end changes only the two counters of users
    · cases h
      exact ⟨⟨hs.ring.count_le, hs.ring.readPos_lt, hs.ring.writePos_eq⟩, hs.stream⟩
    · cases h
      exact ⟨⟨hs.ring.count_le, hs.ring.readPos_lt, hs.ring.writePos_eq⟩, hs.stream⟩

/-- Pipes are first-in first-out byte streams, whatever the interleaving of the locked sections. -/
theorem pipe_fifo {buffer : ℕ → UInt8} {as : List Action} {s : System}
    (h : Exec Step (init buffer) as s) :
    s.delivered ++ s.pipe.buffered = s.accepted ∧ s.pipe.count ≤ pipeSize ∧
      s.pipe.writePos = (s.pipe.readPos + s.pipe.count) % pipeSize ∧ s.AcceptsPrefixes := by
  have hs : s.Fifo := h.invariant step_fifo (init_fifo buffer)
  exact ⟨hs.stream, hs.ring.count_le, hs.ring.writePos_eq, s.acceptsPrefixes⟩

theorem pipe_fifo_short_run :
    ∃ s, Exec Step (init fun _ => 0)
        [.callWrite 0 [1, 2, 3], .lockedSection 0, .callRead 1 2, .lockedSection 1] s ∧
      s.delivered ++ s.pipe.buffered = s.accepted ∧ s.pipe.count ≤ pipeSize ∧
      s.pipe.writePos = (s.pipe.readPos + s.pipe.count) % pipeSize ∧ s.AcceptsPrefixes ∧
      s.delivered = [1, 2] := by
  have h : ∃ s, Exec Step (init fun _ => 0)
      [.callWrite 0 [1, 2, 3], .lockedSection 0, .callRead 1 2, .lockedSection 1] s ∧
      s.delivered = [1, 2] := ⟨_, .cons rfl (.cons rfl (.cons rfl (.cons rfl (.nil _)))), rfl⟩
  obtain ⟨s, hrun, hdata⟩ := h
  obtain ⟨hstream, hcount, hpos, haccepts⟩ := pipe_fifo hrun
  exact ⟨s, hrun, hstream, hcount, hpos, haccepts, hdata⟩

end System

end GcAos.Ipc
