import GcAos.Lib.Traces
import GcAos.Lib.Window

/-! The input ring of `kernel/apps/launcher.c`: `kapi_sys_key_event` runs in the keyboard's interrupt
and `kapi_getc` in the application, with no lock between them. Each access to one of the volatile
variables is one step, and the accesses of the two functions interleave in any order. -/

namespace GcAos.Apps
open Lib

def kapiInputBufSize : ℕ := 128

/-- The next access of `kapi_sys_key_event`, with the locals it has set. -/
inductive EventPc
  | out
  | readW (key : ℤ)
  | readR (key : ℤ) (next : ℕ)
  | readSlot (key : ℤ) (next : ℕ)
  | writeBuf (key : ℤ) (next slot : ℕ)
  | writeW (key : ℤ) (next : ℕ)
  deriving DecidableEq

inductive GetcPc
  | out
  | readR
  | readW (r : ℕ)
  | readSlot
  | readBuf (slot : ℕ)
  | readNext (key : ℤ)
  | writeR (key : ℤ) (next : ℕ)
  deriving DecidableEq

structure KeyRing where
  kInputBuf : ℕ → ℤ
  kInputR : ℕ
  kInputW : ℕ
  event : EventPc
  getc : GetcPc

inductive KeyAct
  | sysKeyEvent (key : ℤ)
  | event
  | getcCall
  | getc

namespace KeyRing

def stepEvent (s : KeyRing) : Option KeyRing :=
  match s.event with
  | .out => none
  | .readW key => some { s with event := .readR key ((s.kInputW + 1) % kapiInputBufSize) }
  | .readR key next =>
    some { s with event := if next ≠ s.kInputR then .readSlot key next else .out }
  | .readSlot key next => some { s with event := .writeBuf key next s.kInputW }
  | .writeBuf key next slot =>
    some { s with kInputBuf := Function.update s.kInputBuf slot key, event := .writeW key next }
  | .writeW _ next => some { s with kInputW := next, event := .out }

/-- With the ring empty `kapi_getc` returns what the UART has. -/
def stepGetc (s : KeyRing) : Option KeyRing :=
  match s.getc with
  | .out => none
  | .readR => some { s with getc := .readW s.kInputR }
  | .readW r => some { s with getc := if r ≠ s.kInputW then .readSlot else .out }
  | .readSlot => some { s with getc := .readBuf s.kInputR }
  | .readBuf slot => some { s with getc := .readNext (s.kInputBuf slot) }
  | .readNext key => some { s with getc := .writeR key ((s.kInputR + 1) % kapiInputBufSize) }
  | .writeR _ next => some { s with kInputR := next, getc := .out }

def step (s : KeyRing) : KeyAct → Option KeyRing
  | .sysKeyEvent key => if s.event = .out then some { s with event := .readW key } else none
  | .event => s.stepEvent
  | .getcCall => if s.getc = .out then some { s with getc := .readR } else none
  | .getc => s.stepGetc

def emit (s : KeyRing) : KeyAct → KeyRing → List (FifoEvent ℤ)
  | .event, _ =>
    match s.event with
    | .readR key next => if next ≠ s.kInputR then [] else [.full key]
    | .writeW key _ => [.put key]
    | _ => []
  | .getc, _ =>
    match s.getc with
    | .readW r => if r ≠ s.kInputW then [] else [.empty]
    | .writeR key _ => [.got key]
    | _ => []
  | _, _ => []

structure Init (s : KeyRing) : Prop where
  r : s.kInputR = 0
  w : s.kInputW = 0
  event : s.event = .out
  getc : s.getc = .out

end KeyRing

def KeyAct.pressed : KeyAct → List ℤ
  | .sysKeyEvent key => [key]
  | _ => []

def KeyAct.calls : KeyAct → List Unit
  | .getcCall => [()]
  | _ => []

/-- The key of the call that has not returned yet. -/
def EventPc.pressed : EventPc → List ℤ
  | .out => []
  | .readW key | .readR key _ | .readSlot key _ | .writeBuf key _ _ | .writeW key _ => [key]

def GetcPc.calls : GetcPc → List Unit
  | .out => []
  | _ => [()]

/-! The keys `q` between the two indices, and what the locals of the two functions say about them. -/

def EventPc.Ok (buf : ℕ → ℤ) (w : ℕ) (q : List ℤ) : EventPc → Prop
  | .out | .readW _ => True
  | .readR _ next => next = (w + 1) % kapiInputBufSize
  | .readSlot _ next => next = (w + 1) % kapiInputBufSize ∧ q.length + 1 < kapiInputBufSize
  | .writeBuf _ next slot =>
    next = (w + 1) % kapiInputBufSize ∧ q.length + 1 < kapiInputBufSize ∧ slot = w
  | .writeW key next => next = (w + 1) % kapiInputBufSize ∧ q.length + 1 < kapiInputBufSize ∧ buf w = key

def GetcPc.Ok (r : ℕ) (q : List ℤ) : GetcPc → Prop
  | .out | .readR => True
  | .readW r' => r' = r
  | .readSlot => q ≠ []
  | .readBuf slot => q ≠ [] ∧ slot = r
  | .readNext key => q.head? = some key
  | .writeR key next => q.head? = some key ∧ next = (r + 1) % kapiInputBufSize

theorem head?_push {q : List ℤ} {a : ℤ} (h : q.head? = some a) (key : ℤ) :
    (q ++ [key]).head? = some a := by
  rw [List.head?_append, h]
  rfl

theorem GetcPc.Ok.push {r : ℕ} {q : List ℤ} {pc : GetcPc} (h : pc.Ok r q) (key : ℤ) :
    pc.Ok r (q ++ [key]) := by
  cases pc with
  | out => trivial
  | readR => trivial
  | readW r' => exact h
  | readSlot => exact List.append_ne_nil_of_left_ne_nil h _
  | readBuf slot => exact ⟨List.append_ne_nil_of_left_ne_nil h.1 _, h.2⟩
  | readNext key' => exact head?_push h key
  | writeR key' next => exact ⟨head?_push h.1 key, h.2⟩

theorem EventPc.Ok.pop {buf : ℕ → ℤ} {w : ℕ} {key : ℤ} {q : List ℤ} {pc : EventPc}
    (h : pc.Ok buf w (key :: q)) : pc.Ok buf w q := by
  cases pc with
  | out => trivial
  | readW _ => trivial
  | readR _ next => exact h
  | readSlot _ next => exact ⟨h.1, Nat.lt_of_succ_lt h.2⟩
  | writeBuf _ next slot => exact ⟨h.1, Nat.lt_of_succ_lt h.2.1, h.2.2⟩
  | writeW _ next => exact ⟨h.1, Nat.lt_of_succ_lt h.2.1, h.2.2⟩

namespace KeyRing

structure Holds (s : KeyRing) (q : List ℤ) : Prop where
  length : q.length < kapiInputBufSize
  r : s.kInputR < kapiInputBufSize
  w : s.kInputW = (s.kInputR + q.length) % kapiInputBufSize
  keys : window kapiInputBufSize s.kInputBuf s.kInputR q.length = q
  event : s.event.Ok s.kInputBuf s.kInputW q
  getc : s.getc.Ok s.kInputR q

variable {s t : KeyRing} {q : List ℤ}

theorem Init.holds (h : s.Init) : s.Holds [] where
  length := by decide
  r := by rw [h.r]; decide
  w := by rw [h.r, h.w]; rfl
  keys := rfl
  event := by rw [h.event]; trivial
  getc := by rw [h.getc]; trivial

namespace Holds

/-- The indices are equal only when the ring is empty: 127 keys fill it. -/
theorem r_eq_w_iff (h : s.Holds q) : s.kInputR = s.kInputW ↔ q = [] := by
  have hr := h.r
  have hlen := h.length
  rw [h.w, ← List.length_eq_zero_iff]
  unfold kapiInputBufSize at *
  omega

theorem next_eq_r_iff (h : s.Holds q) :
    (s.kInputW + 1) % kapiInputBufSize = s.kInputR ↔ q.length + 1 = kapiInputBufSize := by
  have hr := h.r
  have hlen := h.length
  rw [h.w]
  unfold kapiInputBufSize at *
  omega

theorem head_eq (h : s.Holds q) (hne : q ≠ []) : q.head? = some (s.kInputBuf s.kInputR) := by
  cases q with
  | nil => exact absurd rfl hne
  | cons a q =>
    have hkeys := h.keys
    rw [List.length_cons, window_cons, Nat.mod_eq_of_lt h.r] at hkeys
    rw [List.head?_cons, (List.cons.inj hkeys).1]

theorem withEvent (h : s.Holds q) {pc : EventPc} (hpc : pc.Ok s.kInputBuf s.kInputW q) :
    ({ s with event := pc } : KeyRing).Holds q := { h with event := hpc }

theorem withGetc (h : s.Holds q) {pc : GetcPc} (hpc : pc.Ok s.kInputR q) :
    ({ s with getc := pc } : KeyRing).Holds q := { h with getc := hpc }

theorem writeBuf (h : s.Holds q) {key : ℤ} {next : ℕ} (hnext : next = (s.kInputW + 1) % kapiInputBufSize)
    (hroom : q.length + 1 < kapiInputBufSize) :
    ({ s with kInputBuf := Function.update s.kInputBuf s.kInputW key, event := .writeW key next } :
      KeyRing).Holds q where
  length := h.length
  r := h.r
  w := h.w
  keys := by
    rw [h.w]
    exact (window_update s.kInputBuf key h.length).trans h.keys
  event := ⟨hnext, hroom, Function.update_self ..⟩
  getc := h.getc

theorem writeW (h : s.Holds q) {key : ℤ} (hroom : q.length + 1 < kapiInputBufSize)
    (hkey : s.kInputBuf s.kInputW = key) :
    ({ s with kInputW := (s.kInputW + 1) % kapiInputBufSize, event := .out } :
      KeyRing).Holds (q ++ [key]) where
  length := by simpa using hroom
  r := h.r
  w := by simp only [h.w, List.length_append, List.length_singleton, Nat.mod_add_mod, Nat.add_assoc]
  keys := by
    rw [List.length_append, List.length_singleton, window_succ, h.keys, ← h.w, hkey]
  event := trivial
  getc := h.getc.push key

theorem writeR {key : ℤ} (h : s.Holds (key :: q)) :
    ({ s with kInputR := (s.kInputR + 1) % kapiInputBufSize, getc := .out } : KeyRing).Holds q where
  length := Nat.lt_of_succ_lt h.length
  r := Nat.mod_lt _ (by decide)
  w := by
    rw [h.w, List.length_cons, Nat.mod_add_mod, Nat.add_assoc, Nat.add_comm 1]
  keys := by
    have hkeys := h.keys
    rw [List.length_cons, window_cons] at hkeys
    rw [window_mod]
    exact (List.cons.inj hkeys).2
  event := h.event.pop
  getc := trivial

theorem of_stepEvent (h : s.Holds q) (hst : s.stepEvent = some t) :
    ∃ q', (emit s .event t).foldlM (FifoEvent.next (kapiInputBufSize - 1)) q = some q' ∧ t.Holds q' := by
  have hok := h.event
  unfold stepEvent at hst
  cases hpc : s.event <;> simp only [hpc] at hst hok <;> simp only [emit, hpc]
  case out => cases hst
  case readW key =>
    obtain rfl := Option.some.inj hst
    exact ⟨q, rfl, h.withEvent rfl⟩
  case readR key next =>
    obtain rfl := Option.some.inj hst
    have hlen := h.length
    by_cases hfull : next = s.kInputR
    · have hroom := h.next_eq_r_iff.mp (hok.symm.trans hfull)
      have hq : q.length = kapiInputBufSize - 1 := by omega
      refine ⟨q, by simp [hfull, FifoEvent.next, hq], ?_⟩
      rw [if_neg (not_not.mpr hfull)]
      exact h.withEvent trivial
    · refine ⟨q, by simp [hfull], ?_⟩
      rw [if_pos hfull]
      have hroom : q.length + 1 ≠ kapiInputBufSize := fun hroom =>
        hfull (hok.trans (h.next_eq_r_iff.mpr hroom))
      exact h.withEvent ⟨hok, by omega⟩
  case readSlot key next =>
    obtain rfl := Option.some.inj hst
    exact ⟨q, rfl, h.withEvent ⟨hok.1, hok.2, rfl⟩⟩
  case writeBuf key next slot =>
    obtain ⟨hnext, hroom, rfl⟩ := hok
    obtain rfl := Option.some.inj hst
    exact ⟨q, rfl, h.writeBuf hnext hroom⟩
  case writeW key next =>
    obtain ⟨rfl, hroom, hkey⟩ := hok
    obtain rfl := Option.some.inj hst
    refine ⟨q ++ [key], ?_, h.writeW hroom hkey⟩
    have hq : q.length < kapiInputBufSize - 1 := by omega
    simp [FifoEvent.next, hq]

theorem of_stepGetc (h : s.Holds q) (hst : s.stepGetc = some t) :
    ∃ q', (emit s .getc t).foldlM (FifoEvent.next (kapiInputBufSize - 1)) q = some q' ∧ t.Holds q' := by
  have hok := h.getc
  unfold stepGetc at hst
  cases hpc : s.getc <;> simp only [hpc] at hst hok <;> simp only [emit, hpc]
  case out => cases hst
  case readR =>
    obtain rfl := Option.some.inj hst
    exact ⟨q, rfl, h.withGetc rfl⟩
  case readW r =>
    obtain rfl := hok
    obtain rfl := Option.some.inj hst
    by_cases hempty : q = []
    · have heq := h.r_eq_w_iff.mpr hempty
      refine ⟨q, by simp [heq, FifoEvent.next, hempty], ?_⟩
      rw [if_neg (not_not.mpr heq)]
      exact h.withGetc trivial
    · have hne : s.kInputR ≠ s.kInputW := fun heq => hempty (h.r_eq_w_iff.mp heq)
      refine ⟨q, by simp [hne], ?_⟩
      rw [if_pos hne]
      exact h.withGetc hempty
  case readSlot =>
    obtain rfl := Option.some.inj hst
    exact ⟨q, rfl, h.withGetc ⟨hok, rfl⟩⟩
  case readBuf slot =>
    obtain ⟨hne, rfl⟩ := hok
    obtain rfl := Option.some.inj hst
    exact ⟨q, rfl, h.withGetc (h.head_eq hne)⟩
  case readNext key =>
    obtain rfl := Option.some.inj hst
    exact ⟨q, rfl, h.withGetc ⟨hok, rfl⟩⟩
  case writeR key next =>
    obtain ⟨hhead, rfl⟩ := hok
    obtain rfl := Option.some.inj hst
    obtain ⟨q', rfl⟩ := List.head?_eq_some_iff.mp hhead
    exact ⟨q', by simp [FifoEvent.next], h.writeR⟩

theorem of_step {a : KeyAct} (h : s.Holds q) (hst : s.step a = some t) :
    ∃ q', (emit s a t).foldlM (FifoEvent.next (kapiInputBufSize - 1)) q = some q' ∧ t.Holds q' := by
  cases a with
  | sysKeyEvent key =>
    obtain ⟨-, hst⟩ := Option.ite_none_right_eq_some.mp hst
    obtain rfl := Option.some.inj hst
    exact ⟨q, rfl, h.withEvent trivial⟩
  | event => exact h.of_stepEvent hst
  | getcCall =>
    obtain ⟨-, hst⟩ := Option.ite_none_right_eq_some.mp hst
    obtain rfl := Option.some.inj hst
    exact ⟨q, rfl, h.withGetc trivial⟩
  | getc => exact h.of_stepGetc hst

end Holds

theorem stepEvent_balance (hst : s.stepEvent = some t) :
    s.event.pressed = (emit s .event t).flatMap FifoEvent.offered ++ t.event.pressed ∧
      (emit s .event t).flatMap FifoEvent.tried = [] ∧ t.getc = s.getc := by
  unfold stepEvent at hst
  cases hpc : s.event <;> simp only [hpc, reduceCtorEq] at hst <;> obtain rfl := Option.some.inj hst
  case readR key next =>
    by_cases hfull : next = s.kInputR <;>
      simp [emit, hpc, hfull, EventPc.pressed, FifoEvent.offered, FifoEvent.tried]
  all_goals simp [emit, hpc, EventPc.pressed, FifoEvent.offered, FifoEvent.tried]

theorem stepGetc_balance (hst : s.stepGetc = some t) :
    s.getc.calls = (emit s .getc t).flatMap FifoEvent.tried ++ t.getc.calls ∧
      (emit s .getc t).flatMap FifoEvent.offered = [] ∧ t.event = s.event := by
  unfold stepGetc at hst
  cases hpc : s.getc <;> simp only [hpc, reduceCtorEq] at hst <;> obtain rfl := Option.some.inj hst
  case readW r =>
    by_cases hempty : r = s.kInputW <;>
      simp [emit, hpc, hempty, GetcPc.calls, FifoEvent.offered, FifoEvent.tried]
  all_goals simp [emit, hpc, GetcPc.calls, FifoEvent.offered, FifoEvent.tried]

theorem pressed_step (s : KeyRing) (a : KeyAct) (t : KeyRing) (hst : s.step a = some t) :
    s.event.pressed ++ a.pressed = (emit s a t).flatMap FifoEvent.offered ++ t.event.pressed := by
  cases a with
  | sysKeyEvent key =>
    obtain ⟨hout, hst⟩ := Option.ite_none_right_eq_some.mp hst
    obtain rfl := Option.some.inj hst
    rw [hout]
    rfl
  | event =>
    obtain ⟨hpressed, -⟩ := stepEvent_balance hst
    exact (List.append_nil _).trans hpressed
  | getcCall =>
    obtain ⟨-, hst⟩ := Option.ite_none_right_eq_some.mp hst
    obtain rfl := Option.some.inj hst
    exact List.append_nil _
  | getc =>
    obtain ⟨-, hoffered, hevent⟩ := stepGetc_balance hst
    rw [hoffered, hevent]
    exact List.append_nil _

theorem calls_step (s : KeyRing) (a : KeyAct) (t : KeyRing) (hst : s.step a = some t) :
    s.getc.calls ++ a.calls = (emit s a t).flatMap FifoEvent.tried ++ t.getc.calls := by
  cases a with
  | sysKeyEvent key =>
    obtain ⟨-, hst⟩ := Option.ite_none_right_eq_some.mp hst
    obtain rfl := Option.some.inj hst
    exact List.append_nil _
  | event =>
    obtain ⟨-, htried, hgetc⟩ := stepEvent_balance hst
    rw [htried, hgetc]
    exact List.append_nil _
  | getcCall =>
    obtain ⟨hout, hst⟩ := Option.ite_none_right_eq_some.mp hst
    obtain rfl := Option.some.inj hst
    rw [hout]
    rfl
  | getc =>
    obtain ⟨hcalls, -⟩ := stepGetc_balance hst
    exact (List.append_nil _).trans hcalls

/-- However the two functions interleave, the application gets the keys that were put in, each once
and in their order; a key is turned away only when 127 wait, and the UART is asked only when none does.
Each call that has returned has done one of the two things it can do, once. -/
theorem keys_fifo {as : List KeyAct} {es : List (FifoEvent ℤ)} (h : Emits step emit s as es t)
    (hs : s.Init) :
    (∃ q : List ℤ, q.length ≤ 127 ∧ FifoEvent.puts es = FifoEvent.gots es ++ q) ∧
    (∀ before key after, es = before ++ .full key :: after →
      (FifoEvent.puts before).length = (FifoEvent.gots before).length + 127) ∧
    (∀ before after, es = before ++ .empty :: after → FifoEvent.puts before = FifoEvent.gots before) ∧
    as.flatMap KeyAct.pressed = es.flatMap FifoEvent.offered ++ t.event.pressed ∧
    as.flatMap KeyAct.calls = es.flatMap FifoEvent.tried ++ t.getc.calls := by
  obtain ⟨q, hes, -⟩ := h.simulate (fun _ _ _ _ h hst => h.of_step hst) hs.holds
  refine ⟨⟨q, FifoEvent.length_le hes (Nat.zero_le _), FifoEvent.conserved hes⟩, ?_, ?_, ?_, ?_⟩
  · rintro before key after rfl
    exact FifoEvent.length_of_full hes
  · rintro before after rfl
    exact FifoEvent.puts_of_empty hes
  · have hpressed := h.balanced pressed_step
    rwa [hs.event] at hpressed
  · have hcalls := h.balanced calls_step
    rwa [hs.getc] at hcalls

def booted : KeyRing where
  kInputBuf _ := 0
  kInputR := 0
  kInputW := 0
  event := .out
  getc := .out

/-- A second key comes in between the two reads of `k_input_r` of the call that gets the first. -/
def interrupted : List KeyAct :=
  .sysKeyEvent 97 :: List.replicate 5 .event ++ [.getcCall, .getc, .getc, .sysKeyEvent 98, .event, .event] ++
    [.getc, .event, .getc, .getc, .event, .getc, .event]

theorem keys_fifo_interrupted : ∃ t es, Emits step emit booted interrupted es t ∧
    (∃ q : List ℤ, q.length ≤ 127 ∧ FifoEvent.puts es = FifoEvent.gots es ++ q) ∧
    (∀ before key after, es = before ++ .full key :: after →
      (FifoEvent.puts before).length = (FifoEvent.gots before).length + 127) ∧
    (∀ before after, es = before ++ .empty :: after → FifoEvent.puts before = FifoEvent.gots before) ∧
    interrupted.flatMap KeyAct.pressed = es.flatMap FifoEvent.offered ++ t.event.pressed ∧
    interrupted.flatMap KeyAct.calls = es.flatMap FifoEvent.tried ++ t.getc.calls := by
  have hgoes : (interrupted.foldlM step booted).isSome := by decide
  obtain ⟨t, ht⟩ := Option.isSome_iff_exists.mp hgoes
  obtain ⟨es, hes⟩ := Emits.of_foldlM emit ht
  exact ⟨t, es, hes, keys_fifo hes ⟨rfl, rfl, rfl, rfl⟩⟩

end KeyRing

end GcAos.Apps
