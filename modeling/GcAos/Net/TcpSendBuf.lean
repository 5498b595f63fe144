import GcAos.Net.TcpTable
import GcAos.Net.TcpStream

/-! Whether the send buffer of an established connection holds what its peer has not acknowledged. -/

namespace GcAos.Net
open Lib

/-- The stack, and how many of the bytes that a connection has sent its peer has not acknowledged.
They are the last ones before the sequence number of the connection. -/
structure Sender where
  net : Stack
  unacked : ℕ

/-- How many bytes a segment acknowledges that were not acknowledged before; sequence numbers go
round, and an acknowledgment of something that was not sent counts for nothing. -/
def newlyAcked (conn : TcpConnection) (unacked : ℕ) (s : Segment) : ℕ :=
  let k := (s.ack - (conn.seq - UInt32.ofNat unacked)).toNat
  if s.has tcpAck ∧ k ≤ unacked then k else 0

/-- The host calls `tcp_send` for the connection, or a segment comes in. -/
inductive SendAct
  | send (data : Bytes) (len : ℕ)
  | segment (srcIp dstIp : UInt32) (tcp : Bytes) (tcpLen : ℕ)

def SendAct.call (i : Fin maxTcpConnections) : SendAct → TcpCall
  | .send data len => .send i data len
  | .segment srcIp dstIp tcp tcpLen => .segment srcIp dstIp tcp tcpLen

/-- The bytes not acknowledged after a step: those that `tcp_send` says it has sent are added, and those
that a segment for the connection acknowledges are taken away. -/
def unackedAfter (n : Stack) (i : Fin maxTcpConnections) (unacked : ℕ) : SendAct → ℕ
  | .send data len => unacked + ((tcpSend n i data len).elim 0 Prod.fst).toNat
  | .segment srcIp dstIp tcp tcpLen =>
    match (TcpCall.segment srcIp dstIp tcp tcpLen).segmentFor n i with
    | none => unacked
    | some s => unacked - newlyAcked (n.tcpConnections i) unacked s

section

variable {i : Fin maxTcpConnections} {r r' : Sender} {n n' : Stack}

/-- A step of the established connection at `i`. -/
def SendStep (i : Fin maxTcpConnections) (r : Sender) (x : SendAct × List (Option Bytes))
    (r' : Sender) :
    Prop :=
  (r.net.tcpConnections i).state = .established ∧ (r.net.withMem x.2).run (x.1.call i) = some r'.net ∧
    r'.unacked = unackedAfter (r.net.withMem x.2) i r.unacked x.1

/-- `send_len` counts the bytes that are not acknowledged. -/
def Sender.Exact (i : Fin maxTcpConnections) (r : Sender) : Prop :=
  (r.net.tcpConnections i).sendLen = r.unacked

/-- There is no room for `len` bytes behind those in the buffer; the sum is taken in `size_t`. -/
def NoSpace (conn : TcpConnection) (len : ℕ) : Prop := conn.sendCapacity < (conn.sendLen + len) % 2 ^ 64

/-- What is promised of a step: the count is exact after it, a call that finds no room would need
more than the capacity for the bytes not acknowledged and its own, and a call that fails changes
nothing of the buffer and the sequence number. -/
structure SendSafe (i : Fin maxTcpConnections) (r : Sender) (x : SendAct × List (Option Bytes))
    (r' : Sender) : Prop where
  exact : r'.Exact i
  space : ∀ data len, x.1 = .send data len → NoSpace (r.net.tcpConnections i) len →
    (r.net.tcpConnections i).sendCapacity < r.unacked + len
  failed : ∀ data len, x.1 = .send data len →
    tcpSend (r.net.withMem x.2) i data len = some (-1, r'.net) →
    (r'.net.tcpConnections i).sendBuf = (r.net.tcpConnections i).sendBuf ∧
      (r'.net.tcpConnections i).sendLen = (r.net.tcpConnections i).sendLen ∧
      (r'.net.tcpConnections i).seq = (r.net.tcpConnections i).seq

/-- `tcp_send_packet` gets an interface and memory. -/
def CanSend (n : Stack) : Prop := n.iface.isSome = true ∧ (n.kmalloc.head?).join.isSome = true

/-- A segment acknowledges nothing that was not acknowledged before. A call that finds room sends
its bytes, if it has any. -/
def Unnoticed (n : Stack) (i : Fin maxTcpConnections) (unacked : ℕ) : SendAct → Prop
  | .send _ len => NoSpace (n.tcpConnections i) len ∨ len = 0 ∨ CanSend n
  | .segment srcIp dstIp tcp tcpLen => ∀ s,
      (TcpCall.segment srcIp dstIp tcp tcpLen).segmentFor n i = some s →
      newlyAcked (n.tcpConnections i) unacked s = 0

theorem newlyAcked_le (conn : TcpConnection) (unacked : ℕ) (s : Segment) :
    newlyAcked conn unacked s ≤ unacked := by
  unfold newlyAcked
  dsimp only
  split
  · next h => exact h.2
  · exact Nat.zero_le _

theorem tcpSendPacket_fst_eq (n : Stack) (conn : TcpConnection) (flags : UInt8) (data : Option Bytes)
    (len : ℕ) : (tcpSendPacket n conn flags data len).1 = -1 ∧ ¬CanSend n ∨
      (tcpSendPacket n conn flags data len).1 = 0 ∧ CanSend n := by
  cases hif : n.iface with
  | none =>
    refine .inl ⟨?_, fun h => ?_⟩
    · unfold tcpSendPacket
      rw [hif]
    · exact absurd h.1 (by simp [hif])
  | some iface =>
    rw [tcpSendPacket_fst hif]
    by_cases hmem : (n.kmalloc.head?).join.isSome = true
    · exact .inr ⟨if_pos hmem, by simp [hif], hmem⟩
    · exact .inl ⟨if_neg hmem, fun h => hmem h.2⟩

theorem tcpSend_cases {data : Bytes} {len : ℕ} {ret : ℤ}
    (hstate : (n.tcpConnections i).state = .established) (h : tcpSend n i data len = some (ret, n')) :
    (ret = -1 ∧ n' = n ∧ NoSpace (n.tcpConnections i) len) ∨
    ¬NoSpace (n.tcpConnections i) len ∧
      (n'.tcpConnections i).sendBuf = (n.tcpConnections i).sendBuf.map
        (fun buf => buf.blit (n.tcpConnections i).sendLen len data) ∧
      (n'.tcpConnections i).sendLen = (n.tcpConnections i).sendLen + len ∧
      (ret = len ∧ CanSend n ∨ ret = -1 ∧ ¬CanSend n ∧
        (n'.tcpConnections i).seq = (n.tcpConnections i).seq) := by
  unfold tcpSend at h
  dsimp only at h
  rw [if_neg (not_not.mpr hstate)] at h
  split at h
  · next hspace =>
    cases h
    exact .inl ⟨rfl, rfl, hspace⟩
  next hspace =>
  refine .inr ⟨hspace, ?_⟩
  split at h
  · exact absurd h (by simp)
  generalize hconn : ({ n.tcpConnections i with
    sendBuf := (n.tcpConnections i).sendBuf.map fun buf =>
      buf.blit (n.tcpConnections i).sendLen len data
    sendLen := (n.tcpConnections i).sendLen + len } : TcpConnection) = conn at h
  have hconns := tcpSendPacket_conns (n.set i conn) conn (tcpPsh ||| tcpAck) (some data) len
  rcases tcpSendPacket_fst_eq (n.set i conn) conn (tcpPsh ||| tcpAck) (some data) len with
    ⟨hret, hcan⟩ | ⟨hret, hcan⟩
  · rw [if_neg (by rw [hret]; decide)] at h
    cases h
    rw [hconns, Stack.set_self, ← hconn]
    exact ⟨rfl, rfl, .inr ⟨rfl, hcan, rfl⟩⟩
  · rw [if_pos hret] at h
    cases h
    rw [Stack.set_self]
    exact ⟨rfl, rfl, .inl ⟨rfl, hcan⟩⟩

theorem segment_safe_iff {srcIp dstIp : UInt32} {tcp : Bytes} {tcpLen : ℕ} {mem : List (Option Bytes)}
    (hr : r.Exact i) (hstep : SendStep i r (.segment srcIp dstIp tcp tcpLen, mem) r') :
    SendSafe i r (.segment srcIp dstIp tcp tcpLen, mem) r' ↔
      Unnoticed (r.net.withMem mem) i r.unacked (.segment srcIp dstIp tcp tcpLen) := by
  obtain ⟨-, hrun, hunacked⟩ := hstep
  have hlen : (r'.net.tcpConnections i).sendLen = (r.net.tcpConnections i).sendLen :=
    (tcpHandleSegment_receives hrun i).sendLen
  have hexact : r'.Exact i ↔
      Unnoticed (r.net.withMem mem) i r.unacked (.segment srcIp dstIp tcp tcpLen) := by
    rw [Sender.Exact] at hr
    rw [Sender.Exact, hlen, hr, hunacked, Unnoticed, unackedAfter]
    dsimp only
    cases hseg : (TcpCall.segment srcIp dstIp tcp tcpLen).segmentFor (r.net.withMem mem) i with
    | none => simp
    | some s =>
      have hle := newlyAcked_le ((r.net.withMem mem).tcpConnections i) r.unacked s
      simp only [Option.some.injEq, forall_eq']
      omega
  refine ⟨fun hsafe => hexact.mp hsafe.exact, fun hun => ⟨hexact.mpr hun, ?_, ?_⟩⟩
  · exact fun data len h => absurd h (by simp)
  · exact fun data len h => absurd h (by simp)

theorem send_safe_iff {data : Bytes} {len : ℕ} {mem : List (Option Bytes)} (hr : r.Exact i)
    (hstep : SendStep i r (.send data len, mem) r') :
    SendSafe i r (.send data len, mem) r' ↔
      Unnoticed (r.net.withMem mem) i r.unacked (.send data len) := by
  obtain ⟨hstate, hrun, hunacked⟩ := hstep
  obtain ⟨⟨ret, n'⟩, hsend, hn'⟩ := Option.map_eq_some_iff.mp hrun
  obtain rfl : n' = r'.net := hn'
  have hafter : r'.unacked = r.unacked + ret.toNat := by
    rw [hunacked, unackedAfter]
    dsimp only
    rw [hsend]
    rfl
  have hspace : NoSpace (r.net.tcpConnections i) len →
      (r.net.tcpConnections i).sendCapacity < r.unacked + len := by
    intro h
    rw [← hr]
    exact h.trans_le (Nat.mod_le _ _)
  have hspace' : ∀ data' len', SendAct.send data len = .send data' len' →
      NoSpace (r.net.tcpConnections i) len' →
        (r.net.tcpConnections i).sendCapacity < r.unacked + len' := by
    intro data' len' h
    cases h
    exact hspace
  rcases tcpSend_cases (n := r.net.withMem mem) hstate hsend with
    ⟨rfl, hsame, hno⟩ | ⟨hroom, hbuf, hlen, ⟨rfl, hcan⟩ | ⟨rfl, hcan, hseq⟩⟩
  · refine iff_of_true ⟨?_, hspace', fun _ _ _ _ => ?_⟩ (.inl hno)
    · rw [Sender.Exact, hafter, hsame]
      exact hr
    · rw [hsame]
      exact ⟨rfl, rfl, rfl⟩
  · refine iff_of_true ⟨?_, hspace', fun data' len' h hfail => ?_⟩ (.inr (.inr hcan))
    · rw [Sender.Exact, hafter, hlen, Int.toNat_natCast]
      exact congrArg (· + len) hr
    · -- a call that has sent its bytes does not return -1
      cases h
      rw [hsend] at hfail
      have hbad : (len : ℤ) = -1 := congrArg Prod.fst (Option.some.inj hfail)
      omega
  · have hsafe : SendSafe i r (.send data len, mem) r' ↔ len = 0 := by
      constructor
      · intro hsafe
        have hlen' := (hsafe.failed data len rfl hsend).2.1
        rw [hlen] at hlen'
        exact Nat.left_eq_add.mp hlen'.symm
      · rintro rfl
        refine ⟨?_, hspace', fun _ _ _ _ => ⟨?_, hlen, hseq⟩⟩
        · rw [Sender.Exact, hafter, hlen]
          exact hr
        · rw [hbuf]
          simp only [Bytes.blit_empty, Option.map_id_fun']
          rfl
    rw [hsafe]
    refine ⟨fun h => .inr (.inl h), fun h => ?_⟩
    rcases h with h | h | h
    · exact absurd h hroom
    · exact h
    · exact absurd h hcan

theorem step_safe_iff {x : SendAct × List (Option Bytes)} (hr : r.Exact i) (hstep : SendStep i r x r') :
    SendSafe i r x r' ↔ Unnoticed (r.net.withMem x.2) i r.unacked x.1 := by
  obtain ⟨act, mem⟩ := x
  cases act with
  | send data len => exact send_safe_iff hr hstep
  | segment srcIp dstIp tcp tcpLen => exact segment_safe_iff hr hstep

/-- As long as the peer acknowledges nothing and no frame gets lost on the way to the driver, `send_len`
counts the bytes that are not acknowledged, and every call is safe; the first step that is otherwise is
not. -/
theorem send_buffer_exact {r₀ : Sender} {acts : List (SendAct × List (Option Bytes))} (hr₀ : r₀.Exact i)
    (hrun : Exec (fun r x r' => Unnoticed (r.net.withMem x.2) i r.unacked x.1 ∧
      SendStep i r x r') r₀ acts r) :
    r.Exact i ∧ ∀ x r', SendStep i r x r' →
      (SendSafe i r x r' ↔ Unnoticed (r.net.withMem x.2) i r.unacked x.1) := by
  have hr : r.Exact i := by
    refine Exec.invariant (I := fun r : Sender => r.Exact i) ?_ hrun hr₀
    rintro r x r' hr ⟨hun, hstep⟩
    exact ((step_safe_iff hr hstep).mpr hun).exact
  exact ⟨hr, fun x r' hstep => step_safe_iff hr hstep⟩

end

/-- The connection of `sampleReceiver`, which has sent nothing. -/
def sampleIdle : Sender where
  net := { sampleReceiver.net with iface := some sampleIface }
  unacked := 0

def sampleSend : SendAct × List (Option Bytes) := (.send (fun _ => 0x61) 2, [some fun _ => 0])

def ackBytes : Bytes := fun k =>
  [0x00, 0x50, 0xC0, 0x00, 0, 0, 0, 8, 0, 0, 0, 102, 0x50, 0x10, 0, 0, 0, 0, 0, 0].getD k 0

theorem sampleIdle_sends : ∃ n n', SendStep 0 sampleIdle sampleSend ⟨n, 2⟩ ∧
    SendStep 0 ⟨n, 2⟩ (.segment 2 1 ackBytes 20, []) ⟨n', 0⟩ ∧
    (n.tcpConnections 0).sendLen = 2 ∧ (n'.tcpConnections 0).sendLen = 2 := by
  have heval : ((sampleIdle.net.withMem sampleSend.2).run (sampleSend.1.call 0)).bind (fun n =>
      (n.withMem []).run (.segment 2 1 ackBytes 20) |>.map fun n' =>
        ((n.tcpConnections 0).state == .established) &&
        (unackedAfter (n.withMem []) 0 2 (.segment 2 1 ackBytes 20) == 0) &&
        ((n.tcpConnections 0).sendLen == 2) && ((n'.tcpConnections 0).sendLen == 2)) = some true := by
    decide +kernel
  obtain ⟨n, hsend, heval⟩ := Option.bind_eq_some_iff.mp heval
  obtain ⟨n', hack, heval⟩ := Option.map_eq_some_iff.mp heval
  simp only [Bool.and_eq_true, beq_iff_eq] at heval
  obtain ⟨⟨⟨hstate, hunacked⟩, hlen⟩, hlen'⟩ := heval
  have hunacked₀ :
      unackedAfter (sampleIdle.net.withMem sampleSend.2) 0 sampleIdle.unacked sampleSend.1 = 2 := by
    decide +kernel
  exact ⟨n, n', ⟨rfl, hsend, hunacked₀.symm⟩, ⟨hstate, hack, hunacked.symm⟩, hlen, hlen'⟩

theorem send_buffer_exact_two : ∃ r, SendStep 0 sampleIdle sampleSend r ∧
    (r.net.tcpConnections 0).sendLen = 2 ∧ r.unacked = 2 ∧ r.Exact 0 := by
  obtain ⟨n, -, hstep, -, hlen, -⟩ := sampleIdle_sends
  have hcan : Unnoticed (sampleIdle.net.withMem sampleSend.2) 0 sampleIdle.unacked sampleSend.1 :=
    Or.inr (.inr ⟨rfl, rfl⟩)
  have hexact : sampleIdle.Exact 0 := rfl
  obtain ⟨hexact, -⟩ := send_buffer_exact hexact (.cons ⟨hcan, hstep⟩ (.nil _))
  exact ⟨_, hstep, hlen, rfl, hexact⟩

theorem acked_bytes_stay :
    ¬∀ (i : Fin maxTcpConnections) (r₀ r : Sender) (acts : List (SendAct × List (Option Bytes))),
      r₀.Exact i → Exec (SendStep i) r₀ acts r → r.Exact i := by
  intro hall
  obtain ⟨n, n', hsend, hack, -, hlen⟩ := sampleIdle_sends
  have hexact : (n'.tcpConnections 0).sendLen = 0 :=
    hall 0 sampleIdle _ _ rfl (.cons hsend (.cons hack (.nil _)))
  rw [hlen] at hexact
  exact absurd hexact (by decide)

end GcAos.Net
