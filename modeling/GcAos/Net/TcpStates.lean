import GcAos.Net.TcpIp

/-! The state machine of a TCP connection, as the calls and the incoming segments drive it, and
when its transitions wait for the right acknowledgment. -/

namespace GcAos.Net
open Lib

variable {n n' : Stack} {i j : Fin maxTcpConnections} {conn : TcpConnection} {s : Segment}

namespace Stack

@[simp] theorem set_self : (n.set i conn).tcpConnections i = conn := Function.update_self _ _ _

theorem set_of_ne (h : j ≠ i) : (n.set i conn).tcpConnections j = n.tcpConnections j :=
  Function.update_of_ne h _ _

theorem set_last (conn' : TcpConnection) (h : n'.tcpConnections = (n.set i conn).tcpConnections) :
    (n'.set i conn').tcpConnections = (n.set i conn').tcpConnections := by
  show Function.update n'.tcpConnections i conn' = Function.update n.tcpConnections i conn'
  rw [h]
  exact Function.update_idem _ _ _

end Stack

theorem tcpSendPacket_conns (n : Stack) (conn : TcpConnection) (flags : UInt8) (data : Option Bytes)
    (len : ℕ) : (tcpSendPacket n conn flags data len).2.tcpConnections = n.tcpConnections := by
  unfold tcpSendPacket
  cases n.iface with
  | none => rfl
  | some iface =>
    dsimp only
    split
    · next heq => rw [← (Prod.mk.inj heq).2]
    · next heq =>
      rw [← (Prod.mk.inj heq).2]
      dsimp only [Stack.transmit]
      split
      · rfl
      · rfl

theorem sendAck_conns (n : Stack) (i : Fin maxTcpConnections) (conn : TcpConnection) :
    (sendAck n i conn).tcpConnections = (n.set i conn).tcpConnections :=
  tcpSendPacket_conns _ _ _ _ _

theorem sendAck_set (n : Stack) (i : Fin maxTcpConnections) (conn conn' : TcpConnection) :
    (sendAck (n.set i conn) i conn').tcpConnections = (n.set i conn').tcpConnections :=
  (sendAck_conns _ _ _).trans (Stack.set_last _ rfl)

/-! The transitions. -/

/-- The state and `in_use` of a connection after a segment. -/
def transition (s : Segment) : TcpState → TcpState × Bool
  | .synSent =>
    if s.has (tcpSyn ||| tcpAck) then (.established, true)
    else if s.has tcpRst then (.closed, false)
    else (.synSent, true)
  | .established => if s.has tcpFin then (.closeWait, true) else (.established, true)
  | .finWait1 =>
    if s.has tcpFin then if s.has tcpAck then (.timeWait, true) else (.closing, true)
    else if s.has tcpAck then (.finWait2, true)
    else (.finWait1, true)
  | .finWait2 => if s.has tcpFin then (.timeWait, true) else (.finWait2, true)
  | .closing => if s.has tcpAck then (.timeWait, true) else (.closing, true)
  | .lastAck => if s.has tcpAck then (.closed, false) else (.lastAck, true)
  | .timeWait => (.timeWait, false)
  | st => (st, true)

/-- The connection at `i` has gone to `next`; the others are as they were. -/
structure Moves (n : Stack) (i : Fin maxTcpConnections) (next : TcpState × Bool) (n' : Stack) :
    Prop where
  others : ∀ j, j ≠ i → n'.tcpConnections j = n.tcpConnections j
  state : (n'.tcpConnections i).state = next.1
  inUse : (n'.tcpConnections i).inUse = next.2
  seq : (n'.tcpConnections i).seq = (n.tcpConnections i).seq

theorem moves_of_set {next : TcpState × Bool}
    (h : n'.tcpConnections = (n.set i conn).tcpConnections) (hstate : conn.state = next.1)
    (huse : conn.inUse = next.2) (hseq : conn.seq = (n.tcpConnections i).seq) : Moves n i next n' where
  others j hj := by
    rw [h]
    exact Stack.set_of_ne hj
  state := by rw [h, Stack.set_self, hstate]
  inUse := by rw [h, Stack.set_self, huse]
  seq := by rw [h, Stack.set_self, hseq]

theorem moves_refl {st : TcpState} (hstate : (n.tcpConnections i).state = st)
    (huse : (n.tcpConnections i).inUse = true) : Moves n i (st, true) n :=
  ⟨fun _ _ => rfl, hstate, huse, rfl⟩

theorem find_inUse {remoteIp localIp : UInt32} {remotePort localPort : UInt16}
    (h : tcpFindConnection n remoteIp remotePort localIp localPort = some i) :
    (n.tcpConnections i).inUse = true := by
  have hi := List.find?_some h
  simp only [Bool.and_eq_true] at hi
  exact hi.1.1.1.1

inductive Takes (conn : TcpConnection) (s : Segment) (data : Bytes) (dataLen : ℕ) :
    TcpConnection → Prop
  | nothing : s.has tcpFin = false →
      (0 < dataLen → conn.recvCapacity < (conn.recvLen + dataLen) % 2 ^ 64) →
      Takes conn s data dataLen conn
  | fin : s.has tcpFin = true →
      Takes conn s data dataLen
        { conn with ack := s.seq + UInt32.ofNat dataLen + 1, state := .closeWait }
  | data (buf : Bytes) : s.has tcpFin = false → 0 < dataLen →
      conn.recvLen + dataLen ≤ conn.recvCapacity →
      Takes conn s data dataLen { conn with
        recvBuf := some (buf.blit conn.recvLen dataLen data)
        recvLen := conn.recvLen + dataLen
        ack := s.seq + UInt32.ofNat dataLen }

theorem handleEstablished_takes {data : Bytes} {dataLen : ℕ}
    (h : handleEstablished n i s data dataLen = some n') :
    ∃ conn', n'.tcpConnections = (n.set i conn').tcpConnections ∧
      Takes (n.tcpConnections i) s data dataLen conn' := by
  have hsame : n.tcpConnections = (n.set i (n.tcpConnections i)).tcpConnections :=
    (Function.update_eq_self i n.tcpConnections).symm
  unfold handleEstablished at h
  dsimp only at h
  split at h
  · next hfin =>
    cases h
    exact ⟨_, sendAck_conns _ _ _, .fin hfin⟩
  next hfin =>
  have hfin' : s.has tcpFin = false := by simpa using hfin
  split at h
  · next hlen =>
    split at h
    · obtain ⟨buf, -, h⟩ := Option.bind_eq_some_iff.mp h
      split at h
      · exact absurd h (by simp)
      · next hfit =>
        cases h
        exact ⟨_, sendAck_conns _ _ _, .data buf hfin' hlen (Nat.le_of_not_lt hfit)⟩
    · next hfull =>
      cases h
      exact ⟨_, hsame, .nothing hfin' fun _ => Nat.lt_of_not_le hfull⟩
  · next hlen =>
    cases h
    exact ⟨_, hsame, .nothing hfin' fun h => absurd h hlen⟩

inductive Stores (conn : TcpConnection) (s : Segment) (data : Bytes) (dataLen : ℕ) :
    TcpConnection → Prop
  | takes {conn' : TcpConnection} : Takes conn s data dataLen conn' → Stores conn s data dataLen conn'
  | answers (st : TcpState) (ack : UInt32) :
      Stores conn s data dataLen { conn with state := st, ack := ack }
  | frees (st : TcpState) : Stores conn s data dataLen { conn with state := st, inUse := false }

theorem handleFinWait1_answers (n : Stack) (i : Fin maxTcpConnections) (s : Segment) :
    ∃ st ack, (handleFinWait1 n i s).tcpConnections =
      (n.set i { n.tcpConnections i with state := st, ack := ack }).tcpConnections := by
  unfold handleFinWait1
  dsimp only
  split
  · split
    · split
      · exact ⟨_, _, Stack.set_last _ (sendAck_set _ _ _ _)⟩
      · exact ⟨_, _, Stack.set_last _ (sendAck_set _ _ _ _)⟩
    · split
      · exact ⟨_, _, Stack.set_last _ (sendAck_set _ _ _ _)⟩
      · exact ⟨_, _, Stack.set_last _ (sendAck_set _ _ _ _)⟩
  · split
    · exact ⟨_, _, rfl⟩
    · exact ⟨_, _, rfl⟩

theorem tcpHandleSegment_stores {srcIp dstIp : UInt32} {tcp : Bytes} {tcpLen : ℕ}
    (h : tcpHandleSegment n srcIp dstIp tcp tcpLen = some n') :
    n'.tcpConnections = n.tcpConnections ∨ ∃ i conn', n'.tcpConnections = (n.set i conn').tcpConnections ∧
      Stores (n.tcpConnections i) (parseSegment tcp) (fun k => tcp ((parseSegment tcp).headerLen + k))
        ((tcpLen + 2 ^ 64 - (parseSegment tcp).headerLen) % 2 ^ 64) conn' := by
  unfold tcpHandleSegment at h
  dsimp only at h
  split at h
  · cases h
    exact .inl rfl
  next i hi =>
  split at h
  · split at h
    · cases h
      exact .inr ⟨i, _, sendAck_conns _ _ _, .answers _ _⟩
    split at h
    · cases h
      refine .inr ⟨i, _, Stack.set_last _ rfl, ?_⟩
      rw [Stack.set_self]
      exact .frees _
    · cases h
      exact .inl rfl
  · obtain ⟨conn', hconns, htakes⟩ := handleEstablished_takes h
    exact .inr ⟨i, conn', hconns, .takes htakes⟩
  · cases h
    obtain ⟨st, ack, hconns⟩ := handleFinWait1_answers n i (parseSegment tcp)
    exact .inr ⟨i, _, hconns, .answers st ack⟩
  · split at h
    · cases h
      exact .inr ⟨i, _, Stack.set_last _ (sendAck_conns _ _ _), .answers _ _⟩
    · cases h
      exact .inl rfl
  · split at h
    · cases h
      exact .inr ⟨i, _, rfl, .answers _ _⟩
    · cases h
      exact .inl rfl
  · split at h
    · cases h
      refine .inr ⟨i, _, Stack.set_last _ rfl, ?_⟩
      rw [Stack.set_self]
      exact .frees _
    · cases h
      exact .inl rfl
  · cases h
    exact .inr ⟨i, _, rfl, .frees _⟩
  · cases h
    exact .inl rfl

theorem handleEstablished_moves {data : Bytes} {dataLen : ℕ}
    (hstate : (n.tcpConnections i).state = .established) (huse : (n.tcpConnections i).inUse = true)
    (h : handleEstablished n i s data dataLen = some n') :
    Moves n i (transition s .established) n' := by
  obtain ⟨conn', hconns, htakes⟩ := handleEstablished_takes h
  rw [transition]
  cases htakes with
  | nothing hfin _ =>
    rw [hfin]
    exact moves_of_set hconns hstate huse rfl
  | fin hfin =>
    rw [hfin]
    exact moves_of_set hconns rfl huse rfl
  | data buf hfin _ _ =>
    rw [hfin]
    exact moves_of_set hconns hstate huse rfl

theorem handleFinWait1_moves (hstate : (n.tcpConnections i).state = .finWait1)
    (huse : (n.tcpConnections i).inUse = true) :
    Moves n i (transition s .finWait1) (handleFinWait1 n i s) := by
  unfold handleFinWait1 transition
  dsimp only
  cases hfin : s.has tcpFin with
  | false =>
    simp only [Bool.false_eq_true, if_false]
    cases hack : s.has tcpAck with
    | false =>
      simp only [Bool.false_eq_true, if_false]
      exact moves_of_set rfl hstate huse rfl
    | true =>
      simp only [if_true]
      exact moves_of_set rfl rfl huse rfl
  | true =>
    simp only [if_true]
    cases hack : s.has tcpAck with
    | false =>
      simp only [Bool.false_eq_true, if_false, hstate, reduceCtorEq]
      exact moves_of_set (Stack.set_last _ (sendAck_set _ _ _ _)) rfl huse rfl
    | true =>
      simp only [if_true]
      exact moves_of_set (Stack.set_last _ (sendAck_set _ _ _ _)) rfl huse rfl

theorem tcpHandleSegment_moves {srcIp dstIp : UInt32} {tcp : Bytes} {tcpLen : ℕ}
    (h : tcpHandleSegment n srcIp dstIp tcp tcpLen = some n')
    (hi : tcpFindConnection n srcIp (parseSegment tcp).srcPort dstIp (parseSegment tcp).dstPort =
      some i) :
    Moves n i (transition (parseSegment tcp) (n.tcpConnections i).state) n' := by
  have huse := find_inUse hi
  unfold tcpHandleSegment at h
  dsimp only at h
  rw [hi] at h
  dsimp only at h
  generalize parseSegment tcp = s at h
  cases hstate : (n.tcpConnections i).state with
  | synSent =>
    rw [hstate] at h
    rw [transition]
    dsimp only at h
    split at h
    · next hsyn =>
      rw [if_pos hsyn]
      cases h
      exact moves_of_set (sendAck_conns _ _ _) rfl huse rfl
    next hsyn =>
    rw [if_neg hsyn]
    split at h
    · next hrst =>
      rw [if_pos hrst]
      cases h
      exact moves_of_set (Stack.set_last _ rfl) (by rw [Stack.set_self]) rfl (by rw [Stack.set_self])
    · next hrst =>
      rw [if_neg hrst]
      cases h
      exact moves_refl hstate huse
  | established =>
    rw [hstate] at h
    exact handleEstablished_moves hstate huse h
  | finWait1 =>
    rw [hstate] at h
    cases h
    exact handleFinWait1_moves hstate huse
  | finWait2 =>
    rw [hstate] at h
    rw [transition]
    dsimp only at h
    split at h
    · next hfin =>
      rw [if_pos hfin]
      cases h
      exact moves_of_set (Stack.set_last _ (sendAck_conns _ _ _)) rfl huse rfl
    · next hfin =>
      rw [if_neg hfin]
      cases h
      exact moves_refl hstate huse
  | closing =>
    rw [hstate] at h
    rw [transition]
    dsimp only at h
    split at h
    · next hack =>
      rw [if_pos hack]
      cases h
      exact moves_of_set rfl rfl huse rfl
    · next hack =>
      rw [if_neg hack]
      cases h
      exact moves_refl hstate huse
  | lastAck =>
    rw [hstate] at h
    rw [transition]
    dsimp only at h
    split at h
    · next hack =>
      rw [if_pos hack]
      cases h
      exact moves_of_set (Stack.set_last _ rfl) (by rw [Stack.set_self]) rfl (by rw [Stack.set_self])
    · next hack =>
      rw [if_neg hack]
      cases h
      exact moves_refl hstate huse
  | timeWait =>
    rw [hstate] at h
    cases h
    exact moves_of_set rfl hstate rfl rfl
  | closed =>
    rw [hstate] at h
    cases h
    exact moves_refl hstate huse
  | listen =>
    rw [hstate] at h
    cases h
    exact moves_refl hstate huse
  | synReceived =>
    rw [hstate] at h
    cases h
    exact moves_refl hstate huse
  | closeWait =>
    rw [hstate] at h
    cases h
    exact moves_refl hstate huse

/-! What is asked of a transition, and of the segment that leads to it. -/

def TcpState.Synchronized (st : TcpState) : Prop :=
  st ≠ .closed ∧ st ≠ .listen ∧ st ≠ .synSent ∧ st ≠ .synReceived

instance (st : TcpState) : Decidable st.Synchronized :=
  inferInstanceAs (Decidable (st ≠ .closed ∧ st ≠ .listen ∧ st ≠ .synSent ∧ st ≠ .synReceived))

/-- A segment that acknowledges everything `conn` has sent. -/
def Segment.Acks (s : Segment) (conn : TcpConnection) : Prop := s.has tcpAck = true ∧ s.ack = conn.seq

/-- `conn` becomes `conn'` by a call, which is for the segment `seg` if it is for one; `isn` is the
number the connection has started with. A FIN in the segment takes `conn` through `TCP_FIN_WAIT_2`
to `TCP_TIME_WAIT`. -/
@[mk_iff]
structure SafeAt (conn conn' : TcpConnection) (isn : UInt32) (seg : Option Segment) : Prop where
  established : ¬ (conn.inUse = true ∧ conn.state = .established) →
    conn'.inUse = true ∧ conn'.state = .established →
    ∃ s, seg = some s ∧ s.has (tcpSyn ||| tcpAck) = true ∧ s.ack = isn + 1
  finWait2 : conn.inUse = true → (conn.state ≠ .finWait2 ∧ conn'.state = .finWait2) ∨
      (conn.state = .finWait1 ∧ conn'.state = .timeWait) → ∃ s, seg = some s ∧ s.Acks conn
  timeWait : conn.inUse = true → conn.state = .closing → conn'.state = .timeWait →
    ∃ s, seg = some s ∧ s.Acks conn
  freed : conn.inUse = true → conn.state = .lastAck → conn'.inUse = false →
    ∃ s, seg = some s ∧ s.Acks conn
  reset : ∀ s, seg = some s → s.has tcpRst = true → ¬ (conn'.inUse = true ∧ conn'.state.Synchronized)

/-- The segment acknowledges what the connection waits for, and resets it only where the code looks
for a reset. -/
@[mk_iff]
structure Expected (conn : TcpConnection) (s : Segment) : Prop where
  synAck : conn.state = .synSent → s.has (tcpSyn ||| tcpAck) = true → s.ack = conn.seq
  ack : conn.state = .finWait1 ∨ conn.state = .closing ∨ conn.state = .lastAck →
    s.has tcpAck = true → s.ack = conn.seq
  reset : s.has tcpRst = true → (conn.state = .synSent → s.has (tcpSyn ||| tcpAck) = false) ∧
    (conn.state = .lastAck → s.has tcpAck = true) ∧ conn.state ≠ .established ∧
    conn.state ≠ .finWait1 ∧ conn.state ≠ .finWait2 ∧ conn.state ≠ .closeWait ∧
    conn.state ≠ .closing

variable {conn' : TcpConnection} {isn : UInt32}

theorem safeAt_of_unchanged (hstate : conn'.state = conn.state) (huse : conn'.inUse = conn.inUse) :
    SafeAt conn conn' isn none := by
  refine ⟨?_, ?_, ?_, ?_, fun s hs => absurd hs (by simp)⟩
  · intro hno hyes
    rw [hstate, huse] at hyes
    exact absurd hyes hno
  · rintro - (⟨hne, heq⟩ | ⟨heq, heq'⟩)
    · exact absurd (hstate ▸ heq) hne
    · rw [hstate, heq] at heq'
      exact absurd heq' (by decide)
  · intro _ heq heq'
    rw [hstate, heq] at heq'
    exact absurd heq' (by decide)
  · intro hyes _ hno
    rw [huse, hyes] at hno
    exact absurd hno (by decide)

theorem safeAt_iff_expected (huse : conn.inUse = true)
    (hstate : conn'.state = (transition s conn.state).1)
    (huse' : conn'.inUse = (transition s conn.state).2)
    (hisn : conn.state = .synSent → conn.seq = isn + 1) :
    SafeAt conn conn' isn (some s) ↔ Expected conn s := by
  rw [safeAt_iff, expected_iff, hstate, huse', huse]
  unfold Segment.Acks TcpState.Synchronized
  cases hst : conn.state with
  | synSent =>
    rw [hisn hst, transition]
    cases hsyn : s.has (tcpSyn ||| tcpAck) <;> cases hrst : s.has tcpRst <;> simp [hsyn, hrst]
  | finWait1 =>
    rw [transition]
    cases hack : s.has tcpAck <;> cases hfin : s.has tcpFin <;> cases hrst : s.has tcpRst <;>
      simp [hack, hrst]
  | established =>
    rw [transition]
    cases hfin : s.has tcpFin <;> cases hrst : s.has tcpRst <;> simp [hrst]
  | finWait2 =>
    rw [transition]
    cases hfin : s.has tcpFin <;> cases hrst : s.has tcpRst <;> simp [hrst]
  | closing =>
    rw [transition]
    cases hack : s.has tcpAck <;> cases hrst : s.has tcpRst <;> simp [hack, hrst]
  | lastAck =>
    rw [transition]
    cases hack : s.has tcpAck <;> cases hrst : s.has tcpRst <;> simp [hack, hrst]
  | _ => simp [transition]

/-! The calls of the host. -/

inductive LocalMove (isn : UInt32) (conn conn' : TcpConnection) : Prop
  | keep : conn'.state = conn.state → conn'.inUse = conn.inUse →
      (conn.state = .synSent → conn'.seq = conn.seq) → LocalMove isn conn conn'
  | opened : conn.inUse = false → conn'.inUse = true → conn'.state = .synSent →
      conn'.seq = isn + 1 → LocalMove isn conn conn'
  | failed : conn.inUse = false → conn'.inUse = false → LocalMove isn conn conn'
  | closed : conn.state = .established ∧ conn'.state = .finWait1 ∨
      conn.state = .closeWait ∧ conn'.state = .lastAck → conn'.inUse = conn.inUse →
      LocalMove isn conn conn'
  | dropped : conn.state = .synSent ∨ conn.state = .listen → conn'.inUse = false →
      conn'.state = conn.state → LocalMove isn conn conn'

theorem LocalMove.refl (conn : TcpConnection) : LocalMove isn conn conn := .keep rfl rfl fun _ => rfl

theorem LocalMove.safeAt (h : LocalMove isn conn conn') (isn' : UInt32) :
    SafeAt conn conn' isn' none := by
  rw [safeAt_iff]
  cases h with
  | keep hstate huse _ => exact (safeAt_iff _ _ _ _).mp (safeAt_of_unchanged hstate huse)
  | opened huse huse' hstate _ => simp [huse, hstate]
  | failed huse huse' => simp [huse, huse']
  | closed hstate _ => rcases hstate with ⟨h, h'⟩ | ⟨h, h'⟩ <;> simp [h, h']
  | dropped hstate huse' hsame => rcases hstate with h | h <;> simp [hsame, h, huse']

theorem localMove_of_set (h : n'.tcpConnections = (n.set i conn).tcpConnections)
    (hmove : LocalMove isn (n.tcpConnections i) conn) (j : Fin maxTcpConnections) :
    (j = i ∧ LocalMove isn (n.tcpConnections j) (n'.tcpConnections j)) ∨
      (j ≠ i ∧ n'.tcpConnections j = n.tcpConnections j) := by
  rw [h]
  by_cases hj : j = i
  · subst hj
    rw [Stack.set_self]
    exact .inl ⟨rfl, hmove⟩
  · exact .inr ⟨hj, Stack.set_of_ne hj⟩

theorem tcpSend_conns {data : Bytes} {len : ℕ} {r : ℤ} (h : tcpSend n i data len = some (r, n')) :
    n'.tcpConnections = n.tcpConnections ∨
      ∃ conn, n'.tcpConnections = (n.set i conn).tcpConnections ∧
        conn.state = (n.tcpConnections i).state ∧ conn.inUse = (n.tcpConnections i).inUse ∧
        (n.tcpConnections i).state = .established := by
  unfold tcpSend at h
  dsimp only at h
  split at h
  · cases h
    exact .inl rfl
  next hstate =>
  split at h
  · cases h
    exact .inl rfl
  split at h
  · exact absurd h (by simp)
  have hest := Classical.not_not.mp hstate
  split at h
  · cases h
    exact .inr ⟨_, Stack.set_last _ (tcpSendPacket_conns _ _ _ _ _), rfl, rfl, hest⟩
  · cases h
    exact .inr ⟨_, tcpSendPacket_conns _ _ _ _ _, rfl, rfl, hest⟩

theorem tcpRecv_conns {len : ℕ} {r : ℤ} {bytes : List UInt8}
    (h : tcpRecv n i len = some (r, bytes, n')) :
    n'.tcpConnections = n.tcpConnections ∨
      ∃ conn, n'.tcpConnections = (n.set i conn).tcpConnections ∧
        conn.state = (n.tcpConnections i).state ∧ conn.inUse = (n.tcpConnections i).inUse ∧
        conn.seq = (n.tcpConnections i).seq ∧ conn.ack = (n.tcpConnections i).ack ∧
        conn.recvLen ≤ (n.tcpConnections i).recvLen := by
  unfold tcpRecv at h
  dsimp only at h
  split at h
  · cases h
    exact .inl rfl
  split at h
  · exact absurd h (by simp)
  obtain ⟨buf, -, h⟩ := Option.bind_eq_some_iff.mp h
  cases h
  exact .inr ⟨_, rfl, rfl, rfl, rfl, rfl, Nat.sub_le _ _⟩

theorem sendFin_conns (n : Stack) (i : Fin maxTcpConnections) (state : TcpState) :
    (sendFin n i state).2.tcpConnections = (n.set i { n.tcpConnections i with
      state := state, seq := (n.tcpConnections i).seq + 1 }).tcpConnections :=
  Stack.set_last _ (tcpSendPacket_conns _ _ _ _ _)

theorem tcpClose_conns (n : Stack) (i : Fin maxTcpConnections) :
    (tcpClose n i).2.tcpConnections = n.tcpConnections ∨
      ∃ conn, (tcpClose n i).2.tcpConnections = (n.set i conn).tcpConnections ∧
        LocalMove isn (n.tcpConnections i) conn := by
  unfold tcpClose
  dsimp only
  split
  · exact .inl rfl
  split
  · next hstate => exact .inr ⟨_, sendFin_conns n i _, .closed (.inl ⟨hstate, rfl⟩) rfl⟩
  · next hstate => exact .inr ⟨_, sendFin_conns n i _, .closed (.inr ⟨hstate, rfl⟩) rfl⟩
  · next hstate => exact .inr ⟨_, rfl, .dropped (.inl hstate) rfl rfl⟩
  · next hstate => exact .inr ⟨_, rfl, .dropped (.inr hstate) rfl rfl⟩
  · exact .inl rfl

theorem tcpConnect_conns (n : Stack) (destIp : UInt32) (destPort : UInt16) :
    ((tcpAllocConnection n).1 = none ∧
        (tcpConnect n destIp destPort).2.tcpConnections = n.tcpConnections) ∨
      ∃ i conn, (tcpAllocConnection n).1 = some i ∧
        (tcpConnect n destIp destPort).2.tcpConnections = (n.set i conn).tcpConnections ∧
        LocalMove (tcpGenerateIsn n).1 (n.tcpConnections i) conn := by
  unfold tcpConnect
  cases hfree : (List.finRange maxTcpConnections).find? fun i => !(n.tcpConnections i).inUse with
  | none =>
    have halloc : tcpAllocConnection n = (none, n) := by
      unfold tcpAllocConnection
      rw [hfree]
    rw [halloc]
    exact .inl ⟨rfl, rfl⟩
  | some i =>
    have huse : (n.tcpConnections i).inUse = false := by simpa using List.find?_some hfree
    obtain ⟨n₁, conn₁, halloc, hconns, hisn, huse₁⟩ : ∃ n₁ conn₁, tcpAllocConnection n = (some i, n₁) ∧
        n₁.tcpConnections = (n.set i conn₁).tcpConnections ∧
        (tcpGenerateIsn n₁).1 = (tcpGenerateIsn n).1 ∧ conn₁.inUse = true := by
      unfold tcpAllocConnection
      rw [hfree]
      exact ⟨_, _, rfl, rfl, rfl, rfl⟩
    rw [halloc]
    refine .inr ?_
    dsimp only
    cases hif : n₁.iface with
    | none =>
      exact ⟨i, _, rfl, Stack.set_last _ hconns, .failed huse rfl⟩
    | some iface =>
      dsimp only
      split
      · exact ⟨i, _, rfl, Stack.set_last _ ((tcpSendPacket_conns _ _ _ _ _).trans (Stack.set_last _ hconns)),
          .failed huse rfl⟩
      · refine ⟨i, _, rfl, Stack.set_last _ ((tcpSendPacket_conns _ _ _ _ _).trans (Stack.set_last _ hconns)),
          .opened huse ?_ rfl ?_⟩
        · show (n₁.tcpConnections i).inUse = true
          rw [hconns, Stack.set_self]
          exact huse₁
        · show (tcpGenerateIsn n₁).1 + 1 = (tcpGenerateIsn n).1 + 1
          rw [hisn]

/-! Runs. -/

inductive TcpCall
  | addInterface (iface : NetInterface)
  | connect (destIp : UInt32) (destPort : UInt16)
  | send (i : Fin maxTcpConnections) (data : Bytes) (len : ℕ)
  | recv (i : Fin maxTcpConnections) (len : ℕ)
  | close (i : Fin maxTcpConnections)
  | segment (srcIp dstIp : UInt32) (tcp : Bytes) (tcpLen : ℕ)

/-- Only the first interface matters here. -/
def Stack.run (n : Stack) : TcpCall → Option Stack
  | .addInterface iface => some { n with iface := some (n.iface.getD iface) }
  | .connect destIp destPort => some (tcpConnect n destIp destPort).2
  | .send i data len => (tcpSend n i data len).map Prod.snd
  | .recv i len => (tcpRecv n i len).map fun r => r.2.2
  | .close i => some (tcpClose n i).2
  | .segment srcIp dstIp tcp tcpLen => tcpHandleSegment n srcIp dstIp tcp tcpLen

/-- The segment that a call hands to the connection at `i`. -/
def TcpCall.segmentFor (n : Stack) (i : Fin maxTcpConnections) : TcpCall → Option Segment
  | .segment srcIp dstIp tcp _ =>
    let s := parseSegment tcp
    if tcpFindConnection n srcIp s.srcPort dstIp s.dstPort = some i then some s else none
  | _ => none

structure Traced where
  net : Stack
  isn : Fin maxTcpConnections → UInt32

/-- `tcp_connect` starts the connection it sets up with the number it generates. -/
def isnAfter (n : Stack) (isn : Fin maxTcpConnections → UInt32) :
    TcpCall → Fin maxTcpConnections → UInt32
  | .connect _ _ =>
    match (tcpAllocConnection n).1 with
    | some i => Function.update isn i (tcpGenerateIsn n).1
    | none => isn
  | _ => isn

def Stack.withMem (n : Stack) (mem : List (Option Bytes)) : Stack := { n with kmalloc := mem }

/-- A call with the results of `kmalloc` it meets. -/
def TcpStep (t : Traced) (x : TcpCall × List (Option Bytes)) (t' : Traced) : Prop :=
  (t.net.withMem x.2).run x.1 = some t'.net ∧ t'.isn = isnAfter (t.net.withMem x.2) t.isn x.1

def freshConnection : TcpConnection where
  localIp := 0
  localPort := 0
  remoteIp := 0
  remotePort := 0
  state := .closed
  seq := 0
  ack := 0
  recvWnd := 0
  sendWnd := 0
  recvBuf := none
  recvLen := 0
  recvCapacity := 0
  sendBuf := none
  sendLen := 0
  sendCapacity := 0
  inUse := false

def boot : Traced where
  net := {
    tcpConnections := fun _ => freshConnection
    nextEphemeralPort := 49152
    tcpIsnCounter := 0x12345678
    iface := none
    arpCache := fun _ => { ip := 0, mac := fun _ => 0, timestamp := 0, valid := false }
    kmalloc := []
    sent := [] }
  isn := fun _ => 0

def SafeStep (t : Traced) (c : TcpCall) (t' : Traced) : Prop :=
  ∀ i, SafeAt (t.net.tcpConnections i) (t'.net.tcpConnections i) (t.isn i) (c.segmentFor t.net i)

def ExpectedCall (n : Stack) (c : TcpCall) : Prop :=
  ∀ i s, c.segmentFor n i = some s → Expected (n.tcpConnections i) s

/-- The SYN takes one sequence number. -/
def IsnInv (t : Traced) : Prop :=
  ∀ i, (t.net.tcpConnections i).inUse = true → (t.net.tcpConnections i).state = .synSent →
    (t.net.tcpConnections i).seq = t.isn i + 1

/-- Every call but a segment is a local move of each connection, with the number it starts with. -/
theorem run_localMove {c : TcpCall} {isn : Fin maxTcpConnections → UInt32}
    (hc : ∀ srcIp dstIp tcp tcpLen, c ≠ .segment srcIp dstIp tcp tcpLen) (h : n.run c = some n')
    (j : Fin maxTcpConnections) :
    LocalMove (isnAfter n isn c j) (n.tcpConnections j) (n'.tcpConnections j) := by
  have hset : ∀ {i : Fin maxTcpConnections} {conn : TcpConnection},
      n'.tcpConnections = (n.set i conn).tcpConnections →
      LocalMove (isnAfter n isn c i) (n.tcpConnections i) conn →
      LocalMove (isnAfter n isn c j) (n.tcpConnections j) (n'.tcpConnections j) := by
    intro i conn heq hmove
    rcases localMove_of_set heq hmove j with ⟨rfl, hj⟩ | ⟨-, hj⟩
    · exact hj
    · rw [hj]
      exact .refl _
  have hsame : n'.tcpConnections = n.tcpConnections →
      LocalMove (isnAfter n isn c j) (n.tcpConnections j) (n'.tcpConnections j) := by
    intro heq
    rw [heq]
    exact .refl _
  cases c with
  | addInterface iface =>
    cases h
    exact .refl _
  | connect destIp destPort =>
    cases h
    rcases tcpConnect_conns n destIp destPort with ⟨-, hconns⟩ | ⟨i, conn, halloc, hconns, hmove⟩
    · exact hsame hconns
    · refine hset hconns ?_
      rw [isnAfter, halloc]
      dsimp only
      rw [Function.update_self]
      exact hmove
  | send i data len =>
    obtain ⟨⟨r, n₁⟩, hsend, rfl⟩ := Option.map_eq_some_iff.mp h
    rcases tcpSend_conns hsend with hconns | ⟨conn, hconns, hstate, huse, hest⟩
    · exact hsame hconns
    · refine hset hconns (.keep hstate huse ?_)
      rw [hest]
      exact fun h => absurd h (by decide)
  | recv i len =>
    obtain ⟨⟨r, bytes, n₁⟩, hrecv, rfl⟩ := Option.map_eq_some_iff.mp h
    rcases tcpRecv_conns hrecv with hconns | ⟨conn, hconns, hstate, huse, hseq, -, -⟩
    · exact hsame hconns
    · exact hset hconns (.keep hstate huse fun _ => hseq)
  | close i =>
    cases h
    rcases tcpClose_conns n i with hconns | ⟨conn, hconns, hmove⟩
    · exact hsame hconns
    · exact hset hconns hmove
  | segment srcIp dstIp tcp tcpLen => exact absurd rfl (hc _ _ _ _)

theorem alloc_free (h : (tcpAllocConnection n).1 = some i) : (n.tcpConnections i).inUse = false := by
  unfold tcpAllocConnection at h
  split at h
  · exact absurd h (by simp)
  · next j hj =>
    obtain rfl := Option.some.inj h
    simpa using List.find?_some hj

theorem isnAfter_of_inUse {c : TcpCall} {isn : Fin maxTcpConnections → UInt32}
    (h : (n.tcpConnections i).inUse = true) : isnAfter n isn c i = isn i := by
  cases c with
  | connect destIp destPort =>
    rw [isnAfter]
    cases hj : (tcpAllocConnection n).1 with
    | none => rfl
    | some j =>
      refine Function.update_of_ne ?_ _ _
      rintro rfl
      rw [alloc_free hj] at h
      exact absurd h (by decide)
  | _ => rfl

theorem isn_localMove {t t' : Traced} {c : TcpCall} {mem : List (Option Bytes)} (ht : IsnInv t)
    (hc : ∀ srcIp dstIp tcp tcpLen, c ≠ .segment srcIp dstIp tcp tcpLen)
    (h : TcpStep t (c, mem) t') : IsnInv t' := by
  obtain ⟨hrun, hisn⟩ := h
  intro j huse' hstate'
  rw [hisn]
  cases run_localMove hc hrun j with
  | keep hstate huse hseq =>
    have hold : (t.net.tcpConnections j).inUse = true := huse.symm.trans huse'
    have hsyn : (t.net.tcpConnections j).state = .synSent := hstate.symm.trans hstate'
    have hmem : ((t.net.withMem mem).tcpConnections j).inUse = true := hold
    rw [isnAfter_of_inUse hmem, hseq hsyn]
    exact ht j hold hsyn
  | opened _ _ _ hseq => exact hseq
  | failed _ huse => exact absurd (huse.symm.trans huse') (by decide)
  | closed hstate _ =>
    rcases hstate with ⟨-, h⟩ | ⟨-, h⟩
    · exact absurd (h.symm.trans hstate') (by decide)
    · exact absurd (h.symm.trans hstate') (by decide)
  | dropped _ huse _ => exact absurd (huse.symm.trans huse') (by decide)

theorem transition_synSent {st : TcpState} (h : (transition s st).1 = .synSent) : st = .synSent := by
  cases st with
  | synSent => rfl
  | established =>
    rw [transition] at h
    split at h <;> exact absurd h (by decide)
  | finWait1 =>
    rw [transition] at h
    split at h <;> split at h <;> exact absurd h (by decide)
  | finWait2 =>
    rw [transition] at h
    split at h <;> exact absurd h (by decide)
  | closing =>
    rw [transition] at h
    split at h <;> exact absurd h (by decide)
  | lastAck =>
    rw [transition] at h
    split at h <;> exact absurd h (by decide)
  | _ => exact absurd h (by simp [transition])

theorem segment_cases {srcIp dstIp : UInt32} {tcp : Bytes} {tcpLen : ℕ}
    (h : n.run (.segment srcIp dstIp tcp tcpLen) = some n') (j : Fin maxTcpConnections) :
    ((TcpCall.segment srcIp dstIp tcp tcpLen).segmentFor n j = none ∧
        n'.tcpConnections j = n.tcpConnections j) ∨
      ((TcpCall.segment srcIp dstIp tcp tcpLen).segmentFor n j = some (parseSegment tcp) ∧
        (n.tcpConnections j).inUse = true ∧
        Moves n j (transition (parseSegment tcp) (n.tcpConnections j).state) n') := by
  rw [TcpCall.segmentFor]
  cases hfind : tcpFindConnection n srcIp (parseSegment tcp).srcPort dstIp (parseSegment tcp).dstPort with
  | none =>
    refine .inl ⟨if_neg (by simp), ?_⟩
    have hn : n' = n := by
      unfold Stack.run tcpHandleSegment at h
      dsimp only at h
      rw [hfind] at h
      exact (Option.some.inj h).symm
    rw [hn]
  | some i =>
    have hmoves := tcpHandleSegment_moves h hfind
    by_cases hj : j = i
    · subst hj
      exact .inr ⟨if_pos rfl, find_inUse hfind, hmoves⟩
    · refine .inl ⟨if_neg ?_, hmoves.others j hj⟩
      exact fun heq => hj (Option.some.inj heq).symm

theorem isn_segment {t t' : Traced} {srcIp dstIp : UInt32} {tcp : Bytes} {tcpLen : ℕ}
    {mem : List (Option Bytes)} (ht : IsnInv t)
    (h : TcpStep t (.segment srcIp dstIp tcp tcpLen, mem) t') : IsnInv t' := by
  obtain ⟨hrun, hisn⟩ := h
  intro j huse' hstate'
  rw [hisn]
  show (t'.net.tcpConnections j).seq = t.isn j + 1
  rcases segment_cases hrun j with ⟨-, hsame⟩ | ⟨-, huse, hmoves⟩
  · rw [hsame] at huse' hstate' ⊢
    exact ht j huse' hstate'
  · rw [hmoves.seq]
    have hsyn := hmoves.state.symm.trans hstate'
    exact ht j huse (transition_synSent hsyn)

theorem isnInv_step (t : Traced) (x : TcpCall × List (Option Bytes)) (t' : Traced) (ht : IsnInv t)
    (h : TcpStep t x t') : IsnInv t' := by
  obtain ⟨c, mem⟩ := x
  by_cases hc : ∃ srcIp dstIp tcp tcpLen, c = .segment srcIp dstIp tcp tcpLen
  · obtain ⟨srcIp, dstIp, tcp, tcpLen, rfl⟩ := hc
    exact isn_segment ht h
  · refine isn_localMove ht ?_ h
    exact fun srcIp dstIp tcp tcpLen heq => hc ⟨srcIp, dstIp, tcp, tcpLen, heq⟩

theorem isnInv_boot : IsnInv boot := fun _ huse _ => absurd huse (by simp [boot, freshConnection])

/-- In every run, the connections change as they should in a step just when a segment, if the step is
one for a connection, is one that the connection expects. -/
theorem step_safe_iff_expected {calls : List (TcpCall × List (Option Bytes))} {t t' : Traced}
    {x : TcpCall × List (Option Bytes)} (hrun : Exec TcpStep boot calls t) (hstep : TcpStep t x t') :
    SafeStep t x.1 t' ↔ ExpectedCall t.net x.1 := by
  have ht : IsnInv t := hrun.invariant isnInv_step isnInv_boot
  obtain ⟨c, mem⟩ := x
  obtain ⟨hc, -⟩ := hstep
  by_cases hseg : ∃ srcIp dstIp tcp tcpLen, c = .segment srcIp dstIp tcp tcpLen
  · obtain ⟨srcIp, dstIp, tcp, tcpLen, rfl⟩ := hseg
    refine forall_congr' fun j => ?_
    rcases segment_cases hc j with ⟨hnone, hsame⟩ | ⟨hsome, huse, hmoves⟩
    · have hnone' : (TcpCall.segment srcIp dstIp tcp tcpLen).segmentFor t.net j = none := hnone
      rw [hnone', hsame]
      exact ⟨fun _ s hs => absurd hs (by simp), fun _ => safeAt_of_unchanged rfl rfl⟩
    · have hsome' : (TcpCall.segment srcIp dstIp tcp tcpLen).segmentFor t.net j =
        some (parseSegment tcp) := hsome
      have hiff : SafeAt (t.net.tcpConnections j) (t'.net.tcpConnections j) (t.isn j)
          (some (parseSegment tcp)) ↔ Expected (t.net.tcpConnections j) (parseSegment tcp) :=
        safeAt_iff_expected huse hmoves.state hmoves.inUse (ht j huse)
      rw [hsome', hiff]
      refine ⟨?_, fun h => h _ rfl⟩
      rintro h s hs
      obtain rfl := Option.some.inj hs
      exact h
  · have hlocal : ∀ srcIp dstIp tcp tcpLen, c ≠ .segment srcIp dstIp tcp tcpLen :=
      fun srcIp dstIp tcp tcpLen heq => hseg ⟨srcIp, dstIp, tcp, tcpLen, heq⟩
    have hnone : ∀ j, c.segmentFor t.net j = none := by
      intro j
      cases c with
      | segment srcIp dstIp tcp tcpLen => exact absurd rfl (hlocal _ _ _ _)
      | _ => rfl
    refine ⟨?_, ?_⟩
    · intro _ j s hs
      rw [show (c, mem).1.segmentFor t.net j = none from hnone j] at hs
      exact absurd hs (by simp)
    · intro _ j
      rw [show (c, mem).1.segmentFor t.net j = none from hnone j]
      exact (@run_localMove _ _ c t.isn hlocal hc j).safeAt _

def sampleIface : NetInterface where
  mac _ := 0
  ip := 1
  send := false

def sampleMem : List (Option Bytes) := [some fun _ => 0, some fun _ => 0, some fun _ => 0]

def synAckBytes (ack : List UInt8) : Bytes := fun k =>
  ([0x00, 0x50, 0xC0, 0x00, 0, 0, 0, 7] ++ ack ++ [0x50, 0x12, 0, 0, 0, 0, 0, 0]).getD k 0

theorem tcpStep_of_run {c : TcpCall} {mem : List (Option Bytes)} (isn : Fin maxTcpConnections → UInt32)
    (h : (n.withMem mem).run c = some n') :
    TcpStep ⟨n, isn⟩ (c, mem) ⟨n', isnAfter (n.withMem mem) isn c⟩ := ⟨h, rfl⟩

theorem step_safe_handshake :
    ∃ t t' : Traced, Exec TcpStep boot [(.addInterface sampleIface, []),
        (.connect 2 80, sampleMem)] t ∧
      TcpStep t (.segment 2 1 (synAckBytes [0x0B, 0x71, 0x91, 0x52]) 20, [some fun _ => 0]) t' ∧
      (t'.net.tcpConnections 0).state = .established ∧
      SafeStep t (.segment 2 1 (synAckBytes [0x0B, 0x71, 0x91, 0x52]) 20) t' := by
  have heval : ((boot.net.withMem []).run (.addInterface sampleIface)).bind (fun n₁ =>
      (n₁.withMem sampleMem).run (.connect 2 80) |>.bind
        fun n₂ => (n₂.withMem [some fun _ => 0]).run
          (.segment 2 1 (synAckBytes [0x0B, 0x71, 0x91, 0x52]) 20) |>.map fun n₃ =>
        (tcpFindConnection n₂ 2 80 1 49152 == some 0) &&
        ((n₂.tcpConnections 0).state == .synSent) && ((n₂.tcpConnections 0).seq == 0x0B719152) &&
        ((n₃.tcpConnections 0).state == .established)) = some true := by decide +kernel
  obtain ⟨n₁, h₁, heval⟩ := Option.bind_eq_some_iff.mp heval
  obtain ⟨n₂, h₂, heval⟩ := Option.bind_eq_some_iff.mp heval
  obtain ⟨n₃, h₃, heval⟩ := Option.map_eq_some_iff.mp heval
  simp only [Bool.and_eq_true, beq_iff_eq] at heval
  obtain ⟨⟨⟨hfind, hstate⟩, hseq⟩, hest⟩ := heval
  have hsyn : (parseSegment (synAckBytes [0x0B, 0x71, 0x91, 0x52])).srcPort = 80 ∧
      (parseSegment (synAckBytes [0x0B, 0x71, 0x91, 0x52])).dstPort = 49152 ∧
      (parseSegment (synAckBytes [0x0B, 0x71, 0x91, 0x52])).ack = 0x0B719152 ∧
      (parseSegment (synAckBytes [0x0B, 0x71, 0x91, 0x52])).has tcpRst = false := by decide +kernel
  obtain ⟨hsrc, hdst, hack, hrst⟩ := hsyn
  have hrun := Exec.cons (tcpStep_of_run boot.isn h₁) (.cons (tcpStep_of_run boot.isn h₂) (.nil _))
  have hstep := tcpStep_of_run (isnAfter (n₁.withMem sampleMem) boot.isn (.connect 2 80)) h₃
  refine ⟨_, _, hrun, hstep, hest, (step_safe_iff_expected hrun hstep).mpr ?_⟩
  intro i s hs
  rw [TcpCall.segmentFor, hsrc, hdst, hfind] at hs
  obtain ⟨rfl, rfl⟩ : i = 0 ∧ parseSegment (synAckBytes [0x0B, 0x71, 0x91, 0x52]) = s := by
    by_cases hi : i = 0
    · rw [hi, if_pos rfl] at hs
      exact ⟨hi, Option.some.inj hs⟩
    · rw [if_neg (fun h => hi (Option.some.inj h).symm)] at hs
      exact absurd hs (by simp)
  refine ⟨fun _ _ => hack.trans hseq.symm, ?_, ?_⟩
  · dsimp only
    rw [hstate]
    simp
  · rw [hrst]
    simp

theorem syn_ack_unchecked :
    ¬ ∀ (calls : List (TcpCall × List (Option Bytes))) (t t' : Traced)
      (x : TcpCall × List (Option Bytes)), Exec TcpStep boot calls t → TcpStep t x t' →
      SafeStep t x.1 t' := by
  have heval : ((boot.net.withMem []).run (.addInterface sampleIface)).bind (fun n₁ =>
      (n₁.withMem sampleMem).run (.connect 2 80) |>.bind
        fun n₂ => (n₂.withMem [some fun _ => 0]).run
          (.segment 2 1 (synAckBytes [0, 0, 0, 0]) 20) |>.map fun n₃ =>
        (tcpFindConnection n₂ 2 80 1 49152 == some 0) && ((n₂.tcpConnections 0).state == .synSent) &&
        (isnAfter (n₁.withMem sampleMem) boot.isn (.connect 2 80) 0 == 0x0B719151) &&
        ((n₃.tcpConnections 0).inUse) && ((n₃.tcpConnections 0).state == .established)) =
      some true := by decide +kernel
  obtain ⟨n₁, h₁, heval⟩ := Option.bind_eq_some_iff.mp heval
  obtain ⟨n₂, h₂, heval⟩ := Option.bind_eq_some_iff.mp heval
  obtain ⟨n₃, h₃, heval⟩ := Option.map_eq_some_iff.mp heval
  simp only [Bool.and_eq_true, beq_iff_eq] at heval
  obtain ⟨⟨⟨⟨hfind, hstate⟩, hisn⟩, huse⟩, hest⟩ := heval
  have hsyn : (parseSegment (synAckBytes [0, 0, 0, 0])).srcPort = 80 ∧
      (parseSegment (synAckBytes [0, 0, 0, 0])).dstPort = 49152 ∧
      (parseSegment (synAckBytes [0, 0, 0, 0])).ack = 0 := by decide +kernel
  obtain ⟨hsrc, hdst, hack⟩ := hsyn
  intro hall
  have hrun := Exec.cons (tcpStep_of_run boot.isn h₁) (.cons (tcpStep_of_run boot.isn h₂) (.nil _))
  have hstep := tcpStep_of_run (isnAfter (n₁.withMem sampleMem) boot.isn (.connect 2 80)) h₃
  have hno : ¬ ((n₂.tcpConnections 0).inUse = true ∧ (n₂.tcpConnections 0).state = .established) := by
    rw [hstate]
    simp
  obtain ⟨s, hs, -, hsack⟩ := (hall _ _ _ _ hrun hstep 0).established hno ⟨huse, hest⟩
  dsimp only at hs hsack
  rw [TcpCall.segmentFor, hsrc, hdst, hfind, if_pos rfl] at hs
  obtain rfl := Option.some.inj hs
  rw [hack, hisn] at hsack
  exact absurd hsack (by decide)

end GcAos.Net
