import GcAos.Net.TcpStates

/-! What an established connection makes of the byte stream of its peer, whose segments the network
may lose, repeat and reorder. -/

namespace GcAos.Net
open Lib

structure Peer where
  isn : UInt32
  stream : List UInt8

/-- `tcp` is a segment that the peer of `conn` sends: the `len` bytes of its stream from `off` on,
with a FIN only behind the last one. -/
structure Peer.Sends (p : Peer) (conn : TcpConnection) (off len : ℕ) (fin : Bool) (tcp : Bytes)
    (tcpLen : ℕ) : Prop where
  srcPort : (parseSegment tcp).srcPort = conn.remotePort
  dstPort : (parseSegment tcp).dstPort = conn.localPort
  seq : (parseSegment tcp).seq = p.isn + 1 + UInt32.ofNat off
  fin_iff : (parseSegment tcp).has tcpFin = fin
  length : tcpLen = (parseSegment tcp).headerLen + len
  size : tcpLen < 2 ^ 64
  inside : off + len ≤ p.stream.length
  last : fin = true → off + len = p.stream.length
  data : ∀ k < len, tcp ((parseSegment tcp).headerLen + k) = p.stream.getD (off + k) 0

structure Receiver where
  net : Stack
  appended : List UInt8

/-- The bytes appended to the buffer when `conn` becomes `conn'`. -/
def newBytes (conn conn' : TcpConnection) : List UInt8 :=
  (List.range (conn'.recvLen - conn.recvLen)).map fun k =>
    (conn'.recvBuf.getD fun _ => 0) (conn.recvLen + k)

/-- The network delivers a segment of the peer, or the host calls `tcp_recv`. -/
inductive StreamAct
  | deliver (off len : ℕ) (fin : Bool) (tcp : Bytes) (tcpLen : ℕ)
  | recv (len : ℕ)

def StreamAct.call (conn : TcpConnection) (i : Fin maxTcpConnections) : StreamAct → TcpCall
  | .deliver _ _ _ tcp tcpLen => .segment conn.remoteIp conn.localIp tcp tcpLen
  | .recv len => .recv i len

variable {p : Peer} {i : Fin maxTcpConnections} {r r' : Receiver}

def StreamStep (p : Peer) (i : Fin maxTcpConnections) (r : Receiver)
    (x : StreamAct × List (Option Bytes)) (r' : Receiver) : Prop :=
  (∀ off len fin tcp tcpLen, x.1 = .deliver off len fin tcp tcpLen →
    p.Sends (r.net.tcpConnections i) off len fin tcp tcpLen) ∧
  (r.net.withMem x.2).run (x.1.call (r.net.tcpConnections i) i) = some r'.net ∧
  r'.appended = r.appended ++ newBytes (r.net.tcpConnections i) (r'.net.tcpConnections i)

/-- A segment that is for the established connection and that it takes data or a FIN from comes in
its turn: data starts at the first byte not yet appended, and the FIN comes when all have been. -/
def InTurnStep (p : Peer) (i : Fin maxTcpConnections) (r : Receiver)
    (x : StreamAct × List (Option Bytes)) (r' : Receiver) : Prop :=
  StreamStep p i r x r' ∧ ∀ off len fin tcp tcpLen, x.1 = .deliver off len fin tcp tcpLen →
    let conn := r.net.tcpConnections i
    tcpFindConnection r.net conn.remoteIp conn.remotePort conn.localIp conn.localPort = some i →
    conn.state = .established →
    (fin = true → r.appended.length = p.stream.length) ∧
    (fin = false → 0 < len → conn.recvLen + len ≤ conn.recvCapacity → off = r.appended.length)

/-- The bytes appended are the first ones of the peer's stream, and they and the FIN, once it has
been processed, are what the connection acknowledges. -/
structure InOrder (p : Peer) (conn : TcpConnection) (appended : List UInt8) : Prop where
  begins : appended <+: p.stream
  ack : conn.ack = p.isn + 1 + UInt32.ofNat appended.length + if conn.state = .closeWait then 1 else 0

theorem newBytes_of_le {conn conn' : TcpConnection} (h : conn'.recvLen ≤ conn.recvLen) :
    newBytes conn conn' = [] := by
  rw [newBytes, Nat.sub_eq_zero_of_le h]
  rfl

theorem InOrder.of_same {conn conn' : TcpConnection} {appended : List UInt8}
    (h : InOrder p conn appended) (hstate : conn'.state = conn.state) (hack : conn'.ack = conn.ack)
    (hlen : conn'.recvLen ≤ conn.recvLen) :
    InOrder p conn' (appended ++ newBytes conn conn') := by
  rw [newBytes_of_le hlen, List.append_nil]
  refine ⟨h.begins, ?_⟩
  rw [hack, hstate]
  exact h.ack

theorem map_range_getD (l : List UInt8) {off len : ℕ} (h : off + len ≤ l.length) :
    (List.range len).map (fun k => l.getD (off + k) 0) = (l.drop off).take len := by
  apply List.ext_getElem
  · rw [List.length_map, List.length_range, List.length_take, List.length_drop]
    omega
  · intro k hk hk'
    rw [List.length_map, List.length_range] at hk
    rw [List.getElem_map, List.getElem_range, List.getElem_take, List.getElem_drop]
    exact (List.getElem_eq_getD 0).symm

theorem prefix_append_take {l l' : List UInt8} (h : l <+: l') (len : ℕ) :
    l ++ (l'.drop l.length).take len <+: l' := by
  obtain ⟨rest, rfl⟩ := h
  rw [List.drop_left]
  exact (List.prefix_append_right_inj l).mpr (List.take_prefix len rest)

variable {conn conn' : TcpConnection} {appended : List UInt8} {off len tcpLen : ℕ} {fin : Bool}
  {tcp : Bytes}

theorem Takes.inOrder (h : Takes conn (parseSegment tcp)
      (fun k => tcp ((parseSegment tcp).headerLen + k)) len conn')
    (hs : p.Sends conn off len fin tcp tcpLen) (ho : InOrder p conn appended)
    (hstate : conn.state = .established) (hfin : fin = true → appended.length = p.stream.length)
    (hdata : fin = false → 0 < len → conn.recvLen + len ≤ conn.recvCapacity →
      off = appended.length) :
    InOrder p conn' (appended ++ newBytes conn conn') ∧
      (conn'.state = .established ∨ conn'.state = .closeWait) := by
  cases h with
  | nothing => exact ⟨ho.of_same rfl rfl le_rfl, .inl hstate⟩
  | fin hf =>
    rw [hs.fin_iff] at hf
    have hnone : newBytes conn { conn with
        ack := (parseSegment tcp).seq + UInt32.ofNat len + 1, state := .closeWait } = [] :=
      newBytes_of_le le_rfl
    rw [hnone, List.append_nil]
    refine ⟨⟨ho.begins, ?_⟩, .inr rfl⟩
    rw [hs.seq, hfin hf, ← hs.last hf, UInt32.ofNat_add]
    simp only [if_true, UInt32.add_assoc]
  | data buf hf hlen hfit =>
    rw [hs.fin_iff] at hf
    obtain rfl := hdata hf hlen hfit
    have hnew : newBytes conn { conn with
        recvBuf := some (buf.blit conn.recvLen len fun k => tcp ((parseSegment tcp).headerLen + k))
        recvLen := conn.recvLen + len
        ack := (parseSegment tcp).seq + UInt32.ofNat len } =
        (p.stream.drop appended.length).take len := by
      rw [newBytes]
      dsimp only [Option.getD_some]
      rw [Nat.add_sub_cancel_left, ← map_range_getD p.stream hs.inside]
      refine List.map_congr_left ?_
      intro k hk
      rw [Bytes.blit_of_mem (List.mem_range.mp hk)]
      exact hs.data k (List.mem_range.mp hk)
    have hlength : ((p.stream.drop appended.length).take len).length = len := by
      rw [List.length_take, List.length_drop]
      have := hs.inside
      omega
    rw [hnew]
    refine ⟨⟨prefix_append_take ho.begins len, ?_⟩, .inl hstate⟩
    rw [List.length_append, hlength, hs.seq, UInt32.ofNat_add]
    dsimp only
    rw [hstate]
    simp only [reduceCtorEq, if_false, UInt32.add_assoc, UInt32.add_zero]

theorem tcpHandleSegment_established {n n' : Stack} {srcIp dstIp : UInt32}
    (hfind : tcpFindConnection n srcIp (parseSegment tcp).srcPort dstIp (parseSegment tcp).dstPort =
      some i) (hstate : (n.tcpConnections i).state = .established)
    (h : tcpHandleSegment n srcIp dstIp tcp tcpLen = some n') :
    ∃ conn', n'.tcpConnections i = conn' ∧ Takes (n.tcpConnections i) (parseSegment tcp)
      (fun k => tcp ((parseSegment tcp).headerLen + k))
      ((tcpLen + 2 ^ 64 - (parseSegment tcp).headerLen) % 2 ^ 64) conn' := by
  unfold tcpHandleSegment at h
  dsimp only at h
  rw [hfind] at h
  dsimp only at h
  rw [hstate] at h
  obtain ⟨conn', hconns, htakes⟩ := handleEstablished_takes h
  exact ⟨conn', by rw [hconns, Stack.set_self], htakes⟩

structure StreamInv (p : Peer) (i : Fin maxTcpConnections) (r : Receiver) : Prop where
  order : InOrder p (r.net.tcpConnections i) r.appended
  state : (r.net.tcpConnections i).state = .established ∨
    (r.net.tcpConnections i).state = .closeWait

theorem StreamInv.of_same (hr : StreamInv p i r)
    (hstate : (r'.net.tcpConnections i).state = (r.net.tcpConnections i).state)
    (hack : (r'.net.tcpConnections i).ack = (r.net.tcpConnections i).ack)
    (hlen : (r'.net.tcpConnections i).recvLen ≤ (r.net.tcpConnections i).recvLen)
    (happ : r'.appended = r.appended ++ newBytes (r.net.tcpConnections i) (r'.net.tcpConnections i)) :
    StreamInv p i r' := by
  refine ⟨?_, by rw [hstate]; exact hr.state⟩
  rw [happ]
  exact hr.order.of_same hstate hack hlen

theorem streamInv_recv {mem : List (Option Bytes)} (hr : StreamInv p i r)
    (hrun : (r.net.withMem mem).run (.recv i len) = some r'.net)
    (happ : r'.appended = r.appended ++ newBytes (r.net.tcpConnections i) (r'.net.tcpConnections i)) :
    StreamInv p i r' := by
  obtain ⟨⟨ret, bytes, n'⟩, hrecv, hn'⟩ := Option.map_eq_some_iff.mp hrun
  obtain rfl : n' = r'.net := hn'
  rcases tcpRecv_conns hrecv with hconns | ⟨conn', hconns, hstate, -, -, hack, hlen⟩
  · refine hr.of_same ?_ ?_ (le_of_eq ?_) happ <;> rw [hconns] <;> rfl
  · refine hr.of_same ?_ ?_ ?_ happ
    · rw [hconns, Stack.set_self]
      exact hstate
    · rw [hconns, Stack.set_self]
      exact hack
    · rw [hconns, Stack.set_self]
      exact hlen

theorem streamInv_deliver {mem : List (Option Bytes)} (hr : StreamInv p i r)
    (hs : p.Sends (r.net.tcpConnections i) off len fin tcp tcpLen)
    (hturn : tcpFindConnection r.net (r.net.tcpConnections i).remoteIp
        (r.net.tcpConnections i).remotePort (r.net.tcpConnections i).localIp
        (r.net.tcpConnections i).localPort = some i →
      (r.net.tcpConnections i).state = .established →
      (fin = true → r.appended.length = p.stream.length) ∧
      (fin = false → 0 < len →
        (r.net.tcpConnections i).recvLen + len ≤ (r.net.tcpConnections i).recvCapacity →
        off = r.appended.length))
    (hrun : (r.net.withMem mem).run (.segment (r.net.tcpConnections i).remoteIp
      (r.net.tcpConnections i).localIp tcp tcpLen) = some r'.net)
    (happ : r'.appended = r.appended ++ newBytes (r.net.tcpConnections i) (r'.net.tcpConnections i)) :
    StreamInv p i r' := by
  rcases segment_cases hrun i with ⟨-, hsame⟩ | ⟨hfor, huse, hmoves⟩
  · refine hr.of_same ?_ ?_ (le_of_eq ?_) happ <;> rw [hsame] <;> rfl
  have hfind : tcpFindConnection (r.net.withMem mem) (r.net.tcpConnections i).remoteIp
      (parseSegment tcp).srcPort (r.net.tcpConnections i).localIp (parseSegment tcp).dstPort =
      some i := by
    rw [TcpCall.segmentFor] at hfor
    by_contra hne
    rw [if_neg hne] at hfor
    exact absurd hfor (by simp)
  rcases hr.state with hest | hcw
  · obtain ⟨conn', hconn', htakes⟩ := tcpHandleSegment_established hfind hest hrun
    have hlen : (tcpLen + 2 ^ 64 - (parseSegment tcp).headerLen) % 2 ^ 64 = len := by
      have := hs.length
      have := hs.size
      omega
    rw [hlen] at htakes
    obtain ⟨hfin, hdata⟩ := hturn (by rw [← hs.srcPort, ← hs.dstPort]; exact hfind) hest
    obtain ⟨horder, hstate⟩ := htakes.inOrder hs hr.order hest hfin hdata
    refine ⟨?_, by rw [hconn']; exact hstate⟩
    rw [happ, hconn']
    exact horder
  · -- nothing is read any more in `TCP_CLOSE_WAIT`
    have hsame : r'.net = r.net.withMem mem := by
      have hstate : ((r.net.withMem mem).tcpConnections i).state = .closeWait := hcw
      unfold Stack.run tcpHandleSegment at hrun
      dsimp only at hrun
      rw [hfind] at hrun
      dsimp only at hrun
      rw [hstate] at hrun
      exact (Option.some.inj hrun).symm
    refine hr.of_same ?_ ?_ (le_of_eq ?_) happ <;> rw [hsame] <;> rfl

theorem streamInv_step (r : Receiver) (x : StreamAct × List (Option Bytes)) (r' : Receiver)
    (hr : StreamInv p i r) (h : InTurnStep p i r x r') : StreamInv p i r' := by
  obtain ⟨act, mem⟩ := x
  obtain ⟨⟨hsends, hrun, happ⟩, hturn⟩ := h
  cases act with
  | deliver off len fin tcp tcpLen =>
    exact streamInv_deliver hr (hsends _ _ _ _ _ rfl) (hturn _ _ _ _ _ rfl) hrun happ
  | recv len => exact streamInv_recv hr hrun happ

/-- Whatever is lost or repeated, as long as the segments that an established connection takes
anything from come in their turn. -/
theorem stream_in_order {r₀ : Receiver} {acts : List (StreamAct × List (Option Bytes))}
    (hstate : (r₀.net.tcpConnections i).state = .established)
    (hack : (r₀.net.tcpConnections i).ack = p.isn + 1) (hempty : r₀.appended = [])
    (hrun : Exec (InTurnStep p i) r₀ acts r) : InOrder p (r.net.tcpConnections i) r.appended := by
  refine (hrun.invariant streamInv_step ⟨⟨?_, ?_⟩, .inl hstate⟩).order
  · rw [hempty]
    exact List.nil_prefix
  · rw [hempty, hack, hstate]
    simp

def sampleConn : TcpConnection where
  localIp := 1
  localPort := 49152
  remoteIp := 2
  remotePort := 80
  state := .established
  seq := 100
  ack := 8
  recvWnd := 65535
  sendWnd := 65535
  recvBuf := some fun _ => 0
  recvLen := 0
  recvCapacity := 65536
  sendBuf := some fun _ => 0
  sendLen := 0
  sendCapacity := 65536
  inUse := true

/-- Its peer has started with 7 and sends "ab". -/
def samplePeer : Peer where
  isn := 7
  stream := [0x61, 0x62]

def sampleReceiver : Receiver where
  net := boot.net.set 0 sampleConn
  appended := []

def dataBytes (seq : UInt8) (flags : UInt8) (data : List UInt8) : Bytes := fun k =>
  ([0x00, 0x50, 0xC0, 0x00, 0, 0, 0, seq, 0, 0, 0, 100, 0x50, flags, 0, 0, 0, 0, 0, 0] ++ data).getD k 0

theorem samplePeer_sends {off len : ℕ} {fin : Bool} {seq flags : UInt8} {data : List UInt8}
    (hports : (parseSegment (dataBytes seq flags data)).srcPort = 80 ∧
      (parseSegment (dataBytes seq flags data)).dstPort = 49152 ∧
      (parseSegment (dataBytes seq flags data)).seq = 7 + 1 + UInt32.ofNat off ∧
      (parseSegment (dataBytes seq flags data)).has tcpFin = fin ∧
      (parseSegment (dataBytes seq flags data)).headerLen = 20)
    (hsize : 20 + len < 2 ^ 64) (hlen : off + len ≤ 2) (hfin : fin = true → off + len = 2)
    (hdata : ∀ k < len, dataBytes seq flags data (20 + k) = [0x61, 0x62].getD (off + k) 0)
    {conn : TcpConnection} (hrem : conn.remotePort = 80) (hloc : conn.localPort = 49152) :
    samplePeer.Sends conn off len fin (dataBytes seq flags data) (20 + len) := by
  obtain ⟨hsrc, hdst, hseq, hf, hhdr⟩ := hports
  exact ⟨hsrc.trans hrem.symm, hdst.trans hloc.symm, hseq, hf, by rw [hhdr], hsize, hlen, hfin,
    by rw [hhdr]; exact hdata⟩

theorem stream_in_order_ab :
    ∃ r, Exec (InTurnStep samplePeer 0) sampleReceiver
      [(.deliver 0 2 false (dataBytes 8 0x18 [0x61, 0x62]) (20 + 2), []), (.recv 1, []),
        (.deliver 2 0 true (dataBytes 10 0x11 []) (20 + 0), [])] r ∧
      (r.net.tcpConnections 0).state = .closeWait ∧ r.appended = [0x61, 0x62] ∧
      InOrder samplePeer (r.net.tcpConnections 0) r.appended := by
  have heval : ((sampleReceiver.net.withMem []).run
      (.segment 2 1 (dataBytes 8 0x18 [0x61, 0x62]) (20 + 2))).bind (fun n₁ =>
        (n₁.withMem []).run (.recv 0 1) |>.bind fun n₂ =>
        (n₂.withMem []).run (.segment 2 1 (dataBytes 10 0x11 []) (20 + 0)) |>.map fun n₃ =>
          (newBytes (sampleReceiver.net.tcpConnections 0) (n₁.tcpConnections 0) == [0x61, 0x62]) &&
          (newBytes (n₁.tcpConnections 0) (n₂.tcpConnections 0) == []) &&
          (newBytes (n₂.tcpConnections 0) (n₃.tcpConnections 0) == []) &&
          ((n₂.tcpConnections 0).remoteIp == 2) && ((n₂.tcpConnections 0).localIp == 1) &&
          ((n₂.tcpConnections 0).remotePort == 80) && ((n₂.tcpConnections 0).localPort == 49152) &&
          ((n₃.tcpConnections 0).state == .closeWait)) = some true := by decide +kernel
  obtain ⟨n₁, h₁, heval⟩ := Option.bind_eq_some_iff.mp heval
  obtain ⟨n₂, h₂, heval⟩ := Option.bind_eq_some_iff.mp heval
  obtain ⟨n₃, h₃, heval⟩ := Option.map_eq_some_iff.mp heval
  simp only [Bool.and_eq_true, beq_iff_eq] at heval
  obtain ⟨⟨⟨⟨⟨⟨⟨hb₁, hb₂⟩, hb₃⟩, hrip⟩, hlip⟩, hrport⟩, hlport⟩, hstate⟩ := heval
  have hstep₁ : InTurnStep samplePeer 0 sampleReceiver
      (.deliver 0 2 false (dataBytes 8 0x18 [0x61, 0x62]) (20 + 2), []) ⟨n₁, [0x61, 0x62]⟩ := by
    refine ⟨⟨?_, h₁, by rw [hb₁]; rfl⟩, ?_⟩
    · intro off len fin tcp tcpLen h
      cases h
      exact samplePeer_sends (by decide +kernel) (by decide) (by decide) (by decide) (by decide) rfl rfl
    · intro off len fin tcp tcpLen h
      cases h
      exact fun _ _ => ⟨fun h => absurd h (by decide), fun _ _ _ => rfl⟩
  have hstep₂ : InTurnStep samplePeer 0 ⟨n₁, [0x61, 0x62]⟩ (.recv 1, []) ⟨n₂, [0x61, 0x62]⟩ := by
    refine ⟨⟨?_, h₂, by rw [hb₂]; rfl⟩, ?_⟩
    · intro off len fin tcp tcpLen h
      cases h
    · intro off len fin tcp tcpLen h
      cases h
  have hstep₃ : InTurnStep samplePeer 0 ⟨n₂, [0x61, 0x62]⟩
      (.deliver 2 0 true (dataBytes 10 0x11 []) (20 + 0), []) ⟨n₃, [0x61, 0x62]⟩ := by
    refine ⟨⟨?_, ?_, by rw [hb₃]; rfl⟩, ?_⟩
    · intro off len fin tcp tcpLen h
      cases h
      exact samplePeer_sends (by decide +kernel) (by decide) (by decide) (by decide) (by decide)
        hrport hlport
    · rw [StreamAct.call, hrip, hlip]
      exact h₃
    · intro off len fin tcp tcpLen h
      cases h
      exact fun _ _ => ⟨fun _ => rfl, fun h => absurd h (by decide)⟩
  have hrun := Exec.cons hstep₁ (.cons hstep₂ (.cons hstep₃ (.nil _)))
  exact ⟨_, hrun, hstate, rfl, stream_in_order rfl rfl rfl hrun⟩

theorem segment_order_unchecked :
    ¬ ∀ (p : Peer) (i : Fin maxTcpConnections) (r₀ r : Receiver)
      (acts : List (StreamAct × List (Option Bytes))),
      (r₀.net.tcpConnections i).state = .established →
      (r₀.net.tcpConnections i).ack = p.isn + 1 → r₀.appended = [] →
      Exec (StreamStep p i) r₀ acts r → InOrder p (r.net.tcpConnections i) r.appended := by
  have heval : ((sampleReceiver.net.withMem []).run
      (.segment 2 1 (dataBytes 9 0x18 [0x62]) (20 + 1))).map (fun n₁ =>
        newBytes (sampleReceiver.net.tcpConnections 0) (n₁.tcpConnections 0) == [0x62]) =
      some true := by decide +kernel
  obtain ⟨n₁, h₁, heval⟩ := Option.map_eq_some_iff.mp heval
  have hb₁ := beq_iff_eq.mp heval
  intro hall
  have hstep : StreamStep samplePeer 0 sampleReceiver
      (.deliver 1 1 false (dataBytes 9 0x18 [0x62]) (20 + 1), []) ⟨n₁, [0x62]⟩ := by
    refine ⟨?_, h₁, by rw [hb₁]; rfl⟩
    intro off len fin tcp tcpLen h
    cases h
    exact samplePeer_sends (by decide +kernel) (by decide) (by decide) (by decide) (by decide) rfl rfl
  have hbad : [0x62] <+: samplePeer.stream :=
    (hall _ _ _ _ _ rfl rfl rfl (.cons hstep (.nil _))).begins
  exact absurd hbad (by decide)

end GcAos.Net
