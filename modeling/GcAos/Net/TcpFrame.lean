import GcAos.Net.TcpStream

/-! The frames of `tcp_send`, read by the `net_rx` of the peer. -/

namespace GcAos.Net
open Lib Layout

variable {packet data : Bytes} {iface : NetInterface} {conn : TcpConnection} {flags : UInt8} {len : ℕ}

theorem htons_htons (x : UInt16) : htons (htons x) = x := by
  apply UInt16.toBitVec_inj.mp
  apply BitVec.eq_of_getLsbD_eq
  intro i hi
  unfold htons
  interval_cases i <;> simp

theorem htonl_htonl (x : UInt32) : htonl (htonl x) = x := by
  apply UInt32.toBitVec_inj.mp
  apply BitVec.eq_of_getLsbD_eq
  intro i hi
  unfold htonl
  interval_cases i <;> simp

theorem ntohs_load (x : UInt16) : ntohs (UInt16.ofNat ((htons x).toNat % 256 ^ 2)) = x := by
  have hlt : (htons x).toNat < 256 ^ 2 := (htons x).toNat_lt
  rw [Nat.mod_eq_of_lt hlt, UInt16.ofNat_toNat]
  exact htons_htons x

theorem ntohl_load (x : UInt32) : ntohl (UInt32.ofNat ((htonl x).toNat % 256 ^ 4)) = x := by
  have hlt : (htonl x).toNat < 256 ^ 4 := (htonl x).toNat_lt
  rw [Nat.mod_eq_of_lt hlt, UInt32.ofNat_toNat]
  exact htonl_htonl x

theorem ofNat_load (x : UInt32) : UInt32.ofNat (x.toNat % 256 ^ 4) = x := by
  have hlt : x.toNat < 256 ^ 4 := x.toNat_lt
  rw [Nat.mod_eq_of_lt hlt, UInt32.ofNat_toNat]

/-! The fields of a frame. -/

theorem get_copyPayload {F : Type*} {L : Layout F} {a : ℕ} {payload : Option Bytes} (g : F)
    (h : a + L.size ≤ ethHlen + ipHdr.size + tcpHdr.size) :
    L.get (copyPayload packet payload len) a g = L.get packet a g := by
  cases payload with
  | none => rfl
  | some data => exact get_blit_of_apart (.inr h)

theorem packet_below {F : Type*} {L : Layout F} {a : ℕ} (g : F)
    (h : a + L.size ≤ ethHlen + ipHdr.size) :
    L.get (tcpPacket packet iface conn flags (some data) len) a g =
      L.get (buildIp (buildEth packet iface) conn (tcpHdr.size + len)) a g := by
  have hpay : a + L.size ≤ ethHlen + ipHdr.size + tcpHdr.size := h.trans (Nat.le_add_right _ _)
  unfold tcpPacket
  dsimp only
  rw [get_set_of_other (.inr h), get_copyPayload _ hpay]
  unfold buildTcp
  dsimp only
  simp only [get_set_of_other (Or.inr h)]

theorem packet_type : ethHdr.get (tcpPacket packet iface conn flags (some data) len) 0 .type =
    (htons ethPIp).toNat % 256 ^ 2 := by
  have hip : 0 + ethHdr.size ≤ ethHlen := le_rfl
  rw [packet_below _ (by decide)]
  unfold buildIp
  dsimp only
  simp only [get_set_of_other (Or.inr hip)]
  unfold buildEth
  dsimp only
  refine (Bytes.load_blit_of_apart (.inl (by decide))).trans ?_
  refine (Bytes.load_blit_of_apart (.inl (by decide))).trans ?_
  exact get_set_self

theorem packet_ip :
    ipHdr.get (tcpPacket packet iface conn flags (some data) len) ethHlen .versionIhl = 0x45 ∧
    ipHdr.get (tcpPacket packet iface conn flags (some data) len) ethHlen .totalLen =
      (htons (UInt16.ofNat (ipHdr.size + (tcpHdr.size + len)))).toNat % 256 ^ 2 ∧
    ipHdr.get (tcpPacket packet iface conn flags (some data) len) ethHlen .protocol = ipProtoTcp ∧
    ipHdr.get (tcpPacket packet iface conn flags (some data) len) ethHlen .srcIp =
      conn.localIp.toNat % 256 ^ 4 ∧
    ipHdr.get (tcpPacket packet iface conn flags (some data) len) ethHlen .dstIp =
      conn.remoteIp.toNat % 256 ^ 4 := by
  have hip : ethHlen + ipHdr.size ≤ ethHlen + ipHdr.size := le_rfl
  simp only [packet_below _ hip]
  unfold buildIp
  dsimp only
  simp (disch := decide) only [get_set_self, get_set_of_field_ne]
  exact ⟨rfl, rfl, rfl, rfl, rfl⟩

theorem packet_tcp (payload : Option Bytes) :
    parseSegment (fun k => tcpPacket packet iface conn flags payload len (ethHlen + ipHdr.size + k)) =
      { srcPort := conn.localPort, dstPort := conn.remotePort, seq := conn.seq, ack := conn.ack,
        flags := flags, headerLen := 20 } := by
  have hpay : ethHlen + ipHdr.size + tcpHdr.size ≤ ethHlen + ipHdr.size + tcpHdr.size := le_rfl
  unfold parseSegment
  simp only [get_shift]
  unfold tcpPacket
  dsimp only
  simp (disch := decide) only [get_set_of_field_ne, get_copyPayload _ hpay]
  unfold buildTcp
  dsimp only
  simp (disch := decide) only [get_set_self, get_set_of_field_ne]
  rw [Segment.mk.injEq]
  refine ⟨ntohs_load _, ntohs_load _, ntohl_load _, ntohl_load _, ?_, rfl⟩
  have hlt : flags.toNat < 256 ^ 1 := flags.toNat_lt
  show UInt8.ofNat (flags.toNat % 256 ^ 1) = flags
  rw [Nat.mod_eq_of_lt hlt, UInt8.ofNat_toNat]

theorem packet_data {k : ℕ} (hk : k < len) :
    tcpPacket packet iface conn flags (some data) len (ethHlen + ipHdr.size + (20 + k)) = data k := by
  unfold tcpPacket
  have hout : ∀ (m : Bytes) (v : ℕ),
      tcpHdr.set m (ethHlen + ipHdr.size) .checksum v (ethHlen + ipHdr.size + (20 + k)) =
        m (ethHlen + ipHdr.size + (20 + k)) := by
    intro m v
    unfold Layout.set Bytes.store
    refine Bytes.blit_of_le ?_
    show 34 + 16 + 2 ≤ 34 + (20 + k)
    omega
  rw [hout, copyPayload, ← Nat.add_assoc]
  exact Bytes.blit_of_mem hk

/-- The length in the IP header has 16 bits; the length of the segment comes from it. -/
def payloadLen (len : ℕ) : ℕ := ((40 + len) % 2 ^ 16 + 2 ^ 64 - 20) % 2 ^ 64

theorem netRx_packet (m : Stack) (rx : NetInterface) :
    netRx m rx (tcpPacket packet iface conn flags (some data) len)
        (ethHlen + ipHdr.size + (tcpHdr.size + len)) =
      tcpHandleSegment m conn.localIp conn.remoteIp
        (fun k => tcpPacket packet iface conn flags (some data) len (ethHlen + ipHdr.size + k))
        (payloadLen len) := by
  obtain ⟨hver, hlen, hproto, hsrc, hdst⟩ := @packet_ip packet data iface conn flags len
  have htotal : (ntohs (UInt16.ofNat
      ((htons (UInt16.ofNat (ipHdr.size + (tcpHdr.size + len)))).toNat % 256 ^ 2))).toNat =
      (40 + len) % 2 ^ 16 := by
    rw [ntohs_load, UInt16.toNat_ofNat']
    show (20 + (20 + len)) % 2 ^ 16 = (40 + len) % 2 ^ 16
    rw [← Nat.add_assoc]
  unfold netRx
  rw [if_neg (by simp only [ethHlen, ipHdr, tcpHdr, ethHdr]; omega)]
  dsimp only
  rw [packet_type, ntohs_load, if_neg (by decide), if_pos rfl,
    if_pos (by simp only [ethHlen, ipHdr, tcpHdr]; omega)]
  unfold ipHandle
  simp only [get_shift, hver, hlen, hproto, hsrc, hdst, htotal, ofNat_load]
  have hhlen : (69 &&& 15) * 4 = ipHdr.size := by decide
  rw [if_neg (by decide), if_neg (by simp only [ethHlen, ipHdr, tcpHdr]; omega), if_pos trivial, hhlen]
  simp only [Nat.add_assoc]
  rfl

/-! Sending and receiving. -/

variable {n n' m m' : Stack} {i j : Fin maxTcpConnections}

theorem tcpSendPacket_sent (n : Stack) (conn : TcpConnection) (flags : UInt8)
    (payload : Option Bytes) (len : ℕ) :
    (tcpSendPacket n conn flags payload len).2.sent = n.sent ∨
      ∃ packet iface, (tcpSendPacket n conn flags payload len).2.sent =
        (tcpPacket packet iface conn flags payload len, ethHlen + ipHdr.size + (tcpHdr.size + len)) ::
          n.sent := by
  unfold tcpSendPacket
  split
  · exact .inl rfl
  next iface _ =>
  dsimp only
  split
  · next n₁ halloc =>
    rw [← (Prod.mk.inj halloc).2]
    exact .inl rfl
  · next packet n₁ halloc =>
    rw [← (Prod.mk.inj halloc).2]
    dsimp only [Stack.transmit]
    split
    · exact .inr ⟨packet, iface, rfl⟩
    · exact .inl rfl

theorem tcpSend_frame {r : ℤ} {frame : Bytes} {frameLen : ℕ} (h : tcpSend n i data len = some (r, n'))
    (hsent : n'.sent = (frame, frameLen) :: n.sent) :
    ∃ packet iface sendBuf sendLen, frame = tcpPacket packet iface
        { n.tcpConnections i with sendBuf := sendBuf, sendLen := sendLen } (tcpPsh ||| tcpAck) (some data)
        len ∧
      frameLen = ethHlen + ipHdr.size + (tcpHdr.size + len) := by
  have hne : n.sent ≠ (frame, frameLen) :: n.sent := (List.cons_ne_self _ _).symm
  unfold tcpSend at h
  dsimp only at h
  split at h
  · cases h
    exact absurd hsent hne
  split at h
  · cases h
    exact absurd hsent hne
  split at h
  · exact absurd h (by simp)
  obtain ⟨sendBuf, hbuf⟩ : ∃ sendBuf, sendBuf = (n.tcpConnections i).sendBuf.map fun buf =>
    buf.blit (n.tcpConnections i).sendLen len data := ⟨_, rfl⟩
  obtain ⟨c, hc⟩ : ∃ c : TcpConnection, c = { n.tcpConnections i with
      sendBuf := sendBuf, sendLen := (n.tcpConnections i).sendLen + len } := ⟨_, rfl⟩
  rw [← hbuf, ← hc] at h
  have hn' : n'.sent = (tcpSendPacket (n.set i c) c (tcpPsh ||| tcpAck) (some data) len).2.sent := by
    split at h
    · cases h
      rfl
    · cases h
      rfl
  rw [hn'] at hsent
  rcases tcpSendPacket_sent (n.set i c) c (tcpPsh ||| tcpAck) (some data) len with
    hsame | ⟨packet, iface, hnew⟩
  · rw [hsame] at hsent
    exact absurd hsent hne
  · rw [hnew] at hsent
    obtain ⟨hframe, -⟩ := List.cons.inj hsent
    obtain ⟨rfl, rfl⟩ := Prod.mk.inj hframe
    rw [hc]
    exact ⟨packet, iface, _, _, rfl, rfl⟩

/-- `c` is in use with the addresses and the ports of `d`. -/
def SameTuple (c d : TcpConnection) : Prop :=
  c.inUse = true ∧ c.remoteIp = d.remoteIp ∧ c.remotePort = d.remotePort ∧ c.localIp = d.localIp ∧
    c.localPort = d.localPort

/-- `d` is the other end of `c` and has room for `len` bytes in the buffer that
`tcp_alloc_connection` gives it. -/
structure Mirrors (c d : TcpConnection) (len : ℕ) : Prop where
  inUse : d.inUse = true
  state : d.state = .established
  localIp : d.localIp = c.remoteIp
  localPort : d.localPort = c.remotePort
  remoteIp : d.remoteIp = c.localIp
  remotePort : d.remotePort = c.localPort
  buf : d.recvBuf ≠ none
  capacity : d.recvCapacity = 65536
  room : d.recvLen + len ≤ d.recvCapacity

def TcpConnection.received (conn : TcpConnection) : List UInt8 :=
  (List.range conn.recvLen).map (conn.recvBuf.getD fun _ => 0)

/-- The connection `j` is the one chosen for the frame of `c`; the `len` bytes of `data` are appended
to its buffer, and what it acknowledges ends with them. -/
structure Delivered (m : Stack) (j : Fin maxTcpConnections) (c : TcpConnection) (data : Bytes)
    (len : ℕ) (m' : Stack) : Prop where
  selects : tcpFindConnection m c.localIp c.localPort c.remoteIp c.remotePort = some j
  others : ∀ k, k ≠ j → m'.tcpConnections k = m.tcpConnections k
  appended : (m'.tcpConnections j).received =
    (m.tcpConnections j).received ++ (List.range len).map data
  ack : (m'.tcpConnections j).ack = c.seq + UInt32.ofNat len
  answer : ∀ frame frameLen, m'.sent = (frame, frameLen) :: m.sent →
    (parseSegment fun k => frame (ethHlen + ipHdr.size + k)).ack = c.seq + UInt32.ofNat len

theorem tcpFindConnection_iff {d : TcpConnection} :
    tcpFindConnection m d.remoteIp d.remotePort d.localIp d.localPort = some j ↔
      SameTuple (m.tcpConnections j) d ∧ ∀ k < j, ¬ SameTuple (m.tcpConnections k) d := by
  have hsame : ∀ k, ((m.tcpConnections k).inUse && ((m.tcpConnections k).remoteIp == d.remoteIp) &&
      ((m.tcpConnections k).remotePort == d.remotePort) &&
      ((m.tcpConnections k).localIp == d.localIp) &&
      ((m.tcpConnections k).localPort == d.localPort)) = true ↔
      SameTuple (m.tcpConnections k) d := by
    intro k
    simp only [SameTuple, Bool.and_eq_true, beq_iff_eq, and_assoc]
  unfold tcpFindConnection
  rw [List.find?_eq_some_iff_getElem]
  dsimp only
  rw [hsame]
  refine and_congr_right fun _ => ⟨?_, ?_⟩
  · rintro ⟨a, ha, hj, hbefore⟩ k hk
    rw [List.getElem_finRange] at hj
    have hka : k.val < a := by
      rw [← hj] at hk
      exact hk
    have hno := hbefore k.val hka
    rw [List.getElem_finRange] at hno
    intro hyes
    rw [← hsame] at hyes
    exact absurd hno (by simpa using hyes)
  · intro hbefore
    refine ⟨j.val, by rw [List.length_finRange]; exact j.isLt, by rw [List.getElem_finRange]; rfl, ?_⟩
    intro k hk
    rw [List.getElem_finRange, Bool.not_eq_true', ← Bool.not_eq_true, hsame]
    exact hbefore _ hk

/-- The number of bytes that the receiver takes for the data of a frame with `len` bytes. -/
def dataLen (len : ℕ) : ℕ := (payloadLen len + 2 ^ 64 - 20) % 2 ^ 64

theorem dataLen_eq_iff (h : len ≤ 65536) : dataLen len = len ↔ len ≤ 65495 := by
  unfold dataLen payloadLen
  omega

theorem netRx_selected {rx : NetInterface} (hstate : (m.tcpConnections j).state = .established)
    (hfind : tcpFindConnection m conn.localIp conn.localPort conn.remoteIp conn.remotePort = some j) :
    netRx m rx (tcpPacket packet iface conn flags (some data) len)
        (ethHlen + ipHdr.size + (tcpHdr.size + len)) =
      handleEstablished m j
        { srcPort := conn.localPort, dstPort := conn.remotePort, seq := conn.seq, ack := conn.ack,
          flags := flags, headerLen := 20 }
        (fun k => tcpPacket packet iface conn flags (some data) len (ethHlen + ipHdr.size + (20 + k)))
        (dataLen len) := by
  rw [netRx_packet]
  unfold tcpHandleSegment
  dsimp only
  rw [packet_tcp]
  dsimp only
  rw [hfind]
  dsimp only
  rw [hstate]
  rfl

theorem length_received (conn : TcpConnection) : conn.received.length = conn.recvLen := by
  rw [TcpConnection.received, List.length_map, List.length_range]

theorem received_append {buf : Bytes} {d : TcpConnection} (hbuf : d.recvBuf = some buf) (src : Bytes)
    (ack : UInt32) :
    ({ d with
      recvBuf := some (buf.blit d.recvLen len src)
      recvLen := d.recvLen + len
      ack := ack } : TcpConnection).received = d.received ++ (List.range len).map src := by
  unfold TcpConnection.received
  dsimp only
  rw [hbuf, Option.getD_some, Option.getD_some, List.range_add, List.map_append, List.map_map]
  congr 1
  · refine List.map_congr_left fun k hk => ?_
    exact Bytes.blit_of_lt (List.mem_range.mp hk)
  · refine List.map_congr_left fun k hk => ?_
    exact Bytes.blit_of_mem (List.mem_range.mp hk)

theorem sendAck_answer {d : TcpConnection} {frame : Bytes} {frameLen : ℕ}
    (h : (sendAck m j d).sent = (frame, frameLen) :: m.sent) :
    (parseSegment fun k => frame (ethHlen + ipHdr.size + k)).ack = d.ack := by
  unfold sendAck at h
  rcases tcpSendPacket_sent (m.set j d) d tcpAck none 0 with hsame | ⟨packet, iface, hnew⟩
  · rw [hsame] at h
    exact absurd h.symm (List.cons_ne_self _ _)
  · rw [hnew] at h
    obtain ⟨hframe, -⟩ := List.cons.inj h
    obtain ⟨rfl, -⟩ := Prod.mk.inj hframe
    rw [packet_tcp]

theorem handleEstablished_fits {s : Segment} {buf : Bytes} {src : Bytes}
    (hfin : s.has tcpFin = false) (hlen : 0 < len) (hbuf : (m.tcpConnections j).recvBuf = some buf)
    (hroom : (m.tcpConnections j).recvLen + len ≤ (m.tcpConnections j).recvCapacity)
    (hcap : (m.tcpConnections j).recvCapacity < 2 ^ 64) :
    handleEstablished m j s src len = some (sendAck m j { m.tcpConnections j with
      recvBuf := some (buf.blit (m.tcpConnections j).recvLen len src)
      recvLen := (m.tcpConnections j).recvLen + len
      ack := s.seq + UInt32.ofNat len }) := by
  unfold handleEstablished
  dsimp only
  rw [hfin, if_neg (by decide), if_pos hlen, Nat.mod_eq_of_lt (hroom.trans_lt hcap), if_pos hroom, hbuf,
    Option.bind_eq_bind, Option.bind_some, if_neg (Nat.not_lt.mpr hroom)]

theorem handleEstablished_empty {s : Segment} {src : Bytes} (hfin : s.has tcpFin = false) :
    handleEstablished m j s src 0 = some m := by
  unfold handleEstablished
  dsimp only
  rw [hfin, if_neg (by decide), if_neg (Nat.lt_irrefl 0)]

theorem packet_delivered_iff {rx : NetInterface} (hm : Mirrors conn (m.tcpConnections j) len) :
    (∃ m', netRx m rx (tcpPacket packet iface conn (tcpPsh ||| tcpAck) (some data) len)
        (ethHlen + ipHdr.size + (tcpHdr.size + len)) = some m' ∧ Delivered m j conn data len m') ↔
      (∀ k < j, ¬ SameTuple (m.tcpConnections k) (m.tcpConnections j)) ∧
      (0 < len ∧ len ≤ 65495 ∨ len = 0 ∧ (m.tcpConnections j).ack = conn.seq) := by
  have hmax : len ≤ 65536 := by
    have := hm.room
    rw [hm.capacity] at this
    omega
  have hself : SameTuple (m.tcpConnections j) (m.tcpConnections j) := ⟨hm.inUse, rfl, rfl, rfl, rfl⟩
  have hfirst : tcpFindConnection m conn.localIp conn.localPort conn.remoteIp conn.remotePort = some j ↔
      ∀ k < j, ¬ SameTuple (m.tcpConnections k) (m.tcpConnections j) := by
    rw [← hm.remoteIp, ← hm.remotePort, ← hm.localIp, ← hm.localPort, tcpFindConnection_iff]
    exact and_iff_right hself
  have hfin : ∀ s : Segment, s.flags = tcpPsh ||| tcpAck → s.has tcpFin = false := by
    intro s hs
    rw [Segment.has, hs]
    decide
  constructor
  · rintro ⟨m', hrx, hd⟩
    refine ⟨hfirst.mp hd.selects, ?_⟩
    rw [netRx_selected hm.state hd.selects] at hrx
    obtain ⟨d', hconns, htakes⟩ := handleEstablished_takes hrx
    have hd' : m'.tcpConnections j = d' := by rw [hconns, Stack.set_self]
    have hlen : d'.recvLen = (m.tcpConnections j).recvLen + len := by
      rw [← length_received, ← hd', hd.appended, List.length_append, length_received, List.length_map,
        List.length_range]
    have hack := hd.ack
    rw [hd'] at hack
    cases htakes with
    | nothing _ _ =>
      have hzero : len = 0 := Nat.left_eq_add.mp hlen
      refine .inr ⟨hzero, ?_⟩
      rw [hack, hzero]
      exact UInt32.add_zero _
    | fin hyes => exact absurd hyes (by rw [hfin _ rfl]; decide)
    | data buf _ hpos _ =>
      have heq : dataLen len = len := Nat.add_left_cancel hlen
      exact .inl ⟨heq ▸ hpos, (dataLen_eq_iff hmax).mp heq⟩
  · rintro ⟨hbefore, hlen⟩
    have hfind := hfirst.mpr hbefore
    rw [netRx_selected hm.state hfind]
    rcases hlen with ⟨hpos, hmax'⟩ | ⟨rfl, hack⟩
    · obtain ⟨buf, hbuf⟩ := Option.ne_none_iff_exists'.mp hm.buf
      have hcap : (m.tcpConnections j).recvCapacity < 2 ^ 64 := by
        rw [hm.capacity]
        decide
      rw [(dataLen_eq_iff hmax).mpr hmax', handleEstablished_fits (hfin _ rfl) hpos hbuf hm.room hcap]
      refine ⟨_, rfl, hfind, ?_, ?_, ?_, ?_⟩
      · intro k hk
        rw [sendAck_conns, Stack.set_of_ne hk]
      · rw [sendAck_conns, Stack.set_self, received_append hbuf]
        refine congrArg _ (List.map_congr_left fun k hk => ?_)
        exact packet_data (List.mem_range.mp hk)
      · rw [sendAck_conns, Stack.set_self]
      · intro frame frameLen hanswer
        exact sendAck_answer hanswer
    · have hzero : dataLen 0 = 0 := (dataLen_eq_iff (by decide)).mpr (by decide)
      rw [hzero, handleEstablished_empty (hfin _ rfl)]
      refine ⟨m, rfl, hfind, fun _ _ => rfl, (List.append_nil _).symm, ?_, ?_⟩
      · rw [hack]
        exact (UInt32.add_zero _).symm
      · intro frame frameLen hanswer
        exact absurd hanswer.symm (List.cons_ne_self _ _)

/-- The frame of a call of `tcp_send` reaches the other end just when no earlier slot there has the
same addresses and ports and the length of the packet is not cut off; one without data is not
acknowledged. -/
theorem frame_delivered_iff {rx : NetInterface} {r : ℤ} {frame : Bytes} {frameLen : ℕ}
    (h : tcpSend n i data len = some (r, n')) (hsent : n'.sent = (frame, frameLen) :: n.sent)
    (hm : Mirrors (n.tcpConnections i) (m.tcpConnections j) len) :
    (∃ m', netRx m rx frame frameLen = some m' ∧ Delivered m j (n.tcpConnections i) data len m') ↔
      (∀ k < j, ¬ SameTuple (m.tcpConnections k) (m.tcpConnections j)) ∧
      (0 < len ∧ len ≤ 65495 ∨ len = 0 ∧ (m.tcpConnections j).ack = (n.tcpConnections i).seq) := by
  obtain ⟨packet, iface, sendBuf, sendLen, rfl, rfl⟩ := tcpSend_frame h hsent
  -- what the peer does depends on the addresses, the ports and the sequence number only
  have hm' : Mirrors { n.tcpConnections i with sendBuf := sendBuf, sendLen := sendLen }
      (m.tcpConnections j) len :=
    ⟨hm.inUse, hm.state, hm.localIp, hm.localPort, hm.remoteIp, hm.remotePort, hm.buf, hm.capacity, hm.room⟩
  rw [← packet_delivered_iff hm']
  refine exists_congr fun m' => and_congr_right fun _ => ⟨?_, ?_⟩
  · exact fun hd => ⟨hd.selects, hd.others, hd.appended, hd.ack, hd.answer⟩
  · exact fun hd => ⟨hd.selects, hd.others, hd.appended, hd.ack, hd.answer⟩

/-- A host with the connection `sampleConn` and memory for one frame. -/
def sampleSender : Stack := { boot.net.set 0 sampleConn with
  iface := some { sampleIface with send := true }
  kmalloc := [some fun _ => 0] }

def sampleMirror : Stack := boot.net.set 0 { sampleConn with
  localIp := sampleConn.remoteIp
  localPort := sampleConn.remotePort
  remoteIp := sampleConn.localIp
  remotePort := sampleConn.localPort
  seq := sampleConn.ack
  ack := sampleConn.seq }

theorem sampleMirror_mirrors (sendBuf : Option Bytes) (sendLen : ℕ) (h : len ≤ 65536) :
    Mirrors { sampleSender.tcpConnections 0 with sendBuf := sendBuf, sendLen := sendLen }
      (sampleMirror.tcpConnections 0) len :=
  ⟨rfl, rfl, rfl, rfl, rfl, rfl, Option.some_ne_none _, rfl, (Nat.zero_add len).trans_le h⟩

theorem sampleSender_sends (data : Bytes) (h : len ≤ 65536) :
    ∃ n' frame frameLen, tcpSend sampleSender 0 data len = some ((len : ℤ), n') ∧
      n'.sent = (frame, frameLen) :: sampleSender.sent := by
  have hconn : sampleSender.tcpConnections 0 = sampleConn := rfl
  have hfits : sampleConn.sendLen + len ≤ sampleConn.sendCapacity := (Nat.zero_add len).trans_le h
  have hsize : (sampleConn.sendLen + len) % 2 ^ 64 = sampleConn.sendLen + len :=
    Nat.mod_eq_of_lt (hfits.trans_lt (by decide))
  have hbuf : ¬ (0 < len ∧
      (sampleConn.sendBuf = none ∨ sampleConn.sendCapacity < sampleConn.sendLen + len)) :=
    fun hbad => hbad.2.elim (Option.some_ne_none _) (Nat.not_lt.mpr hfits)
  have hstate : ¬ sampleConn.state ≠ .established := not_not.mpr rfl
  unfold tcpSend
  dsimp only
  rw [hconn, if_neg hstate, hsize, if_neg (Nat.not_lt.mpr hfits), if_neg hbuf]
  exact ⟨_, _, _, rfl, rfl⟩

theorem frame_delivered_two :
    ∃ n' frame frameLen m', tcpSend sampleSender 0 (fun _ => 0x61) 2 = some (2, n') ∧
      n'.sent = (frame, frameLen) :: sampleSender.sent ∧
      netRx sampleMirror sampleIface frame frameLen = some m' ∧
      Delivered sampleMirror 0 (sampleSender.tcpConnections 0) (fun _ => 0x61) 2 m' := by
  obtain ⟨n', frame, frameLen, hsend, hsent⟩ := @sampleSender_sends 2 (fun _ => 0x61) (by decide)
  obtain ⟨m', hrx, hd⟩ := (frame_delivered_iff hsend hsent (sampleMirror_mirrors _ _ (by decide))).mpr
    ⟨fun k hk => absurd hk (Fin.not_lt_zero k), .inl ⟨by decide, by decide⟩⟩
  exact ⟨n', frame, frameLen, m', hsend, hsent, hrx, hd⟩

/-- With 65536 bytes the length of the packet is cut off to 40, which leaves no data. -/
theorem frame_length_wraps :
    ¬ ∀ (n n' m : Stack) (i j : Fin maxTcpConnections) (data : Bytes) (len : ℕ) (rx : NetInterface)
      (r : ℤ) (frame : Bytes) (frameLen : ℕ), tcpSend n i data len = some (r, n') →
      n'.sent = (frame, frameLen) :: n.sent → Mirrors (n.tcpConnections i) (m.tcpConnections j) len →
      ∃ m', netRx m rx frame frameLen = some m' ∧
        Delivered m j (n.tcpConnections i) data len m' := by
  intro hall
  obtain ⟨n', frame, frameLen, hsend, hsent⟩ := @sampleSender_sends 65536 (fun _ => 0x61) le_rfl
  obtain ⟨m', hrx, hd⟩ := hall _ _ sampleMirror 0 0 _ _ sampleIface _ _ _ hsend hsent
    (sampleMirror_mirrors _ _ le_rfl)
  obtain ⟨packet, iface, sendBuf, sendLen, rfl, rfl⟩ := tcpSend_frame hsend hsent
  obtain ⟨-, ⟨-, hlen⟩ | ⟨hlen, -⟩⟩ := (packet_delivered_iff (sampleMirror_mirrors sendBuf sendLen le_rfl)).mp
    ⟨m', hrx, hd.selects, hd.others, hd.appended, hd.ack, hd.answer⟩
  · exact absurd hlen (by decide)
  · exact absurd hlen (by decide)

end GcAos.Net
