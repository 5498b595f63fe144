import GcAos.Lib.Bytes
import GcAos.Lib.Exec

/-! The network stack of `kernel/net/tcp_ip.c`: the TCP connection table, the frames it sends and
what it does with the frames that come in. Headers lie in memory byte by byte. A call is `none`
where the code writes outside a buffer or to a null pointer, or reads freed memory. -/

namespace GcAos.Net
open Lib

def ethHlen : ℕ := 14
def ethPIp : UInt16 := 0x0800
def ethPArp : UInt16 := 0x0806
def ipProtoTcp : ℕ := 6
def maxTcpConnections : ℕ := 256
def arpCacheSize : ℕ := 64

instance : NeZero maxTcpConnections := ⟨by decide⟩

def tcpFin : UInt8 := 0x01
def tcpSyn : UInt8 := 0x02
def tcpRst : UInt8 := 0x04
def tcpPsh : UInt8 := 0x08
def tcpAck : UInt8 := 0x10

inductive TcpState
  | closed | listen | synSent | synReceived | established | finWait1 | finWait2 | closeWait
  | closing | lastAck | timeWait
  deriving DecidableEq

def htons (hostshort : UInt16) : UInt16 :=
  ((hostshort >>> 8) &&& (0xFF : UInt16)) ||| ((hostshort &&& (0xFF : UInt16)) <<< 8)

def ntohs (netshort : UInt16) : UInt16 := htons netshort

def htonl (hostlong : UInt32) : UInt32 :=
  ((hostlong >>> 24) &&& (0xFF : UInt32)) ||| ((hostlong >>> 8) &&& (0xFF00 : UInt32)) |||
    ((hostlong &&& (0xFF00 : UInt32)) <<< 8) ||| ((hostlong &&& (0xFF : UInt32)) <<< 24)

def ntohl (netlong : UInt32) : UInt32 := htonl netlong

inductive EthField
  | dest | src | type
  deriving DecidableEq

def ethHdr : Layout EthField where
  off
    | .dest => 0
    | .src => 6
    | .type => 12
  len
    | .dest => 6
    | .src => 6
    | .type => 2
  size := 14

inductive ArpField
  | hwType | protoType | hwLen | protoLen | opcode | senderMac | senderIp | targetMac | targetIp
  deriving DecidableEq

def arpHdr : Layout ArpField where
  off
    | .hwType => 0
    | .protoType => 2
    | .hwLen => 4
    | .protoLen => 5
    | .opcode => 6
    | .senderMac => 8
    | .senderIp => 14
    | .targetMac => 18
    | .targetIp => 24
  len
    | .hwType => 2
    | .protoType => 2
    | .hwLen => 1
    | .protoLen => 1
    | .opcode => 2
    | .senderMac => 6
    | .senderIp => 4
    | .targetMac => 6
    | .targetIp => 4
  size := 28

inductive IpField
  | versionIhl | tos | totalLen | id | flagsFrag | ttl | protocol | checksum | srcIp | dstIp
  deriving DecidableEq

def ipHdr : Layout IpField where
  off
    | .versionIhl => 0
    | .tos => 1
    | .totalLen => 2
    | .id => 4
    | .flagsFrag => 6
    | .ttl => 8
    | .protocol => 9
    | .checksum => 10
    | .srcIp => 12
    | .dstIp => 16
  len
    | .versionIhl => 1
    | .tos => 1
    | .totalLen => 2
    | .id => 2
    | .flagsFrag => 2
    | .ttl => 1
    | .protocol => 1
    | .checksum => 2
    | .srcIp => 4
    | .dstIp => 4
  size := 20

inductive TcpField
  | srcPort | dstPort | seq | ack | dataOffset | flags | window | checksum | urgent
  deriving DecidableEq

def tcpHdr : Layout TcpField where
  off
    | .srcPort => 0
    | .dstPort => 2
    | .seq => 4
    | .ack => 8
    | .dataOffset => 12
    | .flags => 13
    | .window => 14
    | .checksum => 16
    | .urgent => 18
  len
    | .srcPort => 2
    | .dstPort => 2
    | .seq => 4
    | .ack => 4
    | .dataOffset => 1
    | .flags => 1
    | .window => 2
    | .checksum => 2
    | .urgent => 2
  size := 20

/-- A mac is six bytes. -/
structure NetInterface where
  mac : Bytes
  ip : UInt32
  -- whether the driver has set its send function
  send : Bool

structure ArpEntry where
  ip : UInt32
  mac : Bytes
  timestamp : ℕ
  valid : Bool

structure TcpConnection where
  localIp : UInt32
  localPort : UInt16
  remoteIp : UInt32
  remotePort : UInt16
  state : TcpState
  seq : UInt32
  ack : UInt32
  recvWnd : UInt32
  sendWnd : UInt32
  -- the buffers are `none` for the null pointer
  recvBuf : Option Bytes
  recvLen : ℕ
  recvCapacity : ℕ
  sendBuf : Option Bytes
  sendLen : ℕ
  sendCapacity : ℕ
  inUse : Bool

structure Stack where
  tcpConnections : Fin maxTcpConnections → TcpConnection
  nextEphemeralPort : UInt16
  tcpIsnCounter : UInt32
  -- `interfaces[0]`, if there is one
  iface : Option NetInterface
  arpCache : Fin arpCacheSize → ArpEntry
  -- what the next calls of `kmalloc` return: memory with something in it, or `none`
  kmalloc : List (Option Bytes)
  -- the frames given to the driver, the last one first
  sent : List (Bytes × ℕ)

namespace Stack

def alloc (n : Stack) : Option Bytes × Stack :=
  ((n.kmalloc.head?).join, { n with kmalloc := n.kmalloc.tail })

def set (n : Stack) (i : Fin maxTcpConnections) (c : TcpConnection) : Stack :=
  { n with tcpConnections := Function.update n.tcpConnections i c }

/-- `if (iface->send)` the frame is sent. -/
def transmit (n : Stack) (iface : NetInterface) (frame : Bytes) (len : ℕ) : Stack :=
  if iface.send then { n with sent := (frame, len) :: n.sent } else n

end Stack

/-! Checksums. -/

/-- The loop over the 16-bit words, with a last odd byte, in an `uint32_t`. -/
def sumWords (m : Bytes) : ℕ → ℕ → ℕ → ℕ
  | a, len + 2, sum => sumWords m (a + 2) len ((sum + m.load a 2) % 2 ^ 32)
  | a, 1, sum => (sum + (m a).toNat) % 2 ^ 32
  | _, 0, sum => sum

/-- `while (sum >> 16)`. -/
def foldSum : ℕ → ℕ → ℕ
  | 0, sum => sum
  | fuel + 1, sum => if sum >>> 16 = 0 then sum else foldSum fuel ((sum &&& 0xFFFF) + (sum >>> 16))

/-- The sum has 32 bits, so three turns fold it. -/
def complement (sum : ℕ) : ℕ := (2 ^ 32 - 1 - foldSum 3 sum) % 2 ^ 16

def checksum (m : Bytes) (a len : ℕ) : ℕ := complement (sumWords m a len 0)

def tcpChecksum (m : Bytes) (ip tcp tcpLen : ℕ) : ℕ :=
  let srcIp := ipHdr.get m ip .srcIp
  let dstIp := ipHdr.get m ip .dstIp
  let sum := (srcIp >>> 16 &&& 0xFFFF) + (srcIp &&& 0xFFFF) + (dstIp >>> 16 &&& 0xFFFF) +
    (dstIp &&& 0xFFFF) + (htons 6).toNat + (htons (UInt16.ofNat tcpLen)).toNat
  complement (sumWords m tcp tcpLen (sum % 2 ^ 32))

/-! Sending. -/

def buildEth (m : Bytes) (iface : NetInterface) : Bytes :=
  let m := ethHdr.set m 0 .type (htons ethPIp).toNat
  let m := m.blit (ethHdr.off .src) 6 iface.mac
  m.blit (ethHdr.off .dest) 6 fun _ => 0xFF

def buildIp (m : Bytes) (conn : TcpConnection) (tcpLen : ℕ) : Bytes :=
  let ip := ethHlen
  let m := ipHdr.set m ip .versionIhl 0x45
  let m := ipHdr.set m ip .tos 0
  let m := ipHdr.set m ip .totalLen (htons (UInt16.ofNat (ipHdr.size + tcpLen))).toNat
  let m := ipHdr.set m ip .id (htons (conn.seq &&& (0xFFFF : UInt32)).toUInt16).toNat
  let m := ipHdr.set m ip .flagsFrag (htons 0x4000).toNat
  let m := ipHdr.set m ip .ttl 64
  let m := ipHdr.set m ip .protocol ipProtoTcp
  let m := ipHdr.set m ip .srcIp conn.localIp.toNat
  let m := ipHdr.set m ip .dstIp conn.remoteIp.toNat
  let m := ipHdr.set m ip .checksum 0
  ipHdr.set m ip .checksum (checksum m ip ipHdr.size)

def buildTcp (m : Bytes) (conn : TcpConnection) (flags : UInt8) : Bytes :=
  let tcp := ethHlen + ipHdr.size
  let m := tcpHdr.set m tcp .srcPort (htons conn.localPort).toNat
  let m := tcpHdr.set m tcp .dstPort (htons conn.remotePort).toNat
  let m := tcpHdr.set m tcp .seq (htonl conn.seq).toNat
  let m := tcpHdr.set m tcp .ack (htonl conn.ack).toNat
  let m := tcpHdr.set m tcp .dataOffset (tcpHdr.size / 4 * 16)
  let m := tcpHdr.set m tcp .flags flags.toNat
  let m := tcpHdr.set m tcp .window (htons conn.recvWnd.toUInt16).toNat
  let m := tcpHdr.set m tcp .urgent 0
  tcpHdr.set m tcp .checksum 0

def copyPayload (m : Bytes) (data : Option Bytes) (dataLen : ℕ) : Bytes :=
  match data with
  | some data => m.blit (ethHlen + ipHdr.size + tcpHdr.size) dataLen data
  | none => m

/-- The frame that `tcp_send_packet` builds in the memory `packet`. -/
def tcpPacket (packet : Bytes) (iface : NetInterface) (conn : TcpConnection) (flags : UInt8)
    (data : Option Bytes) (dataLen : ℕ) : Bytes :=
  let tcp := ethHlen + ipHdr.size
  let tcpLen := tcpHdr.size + dataLen
  let m := buildEth packet iface
  let m := buildIp m conn tcpLen
  let m := buildTcp m conn flags
  let m := copyPayload m data dataLen
  tcpHdr.set m tcp .checksum (tcpChecksum m ethHlen tcp tcpLen)

def tcpSendPacket (n : Stack) (conn : TcpConnection) (flags : UInt8) (data : Option Bytes)
    (dataLen : ℕ) : ℤ × Stack :=
  match n.iface with
  | none => (-1, n)
  | some iface =>
    let totalLen := ethHlen + ipHdr.size + (tcpHdr.size + dataLen)
    match n.alloc with
    | (none, n) => (-1, n)
    | (some packet, n) =>
      (0, n.transmit iface (tcpPacket packet iface conn flags data dataLen) totalLen)

def tcpGenerateIsn (n : Stack) : UInt32 × Stack :=
  let tcpIsnCounter := n.tcpIsnCounter * 1103515245 + 12345
  (tcpIsnCounter, { n with tcpIsnCounter := tcpIsnCounter })

/-! The connection table. -/

/-- The first free slot. The buffers are not checked. -/
def tcpAllocConnection (n : Stack) : Option (Fin maxTcpConnections) × Stack :=
  match (List.finRange maxTcpConnections).find? fun i => !(n.tcpConnections i).inUse with
  | none => (none, n)
  | some i =>
    let (recvBuf, n) := n.alloc
    let (sendBuf, n) := n.alloc
    (some i, n.set i { n.tcpConnections i with
      inUse := true
      state := .closed
      recvCapacity := 65536
      sendCapacity := 65536
      recvBuf := recvBuf
      sendBuf := sendBuf
      recvLen := 0
      sendLen := 0
      recvWnd := 65535
      sendWnd := 65535 })

def tcpFreeConnection (n : Stack) (i : Fin maxTcpConnections) : Stack :=
  n.set i { n.tcpConnections i with inUse := false }

def bumpPort (port : UInt16) : UInt16 :=
  let port := port + 1
  if port > 65000 then 49152 else port

def tcpConnect (n : Stack) (destIp : UInt32) (destPort : UInt16) : ℤ × Stack :=
  match tcpAllocConnection n with
  | (none, n) => (-1, n)
  | (some i, n) =>
    match n.iface with
    | none => (-1, tcpFreeConnection n i)
    | some iface =>
      let localPort := n.nextEphemeralPort
      let n := { n with nextEphemeralPort := bumpPort localPort }
      let (seq, n) := tcpGenerateIsn n
      let conn := { n.tcpConnections i with
        localIp := iface.ip
        localPort := localPort
        remoteIp := destIp
        remotePort := destPort
        seq := seq
        ack := 0
        state := .synSent }
      let n := n.set i conn
      match tcpSendPacket n conn tcpSyn none 0 with
      | (ret, n) =>
        if ret < 0 then (-1, tcpFreeConnection n i)
        else (i, n.set i { conn with seq := conn.seq + 1 })

/-- The buffer lengths are `size_t`. -/
def tcpSend (n : Stack) (i : Fin maxTcpConnections) (data : Bytes) (len : ℕ) : Option (ℤ × Stack) :=
  let conn := n.tcpConnections i
  if conn.state ≠ .established then some (-1, n)
  else if conn.sendCapacity < (conn.sendLen + len) % 2 ^ 64 then some (-1, n)
  else if 0 < len ∧ (conn.sendBuf = none ∨ conn.sendCapacity < conn.sendLen + len) then none
  else
    let conn := { conn with
      sendBuf := conn.sendBuf.map fun buf => buf.blit conn.sendLen len data
      sendLen := conn.sendLen + len }
    let n := n.set i conn
    match tcpSendPacket n conn (tcpPsh ||| tcpAck) (some data) len with
    | (ret, n) =>
      if ret = 0 then some (len, n.set i { conn with seq := conn.seq + UInt32.ofNat len })
      else some (-1, n)

def tcpRecv (n : Stack) (i : Fin maxTcpConnections) (len : ℕ) : Option (ℤ × List UInt8 × Stack) :=
  let conn := n.tcpConnections i
  if conn.recvLen = 0 then some (0, [], n)
  else if !conn.inUse then none
  else do
    let buf ← conn.recvBuf
    let toCopy := min len conn.recvLen
    some (toCopy, (List.range toCopy).map buf, n.set i { conn with
      recvBuf := some (buf.blit 0 (conn.recvLen - toCopy) fun k => buf (k + toCopy))
      recvLen := conn.recvLen - toCopy })

/-- The two branches of `tcp_close` that send a FIN. -/
def sendFin (n : Stack) (i : Fin maxTcpConnections) (state : TcpState) : ℤ × Stack :=
  let conn := { n.tcpConnections i with state := state }
  let n := n.set i conn
  match tcpSendPacket n conn (tcpFin ||| tcpAck) none 0 with
  | (_, n) => (0, n.set i { conn with seq := conn.seq + 1 })

def tcpClose (n : Stack) (i : Fin maxTcpConnections) : ℤ × Stack :=
  let conn := n.tcpConnections i
  if !conn.inUse then (-1, n)
  else
    match conn.state with
    | .established => sendFin n i .finWait1
    | .closeWait => sendFin n i .lastAck
    | .synSent => (0, tcpFreeConnection n i)
    | .listen => (0, tcpFreeConnection n i)
    | _ => (0, n)

/-! Receiving. -/

def tcpFindConnection (n : Stack) (remoteIp : UInt32) (remotePort : UInt16) (localIp : UInt32)
    (localPort : UInt16) : Option (Fin maxTcpConnections) :=
  (List.finRange maxTcpConnections).find? fun i =>
    let c := n.tcpConnections i
    c.inUse && (c.remoteIp == remoteIp) && (c.remotePort == remotePort) && (c.localIp == localIp) &&
      (c.localPort == localPort)

structure Segment where
  srcPort : UInt16
  dstPort : UInt16
  seq : UInt32
  ack : UInt32
  flags : UInt8
  headerLen : ℕ

/-- What `tcp_handle_segment` reads from the header. -/
def parseSegment (tcp : Bytes) : Segment where
  srcPort := ntohs (UInt16.ofNat (tcpHdr.get tcp 0 .srcPort))
  dstPort := ntohs (UInt16.ofNat (tcpHdr.get tcp 0 .dstPort))
  seq := ntohl (UInt32.ofNat (tcpHdr.get tcp 0 .seq))
  ack := ntohl (UInt32.ofNat (tcpHdr.get tcp 0 .ack))
  flags := UInt8.ofNat (tcpHdr.get tcp 0 .flags)
  headerLen := (tcpHdr.get tcp 0 .dataOffset >>> 4 &&& 0xF) * 4

/-- `conn` is stored and an ACK is sent for it. -/
def sendAck (n : Stack) (i : Fin maxTcpConnections) (conn : TcpConnection) : Stack :=
  (tcpSendPacket (n.set i conn) conn tcpAck none 0).2

def Segment.has (s : Segment) (flags : UInt8) : Bool := s.flags &&& flags == flags

/-- The branch for `TCP_ESTABLISHED`. The sums are taken in `size_t`. -/
def handleEstablished (n : Stack) (i : Fin maxTcpConnections) (s : Segment) (data : Bytes)
    (dataLen : ℕ) : Option Stack :=
  let conn := n.tcpConnections i
  if s.has tcpFin then
    some (sendAck n i { conn with ack := s.seq + UInt32.ofNat dataLen + 1, state := .closeWait })
  else if 0 < dataLen then
    if (conn.recvLen + dataLen) % 2 ^ 64 ≤ conn.recvCapacity then do
      let buf ← conn.recvBuf
      -- the copy loop goes on to the unreduced length
      if conn.recvCapacity < conn.recvLen + dataLen then none
      else
        some (sendAck n i { conn with
          recvBuf := some (buf.blit conn.recvLen dataLen data)
          recvLen := conn.recvLen + dataLen
          ack := s.seq + UInt32.ofNat dataLen })
    else some n
  else some n

/-- The branch for `TCP_FIN_WAIT_1`. -/
def handleFinWait1 (n : Stack) (i : Fin maxTcpConnections) (s : Segment) : Stack :=
  let conn := n.tcpConnections i
  let conn := if s.has tcpAck then { conn with state := .finWait2 } else conn
  let n := n.set i conn
  if s.has tcpFin then
    let conn := { conn with ack := s.seq + 1 }
    let n := sendAck n i conn
    if conn.state = .finWait2 then n.set i { conn with state := .timeWait }
    else n.set i { conn with state := .closing }
  else n

def tcpHandleSegment (n : Stack) (srcIp dstIp : UInt32) (tcp : Bytes) (tcpLen : ℕ) : Option Stack :=
  let s := parseSegment tcp
  match tcpFindConnection n srcIp s.srcPort dstIp s.dstPort with
  | none => some n
  | some i =>
    let conn := n.tcpConnections i
    let dataLen := (tcpLen + 2 ^ 64 - s.headerLen) % 2 ^ 64
    let data : Bytes := fun k => tcp (s.headerLen + k)
    match conn.state with
    | .synSent =>
      if s.has (tcpSyn ||| tcpAck) then
        some (sendAck n i { conn with ack := s.seq + 1, state := .established })
      else if s.has tcpRst then some (tcpFreeConnection (n.set i { conn with state := .closed }) i)
      else some n
    | .established => handleEstablished n i s data dataLen
    | .finWait1 => some (handleFinWait1 n i s)
    | .finWait2 =>
      if s.has tcpFin then
        let n := sendAck n i { conn with ack := s.seq + 1 }
        some (n.set i { conn with ack := s.seq + 1, state := .timeWait })
      else some n
    | .closing => if s.has tcpAck then some (n.set i { conn with state := .timeWait }) else some n
    | .lastAck =>
      if s.has tcpAck then some (tcpFreeConnection (n.set i { conn with state := .closed }) i)
      else some n
    | .timeWait => some (tcpFreeConnection n i)
    | _ => some n

/-- Only TCP segments change anything. -/
def ipHandle (n : Stack) (ip : Bytes) (len : ℕ) : Option Stack :=
  let versionIhl := ipHdr.get ip 0 .versionIhl
  if versionIhl >>> 4 ≠ 4 then some n
  else
    let ipHlen := (versionIhl &&& 0xF) * 4
    let totalLen := (ntohs (UInt16.ofNat (ipHdr.get ip 0 .totalLen))).toNat
    if len < totalLen then some n
    else
      let payloadLen := (totalLen + 2 ^ 64 - ipHlen) % 2 ^ 64
      if ipHdr.get ip 0 .protocol = ipProtoTcp then
        tcpHandleSegment n (UInt32.ofNat (ipHdr.get ip 0 .srcIp)) (UInt32.ofNat (ipHdr.get ip 0 .dstIp))
          (fun k => ip (ipHlen + k)) payloadLen
      else some n

/-- The slot that `arp_add` takes: the first empty one, or else the first of the oldest. -/
def arpSlot (cache : Fin arpCacheSize → ArpEntry) : Fin arpCacheSize :=
  let step (best : Fin arpCacheSize × ℕ × Bool) (i : Fin arpCacheSize) :=
    if best.2.2 then best
    else if !(cache i).valid then (i, best.2.1, true)
    else if (cache i).timestamp < best.2.1 then (i, (cache i).timestamp, false)
    else best
  ((List.finRange arpCacheSize).foldl step (⟨0, by decide⟩, 2 ^ 64 - 1, false)).1

def arpAdd (n : Stack) (ip : UInt32) (mac : Bytes) : Stack :=
  let entry : ArpEntry := { ip := ip, mac := mac, timestamp := 0, valid := true }
  { n with arpCache := Function.update n.arpCache (arpSlot n.arpCache) entry }

def arpReply (packet : Bytes) (iface : NetInterface) (arp : Bytes) : Bytes :=
  let senderMac : Bytes := fun k => arp (arpHdr.off .senderMac + k)
  let m := packet.blit (ethHdr.off .dest) 6 senderMac
  let m := m.blit (ethHdr.off .src) 6 iface.mac
  let m := ethHdr.set m 0 .type (htons ethPArp).toNat
  let m := arpHdr.set m ethHlen .hwType (htons 1).toNat
  let m := arpHdr.set m ethHlen .protoType (htons ethPIp).toNat
  let m := arpHdr.set m ethHlen .hwLen 6
  let m := arpHdr.set m ethHlen .protoLen 4
  let m := arpHdr.set m ethHlen .opcode (htons 2).toNat
  let m := m.blit (ethHlen + arpHdr.off .senderMac) 6 iface.mac
  let m := m.blit (ethHlen + arpHdr.off .targetMac) 6 senderMac
  let m := arpHdr.set m ethHlen .senderIp iface.ip.toNat
  arpHdr.set m ethHlen .targetIp (arpHdr.get arp 0 .senderIp)

def arpHandle (n : Stack) (iface : NetInterface) (arp : Bytes) : Stack :=
  let opcode := ntohs (UInt16.ofNat (arpHdr.get arp 0 .opcode))
  if opcode = 1 then
    if arpHdr.get arp 0 .targetIp = iface.ip.toNat then
      n.transmit iface (arpReply (fun _ => 0) iface arp) (ethHlen + arpHdr.size)
    else n
  else if opcode = 2 then
    arpAdd n (UInt32.ofNat (arpHdr.get arp 0 .senderIp)) fun k => arp (arpHdr.off .senderMac + k)
  else n

/-- The frame lies at the start of `data`. -/
def netRx (n : Stack) (iface : NetInterface) (data : Bytes) (len : ℕ) : Option Stack :=
  if len < ethHdr.size then some n
  else
    let type := ntohs (UInt16.ofNat (ethHdr.get data 0 .type))
    let payload : Bytes := fun k => data (ethHlen + k)
    let payloadLen := len - ethHlen
    if type = ethPArp then
      if arpHdr.size ≤ payloadLen then some (arpHandle n iface payload) else some n
    else if type = ethPIp then
      if ipHdr.size ≤ payloadLen then ipHandle n payload payloadLen else some n
    else some n

end GcAos.Net
