import GcAos.Net.Checksum

/-! The bytes of a frame that `net_rx` reads, with the layers it hands the frame to, and the lengths
that are subtracted on the way. -/

namespace GcAos.Net
open Lib Layout

/-- The bytes read, as offset in the frame and number, and the lengths subtracted, as minuend and
subtrahend. -/
structure RxTrace where
  reads : List (ℕ × ℕ)
  subs : List (ℕ × ℕ)

def RxTrace.append (t t' : RxTrace) : RxTrace := ⟨t.reads ++ t'.reads, t.subs ++ t'.subs⟩

/-- Fields are read of the record at `base`. -/
def fieldsTrace {F : Type*} (L : Layout F) (base : ℕ) (fs : List F) : RxTrace :=
  ⟨fs.map fun f => (base + L.off f, L.len f), []⟩

/-- The data offset is only looked at for a connection, and the data only where it is copied. -/
def tcpTrace (n : Stack) (srcIp dstIp : UInt32) (tcp : Bytes) (base tcpLen : ℕ) : RxTrace :=
  let s := parseSegment tcp
  let header := fieldsTrace tcpHdr base [.srcPort, .dstPort, .seq, .ack, .flags]
  match tcpFindConnection n srcIp s.srcPort dstIp s.dstPort with
  | none => header
  | some i =>
    let conn := n.tcpConnections i
    let dataLen := (tcpLen + 2 ^ 64 - s.headerLen) % 2 ^ 64
    let copied :=
      if conn.state = .established ∧ s.has tcpFin = false ∧ 0 < dataLen ∧
          (conn.recvLen + dataLen) % 2 ^ 64 ≤ conn.recvCapacity
      then [(base + s.headerLen, dataLen)] else []
    header.append ((fieldsTrace tcpHdr base [.dataOffset]).append ⟨copied, [(tcpLen, s.headerLen)]⟩)

def icmpTrace (icmp : Bytes) (base : ℕ) : RxTrace :=
  fieldsTrace icmpHdr base (if icmpHdr.get icmp 0 .type = 0 then [.type, .seq] else [.type])

def ipHlen (ip : Bytes) : ℕ := (ipHdr.get ip 0 .versionIhl &&& 0xF) * 4

def totalLen (ip : Bytes) : ℕ := (ntohs (UInt16.ofNat (ipHdr.get ip 0 .totalLen))).toNat

def ipTrace (n : Stack) (ip : Bytes) (base len : ℕ) : RxTrace :=
  if ipHdr.get ip 0 .versionIhl >>> 4 ≠ 4 then fieldsTrace ipHdr base [.versionIhl]
  else if len < totalLen ip then fieldsTrace ipHdr base [.versionIhl, .totalLen]
  else
    let payload : Bytes := fun k => ip (ipHlen ip + k)
    let payloadLen := (totalLen ip + 2 ^ 64 - ipHlen ip) % 2 ^ 64
    let checked := (fieldsTrace ipHdr base [.versionIhl, .totalLen, .protocol]).append
      ⟨[], [(totalLen ip, ipHlen ip)]⟩
    if ipHdr.get ip 0 .protocol = ipProtoIcmp then checked.append (icmpTrace payload (base + ipHlen ip))
    else if ipHdr.get ip 0 .protocol = ipProtoTcp then
      checked.append ((fieldsTrace ipHdr base [.srcIp, .dstIp]).append
        (tcpTrace n (UInt32.ofNat (ipHdr.get ip 0 .srcIp)) (UInt32.ofNat (ipHdr.get ip 0 .dstIp)) payload
          (base + ipHlen ip) payloadLen))
    else checked

def arpTrace (iface : NetInterface) (arp : Bytes) (base : ℕ) : RxTrace :=
  let opcode := ntohs (UInt16.ofNat (arpHdr.get arp 0 .opcode))
  fieldsTrace arpHdr base <|
    if opcode = 1 then
      if arpHdr.get arp 0 .targetIp = iface.ip.toNat then [.opcode, .targetIp, .senderMac, .senderIp]
      else [.opcode, .targetIp]
    else if opcode = 2 then [.opcode, .senderIp, .senderMac]
    else [.opcode]

def netRxTrace (n : Stack) (iface : NetInterface) (data : Bytes) (len : ℕ) : RxTrace :=
  if len < ethHdr.size then ⟨[], []⟩
  else
    let type := ntohs (UInt16.ofNat (ethHdr.get data 0 .type))
    let payload : Bytes := fun k => data (ethHlen + k)
    let payloadLen := len - ethHlen
    let checked := (fieldsTrace ethHdr 0 [.type]).append ⟨[], [(len, ethHlen)]⟩
    if type = ethPArp then
      if arpHdr.size ≤ payloadLen then checked.append (arpTrace iface payload ethHlen) else checked
    else if type = ethPIp then
      if ipHdr.size ≤ payloadLen then checked.append (ipTrace n payload ethHlen payloadLen) else checked
    else checked

/-- Nothing behind the frame is read, and no subtraction underflows. -/
@[mk_iff]
structure RxTrace.Safe (t : RxTrace) (len : ℕ) : Prop where
  reads : ∀ r ∈ t.reads, ∀ k, r.1 ≤ k → k < r.1 + r.2 → k < len
  subs : ∀ d ∈ t.subs, d.2 ≤ d.1

def RecvFits (conn : TcpConnection) : Prop := conn.recvLen ≤ conn.recvCapacity

def KeepsFits (n n' : Stack) : Prop :=
  ∀ i, RecvFits (n.tcpConnections i) → RecvFits (n'.tcpConnections i)

structure RxSafe (n : Stack) (iface : NetInterface) (data : Bytes) (len : ℕ) : Prop where
  trace : (netRxTrace n iface data len).Safe len
  recv : ∀ n', netRx n iface data len = some n' → KeepsFits n n'

/-- The packet gets past the checks of `net_rx` and `ip_handle`. -/
structure HandlesIp (data : Bytes) (len : ℕ) : Prop where
  eth : ethHdr.size ≤ len
  type : ntohs (UInt16.ofNat (ethHdr.get data 0 .type)) = ethPIp
  header : ipHdr.size ≤ len - ethHlen
  version : ipHdr.get (fun k => data (ethHlen + k)) 0 .versionIhl >>> 4 = 4
  total : totalLen (fun k => data (ethHlen + k)) ≤ len - ethHlen

/-- A connection is found for the segment at `tcp`. -/
def HasConnection (n : Stack) (ip tcp : Bytes) : Prop :=
  tcpFindConnection n (UInt32.ofNat (ipHdr.get ip 0 .srcIp)) (parseSegment tcp).srcPort
    (UInt32.ofNat (ipHdr.get ip 0 .dstIp)) (parseSegment tcp).dstPort ≠ none

/-- What the code does not check: that the IP header is no longer than the packet, that the bytes of
the next header are there, and that the TCP header is no longer than the segment. -/
@[mk_iff]
structure HeadersFit (n : Stack) (ip : Bytes) (len : ℕ) : Prop where
  header : ipHlen ip ≤ totalLen ip
  icmpHeader : ipHdr.get ip 0 .protocol = ipProtoIcmp → ipHlen ip + 1 ≤ len ∧
    (icmpHdr.get (fun k => ip (ipHlen ip + k)) 0 .type = 0 → ipHlen ip + icmpHdr.size ≤ len)
  tcpHeader : ipHdr.get ip 0 .protocol = ipProtoTcp → ipHlen ip + 14 ≤ len ∧
    (HasConnection n ip (fun k => ip (ipHlen ip + k)) →
      (parseSegment fun k => ip (ipHlen ip + k)).headerLen ≤ totalLen ip - ipHlen ip)

variable {n n' : Stack} {iface : NetInterface} {data data' ip tcp icmp arp : Bytes}
variable {a b base len tcpLen : ℕ} {t t' : RxTrace} {srcIp dstIp : UInt32}

theorem inside_iff (hb : 0 < b) : (∀ k, a ≤ k → k < a + b → k < len) ↔ a + b ≤ len := by
  constructor
  · intro h
    have hlast := h (a + b - 1) (by omega) (by omega)
    omega
  · intro h k _ hk
    omega

theorem RxTrace.append_safe : (t.append t').Safe len ↔ t.Safe len ∧ t'.Safe len := by
  simp only [RxTrace.safe_iff, RxTrace.append, List.forall_mem_append]
  tauto

theorem fieldsTrace_safe_iff {F : Type*} {L : Layout F} {fs : List F} {g : F} (hg : g ∈ fs)
    (hlen : ∀ f, 0 < L.len f) (hmax : ∀ f ∈ fs, L.off f + L.len f ≤ L.off g + L.len g) :
    (fieldsTrace L base fs).Safe len ↔ base + (L.off g + L.len g) ≤ len := by
  rw [RxTrace.safe_iff]
  simp only [fieldsTrace, List.forall_mem_map, inside_iff (hlen _), List.not_mem_nil, false_imp_iff,
    implies_true, and_true]
  constructor
  · intro h
    have hle := h g hg
    omega
  · intro h f hf
    have hle := hmax f hf
    omega

theorem fieldsTrace_safe {F : Type*} {L : Layout F} (fs : List F) (h : base + L.size ≤ len) :
    (fieldsTrace L base fs).Safe len := by
  rw [RxTrace.safe_iff]
  simp only [fieldsTrace, List.forall_mem_map, List.not_mem_nil, false_imp_iff, implies_true, and_true]
  intro f _ k _ hk
  have hfit := L.fits f
  omega

theorem sub_safe : RxTrace.Safe ⟨[], [(a, b)]⟩ len ↔ b ≤ a := by
  rw [RxTrace.safe_iff]
  simp

theorem icmpTrace_safe : (icmpTrace icmp base).Safe len ↔
    base + 1 ≤ len ∧ (icmpHdr.get icmp 0 .type = 0 → base + icmpHdr.size ≤ len) := by
  have hpos : ∀ f, 0 < icmpHdr.len f := by intro f; cases f <;> decide
  unfold icmpTrace
  split_ifs with hreply
  · have hfields := @fieldsTrace_safe_iff base len _ icmpHdr [.type, .seq] .seq (by decide) hpos (by decide)
    have hend : icmpHdr.off .seq + icmpHdr.len .seq = icmpHdr.size := rfl
    have hsize : icmpHdr.size = 8 := rfl
    rw [hfields, hend]
    constructor
    · intro h
      exact ⟨by omega, fun _ => h⟩
    · intro h
      exact h.2 hreply
  · have hfields := @fieldsTrace_safe_iff base len _ icmpHdr [.type] .type (by decide) hpos (by decide)
    rw [hfields]
    exact ⟨fun h => ⟨h, fun h0 => absurd h0 hreply⟩, fun h => h.1⟩

theorem tcpTrace_safe (hfits : base + tcpLen ≤ len) (hlen : tcpLen < 2 ^ 64) :
    (tcpTrace n srcIp dstIp tcp base tcpLen).Safe len ↔ base + 14 ≤ len ∧
      (tcpFindConnection n srcIp (parseSegment tcp).srcPort dstIp (parseSegment tcp).dstPort ≠ none →
        (parseSegment tcp).headerLen ≤ tcpLen) := by
  have hpos : ∀ f, 0 < tcpHdr.len f := by intro f; cases f <;> decide
  have hheader := @fieldsTrace_safe_iff base len _ tcpHdr [.srcPort, .dstPort, .seq, .ack, .flags] .flags
    (by decide) hpos (by decide)
  have hoffset := @fieldsTrace_safe_iff base len _ tcpHdr [.dataOffset] .dataOffset (by decide) hpos
    (by decide)
  have hend : tcpHdr.off .flags + tcpHdr.len .flags = 14 := rfl
  have hend' : tcpHdr.off .dataOffset + tcpHdr.len .dataOffset = 13 := rfl
  rw [hend] at hheader
  rw [hend'] at hoffset
  unfold tcpTrace
  dsimp only
  generalize parseSegment tcp = s
  rcases tcpFindConnection n srcIp s.srcPort dstIp s.dstPort with _ | i
  · rw [hheader]
    exact ⟨fun h => ⟨h, fun hne => absurd rfl hne⟩, fun h => h.1⟩
  dsimp only
  rw [RxTrace.append_safe, RxTrace.append_safe, hheader, hoffset]
  constructor
  · rintro ⟨hhead, -, hdata⟩
    exact ⟨hhead, fun _ => hdata.subs _ (List.mem_singleton_self _)⟩
  · rintro ⟨hhead, hsub⟩
    replace hsub := hsub (by simp)
    refine ⟨hhead, by omega, ?_, ?_⟩
    · split_ifs
      · intro r hr k hlo hhi
        obtain rfl := List.mem_singleton.mp hr
        dsimp only at hlo hhi
        omega
      · exact fun r hr => absurd hr List.not_mem_nil
    · intro d hd
      obtain rfl := List.mem_singleton.mp hd
      exact hsub

theorem ipTrace_safe (hheader : ipHdr.size ≤ len) :
    (ipTrace n ip base len).Safe (base + len) ↔
      (ipHdr.get ip 0 .versionIhl >>> 4 = 4 → totalLen ip ≤ len → HeadersFit n ip len) := by
  have hfields : ∀ fs, (fieldsTrace ipHdr base fs).Safe (base + len) :=
    fun fs => fieldsTrace_safe fs (by omega)
  unfold ipTrace
  split_ifs with hversion hshort hicmp htcp
  · exact iff_of_true (hfields _) fun h => absurd h hversion
  · exact iff_of_true (hfields _) fun _ h => absurd h (by omega)
  all_goals
    have hversion' : ipHdr.get ip 0 .versionIhl >>> 4 = 4 := not_not.mp hversion
    have htotal : totalLen ip ≤ len := Nat.le_of_not_lt hshort
    have hlt : totalLen ip < 2 ^ 16 := UInt16.toNat_lt _
    rw [forall_prop_of_true hversion', forall_prop_of_true htotal, headersFit_iff]
    simp only [RxTrace.append_safe, hfields, true_and, sub_safe]
  · have hother : ipHdr.get ip 0 .protocol ≠ ipProtoTcp := by
      rw [hicmp]
      decide
    rw [icmpTrace_safe, forall_prop_of_true hicmp]
    simp only [hother, false_imp_iff, and_true]
    exact and_congr_right fun _ => and_congr (by omega) (imp_congr_right fun _ => by omega)
  · refine and_congr_right fun hsub => ?_
    have hpayload : (totalLen ip + 2 ^ 64 - ipHlen ip) % 2 ^ 64 = totalLen ip - ipHlen ip := by omega
    rw [hpayload, tcpTrace_safe (by omega) (by omega), forall_prop_of_true htcp]
    simp only [hicmp, false_imp_iff, true_and]
    exact and_congr (by omega) Iff.rfl
  · simp only [hicmp, htcp, false_imp_iff, and_true]

theorem netRxTrace_safe : (netRxTrace n iface data len).Safe len ↔
    (HandlesIp data len → HeadersFit n (fun k => data (ethHlen + k)) (len - ethHlen)) := by
  have heth : ethHdr.size = ethHlen := rfl
  have htypes : ethPArp ≠ ethPIp := by decide
  unfold netRxTrace
  split_ifs with hshort
  · refine iff_of_true ?_ fun h => absurd h.eth (by omega)
    rw [RxTrace.safe_iff]
    simp
  have hlen : len = ethHlen + (len - ethHlen) := by omega
  have hchecked : ((fieldsTrace ethHdr 0 [.type]).append ⟨[], [(len, ethHlen)]⟩).Safe len :=
    RxTrace.append_safe.mpr ⟨fieldsTrace_safe _ (by omega), sub_safe.mpr (by omega)⟩
  dsimp only
  split_ifs with harp hfull hip hheader
  · refine iff_of_true (RxTrace.append_safe.mpr ⟨hchecked, fieldsTrace_safe _ (by omega)⟩) fun h => ?_
    exact absurd (harp.symm.trans h.type) htypes
  · exact iff_of_true hchecked fun h => absurd (harp.symm.trans h.type) htypes
  · have hsafe := @ipTrace_safe n (fun k => data (ethHlen + k)) ethHlen (len - ethHlen) hheader
    rw [← hlen] at hsafe
    rw [RxTrace.append_safe, and_iff_right hchecked, hsafe]
    constructor
    · intro h hip
      exact h hip.version hip.total
    · intro h hversion htotal
      exact h ⟨Nat.le_of_not_lt hshort, hip, hheader, hversion, htotal⟩
  · exact iff_of_true hchecked fun h => absurd h.header hheader
  · exact iff_of_true hchecked fun h => absurd h.type hip

/-! What a segment leaves in the receive buffers. -/

theorem keepsFits_refl (h : n'.tcpConnections = n.tcpConnections) : KeepsFits n n' := by
  intro i hi
  rwa [h]

theorem keepsFits_of_set {i : Fin maxTcpConnections} {conn : TcpConnection}
    (h : n'.tcpConnections = (n.set i conn).tcpConnections)
    (hfits : RecvFits (n.tcpConnections i) → RecvFits conn) : KeepsFits n n' := by
  intro j hj
  rw [h]
  by_cases hji : j = i
  · rw [hji, Stack.set_self]
    exact hfits (hji ▸ hj)
  · rwa [Stack.set_of_ne hji]

theorem tcpHandleSegment_keepsFits (h : tcpHandleSegment n srcIp dstIp tcp tcpLen = some n') :
    KeepsFits n n' := by
  rcases tcpHandleSegment_stores h with hsame | ⟨i, conn', hconns, hstores⟩
  · exact keepsFits_refl hsame
  refine keepsFits_of_set hconns fun hfits => ?_
  cases hstores with
  | takes htakes =>
    cases htakes with
    | nothing _ _ => exact hfits
    | fin _ => exact hfits
    | data _ _ _ hroom => exact hroom
  | answers => exact hfits
  | frees => exact hfits

theorem ipHandle_keepsFits (h : ipHandle n ip len = some n') : KeepsFits n n' := by
  unfold ipHandle at h
  dsimp only at h
  split_ifs at h
  · cases h
    exact keepsFits_refl rfl
  · cases h
    exact keepsFits_refl rfl
  · exact tcpHandleSegment_keepsFits h
  · cases h
    exact keepsFits_refl rfl

theorem arpHandle_conns (n : Stack) (iface : NetInterface) (arp : Bytes) :
    (arpHandle n iface arp).tcpConnections = n.tcpConnections := by
  unfold arpHandle
  dsimp only
  split_ifs
  · unfold Stack.transmit
    split_ifs
    · rfl
    · rfl
  · rfl
  · rfl
  · rfl

theorem netRx_keepsFits (h : netRx n iface data len = some n') : KeepsFits n n' := by
  unfold netRx at h
  dsimp only at h
  split_ifs at h
  · cases h
    exact keepsFits_refl rfl
  · cases h
    exact keepsFits_refl (arpHandle_conns _ _ _)
  · cases h
    exact keepsFits_refl rfl
  · exact ipHandle_keepsFits h
  · cases h
    exact keepsFits_refl rfl
  · cases h
    exact keepsFits_refl rfl

/-! The trace leaves no byte out: with other bytes elsewhere, the code does the same. -/

def Agrees (t : RxTrace) (m m' : Bytes) : Prop := ∀ r ∈ t.reads, ∀ k, r.1 ≤ k → k < r.1 + r.2 → m' k = m k

theorem agrees_append (h : Agrees (t.append t') data data') : Agrees t data data' ∧ Agrees t' data data' :=
  List.forall_mem_append.mp h

theorem get_of_agrees {F : Type*} {L : Layout F} {fs : List F} {f : F}
    (h : Agrees (fieldsTrace L base fs) data data') (hf : f ∈ fs) :
    L.get (fun k => data' (base + k)) 0 f = L.get (fun k => data (base + k)) 0 f := by
  rw [get_shift, get_shift]
  refine Bytes.load_congr fun i hi => ?_
  exact h _ (List.mem_map_of_mem hf) _ (Nat.le_add_right _ _) (Nat.add_lt_add_left hi _)

theorem handleEstablished_congr {i : Fin maxTcpConnections} {s : Segment} {dataLen : ℕ}
    (h : s.has tcpFin = false → 0 < dataLen →
      ((n.tcpConnections i).recvLen + dataLen) % 2 ^ 64 ≤ (n.tcpConnections i).recvCapacity →
        ∀ k < dataLen, data' k = data k) :
    handleEstablished n i s data' dataLen = handleEstablished n i s data dataLen := by
  unfold handleEstablished
  dsimp only
  cases hfin : s.has tcpFin with
  | true => rfl
  | false =>
    simp only [Bool.false_eq_true, if_false]
    by_cases hpos : 0 < dataLen
    · rw [if_pos hpos, if_pos hpos]
      by_cases hroom : ((n.tcpConnections i).recvLen + dataLen) % 2 ^ 64 ≤ (n.tcpConnections i).recvCapacity
      · have hsame : ∀ buf : Bytes, buf.blit (n.tcpConnections i).recvLen dataLen data' =
            buf.blit (n.tcpConnections i).recvLen dataLen data := by
          intro buf
          funext k
          unfold Bytes.blit
          split_ifs with hk
          · exact h hfin hpos hroom _ (by omega)
          · rfl
        simp only [hsame]
      · rw [if_neg hroom, if_neg hroom]
    · rw [if_neg hpos, if_neg hpos]

theorem tcpHandleSegment_congr
    (h : Agrees (tcpTrace n srcIp dstIp (fun k => data (base + k)) base tcpLen) data data') :
    tcpHandleSegment n srcIp dstIp (fun k => data' (base + k)) tcpLen =
      tcpHandleSegment n srcIp dstIp (fun k => data (base + k)) tcpLen := by
  have hheader : ∀ f ∈ [TcpField.srcPort, .dstPort, .seq, .ack, .flags],
      tcpHdr.get (fun k => data' (base + k)) 0 f = tcpHdr.get (fun k => data (base + k)) 0 f := by
    unfold tcpTrace at h
    dsimp only at h
    split at h
    · exact fun f hf => get_of_agrees h hf
    · exact fun f hf => get_of_agrees (agrees_append h).1 hf
  simp only [List.forall_mem_cons, List.not_mem_nil, false_imp_iff, implies_true, and_true] at hheader
  obtain ⟨hsrc, hdst, hseq, hack, hflags⟩ := hheader
  unfold tcpTrace at h
  unfold tcpHandleSegment
  dsimp only at h ⊢
  have hports : (parseSegment fun k => data' (base + k)).srcPort =
        (parseSegment fun k => data (base + k)).srcPort ∧
      (parseSegment fun k => data' (base + k)).dstPort =
        (parseSegment fun k => data (base + k)).dstPort := by
    unfold parseSegment
    rw [hsrc, hdst]
    exact ⟨rfl, rfl⟩
  rw [hports.1, hports.2]
  rcases hfind : tcpFindConnection n srcIp (parseSegment fun k => data (base + k)).srcPort dstIp
    (parseSegment fun k => data (base + k)).dstPort with _ | i
  · rfl
  rw [hfind] at h
  dsimp only at h ⊢
  obtain ⟨-, h⟩ := agrees_append h
  obtain ⟨hoffset, hdata⟩ := agrees_append h
  have hsegment : parseSegment (fun k => data' (base + k)) = parseSegment fun k => data (base + k) := by
    unfold parseSegment
    rw [hsrc, hdst, hseq, hack, hflags, get_of_agrees hoffset (List.mem_singleton_self _)]
  rw [hsegment]
  generalize parseSegment (fun k => data (base + k)) = s at hdata
  cases hstate : (n.tcpConnections i).state with
  | established =>
    refine handleEstablished_congr fun hfin hpos hroom k hk => ?_
    rw [if_pos ⟨hstate, hfin, hpos, hroom⟩] at hdata
    exact hdata _ (List.mem_singleton_self _) _ (by dsimp only; omega) (by dsimp only; omega)
  | _ => rfl

theorem ipHandle_congr (h : Agrees (ipTrace n (fun k => data (base + k)) base len) data data') :
    ipHandle n (fun k => data' (base + k)) len = ipHandle n (fun k => data (base + k)) len := by
  have hversion : ipHdr.get (fun k => data' (base + k)) 0 .versionIhl =
      ipHdr.get (fun k => data (base + k)) 0 .versionIhl := by
    unfold ipTrace at h
    dsimp only at h
    split_ifs at h
    · exact get_of_agrees h (by decide)
    · exact get_of_agrees h (by decide)
    · exact get_of_agrees (agrees_append (agrees_append h).1).1 (by decide)
    · exact get_of_agrees (agrees_append (agrees_append h).1).1 (by decide)
    · exact get_of_agrees (agrees_append h).1 (by decide)
  unfold ipTrace at h
  unfold ipHandle
  dsimp only at h ⊢
  rw [hversion]
  by_cases hfour : ipHdr.get (fun k => data (base + k)) 0 .versionIhl >>> 4 ≠ 4
  · rw [if_pos hfour, if_pos hfour]
  rw [if_neg hfour] at h
  rw [if_neg hfour, if_neg hfour]
  by_cases hshort : len < totalLen fun k => data (base + k)
  · rw [if_pos hshort] at h
    rw [get_of_agrees h (by decide : IpField.totalLen ∈ _)]
    unfold totalLen at hshort
    rw [if_pos hshort, if_pos hshort]
  rw [if_neg hshort] at h
  have hchecked : ∀ f ∈ [IpField.versionIhl, .totalLen, .protocol],
      ipHdr.get (fun k => data' (base + k)) 0 f = ipHdr.get (fun k => data (base + k)) 0 f := by
    split_ifs at h
    · exact fun f hf => get_of_agrees (agrees_append (agrees_append h).1).1 hf
    · exact fun f hf => get_of_agrees (agrees_append (agrees_append h).1).1 hf
    · exact fun f hf => get_of_agrees (agrees_append h).1 hf
  rw [hchecked .totalLen (by decide), hchecked .protocol (by decide)]
  unfold totalLen at hshort
  rw [if_neg hshort, if_neg hshort]
  by_cases htcp : ipHdr.get (fun k => data (base + k)) 0 .protocol = ipProtoTcp
  · have hicmp : ipHdr.get (fun k => data (base + k)) 0 .protocol ≠ ipProtoIcmp := by
      rw [htcp]
      decide
    rw [if_neg hicmp, if_pos htcp] at h
    obtain ⟨haddrs, hsegment⟩ := agrees_append (agrees_append h).2
    rw [if_pos htcp, if_pos htcp, get_of_agrees haddrs (by decide : IpField.srcIp ∈ _),
      get_of_agrees haddrs (by decide : IpField.dstIp ∈ _)]
    simp only [← Nat.add_assoc] at hsegment ⊢
    exact tcpHandleSegment_congr hsegment
  · rw [if_neg htcp, if_neg htcp]

theorem netRx_congr (harp : ntohs (UInt16.ofNat (ethHdr.get data 0 .type)) ≠ ethPArp)
    (h : Agrees (netRxTrace n iface data len) data data') :
    netRx n iface data' len = netRx n iface data len := by
  unfold netRxTrace at h
  unfold netRx
  dsimp only at h ⊢
  by_cases hshort : len < ethHdr.size
  · rw [if_pos hshort, if_pos hshort]
  rw [if_neg hshort, if_neg harp] at h
  have htype : ethHdr.get data' 0 .type = ethHdr.get data 0 .type := by
    rw [← get_shift data' 0, ← get_shift data 0]
    split_ifs at h
    · exact get_of_agrees (agrees_append (agrees_append h).1).1 (List.mem_singleton_self _)
    · exact get_of_agrees (agrees_append h).1 (List.mem_singleton_self _)
    · exact get_of_agrees (agrees_append h).1 (List.mem_singleton_self _)
  rw [htype, if_neg hshort, if_neg hshort, if_neg harp, if_neg harp]
  by_cases hip : ntohs (UInt16.ofNat (ethHdr.get data 0 .type)) = ethPIp
  · rw [if_pos hip] at h
    rw [if_pos hip, if_pos hip]
    by_cases hheader : ipHdr.size ≤ len - ethHlen
    · rw [if_pos hheader] at h
      rw [if_pos hheader, if_pos hheader]
      exact ipHandle_congr (agrees_append h).2
    · rw [if_neg hheader, if_neg hheader]
  · rw [if_neg hip, if_neg hip]

/-- A frame is read within its length unless an IP packet of it passes the checks with headers that
are longer than what they are part of, or cut off. -/
theorem rx_reads_iff (n : Stack) (iface : NetInterface) (data : Bytes) (len : ℕ) :
    RxSafe n iface data len ↔
      (HandlesIp data len → HeadersFit n (fun k => data (ethHlen + k)) (len - ethHlen)) := by
  rw [← netRxTrace_safe]
  exact ⟨fun h => h.trace, fun h => ⟨h, fun _ => netRx_keepsFits⟩⟩

def bareHeader : List UInt8 :=
  List.replicate 12 0xFF ++ [0x08, 0x00, 0x45, 0, 0, 20] ++ List.replicate 5 0 ++ [6] ++ List.replicate 10 0

theorem rx_reads_behind_frame :
    bareHeader.length = 34 ∧ ¬RxSafe boot.net ⟨fun _ => 0, 0, false⟩ (fun k => bareHeader.getD k 0) 34 := by
  refine ⟨rfl, fun h => ?_⟩
  have hfit := netRxTrace_safe.mp h.trace ⟨by decide, by decide, by decide, by decide, by decide⟩
  exact absurd (hfit.tcpHeader (by decide)).1 (by decide)

end GcAos.Net
