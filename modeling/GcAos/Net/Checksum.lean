import GcAos.Lib.OnesSum
import GcAos.Net.TcpFrame

/-! The checksums of the frames that `tcp_send_packet` and `icmp_send_echo` build. -/

namespace GcAos.Net
open Lib Layout

def ipProtoIcmp : ℕ := 1

inductive IcmpField
  | type | code | checksum | id | seq
  deriving DecidableEq

def icmpHdr : Layout IcmpField where
  off
    | .type => 0
    | .code => 1
    | .checksum => 2
    | .id => 4
    | .seq => 6
  len
    | .type => 1
    | .code => 1
    | .checksum => 2
    | .id => 2
    | .seq => 2
  size := 8

def buildIcmpIp (m : Bytes) (iface : NetInterface) (destIp : UInt32) : Bytes :=
  let ip := ethHlen
  let m := ipHdr.set m ip .versionIhl 0x45
  let m := ipHdr.set m ip .tos 0
  let m := ipHdr.set m ip .totalLen (htons (UInt16.ofNat (ipHdr.size + icmpHdr.size))).toNat
  let m := ipHdr.set m ip .id (htons 1).toNat
  let m := ipHdr.set m ip .flagsFrag 0
  let m := ipHdr.set m ip .ttl 64
  let m := ipHdr.set m ip .protocol ipProtoIcmp
  let m := ipHdr.set m ip .srcIp iface.ip.toNat
  let m := ipHdr.set m ip .dstIp destIp.toNat
  let m := ipHdr.set m ip .checksum 0
  ipHdr.set m ip .checksum (checksum m ip ipHdr.size)

/-- The frame that `icmp_send_echo` builds in the memory `packet`. The destination of the Ethernet
header is left as it is. -/
def icmpPacket (packet : Bytes) (iface : NetInterface) (destIp : UInt32) (id seq : UInt16) : Bytes :=
  let icmp := ethHlen + ipHdr.size
  let m := ethHdr.set packet 0 .type (htons ethPIp).toNat
  let m := m.blit (ethHdr.off .src) 6 iface.mac
  let m := buildIcmpIp m iface destIp
  let m := icmpHdr.set m icmp .type 8
  let m := icmpHdr.set m icmp .code 0
  let m := icmpHdr.set m icmp .id (htons id).toNat
  let m := icmpHdr.set m icmp .seq (htons seq).toNat
  let m := icmpHdr.set m icmp .checksum 0
  icmpHdr.set m icmp .checksum (checksum m icmp icmpHdr.size)

def icmpSendEcho (n : Stack) (destIp : UInt32) (id seq : UInt16) : ℤ × Stack :=
  match n.iface with
  | none => (-1, n)
  | some iface =>
    let totalLen := ethHlen + ipHdr.size + icmpHdr.size
    match n.alloc with
    | (none, n) => (-1, n)
    | (some packet, n) => (0, n.transmit iface (icmpPacket packet iface destIp id seq) totalLen)

/-! What the frames are checked for. -/

def accumulators (m : Bytes) : ℕ → ℕ → ℕ → List ℕ
  | a, len + 2, sum => (sum + m.load a 2) :: accumulators m (a + 2) len (sum + m.load a 2)
  | a, 1, sum => [sum + (m a).toNat]
  | _, 0, _ => []

/-- What `tcp_checksum` adds up before the segment. -/
def pseudoTerms (m : Bytes) (ip tcpLen : ℕ) : List ℕ :=
  let srcIp := ipHdr.get m ip .srcIp
  let dstIp := ipHdr.get m ip .dstIp
  [srcIp >>> 16 &&& 0xFFFF, srcIp &&& 0xFFFF, dstIp >>> 16 &&& 0xFFFF, dstIp &&& 0xFFFF,
    (htons 6).toNat, (htons (UInt16.ofNat tcpLen)).toNat]

def tcpAccumulators (m : Bytes) (ip tcp tcpLen : ℕ) : List ℕ :=
  (pseudoTerms m ip tcpLen).scanl (· + ·) 0 ++ accumulators m tcp tcpLen (pseudoTerms m ip tcpLen).sum

def pseudoHeader (m : Bytes) (ip tcpLen : ℕ) : List UInt8 :=
  m.slice (ip + ipHdr.off .srcIp) 8 ++
    [0, UInt8.ofNat ipProtoTcp, UInt8.ofNat (tcpLen / 256), UInt8.ofNat tcpLen]

structure TcpVerifies (frame : Bytes) (tcpLen : ℕ) : Prop where
  ip : onesSum (frame.slice ethHlen ipHdr.size) = 0xFFFF
  tcp : onesSum (pseudoHeader frame ethHlen tcpLen ++ frame.slice (ethHlen + ipHdr.size) tcpLen) = 0xFFFF

structure IcmpVerifies (frame : Bytes) : Prop where
  ip : onesSum (frame.slice ethHlen ipHdr.size) = 0xFFFF
  icmp : onesSum (frame.slice (ethHlen + ipHdr.size) icmpHdr.size) = 0xFFFF

variable {m packet : Bytes} {iface : NetInterface} {a len sum k ip tcp tcpLen : ℕ} {l : List UInt8}

theorem accumulators_lt (h : sum + wordSum (m.slice a len) < 2 ^ 32) :
    ∀ x ∈ accumulators m a len sum, x < 2 ^ 32 := by
  induction a, len, sum using accumulators.induct m with
  | case1 a len sum ih =>
    rw [Bytes.wordSum_slice_add_two] at h
    rw [accumulators]
    intro x hx
    rcases List.mem_cons.mp hx with rfl | hx
    · omega
    · exact ih (by omega) x hx
  | case2 a sum =>
    rw [accumulators]
    intro x hx
    rw [List.mem_singleton.mp hx]
    exact h
  | case3 => exact fun x hx => absurd hx List.not_mem_nil

theorem sumWords_eq (h : sum + wordSum (m.slice a len) < 2 ^ 32) :
    sumWords m a len sum = sum + wordSum (m.slice a len) := by
  induction a, len, sum using accumulators.induct m with
  | case1 a len sum ih =>
    rw [Bytes.wordSum_slice_add_two] at h ⊢
    rw [sumWords, Nat.mod_eq_of_lt (by omega), ih (by omega), Nat.add_assoc]
  | case2 a sum => exact Nat.mod_eq_of_lt h
  | case3 => rfl

theorem and_ffff (x : ℕ) : x &&& 0xFFFF = x % 2 ^ 16 := Nat.and_two_pow_sub_one_eq_mod x 16

theorem foldSum_succ (fuel sum : ℕ) : foldSum (fuel + 1) sum =
    if sum < 2 ^ 16 then sum else foldSum fuel (sum % 2 ^ 16 + sum / 2 ^ 16) := by
  rw [foldSum, and_ffff, Nat.shiftRight_eq_div_pow]
  exact if_congr (by omega) rfl rfl

theorem foldSum_spec (h : sum < 2 ^ 32) :
    foldSum 3 sum < 2 ^ 16 ∧ foldSum 3 sum % 65535 = sum % 65535 ∧ (foldSum 3 sum = 0 ↔ sum = 0) := by
  rw [foldSum_succ, foldSum_succ, foldSum_succ, foldSum]
  split_ifs <;> omega

theorem low_word_not {folded : ℕ} (h : folded < 2 ^ 16) :
    (2 ^ 32 - 1 - folded) % 2 ^ 16 = 65535 - folded := by
  have hsplit : 2 ^ 32 - 1 - folded = (65535 - folded) + 2 ^ 16 * 65535 := by omega
  rw [hsplit, Nat.add_mul_mod_self_left, Nat.mod_eq_of_lt (by omega)]

theorem add_complement (h : sum < 2 ^ 32) :
    complement sum < 2 ^ 16 ∧ (sum + complement sum) % 65535 = 0 ∧ sum + complement sum ≠ 0 := by
  obtain ⟨hlt, hmod, hzero⟩ := foldSum_spec h
  rw [complement, low_word_not hlt]
  omega

theorem onesSum_store_complement (hl : l.length % 2 = 0) (hk : 2 * k + 2 ≤ len)
    (hzero : m.load (a + 2 * k) 2 = 0) (hsum : wordSum l + wordSum (m.slice a len) < 2 ^ 32) :
    onesSum (l ++ (m.store (a + 2 * k) 2 (complement (wordSum l + wordSum (m.slice a len)))).slice a len) =
      0xFFFF := by
  obtain ⟨hlt, hmod, hne⟩ := add_complement hsum
  have hstore := Bytes.wordSum_slice_store (m := m) (a := a) hk hlt
  rw [onesSum_eq_iff, wordSum_append hl]
  omega

/-! The three checksums of a frame. -/

theorem checksum_eq (h : len ≤ 65535) : checksum m a len = complement (wordSum (m.slice a len)) := by
  have hle := wordSum_le (m.slice a len)
  rw [Bytes.length_slice] at hle
  rw [checksum, sumWords_eq (by omega), Nat.zero_add]

theorem accumulators_lt_of_le (m : Bytes) (a : ℕ) (h : len ≤ 65535) :
    ∀ x ∈ accumulators m a len 0, x < 2 ^ 32 := by
  have hle := wordSum_le (m.slice a len)
  rw [Bytes.length_slice] at hle
  exact accumulators_lt (by omega)

theorem header_verifies {F : Type*} {L : Layout F} {f : F} (hoff : L.off f = 2 * k) (hlen : L.len f = 2)
    (hsize : L.size ≤ 65535) (hfield : L.get m a f = 0) :
    onesSum ((L.set m a f (checksum m a L.size)).slice a L.size) = 0xFFFF := by
  have hfits := L.fits f
  have hle := wordSum_le (m.slice a L.size)
  rw [Bytes.length_slice] at hle
  rw [Layout.get, hoff, hlen] at hfield
  rw [Layout.set, hoff, hlen, checksum_eq hsize]
  have hsum : wordSum [] + wordSum (m.slice a L.size) = wordSum (m.slice a L.size) := Nat.zero_add _
  rw [← hsum]
  have hlt : wordSum [] + wordSum (m.slice a L.size) < 2 ^ 32 := by omega
  exact onesSum_store_complement rfl (by omega) hfield hlt

theorem htons_toNat (x : UInt16) : (htons x).toNat = x.toNat / 256 + 256 * (x.toNat % 256) := by
  have hx := x.toNat_lt
  have hlow : ∀ n : ℕ, n &&& 255 = n % 2 ^ 8 := fun n => Nat.and_two_pow_sub_one_eq_mod n 8
  have hshift : (x.toNat % 2 ^ 8) <<< 8 % 2 ^ 16 = (x.toNat % 2 ^ 8) <<< 8 := by
    rw [Nat.shiftLeft_eq]
    omega
  unfold htons
  rw [UInt16.toNat_or, UInt16.toNat_and, UInt16.toNat_shiftRight, UInt16.toNat_shiftLeft,
    UInt16.toNat_and]
  show (x.toNat >>> 8 &&& 255) ||| (x.toNat &&& 255) <<< 8 % 2 ^ 16 = _
  rw [hlow, hlow, hshift, Nat.or_comm, ← Nat.shiftLeft_add_eq_or_of_lt (Nat.mod_lt _ (by decide)),
    Nat.shiftLeft_eq, Nat.shiftRight_eq_div_pow]
  omega

theorem address_terms (m : Bytes) (b : ℕ) :
    (m.load b 4 >>> 16 &&& 0xFFFF) + (m.load b 4 &&& 0xFFFF) = m.load b 2 + m.load (b + 2) 2 := by
  have hlow := Bytes.load_lt m b 2
  have hhigh := Bytes.load_lt m (b + 2) 2
  have hload : m.load b 4 = m.load b 2 + 2 ^ 16 * m.load (b + 2) 2 := by
    simp only [Bytes.load, Nat.add_assoc, Nat.reduceAdd]
    omega
  rw [hload, and_ffff, and_ffff, Nat.shiftRight_eq_div_pow]
  omega

theorem pseudoTerms_sum (m : Bytes) (ip : ℕ) (h : tcpLen ≤ 65535) :
    (pseudoTerms m ip tcpLen).sum = wordSum (pseudoHeader m ip tcpLen) := by
  have hsrc := address_terms m (ip + ipHdr.off .srcIp)
  have hdst := address_terms m (ip + ipHdr.off .dstIp)
  have hlen : (htons (UInt16.ofNat tcpLen)).toNat = tcpLen / 256 + 256 * (tcpLen % 256) := by
    rw [htons_toNat, UInt16.toNat_ofNat', Nat.mod_eq_of_lt (by omega)]
  have hhi : (UInt8.ofNat (tcpLen / 256)).toNat = tcpLen / 256 := by
    rw [UInt8.toNat_ofNat']
    omega
  have hlo : (UInt8.ofNat tcpLen).toNat = tcpLen % 256 := UInt8.toNat_ofNat'
  have hwords : wordSum (m.slice (ip + ipHdr.off .srcIp) 8) =
      m.load (ip + ipHdr.off .srcIp) 2 + m.load (ip + ipHdr.off .srcIp + 2) 2 +
        (m.load (ip + ipHdr.off .dstIp) 2 + m.load (ip + ipHdr.off .dstIp + 2) 2) := by
    simp only [Bytes.wordSum_slice_add_two, ipHdr, Nat.add_assoc]
    rfl
  have htail : wordSum [0, UInt8.ofNat ipProtoTcp, UInt8.ofNat (tcpLen / 256), UInt8.ofNat tcpLen] =
      (htons 6).toNat + (tcpLen / 256 + 256 * (tcpLen % 256)) := by
    simp only [wordSum, hhi, hlo]
    rfl
  rw [pseudoHeader, wordSum_append (by rw [Bytes.length_slice]), hwords, htail, ← hsrc, ← hdst, ← hlen]
  simp only [pseudoTerms, List.sum_cons, List.sum_nil, Nat.add_assoc, Nat.add_zero]
  rfl

theorem length_pseudoHeader (m : Bytes) (ip tcpLen : ℕ) : (pseudoHeader m ip tcpLen).length = 12 := by
  rw [pseudoHeader, List.length_append, Bytes.length_slice]
  rfl

theorem pseudoTerms_sum_le (m : Bytes) (ip : ℕ) (h : tcpLen ≤ 65535) :
    (pseudoTerms m ip tcpLen).sum ≤ 65535 * 6 := by
  have hle := wordSum_le (pseudoHeader m ip tcpLen)
  rw [length_pseudoHeader] at hle
  rw [pseudoTerms_sum m ip h]
  exact hle

theorem le_of_mem_scanl {terms : List ℕ} {x : ℕ} (h : x ∈ terms.scanl (· + ·) sum) :
    x ≤ sum + terms.sum := by
  induction terms generalizing sum with
  | nil => exact (List.mem_singleton.mp h).le
  | cons term terms ih =>
    rw [List.scanl_cons] at h
    rw [List.sum_cons]
    rcases List.mem_cons.mp h with rfl | h
    · omega
    · have hle := ih h
      omega

theorem tcpAccumulators_lt (m : Bytes) (ip tcp : ℕ) (h : tcpLen ≤ 65535) :
    ∀ x ∈ tcpAccumulators m ip tcp tcpLen, x < 2 ^ 32 := by
  have hterms := pseudoTerms_sum_le m ip h
  have hle := wordSum_le (m.slice tcp tcpLen)
  rw [Bytes.length_slice] at hle
  intro x hx
  rcases List.mem_append.mp hx with hx | hx
  · have hlast := le_of_mem_scanl hx
    omega
  · exact accumulators_lt (by omega) x hx

theorem tcpChecksum_eq (m : Bytes) (ip tcp : ℕ) (h : tcpLen ≤ 65535) : tcpChecksum m ip tcp tcpLen =
    complement (wordSum (pseudoHeader m ip tcpLen) + wordSum (m.slice tcp tcpLen)) := by
  have hterms := pseudoTerms_sum_le m ip h
  have hle := wordSum_le (m.slice tcp tcpLen)
  rw [Bytes.length_slice] at hle
  have hsum : tcpChecksum m ip tcp tcpLen =
      complement (sumWords m tcp tcpLen ((pseudoTerms m ip tcpLen).sum % 2 ^ 32)) := by
    simp only [pseudoTerms, List.sum_cons, List.sum_nil, ← Nat.add_assoc, Nat.add_zero]
    rfl
  rw [hsum, Nat.mod_eq_of_lt (by omega), sumWords_eq (by omega), pseudoTerms_sum m ip h]

theorem segment_verifies (hip : ip + ipHdr.size ≤ tcp) (hmin : tcpHdr.size ≤ tcpLen)
    (hmax : tcpLen ≤ 65535) (hfield : tcpHdr.get m tcp .checksum = 0) :
    onesSum (pseudoHeader (tcpHdr.set m tcp .checksum (tcpChecksum m ip tcp tcpLen)) ip tcpLen ++
      (tcpHdr.set m tcp .checksum (tcpChecksum m ip tcp tcpLen)).slice tcp tcpLen) = 0xFFFF := by
  have hterms := pseudoTerms_sum_le m ip hmax
  have hle := wordSum_le (m.slice tcp tcpLen)
  rw [Bytes.length_slice] at hle
  have hpseudo : ∀ v, pseudoHeader (tcpHdr.set m tcp .checksum v) ip tcpLen = pseudoHeader m ip tcpLen := by
    intro v
    refine congrArg (· ++ _) (Bytes.slice_congr fun i hi => set_of_outside (.inl ?_))
    simp only [ipHdr] at hip ⊢
    omega
  have hlt : wordSum (pseudoHeader m ip tcpLen) + wordSum (m.slice tcp tcpLen) < 2 ^ 32 := by
    rw [← pseudoTerms_sum m ip hmax]
    omega
  have heven : (pseudoHeader m ip tcpLen).length % 2 = 0 := by rw [length_pseudoHeader]
  have hfits : 2 * 8 + 2 ≤ tcpLen := hmin.trans' (by decide)
  rw [hpseudo, tcpChecksum_eq m ip tcp hmax]
  exact onesSum_store_complement heven hfits hfield hlt

/-! The frames. -/

theorem buildTcp_below (m : Bytes) (conn : TcpConnection) (flags : UInt8) {i : ℕ}
    (h : i < ethHlen + ipHdr.size) : buildTcp m conn flags i = m i := by
  unfold buildTcp
  simp only [set_of_outside (Or.inl h)]

theorem copyPayload_below (m : Bytes) (data : Option Bytes) (len : ℕ) {i : ℕ}
    (h : i < ethHlen + ipHdr.size) : copyPayload m data len i = m i := by
  cases data with
  | none => rfl
  | some data => exact Bytes.blit_of_lt (h.trans_le (Nat.le_add_right _ _))

theorem buildIp_verifies (m : Bytes) (conn : TcpConnection) (tcpLen : ℕ) :
    onesSum ((buildIp m conn tcpLen).slice ethHlen ipHdr.size) = 0xFFFF :=
  header_verifies (k := 5) rfl rfl (by decide) get_set_self

theorem buildIcmpIp_verifies (m : Bytes) (iface : NetInterface) (destIp : UInt32) :
    onesSum ((buildIcmpIp m iface destIp).slice ethHlen ipHdr.size) = 0xFFFF :=
  header_verifies (k := 5) rfl rfl (by decide) get_set_self

theorem tcpPacket_verifies (packet : Bytes) (iface : NetInterface) (conn : TcpConnection)
    (flags : UInt8) (data : Option Bytes) (h : tcpHdr.size + len ≤ 65535) :
    TcpVerifies (tcpPacket packet iface conn flags data len) (tcpHdr.size + len) where
  ip := by
    rw [← buildIp_verifies (buildEth packet iface) conn (tcpHdr.size + len)]
    refine congrArg onesSum (Bytes.slice_congr fun i hi => ?_)
    have hlt : ethHlen + i < ethHlen + ipHdr.size := by omega
    exact (set_of_outside (.inl hlt)).trans
      ((copyPayload_below _ _ _ hlt).trans (buildTcp_below _ _ _ hlt))
  tcp := by
    refine segment_verifies le_rfl (Nat.le_add_right _ _) h ?_
    rw [get_copyPayload _ le_rfl]
    exact get_set_self

theorem icmpPacket_verifies (packet : Bytes) (iface : NetInterface) (destIp : UInt32) (id seq : UInt16) :
    IcmpVerifies (icmpPacket packet iface destIp id seq) where
  ip := by
    rw [← buildIcmpIp_verifies ((ethHdr.set packet 0 .type (htons ethPIp).toNat).blit (ethHdr.off .src) 6
      iface.mac) iface destIp]
    refine congrArg onesSum (Bytes.slice_congr fun i hi => ?_)
    have hlt : ethHlen + i < ethHlen + ipHdr.size := by omega
    unfold icmpPacket
    simp only [set_of_outside (Or.inl hlt)]
  icmp := header_verifies (k := 1) rfl rfl (by decide) get_set_self

theorem icmpSendEcho_sent (n : Stack) (destIp : UInt32) (id seq : UInt16) :
    (icmpSendEcho n destIp id seq).2.sent = n.sent ∨
      ∃ packet iface, (icmpSendEcho n destIp id seq).2.sent =
        (icmpPacket packet iface destIp id seq, ethHlen + ipHdr.size + icmpHdr.size) :: n.sent := by
  unfold icmpSendEcho
  split
  · exact .inl rfl
  next iface _ =>
  dsimp only
  split
  · next n₁ halloc =>
    rw [← (Prod.mk.inj halloc).2]
    exact .inl rfl
  · next packet n₁ halloc =>
    rw [← (Prod.mk.inj halloc).2]
    dsimp only [Stack.transmit]
    split
    · exact .inr ⟨packet, iface, rfl⟩
    · exact .inl rfl

/-- Whatever the memory of the frame held, its checksums verify, and no accumulator overflows over
any bytes. -/
theorem emitted_checksums_verify (packet : Bytes) (iface : NetInterface) (conn : TcpConnection)
    (flags : UInt8) (data : Option Bytes) (len : ℕ) (destIp : UInt32) (id seq : UInt16)
    (h : tcpHdr.size + len ≤ 65535) :
    TcpVerifies (tcpPacket packet iface conn flags data len) (tcpHdr.size + len) ∧
      IcmpVerifies (icmpPacket packet iface destIp id seq) ∧
      (∀ m, ∀ x ∈ accumulators m ethHlen ipHdr.size 0, x < 2 ^ 32) ∧
      (∀ m, ∀ x ∈ tcpAccumulators m ethHlen (ethHlen + ipHdr.size) (tcpHdr.size + len), x < 2 ^ 32) ∧
      ∀ m, ∀ x ∈ accumulators m (ethHlen + ipHdr.size) icmpHdr.size 0, x < 2 ^ 32 :=
  ⟨tcpPacket_verifies packet iface conn flags data h, icmpPacket_verifies packet iface destIp id seq,
    fun m => accumulators_lt_of_le m _ (by decide), fun m => tcpAccumulators_lt m _ _ h,
    fun m => accumulators_lt_of_le m _ (by decide)⟩

theorem emitted_checksums_odd : TcpVerifies
    (tcpPacket (fun _ => 0) ⟨fun _ => 5, 1, true⟩ freshConnection tcpAck (some fun _ => 7) 1)
    (tcpHdr.size + 1) :=
  (emitted_checksums_verify _ _ freshConnection tcpAck _ 1 0 0 0 (by decide)).1

end GcAos.Net
