import GcAos.Drivers.VirtioRx
import GcAos.Lib.Bits

/-! The transmit ring: frames are sent and the device completes them in any order. -/

namespace GcAos.Drivers
open Lib

/-- The bytes that are passed to `virtio_net_send`. -/
def frame (data : Bytes) (len : ℕ) : List UInt8 := (List.range len).map data

def onWire (f : List UInt8) : List UInt8 := List.replicate netHdrSize 0 ++ f

def readDesc (desc : ℕ → VirtqDesc) (mem : Bytes) (id : ℕ) : List UInt8 :=
  (List.range (desc id).len.toNat).map fun i => mem ((desc id).addr + i)

/-- The driver with a device on its transmit queue, the frames for which `virtio_net_send` has returned
their length, and what the device has read. -/
structure TxRun where
  net : VirtioNet
  device : VirtqDevice := {}
  accepted : List (List UInt8) := []
  seen : List (List UInt8) := []

inductive TxStep
  | send (data : Bytes) (len : ℕ)
  | take
  | fill (id : ℕ) (len : BitVec 32)
  | publish

namespace TxRun

variable (c : TxRun)

def setQ (q : VirtQueue) : TxRun := { c with net := { c.net with txQ := q } }

def step : TxStep → TxRun
  | .send data len =>
    let (net, ret) := virtioNetSend c.net data len
    { c with net := net, accepted := if ret = len then c.accepted ++ [frame data len] else c.accepted }
  | .take =>
    { c with device := c.device.take c.net.txQ
             seen := c.seen ++ [readDesc c.net.txQ.desc c.net.mem (c.device.next c.net.txQ)] }
  | .fill id len => { c.setQ (c.device.fillSlot c.net.txQ id len) with device := c.device.fill id }
  | .publish => { c.setQ (c.device.publishIdx c.net.txQ) with device := c.device.publish }

/-- The descriptors that are available or that the device has taken, and that the used index does not
cover yet. -/
def outstanding : List ℕ := c.device.available c.net.txQ ++
    (c.device.taken ++ c.device.filled c.net.txQ)

def nextDesc : ℕ := c.net.txQ.availIdx.toNat % virtQueueSize

end TxRun

namespace TxStep

def Allowed (c : TxRun) : TxStep → Prop
  | send .. => True
  | take => c.device.lastAvail ≠ c.net.txQ.availIdx
  | fill id _ => id ∈ c.device.taken
  | publish => c.device.published ≠ c.device.written

def Safe (c : TxRun) : TxStep → Prop
  | send _ len => c.net.netBase = true → c.nextDesc ∉ c.outstanding ∧ netHdrSize + len ≤ packetSize
  | _ => True

end TxStep

def BufsApart (bufs : ℕ → ℕ) : Prop := ∀ i < virtQueueSize, ∀ j < virtQueueSize, i ≠ j →
  bufs i + packetSize ≤ bufs j ∨ bufs j + packetSize ≤ bufs i

structure TxOk (c : TxRun) : Prop where
  nodup : c.outstanding.Nodup
  seen : ∃ delivered waiting, c.accepted = delivered ++ waiting ∧ c.seen = delivered.map onWire ∧
    (c.device.available c.net.txQ).map (readDesc c.net.txQ.desc c.net.mem) = waiting.map onWire

/-- What a call of `virtio_net_send` writes. -/
structure SendOk (c : TxRun) (data : Bytes) (len : ℕ) : Prop where
  inside : ∀ a, a < c.net.txQ.bufs c.nextDesc ∨ c.net.txQ.bufs c.nextDesc + packetSize ≤ a →
    (virtioNetSend c.net data len).1.mem a = c.net.mem a
  descs : ∀ id ∈ c.outstanding, (virtioNetSend c.net data len).1.txQ.desc id = c.net.txQ.desc id
  buffers : ∀ id ∈ c.outstanding, ∀ i < packetSize,
    (virtioNetSend c.net data len).1.mem (c.net.txQ.bufs id + i) = c.net.mem (c.net.txQ.bufs id + i)

variable {c t : TxRun} {q : VirtQueue} {d : VirtqDevice} {id len : ℕ} {data : Bytes}
  {frameOf : ℕ → List UInt8}

theorem filled_fill {l : BitVec 32} (h : (d.written - d.published).toNat < virtQueueSize)
    (hid : id < virtQueueSize) :
    (d.fill id).filled (d.fillSlot q id l) = d.filled q ++ [id] := by
  have hnat : (BitVec.ofNat 32 id).toNat = id := by
    rw [BitVec.toNat_ofNat, Nat.mod_eq_of_lt (hid.trans (by decide))]
  unfold VirtqDevice.filled
  dsimp only [VirtqDevice.fill, VirtqDevice.fillSlot]
  rw [ring_push size_dvd size_lt h, List.map_append, List.map_singleton, hnat]

theorem filled_publish (h : d.published ≠ d.written) :
    d.filled q = (d.nextUsed q).id.toNat :: d.publish.filled (d.publishIdx q) := by
  unfold VirtqDevice.filled
  rw [ring_cons size_dvd h]
  rfl

theorem readDesc_sent {desc : ℕ → VirtqDesc} {mem : Bytes} {a : ℕ}
    (hlen : (desc id).len.toNat = netHdrSize + len)
    (haddr : (desc id).addr = a) :
    readDesc desc ((mem.blit a netHdrSize fun _ => 0).blit (a + netHdrSize) len data) id =
      onWire (frame data len) := by
  unfold readDesc onWire frame
  rw [hlen, haddr, List.range_add, List.map_append, List.map_map]
  congr 1
  · rw [List.eq_replicate_iff]
    refine ⟨by rw [List.length_map, List.length_range], fun b hb => ?_⟩
    obtain ⟨i, hi, rfl⟩ := List.mem_map.mp hb
    have hi := List.mem_range.mp hi
    rw [Bytes.blit_of_lt (by omega)]
    exact @Bytes.blit_of_mem mem (fun _ => 0) _ _ i hi
  · refine List.map_congr_left fun i hi => ?_
    rw [Function.comp_apply, ← Nat.add_assoc]
    exact Bytes.blit_of_mem (List.mem_range.mp hi)

/-- The invariant of runs: `frameOf` is the frame that each outstanding descriptor holds. -/
structure TxInv (frameOf : ℕ → List UInt8) (c : TxRun) : Prop where
  nodup : c.outstanding.Nodup
  lt : ∀ id ∈ c.outstanding, id < virtQueueSize
  addr : ∀ id < virtQueueSize, (c.net.txQ.desc id).addr = c.net.txQ.bufs id
  apart : BufsApart c.net.txQ.bufs
  content : ∀ id ∈ c.outstanding, (c.net.txQ.desc id).len.toNat ≤ packetSize ∧
    readDesc c.net.txQ.desc c.net.mem id = onWire (frameOf id)
  seen : ∃ delivered, c.accepted = delivered ++ (c.device.available c.net.txQ).map frameOf ∧
    c.seen = delivered.map onWire

namespace TxInv

theorem txOk (h : TxInv frameOf c) : TxOk c where
  nodup := h.nodup
  seen := by
    obtain ⟨delivered, haccepted, hseen⟩ := h.seen
    refine ⟨delivered, _, haccepted, hseen, ?_⟩
    rw [List.map_map]
    exact List.map_congr_left fun id hid => (h.content id (List.mem_append_left _ hid)).2

theorem length_le (h : TxInv frameOf c) {free : List ℕ} (hnodup : (free ++ c.outstanding).Nodup)
    (hlt : ∀ id ∈ free, id < virtQueueSize) : free.length + c.outstanding.length ≤ virtQueueSize := by
  have hsub : free ++ c.outstanding ⊆ List.range virtQueueSize := by
    intro id hid
    rcases List.mem_append.mp hid with hid | hid
    · exact List.mem_range.mpr (hlt id hid)
    · exact List.mem_range.mpr (h.lt id hid)
  have hle := (hnodup.subperm hsub).length_le
  rwa [List.length_append, List.length_range] at hle

theorem shrink (h : TxInv frameOf c) (hsub : t.outstanding.Subperm c.outstanding)
    (hdesc : t.net.txQ.desc = c.net.txQ.desc) (hbufs : t.net.txQ.bufs = c.net.txQ.bufs)
    (hmem : t.net.mem = c.net.mem)
    (hseen : ∃ delivered, t.accepted = delivered ++ (t.device.available t.net.txQ).map frameOf ∧
      t.seen = delivered.map onWire) : TxInv frameOf t where
  nodup := by
    obtain ⟨l, hperm, hl⟩ := hsub
    exact hperm.nodup_iff.mp (h.nodup.sublist hl)
  lt id hid := h.lt id (hsub.subset hid)
  addr := by rw [hdesc, hbufs]; exact h.addr
  apart := by rw [hbufs]; exact h.apart
  content id hid := by rw [hdesc, hmem]; exact h.content id (hsub.subset hid)
  seen := hseen

theorem take (h : TxInv frameOf c) (hallowed : TxStep.Allowed c .take) :
    TxInv frameOf (c.step .take) := by
  have havail := available_take (q := c.net.txQ) hallowed
  refine h.shrink (List.Perm.subperm ?_) rfl rfl rfl ?_
  · unfold TxRun.outstanding
    rw [havail]
    exact List.perm_middle
  · obtain ⟨delivered, haccepted, hseen⟩ := h.seen
    have hmem : c.device.next c.net.txQ ∈ c.outstanding := by
      refine List.mem_append_left _ ?_
      rw [havail]
      exact List.mem_cons_self
    refine ⟨delivered ++ [frameOf (c.device.next c.net.txQ)], ?_, ?_⟩
    · rw [List.append_assoc]
      exact haccepted.trans (by rw [havail]; rfl)
    · rw [List.map_append, ← hseen, List.map_singleton, ← (h.content _ hmem).2]
      rfl

theorem fill (h : TxInv frameOf c) {l : BitVec 32} (hallowed : TxStep.Allowed c (.fill id l)) :
    TxInv frameOf (c.step (.fill id l)) := by
  have hid : id < virtQueueSize := h.lt id (List.mem_append_right _ (List.mem_append_left _ hallowed))
  have hlen := @length_le c frameOf h [] h.nodup fun _ hmem => absurd hmem List.not_mem_nil
  have hpos := List.length_pos_of_mem hallowed
  have hroom : (c.device.written - c.device.published).toNat < virtQueueSize := by
    have hfilled : (c.device.filled c.net.txQ).length =
        (c.device.written - c.device.published).toNat := by
      rw [VirtqDevice.filled, List.length_map, length_ring]
    rw [TxRun.outstanding, List.length_append, List.length_append, List.length_nil] at hlen
    omega
  refine h.shrink (List.Perm.subperm ?_) rfl rfl rfl h.seen
  unfold TxRun.outstanding TxRun.step
  dsimp only [TxRun.setQ]
  rw [filled_fill hroom hid]
  refine List.Perm.append_left _ ?_
  calc c.device.taken.erase id ++ (c.device.filled c.net.txQ ++ [id])
    _ |>.Perm (c.device.taken.erase id ++ id :: c.device.filled c.net.txQ) :=
      List.Perm.append_left _ (List.perm_append_singleton _ _)
    _ |>.Perm (id :: (c.device.taken.erase id ++ c.device.filled c.net.txQ)) := List.perm_middle
    _ |>.Perm (c.device.taken ++ c.device.filled c.net.txQ) :=
      (List.perm_cons_erase hallowed).symm.append_right _

theorem publish (h : TxInv frameOf c) (hallowed : TxStep.Allowed c .publish) :
    TxInv frameOf (c.step .publish) := by
  refine h.shrink (List.Sublist.subperm ?_) rfl rfl rfl h.seen
  unfold TxRun.outstanding TxRun.step
  dsimp only [TxRun.setQ]
  rw [filled_publish (q := c.net.txQ) hallowed]
  exact List.Sublist.append_left (List.Sublist.append_left (List.sublist_cons_self _ _) _) _

theorem nextDesc_lt (c : TxRun) : c.nextDesc < virtQueueSize := Nat.mod_lt _ (by decide)

def sentMem (c : TxRun) (data : Bytes) (len : ℕ) : Bytes :=
  (c.net.mem.blit (c.net.txQ.bufs c.nextDesc) netHdrSize fun _ => 0).blit
    (c.net.txQ.bufs c.nextDesc + netHdrSize) len data

def sentDesc (c : TxRun) (len : ℕ) : VirtqDesc :=
  { c.net.txQ.desc c.nextDesc with len := .ofNat 32 (netHdrSize + len), flags := 0 }

theorem send_on (hon : c.net.netBase = true) (data : Bytes) (len : ℕ) :
    virtioNetSend c.net data len = ({ c.net with
      txQ := (c.net.txQ.setDesc c.nextDesc (sentDesc c len)).pushAvail (.ofNat 16 c.nextDesc),
      mem := sentMem c data len }, (BitVec.ofNat 32 len).toInt) := by
  unfold virtioNetSend
  rw [if_neg (by rw [hon]; exact Bool.noConfusion)]
  rfl

theorem send_off (hoff : c.net.netBase = false) (data : Bytes) (len : ℕ) :
    virtioNetSend c.net data len = (c.net, -1) := by
  unfold virtioNetSend
  exact if_pos hoff

theorem sentMem_outside {a : ℕ} (data : Bytes)
    (ha : a < c.net.txQ.bufs c.nextDesc ∨ c.net.txQ.bufs c.nextDesc + (netHdrSize + len) ≤ a) :
    sentMem c data len a = c.net.mem a := by
  unfold sentMem
  rcases ha with ha | ha
  · rw [Bytes.blit_of_lt (by omega), Bytes.blit_of_lt ha]
  · rw [Bytes.blit_of_le (by omega), Bytes.blit_of_le (by omega)]

theorem sentMem_other (h : TxInv frameOf c) (hfits : netHdrSize + len ≤ packetSize)
    (hid : id < virtQueueSize)
    (hne : id ≠ c.nextDesc) (data : Bytes) {i : ℕ} (hi : i < packetSize) :
    sentMem c data len (c.net.txQ.bufs id + i) = c.net.mem (c.net.txQ.bufs id + i) := by
  refine sentMem_outside data ?_
  rcases h.apart id hid c.nextDesc (nextDesc_lt c) hne with hle | hle
  · exact .inl (by omega)
  · exact .inr (by omega)

theorem sendOk (h : TxInv frameOf c) (hsafe : TxStep.Safe c (.send data len)) : SendOk c data len := by
  cases hbase : c.net.netBase with
  | false =>
    have hoff := send_off hbase data len
    exact ⟨fun a _ => by rw [hoff], fun id _ => by rw [hoff], fun id _ i _ => by rw [hoff]⟩
  | true =>
    obtain ⟨hfree, hfits⟩ := hsafe hbase
    have hon := send_on hbase data len
    have hne : ∀ id ∈ c.outstanding, id ≠ c.nextDesc := fun id hid => ne_of_mem_of_not_mem hid hfree
    refine ⟨fun a ha => ?_, fun id hid => ?_, fun id hid i hi => ?_⟩
    · rw [hon]
      exact sentMem_outside data (by omega)
    · rw [hon]
      exact Function.update_of_ne (hne id hid) ..
    · rw [hon]
      exact sentMem_other h hfits (h.lt id hid) (hne id hid) data hi

theorem available_send (h : TxInv frameOf c) (hfree : c.nextDesc ∉ c.outstanding) (x : VirtqDesc) :
    c.device.available ((c.net.txQ.setDesc c.nextDesc x).pushAvail (.ofNat 16 c.nextDesc)) =
      c.device.available c.net.txQ ++ [c.nextDesc] := by
  have hroom : (c.net.txQ.availIdx - c.device.lastAvail).toNat < virtQueueSize := by
    have hle := @length_le c frameOf h [c.nextDesc] (List.nodup_cons.mpr ⟨hfree, h.nodup⟩) (by
      rintro id hid
      rw [List.mem_singleton.mp hid]
      exact nextDesc_lt c)
    rw [TxRun.outstanding, List.length_append, length_available, List.length_singleton] at hle
    omega
  have hpush := available_push (q := c.net.txQ.setDesc c.nextDesc x) (d := c.device)
    (e := .ofNat 16 c.nextDesc) hroom
  have hnat : (BitVec.ofNat 16 c.nextDesc).toNat = c.nextDesc := by
    rw [BitVec.toNat_ofNat, Nat.mod_eq_of_lt ((nextDesc_lt c).trans size_lt)]
  rw [hnat] at hpush
  exact hpush

theorem send (h : TxInv frameOf c) (hsafe : TxStep.Safe c (.send data len)) :
    ∃ frameOf', TxInv frameOf' (c.step (.send data len)) := by
  cases hbase : c.net.netBase with
  | false =>
    refine ⟨frameOf, ?_⟩
    have hneg : (-1 : ℤ) ≠ len := by omega
    rw [TxRun.step, send_off hbase]
    dsimp only
    rw [if_neg hneg]
    exact h
  | true =>
    obtain ⟨hfree, hfits⟩ := hsafe hbase
    have hbound : packetSize < 2 ^ 31 := by decide
    have hret : (BitVec.ofNat 32 len).toInt = len := toInt_ofNat (by omega)
    have havail := available_send h hfree (sentDesc c len)
    refine ⟨Function.update frameOf c.nextDesc (frame data len), ?_⟩
    rw [TxRun.step, send_on hbase]
    dsimp only
    rw [if_pos hret]
    have hperm : (c.device.available c.net.txQ ++ [c.nextDesc] ++
        (c.device.taken ++ c.device.filled c.net.txQ)).Perm (c.nextDesc :: c.outstanding) := by
      rw [← List.append_cons]
      exact List.perm_middle
    have hne : ∀ id ∈ c.outstanding, id ≠ c.nextDesc := fun id hid => ne_of_mem_of_not_mem hid hfree
    have hlen : (sentDesc c len).len.toNat = netHdrSize + len := by
      rw [sentDesc, BitVec.toNat_ofNat, Nat.mod_eq_of_lt (by omega)]
    have houtstanding : ∀ u : TxRun, u.device = c.device →
        u.net.txQ = (c.net.txQ.setDesc c.nextDesc (sentDesc c len)).pushAvail (.ofNat 16 c.nextDesc) →
        u.outstanding.Perm (c.nextDesc :: c.outstanding) := by
      rintro u hdevice hq
      rw [TxRun.outstanding, hdevice, hq, havail]
      exact hperm
    have hplaced := houtstanding ⟨{ c.net with
      txQ := (c.net.txQ.setDesc c.nextDesc (sentDesc c len)).pushAvail (.ofNat 16 c.nextDesc)
      mem := sentMem c data len }, c.device, c.accepted ++ [frame data len], c.seen⟩ rfl rfl
    refine ⟨hplaced.nodup_iff.mpr (List.nodup_cons.mpr ⟨hfree, h.nodup⟩), fun id hid => ?_,
      fun id hid => ?_,
      h.apart, fun id hid => ?_, ?_⟩
    · rcases List.mem_cons.mp (hplaced.mem_iff.mp hid) with rfl | hid
      · exact nextDesc_lt c
      · exact h.lt id hid
    · change (Function.update c.net.txQ.desc c.nextDesc (sentDesc c len) id).addr = c.net.txQ.bufs id
      by_cases heq : id = c.nextDesc
      · subst heq
        rw [Function.update_self]
        exact h.addr _ hid
      · rw [Function.update_of_ne heq]
        exact h.addr id hid
    · change (Function.update c.net.txQ.desc c.nextDesc (sentDesc c len) id).len.toNat ≤ packetSize ∧
        readDesc (Function.update c.net.txQ.desc c.nextDesc (sentDesc c len)) (sentMem c data len) id =
          onWire (Function.update frameOf c.nextDesc (frame data len) id)
      rcases List.mem_cons.mp (hplaced.mem_iff.mp hid) with rfl | hid
      · have hself : Function.update c.net.txQ.desc c.nextDesc (sentDesc c len) c.nextDesc =
          sentDesc c len :=
          Function.update_self ..
        refine ⟨by rw [hself, hlen]; exact hfits, ?_⟩
        rw [Function.update_self]
        exact readDesc_sent (by rw [hself, hlen]) (by rw [hself]; exact h.addr _ (nextDesc_lt c))
      · obtain ⟨hsmall, hread⟩ := h.content id hid
        have hidlt := h.lt id hid
        have hdesc : Function.update c.net.txQ.desc c.nextDesc (sentDesc c len) id =
            c.net.txQ.desc id :=
          Function.update_of_ne (hne id hid) ..
        refine ⟨by rwa [hdesc], ?_⟩
        rw [Function.update_of_ne (hne id hid), ← hread, readDesc, readDesc, hdesc]
        refine List.map_congr_left fun i hi => ?_
        rw [h.addr id hidlt]
        exact sentMem_other h hfits hidlt (hne id hid) data ((List.mem_range.mp hi).trans_le hsmall)
    · obtain ⟨delivered, haccepted, hseen⟩ := h.seen
      refine ⟨delivered, ?_, hseen⟩
      dsimp only
      have hsame : (c.device.available c.net.txQ).map
          (Function.update frameOf c.nextDesc (frame data len)) =
          (c.device.available c.net.txQ).map frameOf := List.map_congr_left fun id hid =>
        Function.update_of_ne (hne id (List.mem_append_left _ hid)) ..
      rw [havail, List.map_append, hsame, List.map_singleton, Function.update_self, haccepted,
        List.append_assoc]

theorem step (h : TxInv frameOf c) {s : TxStep} (hallowed : s.Allowed c) (hsafe : s.Safe c) :
    ∃ frameOf', TxInv frameOf' (c.step s) := by
  cases s with
  | send data len => exact h.send hsafe
  | take => exact ⟨frameOf, h.take hallowed⟩
  | fill id l => exact ⟨frameOf, h.fill hallowed⟩
  | publish => exact ⟨frameOf, h.publish hallowed⟩

end TxInv

theorem fillTx_range (buf : ℕ → ℕ) (q : VirtQueue) (m : ℕ) :
    (∀ i < m, (((List.range m).foldl (fun q i => q.fillTx buf i) q).desc i).addr = buf i ∧
      ((List.range m).foldl (fun q i => q.fillTx buf i) q).bufs i = buf i) ∧
      ((List.range m).foldl (fun q i => q.fillTx buf i) q).availIdx = q.availIdx := by
  induction m with
  | zero => exact ⟨fun i hi => absurd hi (Nat.not_lt_zero i), rfl⟩
  | succ m ih =>
    obtain ⟨hbuf, hidx⟩ := ih
    rw [List.range_succ, List.foldl_append, List.foldl_cons, List.foldl_nil]
    refine ⟨fun i hi => ?_, hidx⟩
    dsimp only [VirtQueue.fillTx, VirtQueue.setDesc]
    rcases Nat.lt_succ_iff_lt_or_eq.mp hi with hlt | rfl
    · rw [Function.update_of_ne (Nat.ne_of_lt hlt), Function.update_of_ne (Nat.ne_of_lt hlt)]
      exact hbuf i hlt
    · rw [Function.update_self, Function.update_self]
      exact ⟨rfl, rfl⟩

/-- The driver after `virtio_net_init`, with a device that has done nothing yet. -/
def TxRun.start (n : VirtioNet) (iface : Bool) (rxBuf txBuf : ℕ → ℕ) : TxRun :=
  { net := (virtioNetInit n true iface rxBuf txBuf).1 }

theorem TxInv.start (n : VirtioNet) (iface : Bool) (rxBuf : ℕ → ℕ) {txBuf : ℕ → ℕ}
    (hbufs : BufsApart txBuf) :
    TxInv (fun _ => []) (.start n iface rxBuf txBuf) := by
  obtain ⟨hbuf, hidx⟩ := fillTx_range txBuf n.txQ.setupQueue virtQueueSize
  have htx : (TxRun.start n iface rxBuf txBuf).net.txQ =
      (List.range virtQueueSize).foldl (fun q i => q.fillTx txBuf i) n.txQ.setupQueue := rfl
  generalize (List.range virtQueueSize).foldl (fun q i => q.fillTx txBuf i) n.txQ.setupQueue = q at *
  have hnone : (TxRun.start n iface rxBuf txBuf).outstanding = [] := by
    have havail : VirtqDevice.available {} q = [] := by
      have hzero : q.availIdx = 0 := hidx
      rw [VirtqDevice.available, hzero, ring_self]
      rfl
    have hfilled : VirtqDevice.filled {} q = [] := by
      rw [VirtqDevice.filled, ring_self]
      rfl
    rw [TxRun.outstanding, htx]
    change VirtqDevice.available {} q ++ ([] ++ VirtqDevice.filled {} q) = []
    rw [havail, hfilled]
    rfl
  refine ⟨?_, ?_, ?_, ?_, ?_, [], ?_, rfl⟩
  · rw [hnone]
    exact List.nodup_nil
  · rw [hnone]
    exact fun _ hid => absurd hid List.not_mem_nil
  · rw [htx]
    exact fun id hid => (hbuf id hid).1.trans (hbuf id hid).2.symm
  · rw [htx]
    intro i hi j hj hne
    rw [(hbuf i hi).2, (hbuf j hj).2]
    exact hbufs i hi j hj hne
  · rw [hnone]
    exact fun _ hid => absurd hid List.not_mem_nil
  · have havail := (List.append_eq_nil_iff.mp hnone).1
    rw [havail]
    rfl

theorem tx_delivered {n : VirtioNet} {iface : Bool} {rxBuf txBuf : ℕ → ℕ} {steps : List TxStep}
    (hbufs : BufsApart txBuf)
    (hsteps : Meets (fun c s => some (c.step s)) (fun c s => s.Allowed c ∧ s.Safe c)
      (.start n iface rxBuf txBuf) steps) :
    TxOk (steps.foldl TxRun.step (.start n iface rxBuf txBuf)) ∧
      ∀ data len, TxStep.Safe (steps.foldl TxRun.step (.start n iface rxBuf txBuf)) (.send data len) →
        SendOk (steps.foldl TxRun.step (.start n iface rxBuf txBuf)) data len := by
  obtain ⟨c, hrun, frameOf, hinv⟩ := hsteps.foldlM (I := fun _ c => ∃ frameOf, TxInv frameOf c)
    (N := steps.length) (k := 0)
    (fun k c s _ ⟨frameOf, hc⟩ hs => ⟨_, rfl, hc.step hs.1 hs.2⟩)
    ⟨_, TxInv.start n iface rxBuf hbufs⟩ (by omega)
  have hfold : steps.foldlM (fun c s => some (TxRun.step c s)) (.start n iface rxBuf txBuf) =
      some (steps.foldl TxRun.step (.start n iface rxBuf txBuf)) := List.foldlM_pure
  rw [Option.some.inj (hfold.symm.trans hrun)]
  exact ⟨hinv.txOk, fun data len hsafe => hinv.sendOk hsafe⟩

def pageBufs (i : ℕ) : ℕ := 2048 * (16 + i)

theorem pageBufs_apart : BufsApart pageBufs := by
  intro i _ j _ hne
  unfold pageBufs packetSize
  omega

theorem tx_delivered_one_frame :
    TxOk ([TxStep.send (fun _ => 7) 60, .take, .fill 0 0, .publish].foldl TxRun.step
      (.start .cleared true (fun i => 2048 * i) pageBufs)) ∧
    ∀ data len, TxStep.Safe ([TxStep.send (fun _ => 7) 60, .take, .fill 0 0, .publish].foldl TxRun.step
      (.start .cleared true (fun i => 2048 * i) pageBufs)) (.send data len) →
    SendOk ([TxStep.send (fun _ => 7) 60, .take, .fill 0 0, .publish].foldl TxRun.step
      (.start .cleared true (fun i => 2048 * i) pageBufs)) data len := by
  refine tx_delivered pageBufs_apart ⟨⟨trivial, fun _ => ⟨List.not_mem_nil, by decide⟩⟩, fun t ht => ?_⟩
  obtain rfl := Option.some.inj ht
  have htake : (0 : BitVec 16) ≠ 1 := by decide
  refine ⟨⟨htake, trivial⟩, fun t ht => ?_⟩
  obtain rfl := Option.some.inj ht
  refine ⟨⟨List.mem_cons_self, trivial⟩, fun t ht => ?_⟩
  obtain rfl := Option.some.inj ht
  exact ⟨⟨htake, trivial⟩, fun t ht => trivial⟩

/-- Seventeen frames are sent before the device takes any: the last one replaces the first in its
buffer. -/
theorem burst_overwrites :
    let c := (List.replicate 16 (TxStep.send (fun _ => 7) 60)).foldl TxRun.step
      (.start .cleared true (fun i => 2048 * i) pageBufs)
    0 ∈ c.outstanding ∧ c.net.mem (c.net.txQ.bufs 0 + netHdrSize) = 7 ∧
      c.net.mem (c.net.txQ.bufs 0 + packetSize) = 0 ∧
      (virtioNetSend c.net (fun _ => 8) 60).1.mem (c.net.txQ.bufs 0 + netHdrSize) = 8 ∧
      (virtioNetSend c.net (fun _ => 8) 1515).1.mem (c.net.txQ.bufs 0 + packetSize) = 8 := by
  decide

end GcAos.Drivers
