import GcAos.Lib.Bytes
import GcAos.Lib.Exec
import GcAos.Lib.Window
import Mathlib.Data.List.Nodup

/-! The queues of `drivers/network/virtio_net.c`, and a device that works on them. -/

namespace GcAos.Drivers
open Lib

def virtQueueSize : ℕ := 16

def descFWrite : BitVec 16 := 2

def packetSize : ℕ := 1524

def netHdrSize : ℕ := 10

structure VirtqDesc where
  addr : ℕ
  len : BitVec 32
  flags : BitVec 16
  next : BitVec 16

structure VirtqUsedElem where
  id : BitVec 32
  len : BitVec 32

/-- `struct virt_queue` with the three structures that it shares with the device. -/
structure VirtQueue where
  desc : ℕ → VirtqDesc
  availFlags : BitVec 16
  availIdx : BitVec 16
  availRing : ℕ → BitVec 16
  usedIdx : BitVec 16
  usedRing : ℕ → VirtqUsedElem
  lastUsedIdx : BitVec 16
  bufs : ℕ → ℕ

structure VirtioNet where
  netBase : Bool := false
  netIface : Bool := false
  rxQ : VirtQueue
  txQ : VirtQueue
  mem : Bytes

structure NetRx where
  data : ℕ
  len : ℕ

namespace VirtQueue

variable (q : VirtQueue)

def setDesc (i : ℕ) (d : VirtqDesc) : VirtQueue := { q with desc := Function.update q.desc i d }

def setAvail (slot : ℕ) (id : BitVec 16) : VirtQueue :=
  { q with availRing := Function.update q.availRing slot id }

/-- An entry for the device: `avail->ring[avail->idx % VIRT_QUEUE_SIZE] = id; avail->idx++`. -/
def pushAvail (id : BitVec 16) : VirtQueue :=
  { q.setAvail (q.availIdx.toNat % virtQueueSize) id with availIdx := q.availIdx + 1 }

/-- The indices that `setup_queue` sets. What `kmalloc` returns is not cleared, and `used->idx`
stays. -/
def setupQueue : VirtQueue := { q with lastUsedIdx := 0, availIdx := 0, availFlags := 0 }

def fillRx (buf : ℕ → ℕ) (i : ℕ) : VirtQueue :=
  let q := { q with bufs := Function.update q.bufs i (buf i) }
  let q := q.setDesc i ⟨buf i, .ofNat 32 packetSize, descFWrite, 0⟩
  q.setAvail i (.ofNat 16 i)

def fillTx (buf : ℕ → ℕ) (i : ℕ) : VirtQueue :=
  let q := { q with bufs := Function.update q.bufs i (buf i) }
  q.setDesc i { q.desc i with addr := buf i }

end VirtQueue

/-- `found` says whether there is a device, `iface` whether `net_add_interface` returns an
interface, and `rxBuf` and `txBuf` are the buffers that `kmalloc` returns. The queues of `n` hold
what is in the memory that `kmalloc` returns for them. -/
def virtioNetInit (n : VirtioNet) (found iface : Bool) (rxBuf txBuf : ℕ → ℕ) : VirtioNet × ℤ :=
  if found = false then ({ n with netBase := false }, -1)
  else
    let rxQ := (List.range virtQueueSize).foldl (fun q i => q.fillRx rxBuf i) n.rxQ.setupQueue
    let rxQ := { rxQ with availIdx := .ofNat 16 virtQueueSize }
    let txQ := (List.range virtQueueSize).foldl (fun q i => q.fillTx txBuf i) n.txQ.setupQueue
    ({ n with netBase := true, netIface := iface, rxQ := rxQ, txQ := txQ }, 0)

/-- One turn of the loop of `virtio_net_poll`, with the call of `net_rx` that it makes. `none` is for an
identifier that is beyond the end of `bufs`. -/
def virtioNetPoll (n : VirtioNet) : Option (VirtioNet × Option NetRx) :=
  if n.netBase = false ∨ n.netIface = false then some (n, none)
  else
    let q := n.rxQ
    if q.lastUsedIdx = q.usedIdx then some (n, none)
    else
      let e := q.usedRing (q.lastUsedIdx.toNat % virtQueueSize)
      if virtQueueSize ≤ e.id.toNat then none
      else
        let data := q.bufs e.id.toNat + netHdrSize
        let rx := if netHdrSize < e.len.toNat then some ⟨data, e.len.toNat - netHdrSize⟩ else none
        let q := q.pushAvail (e.id.setWidth 16)
        some ({ n with rxQ := { q with lastUsedIdx := q.lastUsedIdx + 1 } }, rx)

/-- `len` bytes of `data` are sent. -/
def virtioNetSend (n : VirtioNet) (data : Bytes) (len : ℕ) : VirtioNet × ℤ :=
  if n.netBase = false then (n, -1)
  else
    let q := n.txQ
    let descIdx := q.availIdx.toNat % virtQueueSize
    let hdr := q.bufs descIdx
    let mem := (n.mem.blit hdr netHdrSize fun _ => 0).blit (hdr + netHdrSize) len data
    let q := q.setDesc descIdx { q.desc descIdx with len := .ofNat 32 (netHdrSize + len), flags := 0 }
    ({ n with txQ := q.pushAvail (.ofNat 16 descIdx), mem := mem }, (BitVec.ofNat 32 len).toInt)

/-! The device. -/

/-- The indices that the device keeps: up to where it has read the available ring, written the used
ring, and advanced the used index. `taken` are the descriptors that it has not written to the used
ring yet. -/
structure VirtqDevice where
  lastAvail : BitVec 16 := 0
  written : BitVec 16 := 0
  published : BitVec 16 := 0
  taken : List ℕ := []

namespace VirtqDevice

variable (d : VirtqDevice) (q : VirtQueue)

def next : ℕ := (q.availRing (d.lastAvail.toNat % virtQueueSize)).toNat

def take : VirtqDevice := { d with lastAvail := d.lastAvail + 1, taken := d.next q :: d.taken }

def fill (id : ℕ) : VirtqDevice := { d with written := d.written + 1, taken := d.taken.erase id }

def fillSlot (id : ℕ) (len : BitVec 32) : VirtQueue :=
  { q with
    usedRing := Function.update q.usedRing (d.written.toNat % virtQueueSize) ⟨.ofNat 32 id, len⟩ }

def publish : VirtqDevice := { d with published := d.published + 1 }

/-- The used index that the driver sees then. -/
def publishIdx : VirtQueue := { q with usedIdx := d.published + 1 }

def nextUsed : VirtqUsedElem := q.usedRing (d.published.toNat % virtQueueSize)

def available : List ℕ := (ring virtQueueSize q.availRing d.lastAvail q.availIdx).map BitVec.toNat

/-- The descriptors in the used ring that the device has written and the index does not cover yet. -/
def filled : List ℕ := (ring virtQueueSize q.usedRing d.published d.written).map fun e => e.id.toNat

end VirtqDevice

def VirtQueue.completed (q : VirtQueue) : List VirtqUsedElem :=
  ring virtQueueSize q.usedRing q.lastUsedIdx q.usedIdx

end GcAos.Drivers
