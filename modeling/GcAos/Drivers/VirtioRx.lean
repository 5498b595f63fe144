import GcAos.Drivers.VirtioNet

/-! The receive ring: the driver polls and the device completes in any order of steps. -/

namespace GcAos.Drivers
open Lib

/-- The driver with a device on its receive queue, the completions so far, and what has been handed to
`net_rx`. -/
structure RxRun where
  net : VirtioNet
  device : VirtqDevice := {}
  completions : List VirtqUsedElem := []
  handed : List NetRx := []

inductive RxStep
  | poll
  | take
  | fill (id : ℕ) (len : BitVec 32)
  | publish

namespace RxRun

variable (c : RxRun)

def setQ (q : VirtQueue) : RxRun := { c with net := { c.net with rxQ := q } }

def step : RxStep → Option RxRun
  | .poll => do
    let (net, rx) ← virtioNetPoll c.net
    return { c with net := net, handed := c.handed ++ rx.toList }
  | .take => some { c with device := c.device.take c.net.rxQ }
  | .fill id len => some { c.setQ (c.device.fillSlot c.net.rxQ id len) with device := c.device.fill id }
  | .publish => some { c.setQ (c.device.publishIdx c.net.rxQ) with
      device := c.device.publish
      completions := c.completions ++ [c.device.nextUsed c.net.rxQ] }

end RxRun

def RxStep.Allowed (c : RxRun) : RxStep → Prop
  | poll => True
  | take => c.device.lastAvail ≠ c.net.rxQ.availIdx
  | fill id len => id ∈ c.device.taken ∧ len.toNat ≤ packetSize
  | publish => c.device.published ≠ c.device.written

/-- What is handed to `net_rx` for completions: those that are longer than the header, without it. -/
def handOver (bufs : ℕ → ℕ) (polled : List VirtqUsedElem) : List NetRx :=
  (polled.filter fun e => netHdrSize < e.len.toNat).map fun e =>
    ⟨bufs e.id.toNat + netHdrSize, e.len.toNat - netHdrSize⟩

/-- Every descriptor is available, taken or completed, the completions have been polled in order,
and the slot that a poll would write holds no entry for the device. -/
structure RxOk (c : RxRun) : Prop where
  placed : (c.device.available c.net.rxQ ++ ((c.device.taken ++ c.device.filled c.net.rxQ) ++
    c.net.rxQ.completed.map fun e => e.id.toNat)).Perm (List.range virtQueueSize)
  handed : ∃ polled, c.completions = polled ++ c.net.rxQ.completed ∧
    c.handed = handOver c.net.rxQ.bufs polled
  kept : c.net.rxQ.lastUsedIdx ≠ c.net.rxQ.usedIdx →
    ∀ k < (c.net.rxQ.availIdx - c.device.lastAvail).toNat,
    (c.device.lastAvail.toNat + k) % virtQueueSize ≠ c.net.rxQ.availIdx.toNat % virtQueueSize

variable {c : RxRun} {q : VirtQueue} {d : VirtqDevice} {id : ℕ} {len : BitVec 32}

theorem size_dvd : virtQueueSize ∣ 2 ^ 16 := by decide

theorem size_lt : virtQueueSize < 2 ^ 16 := by decide

/-! What the device and the driver do to the entries. -/

theorem available_take (h : d.lastAvail ≠ q.availIdx) :
    d.available q = d.next q :: (d.take q).available q := by
  rw [VirtqDevice.available, ring_cons size_dvd h]
  rfl

theorem available_push {e : BitVec 16} (h : (q.availIdx - d.lastAvail).toNat < virtQueueSize) :
    d.available (q.pushAvail e) = d.available q ++ [e.toNat] := by
  rw [VirtqDevice.available, VirtQueue.pushAvail]
  dsimp only [VirtQueue.setAvail]
  rw [ring_push size_dvd size_lt h, List.map_append]
  rfl

theorem length_available : (d.available q).length = (q.availIdx - d.lastAvail).toNat := by
  rw [VirtqDevice.available, List.length_map, length_ring]

def unpolled (d : VirtqDevice) (q : VirtQueue) : List VirtqUsedElem :=
  ring virtQueueSize q.usedRing q.lastUsedIdx d.written

theorem unpolled_fill (h : (d.written - q.lastUsedIdx).toNat < virtQueueSize) :
    unpolled (d.fill id) (d.fillSlot q id len) = unpolled d q ++ [⟨.ofNat 32 id, len⟩] :=
  ring_push size_dvd size_lt h _

/-- The invariant of runs: the entries of the used ring are counted together. -/
structure RxInv (c : RxRun) : Prop where
  placed : (c.device.available c.net.rxQ ++ (c.device.taken ++
    (unpolled c.device c.net.rxQ).map fun e => e.id.toNat)).Perm (List.range virtQueueSize)
  index : c.net.rxQ.usedIdx = c.device.published
  covered : (c.net.rxQ.usedIdx - c.net.rxQ.lastUsedIdx).toNat ≤
    (c.device.written - c.net.rxQ.lastUsedIdx).toNat
  handed : ∃ polled, c.completions = polled ++ c.net.rxQ.completed ∧
    c.handed = handOver c.net.rxQ.bufs polled

namespace RxInv

theorem length (h : RxInv c) : (c.net.rxQ.availIdx - c.device.lastAvail).toNat +
    (c.device.taken.length + (c.device.written - c.net.rxQ.lastUsedIdx).toNat) = virtQueueSize := by
  have hlen := h.placed.length_eq
  rwa [List.length_append, List.length_append, length_available, List.length_map, unpolled, length_ring,
    List.length_range] at hlen

theorem unpolled_pos (h : RxInv c) (hne : c.net.rxQ.lastUsedIdx ≠ c.net.rxQ.usedIdx) :
    0 < (c.device.written - c.net.rxQ.lastUsedIdx).toNat := by
  have hsucc := toNat_sub_succ hne
  have hcovered := h.covered
  omega

theorem rxOk (h : RxInv c) : RxOk c where
  placed := by
    have hplaced := h.placed
    rw [unpolled, ring_append size_dvd h.covered, List.map_append] at hplaced
    rw [List.append_assoc, VirtqDevice.filled, ← h.index]
    refine (List.Perm.append_left _ (List.Perm.append_left _ ?_)).trans hplaced
    exact List.perm_append_comm
  handed := h.handed
  kept hne k hk := by
    have hlen := h.length
    have hpos := h.unpolled_pos hne
    have hslot := @ring_slot 16 virtQueueSize c.device.lastAvail c.net.rxQ.availIdx size_dvd
    rw [← hslot]
    intro heq
    have hmod : k ≡ (c.net.rxQ.availIdx - c.device.lastAvail).toNat [MOD virtQueueSize] :=
      Nat.ModEq.add_left_cancel' _ heq
    have := hmod.eq_of_lt_of_lt (by omega) (by omega)
    omega

theorem take (h : RxInv c) (hallowed : RxStep.Allowed c .take) :
    RxInv { c with device := c.device.take c.net.rxQ } where
  placed := by
    have hplaced := h.placed
    rw [available_take hallowed] at hplaced
    exact List.perm_middle.trans hplaced
  index := h.index
  covered := h.covered
  handed := h.handed

theorem fill (h : RxInv c) (hallowed : RxStep.Allowed c (.fill id len)) :
    RxInv { c.setQ (c.device.fillSlot c.net.rxQ id len) with device := c.device.fill id } := by
  have hmem := hallowed.1
  have hid : id < virtQueueSize := by
    refine List.mem_range.mp (h.placed.mem_iff.mp ?_)
    exact List.mem_append_right _ (List.mem_append_left _ hmem)
  have hpos := List.length_pos_of_mem hmem
  have hlen := h.length
  have hroom : (c.device.written - c.net.rxQ.lastUsedIdx).toNat < virtQueueSize := by omega
  have hnat : (BitVec.ofNat 32 id).toNat = id := by
    rw [BitVec.toNat_ofNat, Nat.mod_eq_of_lt (hid.trans (by decide))]
  refine ⟨?_, h.index, ?_, ?_⟩
  · have hunpolled : unpolled (c.device.fill id) (c.device.fillSlot c.net.rxQ id len) =
        unpolled c.device c.net.rxQ ++ [⟨.ofNat 32 id, len⟩] := unpolled_fill hroom
    have htaken : (c.device.taken.erase id ++ [id]).Perm c.device.taken :=
      (List.perm_append_singleton _ _).trans (List.perm_cons_erase hmem).symm
    dsimp only [RxRun.setQ]
    rw [hunpolled, List.map_append, List.map_singleton, hnat]
    refine List.Perm.trans (List.Perm.append_left _ ?_) h.placed
    calc (c.device.taken.erase id ++ ((unpolled c.device c.net.rxQ).map (fun e => e.id.toNat) ++ [id]))
      _ |>.Perm (c.device.taken.erase id ++ ([id] ++ (unpolled c.device c.net.rxQ).map fun e =>
        e.id.toNat)) :=
        List.Perm.append_left _ List.perm_append_comm
      _ = c.device.taken.erase id ++ [id] ++ (unpolled c.device c.net.rxQ).map fun e => e.id.toNat :=
        (List.append_assoc ..).symm
      _ |>.Perm (c.device.taken ++ (unpolled c.device c.net.rxQ).map fun e => e.id.toNat) :=
        htaken.append_right _
  · have hsucc : (c.device.written + 1 - c.net.rxQ.lastUsedIdx).toNat =
        (c.device.written - c.net.rxQ.lastUsedIdx).toNat + 1 := toNat_succ_sub (by
      have := size_lt
      omega)
    have hcovered := h.covered
    dsimp only [RxRun.setQ, VirtqDevice.fill, VirtqDevice.fillSlot]
    omega
  · have hsame : (c.device.fillSlot c.net.rxQ id len).completed = c.net.rxQ.completed := by
      unfold VirtQueue.completed
      dsimp only [VirtqDevice.fillSlot]
      rw [ring_take h.covered, ring_update size_dvd hroom, ← ring_take h.covered]
    dsimp only [RxRun.setQ]
    rw [hsame]
    exact h.handed

theorem publish (h : RxInv c) (hallowed : RxStep.Allowed c .publish) :
    RxInv { c.setQ (c.device.publishIdx c.net.rxQ) with
      device := c.device.publish
      completions := c.completions ++ [c.device.nextUsed c.net.rxQ] } := by
  have hlen := h.length
  have hcovered := h.covered
  rw [h.index] at hcovered
  have hlt : (c.device.published - c.net.rxQ.lastUsedIdx).toNat <
      (c.device.written - c.net.rxQ.lastUsedIdx).toNat :=
    lt_of_le_of_ne hcovered fun heq => hallowed (eq_of_toNat_sub_eq heq)
  have hsmall : (c.device.published - c.net.rxQ.lastUsedIdx).toNat + 1 < 2 ^ 16 := by
    have := size_lt
    omega
  refine ⟨h.placed, rfl, ?_, ?_⟩
  · dsimp only [RxRun.setQ, VirtqDevice.publish, VirtqDevice.publishIdx]
    rw [toNat_succ_sub hsmall]
    exact hlt
  · obtain ⟨polled, hcompletions, hhanded⟩ := h.handed
    refine ⟨polled, ?_, hhanded⟩
    dsimp only [RxRun.setQ, VirtqDevice.publishIdx, VirtqDevice.nextUsed]
    rw [VirtQueue.completed]
    dsimp only
    rw [ring_snoc size_dvd hsmall, hcompletions, List.append_assoc, VirtQueue.completed, h.index]

theorem handOver_snoc (bufs : ℕ → ℕ) (polled : List VirtqUsedElem) (e : VirtqUsedElem) :
    handOver bufs (polled ++ [e]) = handOver bufs polled ++
      (if netHdrSize < e.len.toNat then some (NetRx.mk (bufs e.id.toNat + netHdrSize)
        (e.len.toNat - netHdrSize))
        else none).toList := by
  unfold handOver
  rw [List.filter_append, List.map_append]
  by_cases hlong : netHdrSize < e.len.toNat
  · rw [List.filter_cons_of_pos (by simpa using hlong), if_pos hlong]
    rfl
  · rw [List.filter_cons_of_neg (by simpa using hlong), if_neg hlong]
    rfl

theorem poll (h : RxInv c) : ∃ t, c.step .poll = some t ∧ RxInv t := by
  unfold RxRun.step virtioNetPoll
  dsimp only
  by_cases hoff : c.net.netBase = false ∨ c.net.netIface = false
  · rw [if_pos hoff]
    refine ⟨_, rfl, h.placed, h.index, h.covered, ?_⟩
    rw [Option.toList_none, List.append_nil]
    exact h.handed
  rw [if_neg hoff]
  by_cases hidle : c.net.rxQ.lastUsedIdx = c.net.rxQ.usedIdx
  · rw [if_pos hidle]
    refine ⟨_, rfl, h.placed, h.index, h.covered, ?_⟩
    rw [Option.toList_none, List.append_nil]
    exact h.handed
  rw [if_neg hidle]
  have hlen := h.length
  have hpos := h.unpolled_pos hidle
  have hwritten : c.net.rxQ.lastUsedIdx ≠ c.device.written := by
    intro heq
    rw [heq, BitVec.sub_self, BitVec.toNat_zero] at hpos
    exact Nat.lt_irrefl 0 hpos
  generalize he : c.net.rxQ.usedRing (c.net.rxQ.lastUsedIdx.toNat % virtQueueSize) = e
  have hunpolled : unpolled c.device c.net.rxQ =
      e :: ring virtQueueSize c.net.rxQ.usedRing (c.net.rxQ.lastUsedIdx + 1) c.device.written := by
    rw [unpolled, ring_cons size_dvd hwritten, he]
  have hcompleted : c.net.rxQ.completed =
      e :: ring virtQueueSize c.net.rxQ.usedRing (c.net.rxQ.lastUsedIdx + 1) c.net.rxQ.usedIdx := by
    rw [VirtQueue.completed, ring_cons size_dvd hidle, he]
  have hplaced := h.placed
  rw [hunpolled, List.map_cons] at hplaced
  have hid : e.id.toNat < virtQueueSize := by
    refine List.mem_range.mp (hplaced.mem_iff.mp ?_)
    exact List.mem_append_right _ (List.mem_append_right _ List.mem_cons_self)
  have hnat : (e.id.setWidth 16).toNat = e.id.toNat := by
    rw [BitVec.toNat_setWidth, Nat.mod_eq_of_lt (hid.trans size_lt)]
  rw [if_neg (not_le.mpr hid)]
  refine ⟨_, rfl, ?_, h.index, ?_, ?_⟩
  · dsimp only
    have havail := available_push (q := c.net.rxQ) (d := c.device) (e := e.id.setWidth 16) (by omega)
    rw [hnat] at havail
    refine List.Perm.trans ?_ hplaced
    calc c.device.available (c.net.rxQ.pushAvail (e.id.setWidth 16)) ++ (c.device.taken ++
          (ring virtQueueSize c.net.rxQ.usedRing (c.net.rxQ.lastUsedIdx + 1) c.device.written).map
            fun e => e.id.toNat)
      _ = c.device.available c.net.rxQ ++ e.id.toNat :: (c.device.taken ++
          (ring virtQueueSize c.net.rxQ.usedRing (c.net.rxQ.lastUsedIdx + 1) c.device.written).map
            fun e => e.id.toNat) := by rw [havail, List.append_assoc]; rfl
      _ |>.Perm (c.device.available c.net.rxQ ++ (c.device.taken ++ e.id.toNat ::
          (ring virtQueueSize c.net.rxQ.usedRing (c.net.rxQ.lastUsedIdx + 1) c.device.written).map
            fun e => e.id.toNat)) := List.Perm.append_left _ List.perm_middle.symm
  · have hcovered := h.covered
    rw [toNat_sub_succ hidle, toNat_sub_succ hwritten] at hcovered
    exact Nat.le_of_succ_le_succ hcovered
  · obtain ⟨polled, hcompletions, hhanded⟩ := h.handed
    refine ⟨polled ++ [e], ?_, ?_⟩
    · rw [hcompletions, hcompleted, List.append_cons]
      rfl
    · dsimp only
      rw [hhanded]
      exact (handOver_snoc c.net.rxQ.bufs polled e).symm

theorem step (h : RxInv c) {s : RxStep} (hallowed : s.Allowed c) : ∃ t,
    c.step s = some t ∧ RxInv t := by
  cases s with
  | poll => exact h.poll
  | take => exact ⟨_, rfl, h.take hallowed⟩
  | fill id len => exact ⟨_, rfl, h.fill hallowed⟩
  | publish => exact ⟨_, rfl, h.publish hallowed⟩

end RxInv

theorem fillRx_range (buf : ℕ → ℕ) (q : VirtQueue) (m : ℕ) :
    (∀ i < m, ((List.range m).foldl (fun q i => q.fillRx buf i) q).availRing i = .ofNat 16 i) ∧
      ((List.range m).foldl (fun q i => q.fillRx buf i) q).usedIdx = q.usedIdx ∧
      ((List.range m).foldl (fun q i => q.fillRx buf i) q).lastUsedIdx = q.lastUsedIdx := by
  induction m with
  | zero => exact ⟨fun i hi => absurd hi (Nat.not_lt_zero i), rfl, rfl⟩
  | succ m ih =>
    obtain ⟨havail, hused, hlast⟩ := ih
    rw [List.range_succ, List.foldl_append, List.foldl_cons, List.foldl_nil]
    refine ⟨fun i hi => ?_, hused, hlast⟩
    dsimp only [VirtQueue.fillRx, VirtQueue.setAvail, VirtQueue.setDesc]
    rcases Nat.lt_succ_iff_lt_or_eq.mp hi with hlt | rfl
    · rw [Function.update_of_ne (Nat.ne_of_lt hlt)]
      exact havail i hlt
    · rw [Function.update_self]

/-- The driver after `virtio_net_init`, with a device that has done nothing yet. -/
def RxRun.start (n : VirtioNet) (iface : Bool) (rxBuf txBuf : ℕ → ℕ) : RxRun :=
  { net := (virtioNetInit n true iface rxBuf txBuf).1 }

theorem RxInv.start {n : VirtioNet} (iface : Bool) (rxBuf txBuf : ℕ → ℕ) (hused : n.rxQ.usedIdx = 0) :
    RxInv (.start n iface rxBuf txBuf) := by
  obtain ⟨havail, hidx, hlast⟩ := fillRx_range rxBuf n.rxQ.setupQueue virtQueueSize
  generalize hq : (List.range virtQueueSize).foldl (fun q i => q.fillRx rxBuf i) n.rxQ.setupQueue =
    q at *
  have hrx : (RxRun.start n iface rxBuf txBuf).net.rxQ =
      { q with availIdx := .ofNat 16 virtQueueSize } := by
    rw [← hq]
    rfl
  have hzero : q.usedIdx = 0 := hidx.trans hused
  have hlast : q.lastUsedIdx = 0 := hlast
  have havailable : VirtqDevice.available {} { q with availIdx := .ofNat 16 virtQueueSize } =
      List.range virtQueueSize := by
    have hmap : (List.range virtQueueSize).map
        (fun i => (q.availRing ((0 + i) % virtQueueSize)).toNat) =
          (List.range virtQueueSize).map fun i => i := by
      refine List.map_congr_left fun i hi => ?_
      have hi := List.mem_range.mp hi
      rw [Nat.zero_add, Nat.mod_eq_of_lt hi, havail i hi, BitVec.toNat_ofNat,
        Nat.mod_eq_of_lt (hi.trans size_lt)]
    rw [List.map_id'] at hmap
    have hlen : (BitVec.ofNat 16 virtQueueSize - 0).toNat = virtQueueSize := by decide
    rw [VirtqDevice.available, ring]
    dsimp only
    rw [hlen, window, List.map_map]
    exact hmap
  refine ⟨?_, ?_, ?_, ⟨[], ?_, rfl⟩⟩
  · rw [hrx]
    have hnone : unpolled {} { q with availIdx := .ofNat 16 virtQueueSize } = [] := by
      rw [unpolled]
      dsimp only
      rw [hlast]
      rfl
    change (VirtqDevice.available {} _ ++ ([] ++ (unpolled {} _).map _)).Perm _
    rw [havailable, hnone, List.map_nil, List.append_nil, List.append_nil]
  · rw [hrx]
    exact hzero
  · rw [hrx]
    dsimp only
    rw [hzero, hlast, BitVec.sub_self, BitVec.toNat_zero]
    exact Nat.zero_le _
  · rw [hrx, VirtQueue.completed]
    dsimp only
    rw [hzero, hlast, ring_self]
    rfl

theorem rx_delivered {n : VirtioNet} {iface : Bool} {rxBuf txBuf : ℕ → ℕ} {steps : List RxStep}
    (hused : n.rxQ.usedIdx = 0)
    (hsteps : Meets RxRun.step (fun c s => s.Allowed c) (.start n iface rxBuf txBuf) steps) :
    ∃ c, steps.foldlM RxRun.step (.start n iface rxBuf txBuf) = some c ∧ RxOk c := by
  obtain ⟨c, hrun, hinv⟩ := hsteps.foldlM (I := fun _ => RxInv) (N := steps.length) (k := 0)
    (fun k c s _ hc hs => hc.step hs) (RxInv.start iface rxBuf txBuf hused) (by omega)
  exact ⟨c, hrun, hinv.rxOk⟩

def VirtQueue.cleared : VirtQueue where
  desc _ := ⟨0, 0, 0, 0⟩
  availFlags := 0
  availIdx := 0
  availRing _ := 0
  usedIdx := 0
  usedRing _ := ⟨0, 0⟩
  lastUsedIdx := 0
  bufs _ := 0

def VirtioNet.cleared : VirtioNet where
  rxQ := .cleared
  txQ := .cleared
  mem _ := 0

theorem rx_delivered_one_packet : ∃ c, [RxStep.take, .fill 0 60, .publish, .poll].foldlM RxRun.step
    (.start .cleared true (fun i => 2048 * i) fun i => 2048 * (16 + i)) = some c ∧ RxOk c := by
  have htake : (0 : BitVec 16) ≠ 16 := by decide
  have hpublish : (0 : BitVec 16) ≠ 1 := by decide
  refine rx_delivered rfl ⟨htake, fun t ht => ?_⟩
  obtain rfl := Option.some.inj ht
  refine ⟨⟨List.mem_cons_self, by decide⟩, fun t ht => ?_⟩
  obtain rfl := Option.some.inj ht
  refine ⟨hpublish, fun t ht => ?_⟩
  obtain rfl := Option.some.inj ht
  exact ⟨trivial, fun t ht => trivial⟩

/-- A completion that is no longer than the header is polled and not handed to `net_rx`. -/
theorem short_completion : ∃ c, [RxStep.take, .fill 0 10, .publish, .poll].foldlM RxRun.step
    (.start .cleared true (fun i => 2048 * i) fun i => 2048 * (16 + i)) = some c ∧
      c.completions.length = 1 ∧ c.net.rxQ.completed = [] ∧ c.handed = [] :=
  ⟨_, rfl, rfl, rfl, rfl⟩

end GcAos.Drivers
