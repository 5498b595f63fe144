import GcAos.Net.TcpStates

/-! Whether a connection is known by its addresses and ports: the local ports come from a counter
that goes round. -/

namespace GcAos.Net
open Lib

def TcpConnection.ends (c : TcpConnection) : UInt32 × UInt16 × UInt32 × UInt16 :=
  (c.remoteIp, c.remotePort, c.localIp, c.localPort)

namespace Stack

/-- The test in the loop of `tcp_find_connection`. -/
def isConnection (n : Stack) (remoteIp : UInt32) (remotePort : UInt16) (localIp : UInt32)
    (localPort : UInt16) (i : Fin maxTcpConnections) : Bool :=
  let c := n.tcpConnections i
  c.inUse && (c.remoteIp == remoteIp) && (c.remotePort == remotePort) && (c.localIp == localIp) &&
    (c.localPort == localPort)

def DistinctEnds (n : Stack) : Prop :=
  ∀ i j, (n.tcpConnections i).inUse = true → (n.tcpConnections j).inUse = true →
    (n.tcpConnections i).ends = (n.tcpConnections j).ends → i = j

/-- `tcp_find_connection` would find the same in a table that is searched in another order. -/
def FindsInAnyOrder (n : Stack) : Prop :=
  ∀ order : List (Fin maxTcpConnections), order.Perm (List.finRange maxTcpConnections) →
    ∀ remoteIp remotePort localIp localPort,
      order.find? (n.isConnection remoteIp remotePort localIp localPort) =
        tcpFindConnection n remoteIp remotePort localIp localPort

/-- `tcp_connect` has all it needs: a free slot, an interface, and memory for the SYN, which is the
third that it asks for. -/
structure Opens (n : Stack) (iface : NetInterface) : Prop where
  free : ∃ i, (n.tcpConnections i).inUse = false
  iface : n.iface = some iface
  memory : ((n.kmalloc.drop 2).head?).join.isSome = true

def Unused (n : Stack) : TcpCall → Prop
  | .connect destIp destPort => ∀ iface, n.Opens iface → ∀ j, (n.tcpConnections j).inUse = true →
      (n.tcpConnections j).ends ≠ (destIp, destPort, iface.ip, n.nextEphemeralPort)
  | _ => True

/-- A call with the results of `kmalloc` it meets. -/
def Step (n : Stack) (x : TcpCall × List (Option Bytes)) (n' : Stack) : Prop :=
  (n.withMem x.2).run x.1 = some n'

end Stack

structure Keeps (conn conn' : TcpConnection) : Prop where
  ends : conn'.ends = conn.ends
  inUse : conn'.inUse = true → conn.inUse = true

/-- A segment leaves the ends and all that is to be sent alone. -/
structure Receives (conn conn' : TcpConnection) : Prop extends Keeps conn conn' where
  sendBuf : conn'.sendBuf = conn.sendBuf
  sendLen : conn'.sendLen = conn.sendLen
  sendCapacity : conn'.sendCapacity = conn.sendCapacity

/-- The connection at `i` has been opened to `destIp` and `destPort`; the others are as they were. -/
structure Opened (n : Stack) (i : Fin maxTcpConnections) (iface : NetInterface) (destIp : UInt32)
    (destPort : UInt16) (n' : Stack) : Prop where
  free : (n.tcpConnections i).inUse = false
  others : ∀ j, j ≠ i → n'.tcpConnections j = n.tcpConnections j
  inUse : (n'.tcpConnections i).inUse = true
  state : (n'.tcpConnections i).state = .synSent
  ends : (n'.tcpConnections i).ends = (destIp, destPort, iface.ip, n.nextEphemeralPort)
  iface : n'.iface = n.iface
  port : n'.nextEphemeralPort = bumpPort n.nextEphemeralPort

section

variable {n n' : Stack} {i j : Fin maxTcpConnections} {conn conn' : TcpConnection} {s : Segment}
  {iface : NetInterface}

theorem Keeps.refl (conn : TcpConnection) : Keeps conn conn := ⟨rfl, id⟩

theorem Receives.refl (conn : TcpConnection) : Receives conn conn := ⟨.refl _, rfl, rfl, rfl⟩

theorem forall_of_set {R : TcpConnection → TcpConnection → Prop} (hrefl : ∀ conn, R conn conn)
    (h : n'.tcpConnections = (n.set i conn).tcpConnections) (hR : R (n.tcpConnections i) conn)
    (j : Fin maxTcpConnections) : R (n.tcpConnections j) (n'.tcpConnections j) := by
  rw [h]
  by_cases hj : j = i
  · subst hj
    rw [Stack.set_self]
    exact hR
  · rw [Stack.set_of_ne hj]
    exact hrefl _

/-! Calls other than `tcp_connect`. -/

theorem tcpSend_keeps {data : Bytes} {len : ℕ} {r : ℤ} (h : tcpSend n i data len = some (r, n'))
    (j : Fin maxTcpConnections) : Keeps (n.tcpConnections j) (n'.tcpConnections j) := by
  unfold tcpSend at h
  dsimp only at h
  split at h
  · cases h
    exact .refl _
  split at h
  · cases h
    exact .refl _
  split at h
  · exact absurd h (by simp)
  split at h
  · cases h
    refine forall_of_set Keeps.refl (Stack.set_last _ (tcpSendPacket_conns _ _ _ _ _)) ?_ j
    exact ⟨rfl, id⟩
  · cases h
    refine forall_of_set Keeps.refl (tcpSendPacket_conns _ _ _ _ _) ?_ j
    exact ⟨rfl, id⟩

theorem tcpRecv_keeps {len : ℕ} {r : ℤ} {bytes : List UInt8} (h : tcpRecv n i len = some (r, bytes, n'))
    (j : Fin maxTcpConnections) : Keeps (n.tcpConnections j) (n'.tcpConnections j) := by
  unfold tcpRecv at h
  dsimp only at h
  split at h
  · cases h
    exact .refl _
  split at h
  · exact absurd h (by simp)
  obtain ⟨buf, -, h⟩ := Option.bind_eq_some_iff.mp h
  cases h
  refine forall_of_set Keeps.refl rfl ?_ j
  exact ⟨rfl, id⟩

theorem tcpClose_keeps (n : Stack) (i j : Fin maxTcpConnections) :
    Keeps (n.tcpConnections j) ((tcpClose n i).2.tcpConnections j) := by
  unfold tcpClose
  dsimp only
  split
  · exact .refl _
  split
  · refine forall_of_set Keeps.refl (sendFin_conns n i _) ?_ j
    exact ⟨rfl, id⟩
  · refine forall_of_set Keeps.refl (sendFin_conns n i _) ?_ j
    exact ⟨rfl, id⟩
  · refine forall_of_set (i := i) Keeps.refl rfl ?_ j
    exact ⟨rfl, fun h => absurd h (by simp)⟩
  · refine forall_of_set (i := i) Keeps.refl rfl ?_ j
    exact ⟨rfl, fun h => absurd h (by simp)⟩
  · exact .refl _

theorem Stores.receives {data : Bytes} {dataLen : ℕ} (h : Stores conn s data dataLen conn') :
    Receives conn conn' := by
  cases h with
  | takes htakes =>
    cases htakes with
    | nothing => exact .refl _
    | fin => exact ⟨⟨rfl, id⟩, rfl, rfl, rfl⟩
    | data => exact ⟨⟨rfl, id⟩, rfl, rfl, rfl⟩
  | answers => exact ⟨⟨rfl, id⟩, rfl, rfl, rfl⟩
  | frees => exact ⟨⟨rfl, fun h => absurd h (by simp)⟩, rfl, rfl, rfl⟩

theorem tcpHandleSegment_receives {srcIp dstIp : UInt32} {tcp : Bytes} {tcpLen : ℕ}
    (h : tcpHandleSegment n srcIp dstIp tcp tcpLen = some n') (j : Fin maxTcpConnections) :
    Receives (n.tcpConnections j) (n'.tcpConnections j) := by
  rcases tcpHandleSegment_stores h with hsame | ⟨i, conn', hconns, hstores⟩
  · rw [hsame]
    exact .refl _
  · exact forall_of_set Receives.refl hconns hstores.receives j

theorem run_keeps {c : TcpCall} (hc : ∀ destIp destPort, c ≠ .connect destIp destPort)
    (h : n.run c = some n') (j : Fin maxTcpConnections) :
    Keeps (n.tcpConnections j) (n'.tcpConnections j) := by
  cases c with
  | addInterface iface =>
    cases h
    exact .refl _
  | connect destIp destPort => exact absurd rfl (hc _ _)
  | send i data len =>
    obtain ⟨⟨r, n₁⟩, hsend, rfl⟩ := Option.map_eq_some_iff.mp h
    exact tcpSend_keeps hsend j
  | recv i len =>
    obtain ⟨⟨r, bytes, n₁⟩, hrecv, rfl⟩ := Option.map_eq_some_iff.mp h
    exact tcpRecv_keeps hrecv j
  | close i =>
    cases h
    exact tcpClose_keeps n i j
  | segment srcIp dstIp tcp tcpLen => exact (tcpHandleSegment_receives h j).toKeeps

/-! `tcp_connect`. -/

theorem tcpSendPacket_frame (n : Stack) (conn : TcpConnection) (flags : UInt8) (data : Option Bytes)
    (len : ℕ) : (tcpSendPacket n conn flags data len).2.iface = n.iface ∧
      (tcpSendPacket n conn flags data len).2.nextEphemeralPort = n.nextEphemeralPort := by
  unfold tcpSendPacket
  cases hif : n.iface with
  | none => exact ⟨hif, rfl⟩
  | some iface =>
    dsimp only
    split
    · next heq =>
      rw [← (Prod.mk.inj heq).2]
      exact ⟨hif, rfl⟩
    · next heq =>
      rw [← (Prod.mk.inj heq).2]
      dsimp only [Stack.transmit]
      split
      · exact ⟨hif, rfl⟩
      · exact ⟨hif, rfl⟩

theorem tcpSendPacket_fst (hif : n.iface = some iface) (conn : TcpConnection) (flags : UInt8)
    (data : Option Bytes) (len : ℕ) :
    (tcpSendPacket n conn flags data len).1 = if (n.kmalloc.head?).join.isSome then 0 else -1 := by
  unfold tcpSendPacket Stack.alloc
  rw [hif]
  cases (n.kmalloc.head?).join with
  | none => rfl
  | some packet => rfl

theorem tcpConnect_some (destIp : UInt32) (destPort : UInt16)
    (hfree : (List.finRange maxTcpConnections).find? (fun i => !(n.tcpConnections i).inUse) = some i)
    (hif : n.iface = some iface) :
    ∃ n₂ conn, conn.inUse = true ∧ conn.state = .synSent ∧
      conn.ends = (destIp, destPort, iface.ip, n.nextEphemeralPort) ∧
      n₂.tcpConnections = (n.set i conn).tcpConnections ∧ n₂.iface = some iface ∧
      n₂.nextEphemeralPort = bumpPort n.nextEphemeralPort ∧ n₂.kmalloc = n.kmalloc.tail.tail ∧
      tcpConnect n destIp destPort =
        match tcpSendPacket n₂ conn tcpSyn none 0 with
        | (ret, n) =>
          if ret < 0 then (-1, tcpFreeConnection n i)
          else ((i : ℤ), n.set i { conn with seq := conn.seq + 1 }) := by
  unfold tcpConnect tcpAllocConnection
  rw [hfree]
  dsimp only [Stack.alloc, Stack.set]
  rw [hif]
  refine ⟨_, _, ?_, ?_, ?_, ?_, ?_, ?_, ?_, rfl⟩
  · dsimp only [tcpGenerateIsn]
    rw [Function.update_self]
  · rfl
  · rfl
  · exact Function.update_idem _ _ _
  · rfl
  · rfl
  · rfl

theorem tcpConnect_cases (n : Stack) (destIp : UInt32) (destPort : UInt16) :
    (∃ iface i, n.Opens iface ∧ Opened n i iface destIp destPort (tcpConnect n destIp destPort).2) ∨
      (∀ iface, ¬n.Opens iface) ∧ ∀ j, ((tcpConnect n destIp destPort).2.tcpConnections j).inUse =
        true →
        (tcpConnect n destIp destPort).2.tcpConnections j = n.tcpConnections j := by
  cases hfree : (List.finRange maxTcpConnections).find? fun i => !(n.tcpConnections i).inUse with
  | none =>
    have heq : tcpConnect n destIp destPort = (-1, n) := by
      unfold tcpConnect tcpAllocConnection
      rw [hfree]
    refine .inr ⟨fun iface hopens => ?_, fun _ _ => by rw [heq]⟩
    obtain ⟨i, hi⟩ := hopens.free
    have hno := List.find?_eq_none.mp hfree i (List.mem_finRange i)
    exact hno (by rw [hi]; rfl)
  | some i =>
    have huse : (n.tcpConnections i).inUse = false := by simpa using List.find?_some hfree
    -- whatever is stored at the slot, it is not in use after a failure
    have hfail : ∀ {m : Stack} {conn : TcpConnection},
        m.tcpConnections = (n.set i conn).tcpConnections →
        ∀ j, ((tcpFreeConnection m i).tcpConnections j).inUse = true →
          (tcpFreeConnection m i).tcpConnections j = n.tcpConnections j := by
      intro m conn hm j hj
      have hji : j ≠ i := by
        rintro rfl
        rw [tcpFreeConnection, Stack.set_self] at hj
        exact absurd hj (by simp)
      rw [tcpFreeConnection, Stack.set_of_ne hji, hm, Stack.set_of_ne hji]
    cases hif : n.iface with
    | none =>
      obtain ⟨m, conn, heq, hm⟩ : ∃ m conn, tcpConnect n destIp destPort = (-1, tcpFreeConnection m i) ∧
          m.tcpConnections = (n.set i conn).tcpConnections := by
        unfold tcpConnect tcpAllocConnection
        rw [hfree]
        dsimp only [Stack.alloc, Stack.set]
        rw [hif]
        exact ⟨_, _, rfl, rfl⟩
      rw [heq]
      exact .inr ⟨fun iface hopens => absurd (hif.symm.trans hopens.iface) (by simp), hfail hm⟩
    | some iface =>
      obtain ⟨n₂, conn, huse₂, hstate, hends, hconns, hif₂, hport, hmem, heq⟩ :=
        tcpConnect_some destIp destPort hfree hif
      have hsend := tcpSendPacket_fst hif₂ conn tcpSyn none 0
      obtain ⟨hif₃, hport₃⟩ := tcpSendPacket_frame n₂ conn tcpSyn none 0
      have hconns₃ := (tcpSendPacket_conns n₂ conn tcpSyn none 0).trans hconns
      have hdrop : n₂.kmalloc = n.kmalloc.drop 2 := by
        rw [hmem, ← List.drop_one, ← List.drop_one, List.drop_drop]
      rw [hdrop] at hsend
      rw [heq]
      dsimp only
      split
      · next hret =>
        refine .inr ⟨fun iface hopens => ?_, hfail hconns₃⟩
        rw [hsend, if_pos hopens.memory] at hret
        exact absurd hret (by decide)
      · next hret =>
        refine .inl ⟨iface, i, ⟨⟨i, huse⟩, hif, ?_⟩, huse, fun j hj => ?_, ?_, ?_, ?_, ?_, ?_⟩
        · by_contra hno
          rw [hsend, if_neg hno] at hret
          exact hret (by decide)
        · rw [Stack.set_of_ne hj, hconns₃, Stack.set_of_ne hj]
        · rw [Stack.set_self]
          exact huse₂
        · rw [Stack.set_self]
          exact hstate
        · rw [Stack.set_self]
          exact hends
        · exact hif₃.trans (hif₂.trans hif.symm)
        · exact hport₃.trans hport

/-! Runs. -/

theorem find?_perm {α : Type*} {l l' : List α} {p : α → Bool} (h : l.Perm l')
    (huniq : ∀ a b, p a = true → p b = true → a = b) : l.find? p = l'.find? p := by
  cases hl : l.find? p with
  | none =>
    symm
    rw [List.find?_eq_none] at hl ⊢
    exact fun a ha => hl a (h.mem_iff.mpr ha)
  | some a =>
    have ha := List.find?_some hl
    cases hl' : l'.find? p with
    | none => exact absurd ha (List.find?_eq_none.mp hl' a
        (h.mem_iff.mp (List.mem_of_find?_eq_some hl)))
    | some b => rw [huniq a b ha (List.find?_some hl')]

theorem isConnection_iff {remoteIp localIp : UInt32} {remotePort localPort : UInt16} :
    n.isConnection remoteIp remotePort localIp localPort i = true ↔
      (n.tcpConnections i).inUse = true ∧
        (n.tcpConnections i).ends = (remoteIp, remotePort, localIp, localPort) := by
  simp only [Stack.isConnection, TcpConnection.ends, Bool.and_eq_true, beq_iff_eq, Prod.mk.injEq,
    and_assoc]

theorem Stack.DistinctEnds.findsInAnyOrder (h : n.DistinctEnds) : n.FindsInAnyOrder := by
  intro order hperm remoteIp remotePort localIp localPort
  refine find?_perm hperm fun i j hi hj => ?_
  obtain ⟨hi, hiends⟩ := isConnection_iff.mp hi
  obtain ⟨hj, hjends⟩ := isConnection_iff.mp hj
  exact h i j hi hj (hiends.trans hjends.symm)

theorem Stack.DistinctEnds.of_keeps (h : n.DistinctEnds)
    (hkeeps : ∀ j, (n'.tcpConnections j).inUse = true →
      (n.tcpConnections j).inUse = true ∧ (n'.tcpConnections j).ends = (n.tcpConnections j).ends) :
    n'.DistinctEnds := by
  intro i j hi hj hij
  obtain ⟨hi, hiends⟩ := hkeeps i hi
  obtain ⟨hj, hjends⟩ := hkeeps j hj
  exact h i j hi hj (hiends.symm.trans (hij.trans hjends))

theorem Opened.distinctEnds_iff {destIp : UInt32} {destPort : UInt16}
    (ho : Opened n i iface destIp destPort n') (h : n.DistinctEnds) :
    n'.DistinctEnds ↔ ∀ j, (n.tcpConnections j).inUse = true →
      (n.tcpConnections j).ends ≠ (destIp, destPort, iface.ip, n.nextEphemeralPort) := by
  have hne : ∀ j, (n.tcpConnections j).inUse = true → j ≠ i := by
    rintro j hj rfl
    rw [ho.free] at hj
    exact absurd hj (by simp)
  constructor
  · intro hd j hj hends
    have hsame := ho.others j (hne j hj)
    refine hne j hj (hd j i ?_ ho.inUse ?_)
    · rw [hsame]
      exact hj
    · rw [hsame, hends, ho.ends]
  · intro hunused
    have hends : ∀ j, j ≠ i → (n'.tcpConnections j).inUse = true →
        (n'.tcpConnections j).ends ≠ (n'.tcpConnections i).ends := by
      intro j hj huse
      rw [ho.others j hj] at huse ⊢
      rw [ho.ends]
      exact hunused j huse
    intro j k hj hk hjk
    by_cases hji : j = i <;> by_cases hki : k = i
    · exact hji.trans hki.symm
    · subst hji
      exact absurd hjk.symm (hends k hki hk)
    · subst hki
      exact absurd hjk (hends j hji hj)
    · rw [ho.others j hji] at hj hjk
      rw [ho.others k hki] at hk hjk
      exact h j k hj hk hjk

theorem distinctEnds_step {x : TcpCall × List (Option Bytes)} (h : n.DistinctEnds)
    (hstep : n.Step x n') :
    n'.DistinctEnds ↔ (n.withMem x.2).Unused x.1 := by
  obtain ⟨c, mem⟩ := x
  have hmem : (n.withMem mem).DistinctEnds := h
  by_cases hc : ∀ destIp destPort, c ≠ .connect destIp destPort
  · refine iff_of_true (hmem.of_keeps fun j hj => ?_) ?_
    · have hkeeps := run_keeps hc hstep j
      exact ⟨hkeeps.inUse hj, hkeeps.ends⟩
    · cases c with
      | connect destIp destPort => exact absurd rfl (hc _ _)
      | _ => trivial
  · push Not at hc
    obtain ⟨destIp, destPort, rfl⟩ := hc
    obtain rfl : (tcpConnect (n.withMem mem) destIp destPort).2 = n' := Option.some.inj hstep
    rcases tcpConnect_cases (n.withMem mem) destIp destPort with ⟨iface, i, hopens, ho⟩ | ⟨hno, hsame⟩
    · rw [ho.distinctEnds_iff hmem]
      refine ⟨fun hunused iface' hopens' => ?_, fun hunused => hunused iface hopens⟩
      obtain rfl := Option.some.inj (hopens.iface.symm.trans hopens'.iface)
      exact hunused
    · refine iff_of_true (hmem.of_keeps fun j hj => ?_) fun iface hopens => absurd hopens (hno iface)
      rw [← hsame j hj]
      exact ⟨hj, rfl⟩

theorem distinctEnds_boot : boot.net.DistinctEnds := fun _ _ hi =>
    absurd hi (by simp [boot, freshConnection])

end

def UnusedRun (n : Stack) (calls : List (TcpCall × List (Option Bytes))) (n' : Stack) : Prop :=
  Exec (fun n x n' => (n.withMem x.2).Unused x.1 ∧ n.Step x n') n calls n'

/-- As long as no connection is opened with ends that are in use, the connections in use are told
apart by their ends; the first call that opens one makes two of them the same. -/
theorem connections_distinct {calls : List (TcpCall × List (Option Bytes))} {n : Stack}
    (hrun : UnusedRun boot.net calls n) :
    n.DistinctEnds ∧ n.FindsInAnyOrder ∧
      ∀ x n', n.Step x n' → (n'.DistinctEnds ↔ (n.withMem x.2).Unused x.1) := by
  have hn : n.DistinctEnds := by
    refine Exec.invariant (I := Stack.DistinctEnds) ?_ hrun distinctEnds_boot
    rintro n x n' hn ⟨hunused, hstep⟩
    exact (distinctEnds_step hn hstep).mpr hunused
  exact ⟨hn, hn.findsInAnyOrder, fun x n' hstep => distinctEnds_step hn hstep⟩

/-! A connection that lives as long as the counter needs to go round. -/

/-- Only the connection at `i` is in use, from port 49152 of host 1 to port 80 of host 2. -/
structure Lives (n : Stack) (i : Fin maxTcpConnections) (port : UInt16) : Prop where
  iface : n.iface = some sampleIface
  port : n.nextEphemeralPort = port
  inUse : (n.tcpConnections i).inUse = true
  ends : (n.tcpConnections i).ends = (2, 80, 1, 49152)
  free : ∀ j, j ≠ i → (n.tcpConnections j).inUse = false

def sampleStack : Stack := { boot.net.withMem [] with iface := some sampleIface }

section

variable {n n' : Stack} {i : Fin maxTcpConnections} {port : UInt16}

theorem boot_sampleStack : boot.net.Step (.addInterface sampleIface, []) sampleStack := rfl

theorem connect_opened (hif : n.iface = some sampleIface)
    (hfree : ∃ i, (n.tcpConnections i).inUse = false)
    (destIp : UInt32) (destPort : UInt16) :
    ∃ i n', n.Step (.connect destIp destPort, sampleMem) n' ∧
      Opened n i sampleIface destIp destPort n' := by
  rcases tcpConnect_cases (n.withMem sampleMem) destIp destPort with ⟨iface, i, hopens, ho⟩ | ⟨hno, -⟩
  · obtain rfl : sampleIface = iface := Option.some.inj (hif.symm.trans hopens.iface)
    exact ⟨i, _, rfl, ho.free, ho.others, ho.inUse, ho.state, ho.ends, ho.iface, ho.port⟩
  · exact absurd ⟨hfree, hif, rfl⟩ (hno sampleIface)

theorem sampleStack_lives : ∃ i n', sampleStack.Step (.connect 2 80, sampleMem) n' ∧
    Lives n' i 49153 := by
  obtain ⟨i, n', hstep, ho⟩ := connect_opened (n := sampleStack) rfl ⟨0, rfl⟩ 2 80
  refine ⟨i, n', hstep, ho.iface, ho.port, ho.inUse, ho.ends, fun j hj => ?_⟩
  rw [ho.others j hj]
  rfl

theorem Lives.exists_free (h : Lives n i port) : ∃ j, (n.tcpConnections j).inUse = false := by
  by_cases hi : i = 0
  · exact ⟨1, h.free 1 (by rw [hi]; decide)⟩
  · exact ⟨0, h.free 0 (Ne.symm hi)⟩

theorem Lives.turn (h : Lives n i port) :
    ∃ calls n', Exec Stack.Step n calls n' ∧ Lives n' i (bumpPort port) := by
  obtain ⟨k, n₁, hstep, ho⟩ := connect_opened h.iface h.exists_free 2 81
  have hki : i ≠ k := by
    rintro rfl
    exact absurd (ho.free.symm.trans h.inUse) (by simp)
  have hclose : tcpClose (n₁.withMem []) k = (0, tcpFreeConnection (n₁.withMem []) k) := by
    have huse : ((n₁.withMem []).tcpConnections k).inUse = true := ho.inUse
    have hstate : ((n₁.withMem []).tcpConnections k).state = .synSent := ho.state
    unfold tcpClose
    dsimp only
    rw [huse, hstate]
    rfl
  have hstep' : n₁.Step (.close k, []) (tcpFreeConnection (n₁.withMem []) k) := by
    show some (tcpClose (n₁.withMem []) k).2 = _
    rw [hclose]
  have hkeep : ∀ j, j ≠ k →
      (tcpFreeConnection (n₁.withMem []) k).tcpConnections j = n.tcpConnections j := fun j hj =>
    (Stack.set_of_ne hj).trans (ho.others j hj)
  refine ⟨_, tcpFreeConnection (n₁.withMem []) k, .cons hstep (.cons hstep' (.nil _)),
    ho.iface.trans h.iface, ?_, ?_, ?_, fun j hj => ?_⟩
  · exact ho.port.trans (by rw [h.port])
  · rw [hkeep i hki]
    exact h.inUse
  · rw [hkeep i hki]
    exact h.ends
  · by_cases hjk : j = k
    · subst hjk
      rw [tcpFreeConnection, Stack.set_self]
    · rw [hkeep j hjk]
      exact h.free j hj

theorem Lives.not_distinct (k : ℕ) (h : Lives n i port) (hport : bumpPort^[k] port = 49152) :
    ∃ calls n', Exec Stack.Step n calls n' ∧ ¬n'.DistinctEnds := by
  induction k generalizing n port with
  | zero =>
    obtain ⟨j, n', hstep, ho⟩ := connect_opened h.iface h.exists_free 2 80
    have hji : i ≠ j := by
      rintro rfl
      exact absurd (ho.free.symm.trans h.inUse) (by simp)
    refine ⟨_, n', .cons hstep (.nil _), fun hd => hji (hd i j ?_ ho.inUse ?_)⟩
    · rw [ho.others i hji]
      exact h.inUse
    · rw [ho.others i hji, ho.ends, h.ends, h.port, show port = 49152 from hport]
      rfl
  | succ k ih =>
    obtain ⟨calls, n₁, hturn, h₁⟩ := h.turn
    obtain ⟨calls', n', hrun, hno⟩ := ih h₁ hport
    exact ⟨_, n', hturn.append hrun, hno⟩

theorem bumpPort_iterate {k : ℕ} (hk : k ≤ 15847) :
    bumpPort^[k] 49153 = UInt16.ofNat (49153 + k) := by
  induction k with
  | zero => rfl
  | succ k ih =>
    have hnext : UInt16.ofNat (49153 + k) + 1 = UInt16.ofNat (49153 + (k + 1)) :=
      (UInt16.ofNat_add _ _).symm
    have hle : ¬UInt16.ofNat (49153 + (k + 1)) > 65000 := by
      rw [gt_iff_lt, UInt16.lt_iff_toNat_lt, UInt16.toNat_ofNat']
      show ¬65000 < (49153 + (k + 1)) % 2 ^ 16
      omega
    rw [Function.iterate_succ_apply', ih (by omega), bumpPort, hnext]
    exact if_neg hle

end

theorem connections_distinct_two : ∃ n, UnusedRun boot.net
      [(.addInterface sampleIface, []), (.connect 2 80, sampleMem), (.connect 2 80, sampleMem)] n ∧
    n.nextEphemeralPort = 49154 ∧ n.DistinctEnds := by
  obtain ⟨i, n₁, hstep₁, h⟩ := sampleStack_lives
  obtain ⟨k, n₂, hstep₂, ho⟩ := connect_opened h.iface h.exists_free 2 80
  have hrun : UnusedRun boot.net
      [(.addInterface sampleIface, []), (.connect 2 80, sampleMem), (.connect 2 80, sampleMem)] n₂ := by
    refine .cons ⟨trivial, boot_sampleStack⟩ (.cons ⟨?_, hstep₁⟩ (.cons ⟨?_, hstep₂⟩ (.nil _)))
    · intro iface _ j hj
      exact absurd hj (by simp [sampleStack, boot, freshConnection, Stack.withMem])
    · intro iface _ j hj hends
      have hji : j = i := by
        by_contra hne
        exact absurd ((h.free j hne).symm.trans hj) (by simp)
      subst hji
      have hport : (49152 : UInt16) = n₁.nextEphemeralPort :=
        congrArg (fun e : UInt32 × UInt16 × UInt32 × UInt16 => e.2.2.2) (h.ends.symm.trans hends)
      rw [h.port] at hport
      exact absurd hport (by decide)
  refine ⟨n₂, hrun, ?_, (connections_distinct hrun).1⟩
  rw [ho.port, h.port]
  rfl

theorem local_port_reused : ¬∀ (calls : List (TcpCall × List (Option Bytes))) (n : Stack),
    Exec Stack.Step boot.net calls n → n.DistinctEnds := by
  intro hall
  obtain ⟨i, n₁, hstep, h⟩ := sampleStack_lives
  have hport : bumpPort^[15848] 49153 = 49152 := by
    rw [Function.iterate_succ_apply', bumpPort_iterate le_rfl]
    rfl
  obtain ⟨calls, n', hrun, hno⟩ := h.not_distinct 15848 hport
  exact hno (hall _ n' (.cons boot_sampleStack (.cons hstep hrun)))

end GcAos.Net
