import GcAos.Lib.SlotCache
import GcAos.Net.Dns
import GcAos.Net.TcpStates

/-! The caches of addresses: `arp_cache` in `kernel/net/tcp_ip.c` and `dns_cache` in
`kernel/net/dns.c`. -/

namespace GcAos.Net
open Lib

def arpLookup (n : Stack) (ip : UInt32) : Option ArpEntry :=
  ((List.finRange arpCacheSize).find? fun i => (n.arpCache i).valid && ((n.arpCache i).ip == ip)).map
    n.arpCache

/-- The calls of `arp_add`, in order. -/
def arpAdds (n : Stack) (calls : List (UInt32 × Bytes)) : Stack :=
  calls.foldl (fun n call => arpAdd n call.1 call.2) n

def macBytes (mac : Bytes) : Fin 6 → UInt8 := fun k => mac k

def ArpEntry.binding (e : ArpEntry) : Option (UInt32 × (Fin 6 → UInt8)) :=
  if e.valid then some (e.ip, macBytes e.mac) else none

def arpSlots (cache : Fin arpCacheSize → ArpEntry) : SlotCache arpCacheSize UInt32 (Fin 6 → UInt8) :=
  ArpEntry.binding ∘ cache

instance : NeZero arpCacheSize := ⟨by decide⟩

section
variable {cache : Fin arpCacheSize → ArpEntry} {n : Stack} {ip : UInt32} {mac : Bytes}

/-- One turn of the loop of `arp_add`, with the slot, its time and whether the loop has been left. -/
def arpStep (cache : Fin arpCacheSize → ArpEntry) (best : Fin arpCacheSize × ℕ × Bool)
    (i : Fin arpCacheSize) : Fin arpCacheSize × ℕ × Bool :=
  if best.2.2 then best
  else if !(cache i).valid then (i, best.2.1, true)
  else if (cache i).timestamp < best.2.1 then (i, (cache i).timestamp, false)
  else best

theorem foldl_arpStep_left (l : List (Fin arpCacheSize)) (best : Fin arpCacheSize × ℕ) :
    l.foldl (arpStep cache) (best.1, best.2, true) = (best.1, best.2, true) := by
  induction l with
  | nil => rfl
  | cons i l ih => exact ih

theorem foldl_arpStep (l : List (Fin arpCacheSize)) (best : Fin arpCacheSize) :
    (l.foldl (arpStep cache) (best, 0, false)).1 = (l.find? fun i => !(cache i).valid).getD best := by
  induction l with
  | nil => rfl
  | cons i l ih =>
    rw [List.foldl_cons, List.find?_cons]
    cases hvalid : (cache i).valid with
    | true =>
      have hstep : arpStep cache (best, 0, false) i = (best, 0, false) := by simp [arpStep, hvalid]
      rw [hstep, ih]
      rfl
    | false =>
      have hstep : arpStep cache (best, 0, false) i = (i, 0, true) := by simp [arpStep, hvalid]
      rw [hstep, foldl_arpStep_left l (i, 0)]
      rfl

def Timeless (cache : Fin arpCacheSize → ArpEntry) : Prop :=
  ∀ i, (cache i).valid = true → (cache i).timestamp = 0

theorem arpSlot_eq (h : Timeless cache) : arpSlot cache = (arpSlots cache).free.getD 0 := by
  have hfold : arpSlot cache =
      ((List.finRange arpCacheSize).foldl (arpStep cache) (0, 2 ^ 64 - 1, false)).1 := rfl
  obtain ⟨l, hrange⟩ : ∃ l, List.finRange arpCacheSize = 0 :: l := ⟨_, List.finRange_succ⟩
  have hfree : (arpSlots cache).free = (List.finRange arpCacheSize).find? fun i => !(cache i).valid := by
    rw [SlotCache.free, firstSlot]
    refine congrArg (List.find? · _) (funext fun i => ?_)
    rw [arpSlots, Function.comp_apply, ArpEntry.binding]
    cases (cache i).valid <;> rfl
  rw [hfold, hfree, hrange, List.foldl_cons, List.find?_cons]
  cases hvalid : (cache 0).valid with
  | true =>
    have hstep : arpStep cache (0, 2 ^ 64 - 1, false) 0 = (0, 0, false) := by
      simp [arpStep, hvalid, h 0 hvalid]
    rw [hstep, foldl_arpStep]
    rfl
  | false =>
    have hstep : arpStep cache (0, 2 ^ 64 - 1, false) 0 = (0, 2 ^ 64 - 1, true) := by
      simp [arpStep, hvalid]
    rw [hstep, foldl_arpStep_left _ (0, 2 ^ 64 - 1)]
    rfl

theorem arpSlots_add (ip : UInt32) (mac : Bytes) (h : Timeless n.arpCache) :
    Timeless (arpAdd n ip mac).arpCache ∧
      arpSlots (arpAdd n ip mac).arpCache = (arpSlots n.arpCache).add (ip, macBytes mac) := by
  unfold arpAdd
  rw [arpSlot_eq h]
  generalize hslot : (arpSlots n.arpCache).free.getD 0 = slot
  refine ⟨fun i hi => ?_, ?_⟩
  · by_cases hsame : i = slot
    · rw [hsame]
      simp
    · dsimp only at hi ⊢
      rw [Function.update_of_ne hsame] at hi ⊢
      exact h i hi
  · rw [SlotCache.add, hslot]
    exact Function.comp_update _ _ _ _

theorem arpSlots_adds (calls : List (UInt32 × Bytes)) (hempty : ∀ i, (n.arpCache i).valid = false) :
    Timeless (arpAdds n calls).arpCache ∧ arpSlots (arpAdds n calls).arpCache =
      (calls.map fun call => (call.1, macBytes call.2)).foldl SlotCache.add fun _ => none := by
  induction calls using List.reverseRecOn with
  | nil =>
    refine ⟨fun i hi => ?_, funext fun i => ?_⟩
    · exact absurd ((hempty i).symm.trans hi) (by decide)
    · exact if_neg (by rw [arpAdds, List.foldl_nil, hempty i]; decide)
  | append_singleton calls call ih =>
    rw [arpAdds, List.foldl_append, List.map_append, List.foldl_append]
    obtain ⟨htime, hslots⟩ := arpSlots_add call.1 call.2 ih.1
    exact ⟨htime, hslots.trans (congrArg (SlotCache.add · _) ih.2)⟩

theorem arpLookup_eq (n : Stack) (ip : UInt32) :
    (arpLookup n ip).map (fun e => macBytes e.mac) = (arpSlots n.arpCache).search ip := by
  have hfind : (firstSlot fun i => (arpSlots n.arpCache i).any fun e => e.1 = ip) =
      (List.finRange arpCacheSize).find? fun i => (n.arpCache i).valid && ((n.arpCache i).ip == ip) := by
    refine congrArg (List.find? · _) (funext fun i => ?_)
    rw [arpSlots, Function.comp_apply, ArpEntry.binding]
    cases (n.arpCache i).valid with
    | true => exact (beq_eq_decide _ _).symm
    | false => rfl
  rw [arpLookup, SlotCache.search, hfind]
  rcases hi : (List.finRange arpCacheSize).find? fun i =>
    (n.arpCache i).valid && ((n.arpCache i).ip == ip) with _ | i
  · rfl
  · have hvalid : (n.arpCache i).valid = true := (Bool.and_eq_true _ _ ▸ List.find?_some hi).1
    rw [Option.bind_some, arpSlots, Function.comp_apply, ArpEntry.binding, if_pos hvalid]
    rfl

theorem arp_latest_iff (calls : List (UInt32 × Bytes)) (hempty : ∀ i, (n.arpCache i).valid = false) :
    (∃ e, arpLookup (arpAdd (arpAdds n calls) ip mac) ip = some e ∧ macBytes e.mac = macBytes mac) ↔
      arpCacheSize ≤ calls.length ∨
        ∀ call, calls.find? (fun call => call.1 = ip) = some call → macBytes call.2 = macBytes mac := by
  obtain ⟨htime, hslots⟩ := arpSlots_adds calls hempty
  have hsearch := arpLookup_eq (arpAdd (arpAdds n calls) ip mac) ip
  rw [(arpSlots_add ip mac htime).2, hslots] at hsearch
  have hiff := SlotCache.search_add_iff (n := arpCacheSize)
    (calls.map fun call => (call.1, macBytes call.2)) ip (macBytes mac)
  rw [← hsearch, List.length_map] at hiff
  refine Iff.trans ?_ (hiff.trans (or_congr_right ?_))
  · rw [Option.map_eq_some_iff]
  · rw [SlotCache.firstValue, List.find?_map, Option.map_map]
    refine ⟨fun h call hcall => ?_, fun h w hw => ?_⟩
    · exact h _ (Option.map_eq_some_iff.mpr ⟨call, hcall, rfl⟩)
    · obtain ⟨call, hcall, rfl⟩ := Option.map_eq_some_iff.mp hw
      exact h call hcall

end

end GcAos.Net

namespace GcAos.Dns
open Lib

def dnsCacheSize : ℕ := 64

structure DnsCacheEntry where
  -- `char name[DNS_MAX_NAME_LEN]`
  name : Bytes
  ip : UInt32
  ttl : UInt32
  timestamp : ℕ
  valid : Bool

abbrev DnsCache := Fin dnsCacheSize → DnsCacheEntry

instance : NeZero dnsCacheSize := ⟨by decide⟩

/-- The loop that compares names, from index `j` on. -/
def sameName (m : Bytes) : ℕ → List UInt8 → Bool
  | j, [] => m j == 0
  | j, c :: name => c == m j && sameName m (j + 1) name

def dnsCacheLookup (cache : DnsCache) (name : CString) : Option DnsCacheEntry :=
  ((List.finRange dnsCacheSize).find? fun i =>
    (cache i).valid && sameName (cache i).name 0 name.bytes).map cache

/-- The loop that copies a name, from index `i` on. Nothing is written for the empty name. -/
def copyName (m : Bytes) : ℕ → List UInt8 → Bytes
  | _, [] => m
  | i, c :: name =>
    if i < dnsMaxNameLen - 1 then
      copyName (Function.update (Function.update m i c) (i + 1) 0) (i + 1) name
    else m

def dnsCacheAdd (cache : DnsCache) (name : CString) (ip ttl : UInt32) : DnsCache :=
  let slot := ((List.finRange dnsCacheSize).find? fun i => !(cache i).valid).getD 0
  Function.update cache slot
    { name := copyName (cache slot).name 0 name.bytes, ip := ip, ttl := ttl, timestamp := 0, valid := true }

structure DnsCall where
  name : CString
  ip : UInt32
  ttl : UInt32

/-- The calls of `dns_cache_add`, in order. -/
def dnsCacheAdds (cache : DnsCache) (calls : List DnsCall) : DnsCache :=
  calls.foldl (fun cache call => dnsCacheAdd cache call.name call.ip call.ttl) cache

/-- The string in an array of `n` bytes from `i` on. -/
def stringAt (m : Bytes) : ℕ → ℕ → List UInt8
  | 0, _ => []
  | n + 1, i => if m i = 0 then [] else m i :: stringAt m n (i + 1)

section
variable {m : Bytes} {name : List UInt8} {n i : ℕ}

theorem sameName_iff (hnull : 0 ∉ name) (hend : ∃ j, i ≤ j ∧ j < i + n ∧ m j = 0) :
    sameName m i name = true ↔ stringAt m n i = name := by
  induction n generalizing i name with
  | zero =>
    obtain ⟨j, hlo, hhi, -⟩ := hend
    omega
  | succ n ih =>
    rw [stringAt]
    cases name with
    | nil =>
      rw [sameName, beq_iff_eq]
      by_cases hzero : m i = 0
      · simp [hzero]
      · simp [hzero]
    | cons c name =>
      obtain ⟨hc, hname⟩ : 0 ≠ c ∧ 0 ∉ name := by simpa using hnull
      rw [sameName, Bool.and_eq_true, beq_iff_eq]
      by_cases hzero : m i = 0
      · rw [if_pos hzero, hzero]
        exact iff_of_false (fun h => hc h.1.symm) (by simp)
      · have hrest : ∃ j, i + 1 ≤ j ∧ j < i + 1 + n ∧ m j = 0 := by
          obtain ⟨j, hlo, hhi, hj⟩ := hend
          have hne : j ≠ i := fun heq => hzero (heq ▸ hj)
          exact ⟨j, by omega, by omega, hj⟩
        rw [if_neg hzero, List.cons.injEq, ih hname hrest, eq_comm]

theorem copyName_spec (hi : i + n = dnsMaxNameLen) (hnull : 0 ∉ name)
    (hend : m i = 0 ∨ name ≠ [] ∧ 1 < n) (hn : 0 < n) :
    stringAt (copyName m i name) n i = name.take (n - 1) ∧
      (∃ j, i ≤ j ∧ j < i + n ∧ copyName m i name j = 0) ∧ ∀ j < i, copyName m i name j = m j := by
  induction n generalizing i m name with
  | zero => exact absurd hn (lt_irrefl 0)
  | succ n ih =>
    have hlast {m : Bytes} (hzero : m i = 0) : stringAt m (n + 1) i = [] ∧
        ∃ j, i ≤ j ∧ j < i + (n + 1) ∧ m j = 0 :=
      ⟨by rw [stringAt, if_pos hzero], i, le_rfl, by omega, hzero⟩
    cases name with
    | nil =>
      have hzero : m i = 0 := hend.resolve_right fun h => h.1 rfl
      rw [copyName, List.take_nil]
      exact ⟨(hlast hzero).1, (hlast hzero).2, fun _ _ => rfl⟩
    | cons c name =>
      obtain ⟨hc, hname⟩ : 0 ≠ c ∧ 0 ∉ name := by simpa using hnull
      rw [copyName, Nat.add_sub_cancel]
      by_cases hroom : i < dnsMaxNameLen - 1
      · rw [if_pos hroom]
        obtain ⟨hstring, ⟨j, hlo, hhi, hj⟩, hbelow⟩ :=
          ih (m := Function.update (Function.update m i c) (i + 1) 0) (i := i + 1)
            (by omega) hname (.inl (Function.update_self ..)) (by omega)
        generalize copyName _ (i + 1) name = m' at hstring hj hbelow ⊢
        have hhead : m' i = c := by
          rw [hbelow i (Nat.lt_succ_self i), Function.update_of_ne (by omega), Function.update_self]
        refine ⟨?_, ⟨j, by omega, by omega, hj⟩, fun j hj => ?_⟩
        · rw [stringAt, hhead, if_neg hc.symm, hstring]
          obtain ⟨n, rfl⟩ := Nat.exists_eq_succ_of_ne_zero (by omega : n ≠ 0)
          rfl
        · rw [hbelow j (by omega), Function.update_of_ne (by omega), Function.update_of_ne (by omega)]
      · have hzero : m i = 0 := hend.resolve_right fun h => by omega
        obtain rfl : n = 0 := by omega
        rw [if_neg hroom]
        exact ⟨(hlast hzero).1, (hlast hzero).2, fun _ _ => rfl⟩

end

def DnsCacheEntry.binding (e : DnsCacheEntry) : Option (List UInt8 × UInt32) :=
  if e.valid then some (stringAt e.name dnsMaxNameLen 0, e.ip) else none

def dnsSlots (cache : DnsCache) : SlotCache dnsCacheSize (List UInt8) UInt32 :=
  DnsCacheEntry.binding ∘ cache

def Empty (cache : DnsCache) : Prop := ∀ i, (cache i).valid = false ∧ (cache i).name 0 = 0

/-- The names end in their arrays, and a slot that was never taken has none. -/
def Terminated (cache : DnsCache) : Prop :=
  ∀ i, ((cache i).valid = false → (cache i).name 0 = 0) ∧ ∃ j < dnsMaxNameLen, (cache i).name j = 0

section
variable {cache : DnsCache} {name : CString} {ip ttl : UInt32}

theorem Empty.terminated (h : Empty cache) : Terminated cache :=
  fun i => ⟨fun _ => (h i).2, 0, by decide, (h i).2⟩

theorem find?_invalid (cache : DnsCache) :
    (List.finRange dnsCacheSize).find? (fun i => !(cache i).valid) = (dnsSlots cache).free := by
  rw [SlotCache.free, firstSlot]
  refine congrArg (List.find? · _) (funext fun i => ?_)
  rw [dnsSlots, Function.comp_apply, DnsCacheEntry.binding]
  cases (cache i).valid <;> rfl

theorem dnsSlots_add (name : CString) (ip ttl : UInt32) (h : Terminated cache) :
    Terminated (dnsCacheAdd cache name ip ttl) ∧ ∃ key,
      dnsSlots (dnsCacheAdd cache name ip ttl) = (dnsSlots cache).add (key, ip) ∧
      (name.bytes ≠ [] ∨ (dnsSlots cache).free ≠ none → key = name.bytes.take (dnsMaxNameLen - 1)) := by
  unfold dnsCacheAdd
  rw [find?_invalid]
  generalize hslot : (dnsSlots cache).free.getD 0 = slot
  dsimp only
  obtain ⟨hfresh, j, hj, hzero⟩ := h slot
  have hwritten (hcopy : (cache slot).name 0 = 0 ∨ name.bytes ≠ []) :=
    copyName_spec (m := (cache slot).name) (n := dnsMaxNameLen) (i := 0) (Nat.zero_add _)
      name.noNull (hcopy.imp_right fun hne => ⟨hne, by decide⟩) (by decide)
  refine ⟨fun i => ?_, stringAt (copyName (cache slot).name 0 name.bytes) dnsMaxNameLen 0, ?_,
    fun hkey => (hwritten ?_).1⟩
  · by_cases hsame : i = slot
    · rw [hsame, Function.update_self]
      refine ⟨fun hfalse => absurd hfalse (by simp), ?_⟩
      by_cases hnil : name.bytes = []
      · exact ⟨j, hj, by rw [hnil]; exact hzero⟩
      · obtain ⟨-, ⟨k, -, hk, hend⟩, -⟩ := hwritten (.inr hnil)
        exact ⟨k, by omega, hend⟩
    · rw [Function.update_of_ne hsame]
      exact h i
  · rw [SlotCache.add, hslot]
    exact Function.comp_update _ _ _ _
  · refine hkey.symm.imp_left fun hfree => hfresh ?_
    obtain ⟨i, hi⟩ := Option.ne_none_iff_exists'.mp hfree
    obtain rfl : i = slot := by rw [← hslot, hi, Option.getD_some]
    rw [← find?_invalid] at hi
    simpa using List.find?_some hi

theorem dnsSlots_adds (calls : List DnsCall) (hempty : Empty cache) :
    Terminated (dnsCacheAdds cache calls) ∧ ∃ l : List (List UInt8 × UInt32),
      l.length = calls.length ∧
      dnsSlots (dnsCacheAdds cache calls) = l.foldl SlotCache.add (fun _ => none) ∧
      (calls.length ≤ dnsCacheSize →
        l = calls.map fun call => (call.name.bytes.take (dnsMaxNameLen - 1), call.ip)) := by
  induction calls using List.reverseRecOn with
  | nil =>
    refine ⟨hempty.terminated, [], rfl, funext fun i => ?_, fun _ => rfl⟩
    exact if_neg (by rw [dnsCacheAdds, List.foldl_nil, (hempty i).1]; decide)
  | append_singleton calls call ih =>
    obtain ⟨hterm, l, hlen, hslots, hkeys⟩ := ih
    obtain ⟨hterm', key, hadd, hkey⟩ :=
      dnsSlots_add call.name call.ip call.ttl hterm
    rw [dnsCacheAdds, List.foldl_append]
    refine ⟨hterm', l ++ [(key, call.ip)], by simp [hlen], ?_, fun hle => ?_⟩
    · rw [List.foldl_append, ← hslots]
      exact hadd
    · rw [List.length_append, List.length_singleton] at hle
      have hfree : (dnsSlots (dnsCacheAdds cache calls)).free ≠ none := by
        rw [hslots]
        rcases SlotCache.foldl_add (n := dnsCacheSize) l with ⟨-, hholds⟩ | ⟨hfull, -⟩
        · rw [hholds.free_eq (by omega)]
          simp
        · omega
      rw [List.map_append, hkeys (by omega), hkey (.inr hfree)]
      rfl

theorem dnsCacheLookup_eq (name : CString) (h : Terminated cache) :
    (dnsCacheLookup cache name).map DnsCacheEntry.ip = (dnsSlots cache).search name.bytes := by
  have hfind : (firstSlot fun i => (dnsSlots cache i).any fun e => e.1 = name.bytes) =
      (List.finRange dnsCacheSize).find? fun i =>
        (cache i).valid && sameName (cache i).name 0 name.bytes := by
    refine congrArg (List.find? · _) (funext fun i => ?_)
    rw [dnsSlots, Function.comp_apply, DnsCacheEntry.binding]
    cases (cache i).valid with
    | false => rfl
    | true =>
      obtain ⟨-, j, hj, hzero⟩ := h i
      have hsame := sameName_iff (n := dnsMaxNameLen) name.noNull ⟨j, Nat.zero_le j, by omega, hzero⟩
      rw [Bool.true_and, Bool.eq_iff_iff, hsame]
      exact decide_eq_true_iff
  rw [dnsCacheLookup, SlotCache.search, hfind]
  rcases hi : (List.finRange dnsCacheSize).find? fun i =>
    (cache i).valid && sameName (cache i).name 0 name.bytes with _ | i
  · rfl
  · have hvalid : (cache i).valid = true := (Bool.and_eq_true _ _ ▸ List.find?_some hi).1
    rw [Option.bind_some, dnsSlots, Function.comp_apply, DnsCacheEntry.binding, if_pos hvalid]
    rfl

theorem dns_latest_iff (calls : List DnsCall) (hempty : Empty cache) (hne : name.bytes ≠ [])
    (hlen : name.bytes.length < dnsMaxNameLen) :
    (∃ e, dnsCacheLookup (dnsCacheAdd (dnsCacheAdds cache calls) name ip ttl) name = some e ∧
        e.ip = ip) ↔
      dnsCacheSize ≤ calls.length ∨ ∀ call,
        calls.find? (fun call => call.name.bytes.take (dnsMaxNameLen - 1) = name.bytes) = some call →
          call.ip = ip := by
  obtain ⟨hterm, l, hlength, hslots, hkeys⟩ := dnsSlots_adds calls hempty
  obtain ⟨hterm', key, hadd, hkey⟩ := dnsSlots_add name ip ttl hterm
  have hname : name.bytes.take (dnsMaxNameLen - 1) = name.bytes :=
    List.take_of_length_le (Nat.le_sub_one_of_lt hlen)
  have hsearch := dnsCacheLookup_eq name hterm'
  rw [hadd, hslots, hkey (.inl hne), hname] at hsearch
  have hiff := SlotCache.search_add_iff (n := dnsCacheSize) l name.bytes ip
  rw [← hsearch, hlength] at hiff
  refine Iff.trans ?_ (hiff.trans ?_)
  · rw [Option.map_eq_some_iff]
  · by_cases hfull : dnsCacheSize ≤ calls.length
    · exact iff_of_true (.inl hfull) (.inl hfull)
    rw [or_iff_right hfull, or_iff_right hfull, hkeys (by omega), SlotCache.firstValue, List.find?_map,
      Option.map_map]
    refine ⟨fun h call hcall => ?_, fun h w hw => ?_⟩
    · exact h _ (Option.map_eq_some_iff.mpr ⟨call, hcall, rfl⟩)
    · obtain ⟨call, hcall, rfl⟩ := Option.map_eq_some_iff.mp hw
      exact h call hcall

end

/-- A binding that was just added is found, unless one of the additions that still stand before it was
for the same key with another value. -/
theorem address_caches_iff (n : Net.Stack) (arpCalls : List (UInt32 × Bytes)) (ip : UInt32) (mac : Bytes)
    (cache : DnsCache) (dnsCalls : List DnsCall) (call : DnsCall)
    (harp : ∀ i, (n.arpCache i).valid = false) (hdns : Empty cache) (hne : call.name.bytes ≠ [])
    (hlen : call.name.bytes.length < dnsMaxNameLen) :
    ((∃ e, Net.arpLookup (Net.arpAdd (Net.arpAdds n arpCalls) ip mac) ip = some e ∧
          Net.macBytes e.mac = Net.macBytes mac) ↔
        Net.arpCacheSize ≤ arpCalls.length ∨ ∀ earlier,
          arpCalls.find? (fun c => c.1 = ip) = some earlier → Net.macBytes earlier.2 = Net.macBytes mac) ∧
      ((∃ e, dnsCacheLookup (dnsCacheAdds cache (dnsCalls ++ [call])) call.name = some e ∧
          e.ip = call.ip) ↔
        dnsCacheSize ≤ dnsCalls.length ∨ ∀ earlier,
          dnsCalls.find? (fun c => c.name.bytes.take (dnsMaxNameLen - 1) = call.name.bytes) =
            some earlier → earlier.ip = call.ip) := by
  refine ⟨Net.arp_latest_iff arpCalls harp, ?_⟩
  rw [dnsCacheAdds, List.foldl_append]
  exact dns_latest_iff dnsCalls hdns hne hlen

def emptyCache : DnsCache :=
  fun _ => { name := fun _ => 0, ip := 0, ttl := 0, timestamp := 0, valid := false }

def hostA : CString := ⟨[97], by decide⟩
def hostB : CString := ⟨[98, 98], by decide⟩

theorem address_caches_two :
    (∃ e, Net.arpLookup (Net.arpAdd (Net.arpAdds Net.boot.net [(1, fun _ => 5)]) 2 fun _ => 6) 2 = some e ∧
        Net.macBytes e.mac = Net.macBytes fun _ => 6) ∧
      ∃ e, dnsCacheLookup (dnsCacheAdds emptyCache ([⟨hostA, 1, 60⟩] ++ [⟨hostB, 2, 60⟩])) hostB = some e ∧
        e.ip = 2 := by
  obtain ⟨harp, hdns⟩ := address_caches_iff Net.boot.net [(1, fun _ => 5)] 2 (fun _ => 6)
    emptyCache [⟨hostA, 1, 60⟩] ⟨hostB, 2, 60⟩ (fun _ => rfl) (fun _ => ⟨rfl, rfl⟩)
    (by decide) (by decide)
  refine ⟨harp.mpr (.inr fun earlier h => ?_), hdns.mpr (.inr fun earlier h => ?_)⟩
  · cases h
  · cases h

theorem address_caches_stale :
    (¬∃ e, Net.arpLookup (Net.arpAdd (Net.arpAdds Net.boot.net [(1, fun _ => 5)]) 1 fun _ => 6) 1 = some e ∧
        Net.macBytes e.mac = Net.macBytes fun _ => 6) ∧
      ¬∃ e, dnsCacheLookup (dnsCacheAdd (dnsCacheAdds emptyCache [⟨hostA, 1, 60⟩]) hostA 2 60) hostA =
        some e ∧ e.ip = 2 := by
  rw [Net.arp_latest_iff [(1, fun _ => 5)] fun _ => rfl,
    dns_latest_iff [⟨hostA, 1, 60⟩] (fun _ => ⟨rfl, rfl⟩) (by decide) (by decide)]
  constructor
  · rintro (hfull | hsame)
    · exact absurd hfull (by decide)
    · have hmac := congrFun (hsame _ rfl) 0
      exact absurd hmac (by decide)
  · rintro (hfull | hsame)
    · exact absurd hfull (by decide)
    · exact absurd (hsame _ rfl) (by decide)

end GcAos.Dns
