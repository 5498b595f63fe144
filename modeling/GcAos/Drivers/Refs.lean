import GcAos.Drivers.Lifecycle
import GcAos.Lib.Bits

/-! The reference counts of drivers over every sequence of gets and puts. -/

namespace GcAos.Drivers
open Lib

variable {s s' : Lifecycle} {q : DriverRefcount} {refs refs' : ℕ → Option DriverReference}
  {driver ref d e : ℕ} {type : String} {file : Option String} {l : List ℕ}

structure RefsOk (refs : ℕ → Option DriverReference) (q : DriverRefcount) : Prop where
  refcount : q.refcount.toInt = q.refList.length
  counter : ∀ k : RefKind, (q.counter k).toInt = q.refList.countP (HasType refs k.name)
  allocated : ∀ ref ∈ q.refList, (refs ref).isSome

structure Counted (refs : ℕ → Option DriverReference) (q : DriverRefcount) : Prop where
  refcount : q.refcount = .ofNat 32 q.refList.length
  counter : ∀ k : RefKind, q.counter k = .ofNat 32 (q.refList.countP (HasType refs k.name))
  allocated : ∀ ref ∈ q.refList, (refs ref).isSome
  small : q.refList.length < 2 ^ 31
  nodup : q.refList.Nodup

theorem Counted.refsOk (h : Counted refs q) : RefsOk refs q where
  refcount := by rw [h.refcount, toInt_ofNat (by have := h.small; omega)]
  counter k := by
    have hle : q.refList.countP (HasType refs k.name) ≤ q.refList.length := List.countP_le_length
    have hsmall := h.small
    rw [h.counter, toInt_ofNat (by omega)]
  allocated := h.allocated

theorem hasType_update {r : DriverReference} :
    HasType (Function.update refs ref (some r)) type ref = decide (r.type = type) := by
  rw [HasType, Function.update_self]

theorem countP_congr_refs (hsame : ∀ x ∈ l, refs' x = refs x) :
    l.countP (HasType refs' type) = l.countP (HasType refs type) :=
  List.countP_congr fun x hx => by rw [HasType, HasType, hsame x hx]

theorem Counted.congr (h : Counted refs q) (hsame : ∀ x ∈ q.refList, refs' x = refs x) :
    Counted refs' q where
  refcount := h.refcount
  counter k := by rw [h.counter, countP_congr_refs hsame]
  allocated ref hmem := by
    rw [hsame ref hmem]
    exact h.allocated ref hmem
  small := h.small
  nodup := h.nodup

structure RefsInv (s : Lifecycle) : Prop where
  counted : ∀ d, Counted s.refs (s.driver d)
  apart : ∀ d e, d ≠ e → (s.driver d).refList.Disjoint (s.driver e).refList

theorem RefsInv.change (h : RefsInv s) (hdriver : s'.driver = Function.update s.driver d q)
    (hcounted : Counted s'.refs q) (hsame : ∀ e, e ≠ d → ∀ x ∈ (s.driver e).refList,
      s'.refs x = s.refs x)
    (hapart : ∀ e, e ≠ d → q.refList.Disjoint (s.driver e).refList) : RefsInv s' where
  counted e := by
    rw [hdriver]
    by_cases he : e = d
    · rw [he, Function.update_self]
      exact hcounted
    · rw [Function.update_of_ne he]
      exact (h.counted e).congr (hsame e he)
  apart e₁ e₂ hne := by
    rw [hdriver]
    by_cases h₁ : e₁ = d
    · rw [h₁, Function.update_self, Function.update_of_ne (h₁ ▸ hne.symm)]
      exact hapart e₂ (h₁ ▸ hne.symm)
    · rw [Function.update_of_ne h₁]
      by_cases h₂ : e₂ = d
      · rw [h₂, Function.update_self]
        exact (hapart e₁ h₁).symm
      · rw [Function.update_of_ne h₂]
        exact h.apart e₁ e₂ hne

/-! `driver_get` -/

theorem Counted.enter (h : Counted refs q) {r : DriverReference} (hfresh : refs ref = none)
    (hsmall : q.refList.length + 1 < 2 ^ 31) :
    Counted (Function.update refs ref (some r))
      ({ q with refcount := q.refcount + 1, refList := q.refList ++ [ref] }.addType r.type 1) := by
  have hnot : ref ∉ q.refList := by
    intro hmem
    have := h.allocated ref hmem
    rw [hfresh] at this
    exact Bool.noConfusion this
  have hsame : ∀ x ∈ q.refList, Function.update refs ref (some r) x = refs x := fun x hx =>
    Function.update_of_ne (ne_of_mem_of_not_mem hx hnot) ..
  refine ⟨?_, fun k => ?_, ?_, ?_, ?_⟩
  · rw [DriverRefcount.addType_refcount, DriverRefcount.addType_refList, List.length_append]
    dsimp only
    rw [h.refcount, BitVec.ofNat_add]
    rfl
  · rw [DriverRefcount.counter_addType, DriverRefcount.addType_refList, List.countP_append,
      countP_congr_refs hsame, BitVec.ofNat_add, ← h.counter k, List.countP_singleton, hasType_update]
    have hcounter : DriverRefcount.counter { q with
        refcount := q.refcount + 1, refList := q.refList ++ [ref] } k = q.counter k :=
          by cases k <;> rfl
    rw [hcounter]
    by_cases hk : r.type = k.name
    · rw [if_pos hk, decide_eq_true hk]
      rfl
    · rw [if_neg hk, decide_eq_false hk]
      rfl
  · rw [DriverRefcount.addType_refList]
    intro x hx
    rcases List.mem_append.mp hx with hx | hx
    · rw [hsame x hx]
      exact h.allocated x hx
    · rw [List.mem_singleton.mp hx, Function.update_self]
      rfl
  · rwa [DriverRefcount.addType_refList, List.length_append]
  · rw [DriverRefcount.addType_refList]
    exact List.nodup_append.mpr ⟨h.nodup, List.nodup_singleton ref, fun x hx y hy => by
      rw [List.mem_singleton.mp hy]
      exact ne_of_mem_of_not_mem hx hnot⟩

/-! `driver_put` -/

theorem findRef_spec (type : String) (file : Option String) (halloc : ∀ x ∈ l, (refs x).isSome) :
    findRef refs type file l = some none ∨
      ∃ ref r, findRef refs type file l = some (some ref) ∧ ref ∈ l ∧ refs ref = some r ∧
        r.type = type := by
  induction l with
  | nil => exact .inl rfl
  | cons x l ih =>
    obtain ⟨r, hr⟩ := Option.isSome_iff_exists.mp (halloc x List.mem_cons_self)
    rw [findRef, hr]
    dsimp only
    split_ifs with hfound
    · exact .inr ⟨x, r, rfl, List.mem_cons_self, hr, hfound.1⟩
    · rcases ih fun y hy => halloc y (List.mem_cons_of_mem x hy) with h | ⟨ref, r, h, hmem, hr, htype⟩
      · exact .inl h
      · exact .inr ⟨ref, r, h, List.mem_cons_of_mem x hmem, hr, htype⟩

theorem Counted.leave (h : Counted refs q) {r : DriverReference} (hmem : ref ∈ q.refList)
    (hr : refs ref = some r) :
    Counted (Function.update refs ref none)
      ({ q with refList := q.refList.erase ref, refcount := q.refcount - 1 }.addType r.type (-1)) := by
  have hnot : ref ∉ q.refList.erase ref := h.nodup.not_mem_erase
  have hsame : ∀ x ∈ q.refList.erase ref, Function.update refs ref none x = refs x := fun x hx =>
    Function.update_of_ne (ne_of_mem_of_not_mem hx hnot) ..
  have hperm : q.refList.Perm (ref :: q.refList.erase ref) := List.perm_cons_erase hmem
  refine ⟨?_, fun k => ?_, ?_, ?_, ?_⟩
  · rw [DriverRefcount.addType_refcount, DriverRefcount.addType_refList]
    dsimp only
    rw [h.refcount, hperm.length_eq, List.length_cons, BitVec.ofNat_add]
    exact BitVec.add_sub_cancel ..
  · rw [DriverRefcount.counter_addType, DriverRefcount.addType_refList]
    have hcounter : DriverRefcount.counter { q with
        refList := q.refList.erase ref, refcount := q.refcount - 1 } k = q.counter k :=
          by cases k <;> rfl
    have htype : HasType refs k.name ref = decide (r.type = k.name) := by rw [HasType, hr]
    rw [hcounter, h.counter k, hperm.countP_eq, List.countP_cons, htype, BitVec.ofNat_add,
      countP_congr_refs hsame]
    by_cases hk : r.type = k.name
    · rw [if_pos hk, decide_eq_true hk, BitVec.add_assoc]
      exact BitVec.add_zero _
    · rw [if_neg hk, decide_eq_false hk, BitVec.add_assoc]
      exact BitVec.add_zero _
  · rw [DriverRefcount.addType_refList]
    intro x hx
    rw [hsame x hx]
    exact h.allocated x (List.mem_of_mem_erase hx)
  · rw [DriverRefcount.addType_refList]
    exact List.erase_sublist.length_le.trans_lt h.small
  · rw [DriverRefcount.addType_refList]
    exact h.nodup.erase ref

/-! Runs. -/

inductive RefCall
  | get (driver : ℕ) (type : Option String) (file : String) (line : ℤ) (holder : ℕ) (mem : Option ℕ)
  | put (driver : ℕ) (type file : Option String)

namespace RefCall

def run (s : Lifecycle) : RefCall → Option (Lifecycle × ℤ)
  | get driver type file line holder mem => some (driverGet s driver type file line holder mem)
  | put driver type file => driverPut s driver type file

def step (s : Lifecycle) (c : RefCall) : Option Lifecycle := (c.run s).map Prod.fst

def IsGet : RefCall → Prop
  | get .. => True
  | put .. => False

/-- What `kmalloc` returns is not in use. -/
def Allowed (s : Lifecycle) : RefCall → Prop
  | get _ _ _ _ _ (some ref) => s.refs ref = none
  | _ => True

/-- A reference that is to be entered is not one too many, for the limit or for an `int`. -/
def Safe (s : Lifecycle) : RefCall → Prop
  | get driver (some _) _ _ _ (some _) => driver ≠ 0 →
      ((s.driver driver).refLimitEnabled = true →
        (s.driver driver).refcount.toInt < (s.driver driver).maxRefs) ∧
      (s.driver driver).refcount.toInt < 2 ^ 31 - 1
  | _ => True

theorem get_spec (type file : String) (line : ℤ) (holder : ℕ) (h : RefsInv s)
    (hfresh : s.refs ref = none)
    (hdriver : driver ≠ 0)
    (hlimit : (s.driver driver).refLimitEnabled = true →
      (s.driver driver).refcount.toInt < (s.driver driver).maxRefs)
    (hsmall : (s.driver driver).refcount.toInt < 2 ^ 31 - 1) :
    ∃ t, driverGet s driver (some type) file line holder (some ref) = (t, 0) ∧ RefsInv t := by
  have hd := h.counted driver
  rw [hd.refsOk.refcount] at hsmall hlimit
  have hlen : (s.driver driver).refList.length + 1 < 2 ^ 31 := by omega
  generalize hr : DriverReference.mk holder type file line (s.clock + 1) = r
  have hcounted := hd.enter (r := r) hfresh hlen
  have hcount := hcounted.refsOk.refcount
  rw [DriverRefcount.addType_refList, List.length_append] at hcount
  have htype : r.type = type := by rw [← hr]
  rw [htype] at hcounted hcount
  unfold driverGet
  dsimp only
  rw [if_neg hdriver, hr, if_neg ?_]
  · refine ⟨_, rfl, h.change rfl hcounted (fun e _ x hx => ?_) fun e he x hx hx' => ?_⟩
    · refine Function.update_of_ne ?_ ..
      rintro rfl
      have := (h.counted e).allocated x hx
      rw [hfresh] at this
      exact Bool.noConfusion this
    · rw [DriverRefcount.addType_refList] at hx
      rcases List.mem_append.mp hx with hx | hx
      · exact h.apart driver e he.symm hx hx'
      · rw [List.mem_singleton.mp hx] at hx'
        have := (h.counted e).allocated ref hx'
        rw [hfresh] at this
        exact Bool.noConfusion this
  · rintro ⟨henabled, hover⟩
    rw [DriverRefcount.addType_refLimitEnabled] at henabled
    rw [DriverRefcount.addType_maxRefs] at hover
    have hle := hlimit henabled
    refine absurd hover (not_lt.mpr ?_)
    refine (le_of_eq hcount).trans ?_
    push_cast
    exact hle

theorem put_spec (driver : ℕ) (type : String) (file : Option String) (h : RefsInv s) :
    ∃ t ret, driverPut s driver (some type) file = some (t, ret) ∧ RefsInv t := by
  have hd := h.counted driver
  unfold driverPut
  dsimp only
  by_cases hdriver : driver = 0
  · exact ⟨s, _, if_pos hdriver, h⟩
  rw [if_neg hdriver]
  rcases findRef_spec type file hd.allocated with hnone | ⟨ref, r, hfound, hmem, hr, rfl⟩
  · rw [hnone]
    exact ⟨s, _, rfl, h⟩
  · rw [hfound]
    refine ⟨_, _, rfl, h.change rfl (hd.leave hmem hr) (fun e he x hx => ?_) fun e he x hx hx' => ?_⟩
    · refine Function.update_of_ne ?_ ..
      rintro rfl
      exact h.apart driver e he.symm hmem hx
    · rw [DriverRefcount.addType_refList] at hx
      exact h.apart driver e he.symm (List.mem_of_mem_erase hx) hx'

theorem run_spec (h : RefsInv s) {c : RefCall} (hallowed : c.Allowed s) (hsafe : c.Safe s) :
    ∃ t ret, c.run s = some (t, ret) ∧ RefsInv t ∧ (c.IsGet → ret ≠ 0 → t = s) := by
  cases c with
  | get driver type file line holder mem =>
    cases type with
    | none => exact ⟨s, _, rfl, h, fun _ _ => rfl⟩
    | some type =>
      by_cases hdriver : driver = 0
      · refine ⟨s, -einval, ?_, h, fun _ _ => rfl⟩
        simp [run, driverGet, hdriver]
      · cases mem with
        | none =>
          refine ⟨s, -enomem, ?_, h, fun _ _ => rfl⟩
          simp [run, driverGet, hdriver]
        | some ref =>
          obtain ⟨hlimit, hsmall⟩ := hsafe hdriver
          obtain ⟨t, ht, hinv⟩ := get_spec type file line holder h hallowed hdriver
            hlimit hsmall
          exact ⟨t, 0, congrArg some ht, hinv, fun _ hne => absurd rfl hne⟩
  | put driver type file =>
    cases type with
    | none => exact ⟨s, _, rfl, h, fun hget => hget.elim⟩
    | some type =>
      obtain ⟨t, ret, ht, hinv⟩ := put_spec driver type file h
      exact ⟨t, ret, ht, hinv, fun hget => hget.elim⟩

end RefCall

def DriverRefcount.Unused (q : DriverRefcount) : Prop :=
  q.refcount = 0 ∧ q.refList = [] ∧ ∀ k, q.counter k = 0

theorem RefsInv.init (h : ∀ d, (s.driver d).Unused) : RefsInv s where
  counted d := by
    obtain ⟨hcount, hlist, hcounter⟩ := h d
    refine ⟨?_, fun k => ?_, ?_, ?_, ?_⟩
    · rw [hcount, hlist]
      rfl
    · rw [hcounter, hlist]
      rfl
    all_goals rw [hlist]; simp
  apart d e _ x hx := by
    rw [(h d).2.1] at hx
    exact absurd hx List.not_mem_nil

theorem refs_counted {calls : List RefCall} (hinit : ∀ d, (s.driver d).Unused)
    (hcalls : Meets RefCall.step (fun s c => c.Allowed s ∧ c.Safe s) s calls) :
    ∃ s', calls.foldlM RefCall.step s = some s' ∧ (∀ d, RefsOk s'.refs (s'.driver d)) ∧
      ∀ c : RefCall, c.IsGet → c.Allowed s' → c.Safe s' →
        ∀ t ret, c.run s' = some (t, ret) → ret ≠ 0 → t = s' := by
  obtain ⟨s', hrun, hinv⟩ := hcalls.foldlM (I := fun _ => RefsInv) (N := calls.length) (k := 0)
    (fun k s c _ hs hc => by
      obtain ⟨t, ret, ht, hinv, -⟩ := RefCall.run_spec hs hc.1 hc.2
      exact ⟨t, by rw [RefCall.step, ht]; rfl, hinv⟩) (RefsInv.init hinit) (by omega)
  refine ⟨s', hrun, fun d => (hinv.counted d).refsOk, fun c hget hallowed hsafe t ret ht hne => ?_⟩
  obtain ⟨t', ret', ht', -, hsame⟩ := RefCall.run_spec hinv hallowed hsafe
  obtain ⟨rfl, rfl⟩ := pair_inj (ht.symm.trans ht')
  exact hsame hget hne

/-- Drivers without references, each of which may have `n`. -/
def limitedDrivers (n : ℤ) : Lifecycle where
  driver _ := { maxRefs := n, refLimitEnabled := true }
  refs _ := none
  clock := 0

theorem refs_counted_get_put : ∃ s',
    [RefCall.get 1 (some "client") "gpu.c" 7 0 (some 64), .get 1 (some "client") "gpu.c" 9 0 none,
      .put 1 (some "client") none].foldlM RefCall.step (limitedDrivers 1) = some s' ∧
    (∀ d, RefsOk s'.refs (s'.driver d)) ∧
    ∀ c : RefCall, c.IsGet → c.Allowed s' → c.Safe s' →
      ∀ t ret, c.run s' = some (t, ret) → ret ≠ 0 → t = s' := by
  refine refs_counted (fun d => ⟨rfl, rfl, fun k => by cases k <;> rfl⟩) ?_
  refine ⟨⟨rfl, fun _ => by decide⟩, fun t ht => ?_⟩
  cases ht
  refine ⟨⟨trivial, trivial⟩, fun t ht => ?_⟩
  cases ht
  exact ⟨⟨trivial, trivial⟩, fun t ht => trivial⟩

/-- A get beyond the limit fails, but its reference, which has been freed, stays on the list and in the
counts. -/
theorem failed_get_counts :
    let r := driverGet (limitedDrivers 0) 1 (some "client") "gpu.c" 7 0 (some 64)
    r.2 = -eoverflow ∧ (r.1.driver 1).refList = [64] ∧ r.1.refs 64 = none ∧
      (r.1.driver 1).refcount = 1 ∧ (r.1.driver 1).clientRefs = 1 := by
  refine ⟨rfl, rfl, rfl, rfl, rfl⟩

end GcAos.Drivers
