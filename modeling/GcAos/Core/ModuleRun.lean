import GcAos.Core.Module
import Mathlib.Data.BitVec

/-! The list of modules over every sequence of loads, unloads and searches. -/

namespace GcAos.Modules
open Lib

variable {s s' : ModuleSystem} {m : Module} {l : List Module} {name : CName} {c : LoadCall}

structure ModulesOk (s : ModuleSystem) : Prop where
  count : s.moduleCount = .ofNat 32 s.modules.length
  total : s.totalModuleMemory = (s.modules.map Module.size).sum
  names : (s.modules.map Module.name).Nodup

/-! ## Searching -/

def Module.kept (m : Module) : CName × BitVec 64 := (m.name, m.size)

theorem findRef_kept : (findRef name l).2.map Module.kept = l.map Module.kept := by
  induction l with
  | nil => rfl
  | cons m rest ih =>
    rw [findRef]
    split
    · rfl
    · rw [List.map_cons, List.map_cons, ih]

theorem findRef_notMem (h : name ∉ l.map Module.name) : findRef name l = (none, l) := by
  induction l with
  | nil => rfl
  | cons m rest ih =>
    rw [List.map_cons, List.mem_cons, not_or] at h
    rw [findRef, if_neg (Ne.symm h.1), ih h.2]

theorem findRef_mem (h : name ∈ l.map Module.name) :
    (findRef name l).1.isSome = true ∧ (findRef name l).2 ≠ l := by
  induction l with
  | nil => exact absurd h List.not_mem_nil
  | cons m rest ih =>
    rw [findRef]
    split
    · refine ⟨rfl, fun heq => ?_⟩
      have hcount : m.refcount + 1 = m.refcount := congrArg Module.refcount (List.cons.inj heq).1
      bv_omega
    · next hne =>
      have hrest := (List.mem_cons.mp h).resolve_left (Ne.symm hne)
      exact ⟨(ih hrest).1, fun heq => (ih hrest).2 (List.cons.inj heq).2⟩

theorem mem_findRef (hnd : (l.map Module.name).Nodup) (hm : m ∈ (findRef name l).2) :
    ∃ x ∈ l, x.name = m.name ∧
      m.refcount = if x.name = name then x.refcount + 1 else x.refcount := by
  induction l with
  | nil => exact absurd hm List.not_mem_nil
  | cons a rest ih =>
    obtain ⟨hnot, hnd⟩ := List.nodup_cons.mp hnd
    rw [findRef] at hm
    split at hm
    · next heq =>
      rcases List.mem_cons.mp hm with rfl | hm
      · exact ⟨a, List.mem_cons_self, rfl, (if_pos heq).symm⟩
      · refine ⟨m, List.mem_cons_of_mem a hm, rfl, (if_neg fun hname => hnot ?_).symm⟩
        exact List.mem_map.mpr ⟨m, hm, hname.trans heq.symm⟩
    · next hne =>
      rcases List.mem_cons.mp hm with rfl | hm
      · exact ⟨m, List.mem_cons_self, rfl, (if_neg hne).symm⟩
      · obtain ⟨x, hx, hname, hcount⟩ := ih hnd hm
        exact ⟨x, List.mem_cons_of_mem a hx, hname, hcount⟩

theorem ModulesOk.congr (h : ModulesOk s) (hkept :
    s'.modules.map Module.kept = s.modules.map Module.kept)
    (hcount : s'.moduleCount = s.moduleCount) (htotal : s'.totalModuleMemory = s.totalModuleMemory) :
    ModulesOk s' := by
  have hnames : s'.modules.map Module.name = s.modules.map Module.name := by
    simpa [Function.comp_def, Module.kept] using congrArg (List.map Prod.fst) hkept
  have hsizes : s'.modules.map Module.size = s.modules.map Module.size := by
    simpa [Function.comp_def, Module.kept] using congrArg (List.map Prod.snd) hkept
  have hlength : s'.modules.length = s.modules.length := by
    simpa using congrArg List.length hkept
  exact ⟨by rw [hcount, h.count, hlength], by rw [htotal, h.total, hsizes], hnames ▸ h.names⟩

/-! ## Loading -/

/-- What the counters and the references see of a module. -/
def Module.entry (m : Module) : CName × BitVec 64 × BitVec 32 := (m.name, m.size, m.refcount)

theorem push_unlink (s : ModuleSystem) (m : Module) : (s.push m).unlink m = s := by
  unfold ModuleSystem.push ModuleSystem.unlink
  dsimp only
  rw [List.eraseP_cons_of_pos (by simp), BitVec.add_sub_cancel, BitVec.add_sub_cancel]

theorem setInitialized_entry (s : ModuleSystem) (mod : ℕ) :
    (s.setInitialized mod).modules.map Module.entry = s.modules.map Module.entry := by
  unfold ModuleSystem.setInitialized
  rw [List.map_map]
  refine List.map_congr_left fun x _ => ?_
  dsimp only [Function.comp_apply]
  split <;> rfl

structure Loaded (s s' : ModuleSystem) (m : Module) : Prop where
  modules : s'.modules.map Module.entry = m.entry :: s.modules.map Module.entry
  count : s'.moduleCount = s.moduleCount + 1
  total : s'.totalModuleMemory = s.totalModuleMemory + m.size

theorem moduleLoad_refused (h : ∀ name ∈ c.name, c.hasData = true → c.size = 0) :
    moduleLoad s c = (s, -einval) := by
  unfold moduleLoad
  split
  · rfl
  · next name hname =>
    rw [if_pos]
    by_cases hdata : c.hasData = false
    · exact .inl hdata
    · exact .inr (h name hname (Bool.eq_true_of_not_eq_false hdata))

theorem moduleLoad_listed (hname : c.name = some name) (hdata : c.hasData = true) (hsize : c.size ≠ 0)
    (h : name ∈ s.modules.map Module.name) :
    moduleLoad s c = ({ s with modules := (findRef name s.modules).2 }, -eexist) := by
  have hvalid : ¬ (c.hasData = false ∨ c.size = 0) := not_or.mpr ⟨by simp [hdata], hsize⟩
  unfold moduleLoad
  rw [hname]
  dsimp only [moduleFind]
  rw [if_neg hvalid, if_pos (findRef_mem h).1]

theorem moduleLoad_new (hname : c.name = some name) (hdata : c.hasData = true) (hsize : c.size ≠ 0)
    (h : name ∉ s.modules.map Module.name) :
    (c.Fails ∧ ∃ ret < 0, moduleLoad s c = (s, ret)) ∨
      (¬ c.Fails ∧ (moduleLoad s c).2 = 0 ∧ Loaded s (moduleLoad s c).1 (c.module name)) := by
  have hvalid : ¬ (c.hasData = false ∨ c.size = 0) := not_or.mpr ⟨by simp [hdata], hsize⟩
  have hnone : ¬ (none : Option ℕ).isSome = true := by simp
  unfold moduleLoad LoadCall.Fails
  rw [hname]
  dsimp only [moduleFind]
  rw [if_neg hvalid, findRef_notMem h]
  dsimp only
  rw [if_neg hnone]
  by_cases hmod : c.mod = 0
  · rw [if_pos hmod]
    exact .inl ⟨.inl hmod, _, by decide, rfl⟩
  by_cases hbase : c.base = 0
  · rw [if_neg hmod, if_pos hbase]
    exact .inl ⟨.inr (.inl hbase), _, by decide, rfl⟩
  by_cases hparse : c.parseRet < 0
  · rw [if_neg hmod, if_neg hbase, if_pos hparse]
    exact .inl ⟨.inr (.inr (.inl hparse)), _, hparse, rfl⟩
  rw [if_neg hmod, if_neg hbase, if_neg hparse]
  cases hinit : c.initRet with
  | none =>
    refine .inr ⟨?_, rfl, rfl, rfl, rfl⟩
    simp [hmod, hbase, hparse]
  | some ret =>
    dsimp only
    by_cases hret : ret < 0
    · rw [if_pos hret, push_unlink]
      exact .inl ⟨.inr (.inr (.inr ⟨ret, rfl, hret⟩)), ret, hret, rfl⟩
    · rw [if_neg hret]
      refine .inr ⟨?_, rfl, ?_, rfl, rfl⟩
      · simp [hmod, hbase, hparse, hret]
      · exact setInitialized_entry _ _

theorem Loaded.names (h : Loaded s s' m) :
    s'.modules.map Module.name = m.name :: s.modules.map Module.name := by
  simpa [Function.comp_def, Module.entry] using congrArg (List.map fun x => x.1) h.modules

theorem Loaded.ok_iff (h : Loaded s s' m) (hs : ModulesOk s) :
    ModulesOk s' ↔ m.name ∉ s.modules.map Module.name := by
  have hsizes : s'.modules.map Module.size = m.size :: s.modules.map Module.size := by
    simpa [Function.comp_def, Module.entry] using congrArg (List.map fun x => x.2.1) h.modules
  have hlength : s'.modules.length = s.modules.length + 1 := by
    simpa using congrArg List.length h.modules
  constructor
  · intro hs'
    have hnd := hs'.names
    rw [h.names] at hnd
    exact (List.nodup_cons.mp hnd).1
  · intro hnew
    refine ⟨?_, ?_, ?_⟩
    · rw [h.count, hs.count, hlength, BitVec.ofNat_add]
      rfl
    · rw [h.total, hs.total, hsizes, List.sum_cons, BitVec.add_comm]
    · rw [h.names]
      exact List.nodup_cons.mpr ⟨hnew, hs.names⟩

theorem moduleLoad_ok_iff (hs : ModulesOk s) (c : LoadCall) :
    (ModulesOk (moduleLoad s c).1 ∧ ((moduleLoad s c).2 < 0 → (moduleLoad s c).1 = s)) ↔ c.Fresh s := by
  by_cases hvalid : ∀ name ∈ c.name, c.hasData = true → c.size = 0
  · rw [moduleLoad_refused hvalid]
    exact iff_of_true ⟨hs, fun _ => rfl⟩ fun name hname hdata hsize =>
      absurd (hvalid name hname hdata) hsize
  · push Not at hvalid
    obtain ⟨name, hname, hdata, hsize⟩ := hvalid
    have hfresh : c.Fresh s ↔ name ∉ s.modules.map Module.name ∧
        (name.take nameRoom ∈ s.modules.map Module.name → c.Fails) := by
      constructor
      · exact fun h => h name hname hdata hsize
      · intro h name' hname' _ _
        obtain rfl := Option.some.inj (hname.symm.trans hname')
        exact h
    rw [hfresh]
    by_cases hlisted : name ∈ s.modules.map Module.name
    · rw [moduleLoad_listed hname hdata hsize hlisted]
      refine iff_of_false (fun h => ?_) fun h => h.1 hlisted
      -- the reference taken by the search stays
      have hsame := congrArg ModuleSystem.modules (h.2 (by decide : -eexist < 0))
      exact (findRef_mem hlisted).2 hsame
    · rcases moduleLoad_new hname hdata hsize hlisted with ⟨hfails, ret, -, heq⟩ |
        ⟨hfails, hret, hloaded⟩
      · rw [heq]
        exact iff_of_true ⟨hs, fun _ => rfl⟩ ⟨hlisted, fun _ => hfails⟩
      · rw [hloaded.ok_iff hs, hret]
        constructor
        · exact fun h => ⟨hlisted, fun hstored => absurd hstored h.1⟩
        · exact fun h => ⟨fun hstored => hfails (h.2 hstored), fun hlt => absurd hlt (lt_irrefl 0)⟩

/-! ## Unloading -/

theorem moduleUnload_cases (s : ModuleSystem) (name : CName) :
    (name ∉ s.modules.map Module.name ∧ moduleUnload s (some name) = (s, -enoent)) ∨
      ∃ xs m ys, s.modules = xs ++ m :: ys ∧ m.name = name ∧
        ((1 < m.refcount.toInt ∧ moduleUnload s (some name) = (s, -ebusy)) ∨
          (m.refcount.toInt ≤ 1 ∧ moduleUnload s (some name) =
            (⟨xs ++ ys, s.moduleCount - 1, s.totalModuleMemory - m.size⟩, 0))) := by
  unfold moduleUnload
  dsimp only
  cases hfind : s.modules.find? fun m => m.name = name with
  | none =>
    refine .inl ⟨fun hmem => ?_, rfl⟩
    obtain ⟨m, hm, hname⟩ := List.mem_map.mp hmem
    simpa [hname] using List.find?_eq_none.mp hfind m hm
  | some m =>
    obtain ⟨hname, xs, ys, hsplit, hbefore⟩ := List.find?_eq_some_iff_append.mp hfind
    refine .inr ⟨xs, m, ys, hsplit, of_decide_eq_true hname, ?_⟩
    dsimp only
    by_cases hbusy : 1 < m.refcount.toInt
    · exact .inl ⟨hbusy, by rw [if_pos hbusy]⟩
    · refine .inr ⟨not_lt.mp hbusy, ?_⟩
      have hnone : ∀ x ∈ xs, ¬ (decide (x.name = name)) = true := by simpa using hbefore
      have herase : (m :: ys).eraseP (fun x => x.name = name) = ys := List.eraseP_cons_of_pos hname
      rw [if_neg hbusy, hsplit, List.eraseP_append_right _ hnone, herase]

theorem ModulesOk.erase {xs ys : List Module} (h : ModulesOk s) (hsplit : s.modules = xs ++ m :: ys) :
    ModulesOk ⟨xs ++ ys, s.moduleCount - 1, s.totalModuleMemory - m.size⟩ := by
  have hperm : s.modules.Perm (m :: (xs ++ ys)) := hsplit ▸ List.perm_middle
  refine ⟨?_, ?_, ?_⟩
  · dsimp only
    rw [h.count, hperm.length_eq, List.length_cons, BitVec.ofNat_add]
    exact BitVec.add_sub_cancel _ _
  · dsimp only
    rw [h.total, (hperm.map Module.size).sum_eq, List.map_cons, List.sum_cons, BitVec.add_comm]
    exact BitVec.add_sub_cancel _ _
  · have hnd := (hperm.map Module.name).nodup_iff.mp h.names
    exact (List.nodup_cons.mp hnd).2

/-! ## Histories -/

/-- The references of a module are its own and those of its users. -/
structure HistoryInv (h : ModuleHistory) : Prop where
  ok : ModulesOk h.sys
  refs : ∀ m ∈ h.sys.modules, m.refcount = 1 + .ofNat 32 (h.users m.name)

variable {h : ModuleHistory}

theorem HistoryInv.load (hi : HistoryInv h) (hfresh : c.Fresh h.sys) :
    HistoryInv (h.step (.load c)) := by
  have hok := ((moduleLoad_ok_iff hi.ok c).mpr hfresh).1
  unfold ModuleHistory.step
  dsimp only
  by_cases hvalid : ∀ name ∈ c.name, c.hasData = true → c.size = 0
  · rw [moduleLoad_refused hvalid]
    exact hi
  · push Not at hvalid
    obtain ⟨name, hname, hdata, hsize⟩ := hvalid
    have hnew := (hfresh name hname hdata hsize).1
    rcases moduleLoad_new hname hdata hsize hnew with ⟨-, ret, hret, heq⟩ | ⟨-, hret, hloaded⟩
    · rw [heq]
      dsimp only
      rw [if_neg hret.ne]
      exact hi
    · rw [if_pos hret, hname]
      refine ⟨hok, fun m hm => ?_⟩
      dsimp only [Option.getD_some]
      have hentry := List.mem_map_of_mem (f := Module.entry) hm
      have hstored := (hloaded.ok_iff hi.ok).mp hok
      rw [hloaded.modules] at hentry
      rcases List.mem_cons.mp hentry with heq | hold
      · obtain ⟨hmname, -, hcount⟩ : m.name = name.take nameRoom ∧ m.size = c.size ∧
          m.refcount = 1 := by
          simpa [Module.entry, LoadCall.module] using heq
        rw [hcount, hmname, Function.update_self]
        rfl
      · obtain ⟨x, hx, hxm⟩ := List.mem_map.mp hold
        obtain ⟨hxname, -, hcount⟩ : x.name = m.name ∧ x.size = m.size ∧ x.refcount = m.refcount := by
          simpa [Module.entry] using hxm
        have hne : m.name ≠ name.take nameRoom := by
          intro hmname
          exact hstored (List.mem_map.mpr ⟨x, hx, hxname.trans hmname⟩)
        rw [Function.update_of_ne hne, ← hcount, ← hxname]
        exact hi.refs x hx

theorem HistoryInv.unload (hi : HistoryInv h) (name : Option CName) :
    HistoryInv (h.step (.unload name)) := by
  unfold ModuleHistory.step
  cases name with
  | none => exact hi
  | some name =>
    dsimp only
    rcases moduleUnload_cases h.sys name with ⟨-, heq⟩ | ⟨xs, m, ys, hsplit, -, ⟨-, heq⟩ | ⟨-, heq⟩⟩
    · rw [heq]
      exact hi
    · rw [heq]
      exact hi
    · rw [heq]
      refine ⟨hi.ok.erase hsplit, fun x hx => hi.refs x ?_⟩
      rw [hsplit]
      exact (List.sublist_cons_self m ys).append_left xs |>.subset hx

theorem HistoryInv.find (hi : HistoryInv h) (name : Option CName) :
    HistoryInv (h.step (.find name)) := by
  unfold ModuleHistory.step
  cases name with
  | none => exact hi
  | some name =>
    dsimp only [Option.getD_some]
    by_cases hlisted : name ∈ h.sys.modules.map Module.name
    · have hfound : (moduleFind h.sys (some name)).2.isSome = true := (findRef_mem hlisted).1
      rw [if_pos hfound]
      refine ⟨hi.ok.congr findRef_kept rfl rfl, fun m hm => ?_⟩
      obtain ⟨x, hx, hname, hcount⟩ := mem_findRef hi.ok.names hm
      have hxr := hi.refs x hx
      dsimp only
      rw [hcount, ← hname]
      by_cases heq : x.name = name
      · rw [if_pos heq, hxr, heq, Function.update_self, BitVec.ofNat_add, ← BitVec.add_assoc]
        rfl
      · rw [if_neg heq, Function.update_of_ne heq, hxr]
    · have hnone : moduleFind h.sys (some name) = (h.sys, none) := by
        unfold moduleFind
        dsimp only
        rw [findRef_notMem hlisted]
      rw [hnone]
      exact hi

def FreshStep (h : ModuleHistory) (call : ModuleCall) (h' : ModuleHistory) : Prop :=
  h' = h.step call ∧ call.Fresh h.sys

theorem freshStep_inv (h : ModuleHistory) (call : ModuleCall) (h' : ModuleHistory) (hi : HistoryInv h)
    (hstep : FreshStep h call h') : HistoryInv h' := by
  obtain ⟨rfl, hfresh⟩ := hstep
  cases call with
  | load c => exact hi.load hfresh
  | unload name => exact hi.unload name
  | find name => exact hi.find name

/-- While every load has a fresh name, the totals are those of the list and the names are distinct, and
a module that was found for nobody can be unloaded; and a next load keeps all this, and changes nothing
when it fails, exactly when its name is fresh as well. -/
theorem module_load_atomic {calls : List ModuleCall} (hrun : Exec FreshStep {} calls h) :
    ModulesOk h.sys ∧
      (∀ c : LoadCall, (ModulesOk (moduleLoad h.sys c).1 ∧
        ((moduleLoad h.sys c).2 < 0 → (moduleLoad h.sys c).1 = h.sys)) ↔ c.Fresh h.sys) ∧
      ∀ m ∈ h.sys.modules, h.users m.name = 0 → (moduleUnload h.sys (some m.name)).2 = 0 ∧
        m.name ∉ (moduleUnload h.sys (some m.name)).1.modules.map Module.name := by
  have hstart : HistoryInv {} := ⟨⟨rfl, rfl, List.nodup_nil⟩, by simp⟩
  have hi := hrun.invariant freshStep_inv hstart
  refine ⟨hi.ok, moduleLoad_ok_iff hi.ok, fun m hm husers => ?_⟩
  have hlisted : m.name ∈ h.sys.modules.map Module.name := List.mem_map_of_mem hm
  rcases moduleUnload_cases h.sys m.name with ⟨hnot, -⟩ | ⟨xs, x, ys, hsplit, hname, hcases⟩
  · exact absurd hlisted hnot
  · have hx : x ∈ h.sys.modules := by
      rw [hsplit]
      exact List.mem_append_right xs List.mem_cons_self
    have hcount : x.refcount.toInt = 1 := by
      rw [hi.refs x hx, hname, husers]
      rfl
    rcases hcases with ⟨hbusy, -⟩ | ⟨-, heq⟩
    · omega
    · rw [heq]
      refine ⟨rfl, ?_⟩
      have hnd := hi.ok.names
      rw [hsplit, List.map_append, List.map_cons] at hnd
      rw [← hname]
      dsimp only
      rw [List.map_append]
      exact (List.nodup_cons.mp (List.nodup_middle.mp hnd)).1

def sampleLoad (name : CName) (mod : ℕ) : LoadCall where
  name := some name
  hasData := true
  size := 1
  mod := mod
  base := 0x8000
  parseRet := moduleParseElf.1
  initRet := moduleParseElf.2

instance (c : LoadCall) : Decidable c.Fails := inferInstanceAs (Decidable (_ ∨ _))

instance (c : LoadCall) (s : ModuleSystem) : Decidable (c.Fresh s) :=
  inferInstanceAs (Decidable (∀ name ∈ c.name, _))

instance (s : ModuleSystem) : (c : ModuleCall) → Decidable (c.Fresh s)
  | .load c => inferInstanceAs (Decidable (c.Fresh s))
  | .unload _ | .find _ => isTrue trivial

/-- Of three modules the first is found for someone, the second cannot be loaded at first, and the third
is unloaded again. -/
def threeLoads : List ModuleCall :=
  [.load (sampleLoad [97] 0x1000), .find (some [97]), .load (sampleLoad [98] 0),
    .load (sampleLoad [98] 0x2000), .load (sampleLoad [99] 0x3000), .unload (some [99])]

theorem module_load_atomic_three : ∃ h : ModuleHistory, Exec FreshStep {} threeLoads h ∧
    ModulesOk h.sys ∧ h.sys.modules.map (fun m => (m.name, m.refcount)) = [([98], 1), ([97], 2)] ∧
    (moduleLoad h.sys (sampleLoad [99] 0)).1 = h.sys ∧ (moduleUnload h.sys (some [98])).2 = 0 := by
  have hrun : Exec FreshStep {} threeLoads _ :=
    .cons ⟨rfl, by decide⟩ <| .cons ⟨rfl, by decide⟩ <| .cons ⟨rfl, by decide⟩ <|
      .cons ⟨rfl, by decide⟩ <| .cons ⟨rfl, by decide⟩ <| .cons ⟨rfl, by decide⟩ (.nil _)
  obtain ⟨hok, hload, hunload⟩ := module_load_atomic hrun
  exact ⟨_, hrun, hok, by decide, ((hload (sampleLoad [99] 0)).mpr (by decide)).2 (by decide),
    (hunload ((sampleLoad [98] 0x2000).module [98]) (by decide) (by decide)).1⟩

/-- Loading the same name again fails, and leaves a reference behind that keeps the module loaded; and
two names with the same first 63 bytes are stored as one. -/
theorem module_load_leaks :
    (let s := (moduleLoad {} (sampleLoad [97] 0x1000)).1
      let again := moduleLoad s (sampleLoad [97] 0x2000)
      again.2 = -eexist ∧ again.1 ≠ s ∧ (moduleUnload s (some [97])).2 = 0 ∧
        (moduleUnload again.1 (some [97])).2 = -ebusy) ∧
    (let long := List.replicate 64 97
      let twice := (moduleLoad (moduleLoad {} (sampleLoad long 0x1000)).1 (sampleLoad long 0x2000))
      twice.2 = 0 ∧ ¬ (twice.1.modules.map Module.name).Nodup) := by
  decide

end GcAos.Modules
