import GcAos.Fs.VfsMade

/-! What `vfs_create`, `vfs_mkdir` and `vfs_open` return, against what they have done. -/

namespace GcAos.Fs
open Lib Ramfs

def FindsUnder (s : Ramfs) (path : Str) (typ : ℕ) : Prop :=
  ∃ inode : Inode, inode.iMode &&& sIfmt = typ ∧
    ∀ mem, ({ s with kmalloc := mem } : Ramfs).Supplied (2 * (components path).length) →
      (vfsLookupPath { s with kmalloc := mem } path false).map Prod.fst =
          some (some (inode, none)) ∧
        ∃ p name s₁, vfsLookupParent { s with kmalloc := mem } path = some (some (p, name), s₁) ∧
          OnChildList s p.iPrivate inode.iPrivate

/-- A call that has found or made an inode of the type says so, and one that says that it has failed
has changed nothing. -/
structure ReportsTruth (s : Ramfs) (path : Str) (typ : ℕ) (ok : Prop) (s' : Ramfs) : Prop where
  success : ok → FindsUnder s' path typ
  failure : ¬ok → s'.inodes = s.inodes ∧ s'.inodeCount = s.inodeCount ∧ s'.root = s.root

/-- If the `k`-th allocation makes an inode of the mode below `d`, then `d` is a directory, the type is
the one asked for, and the `j` allocations after it succeed. -/
def Ramfs.MakesWell (s : Ramfs) (typ mode d k j : ℕ) : Prop :=
  s.alloc k ≠ 0 → s.isDir d = true ∧ (typ ||| mode) &&& sIfmt = typ ∧
    ∀ i, k < i → i ≤ k + j → s.alloc i ≠ 0

/-- Where the parent is found and the dentry allocated, the inode is made well. -/
def MakeReportsWell (s : Ramfs) (kids : ℕ → List ℕ) (path : Str) (typ mode : ℕ) : Prop :=
  ∀ init last, components path = init ++ [last] → ∀ d, s.walk kids init = some d →
    s.Supplied (2 * init.length + 1) → s.MakesWell typ mode d (2 * init.length + 1) 1

/-- `vfs_open` with `O_CREAT` below `d`, from its `k`-th allocation on: an entry that is found is a
regular file, and one that is made, for want of an entry or of memory for it, is made well. -/
def Ramfs.OpensWell (s : Ramfs) (kids : ℕ → List ℕ) (mode d : ℕ) (name : Str) (k : ℕ) : Prop :=
  match s.entry kids d name with
  | none => s.MakesWell sIfreg mode d (k + 1) 2
  | some a =>
    if s.alloc (k + 1) = 0 then s.MakesWell sIfreg mode d (k + 2) 2
    else s.alloc (k + 2) ≠ 0 → s.modeOf a &&& sIfmt = sIfreg

/-- Where the path has no components there is no parent, so neither the root nor an entry without a
name must be opened. -/
structure OpenReportsWell (s : Ramfs) (kids : ℕ → List ℕ) (path : Str) (mode : ℕ) : Prop where
  root : path = [slash] → s.alloc 0 = 0
  unnamed : components path = [] → path ≠ [slash] → s.alloc 0 ≠ 0 →
    s.alloc (if s.entry kids s.root [] = none then 1 else 2) = 0
  named : ∀ init last, components path = init ++ [last] → ∀ d, s.walk kids init = some d →
    s.Supplied (2 * init.length + 1) → s.OpensWell kids mode d last (2 * init.length)

/-- The dentry has no inode. -/
def openCreate (s : Ramfs) (parent : Inode) (name : Str) (flags mode : ℕ) :
    Option (Option File × Ramfs) := do
  if flags &&& oCreat = 0 then some (none, s)
  else
    let (ret, dInode, s) ← ramfsCreate s parent name mode
    if ret ≠ 0 then some (none, s)
    else
      let inode ← dInode
      some (openFile s inode flags mode)

/-- `vfs_open` from the line on at which it has a parent. -/
def openEntry (s : Ramfs) (parent : Inode) (name : Str) (flags mode : ℕ) :
    Option (Option File × Ramfs) := do
  let (child, s) := s.kzalloc
  if child = 0 then none
  else
    let (dInode, s) ← ramfsLookup s parent name
    match dInode with
    | some inode => some (openFile s inode flags mode)
    | none => openCreate s parent name flags mode

variable {s s' t : Ramfs} {kids kids' : ℕ → List ℕ} {dir p : Inode} {path name last : Str}
variable {init : List Str} {a d k mode flags typ : ℕ} {f : Option File}

theorem vfsOpen_eq (hpath : path ≠ [slash]) : vfsOpen s path flags mode =
    (openParent s path).bind fun r => match r.1 with
      | none => some (none, r.2)
      | some found => openEntry r.2 found.1 found.2 flags mode := by
  unfold vfsOpen
  rw [if_neg hpath]
  rcases openParent s path with _ | ⟨_ | ⟨p, name⟩, s₁⟩
  · rfl
  · rfl
  · rfl

/-! Looking up what has been made. -/

theorem reach_root_eq (hne : components path ≠ []) :
    s.reach kids (rootInode s) (components path) = (s.walk kids (components path)).bind s.vfsInode := by
  rw [reach, if_neg hne]
  rfl

theorem modeOf_vfsInode {inode : Inode} (h : s.vfsInode a = some inode) :
    inode.iMode = s.modeOf a := by
  obtain ⟨i, hi, rfl⟩ := Option.map_eq_some_iff.mp h
  rw [modeOf, field, hi]
  rfl

theorem not_findsUnder_root (h : components path = []) : ¬FindsUnder s path typ := by
  rintro ⟨inode, -, hall⟩
  obtain ⟨-, p, name, s₁, hparent, -⟩ := hall s.kmalloc (h ▸ Nat.zero_le _)
  rw [vfsLookupParent_root _ h] at hparent
  exact absurd (pair_inj hparent).1 (by simp)

theorem supplied_replicate (s : Ramfs) (k : ℕ) :
    ({ s with kmalloc := List.replicate k 1 } : Ramfs).Supplied k := by
  rw [supplied_iff]
  intro i hi
  rw [alloc, List.getD_replicate _ hi]
  exact one_ne_zero

theorem findsUnder_iff (hs : s.Wf kids) (hcomp : components path = init ++ [last]) :
    FindsUnder s path typ ↔
      ∃ a, s.walk kids (components path) = some a ∧ s.modeOf a &&& sIfmt = typ := by
  have hne : components path ≠ [] := by simp [hcomp]
  constructor
  · rintro ⟨inode, htyp, hall⟩
    have hsup := supplied_replicate s (2 * (components path).length)
    have hwf : ({ s with kmalloc := List.replicate (2 * (components path).length) 1 } : Ramfs).Wf kids :=
      hs.of_core rfl
    obtain ⟨hlook, -⟩ := hall _ hsup
    rw [vfsLookupPath_reach hwf hsup, reach_root_eq hne] at hlook
    obtain ⟨inode', hinode, heq⟩ := Option.map_eq_some_iff.mp (Option.some.inj hlook)
    obtain rfl := (Prod.mk.inj heq).1
    obtain ⟨a, ha, hinode⟩ := Option.bind_eq_some_iff.mp hinode
    exact ⟨a, ha, by rw [← htyp, modeOf_vfsInode hinode]; rfl⟩
  · rintro ⟨a, hwalk, htyp⟩
    have hlast := hwalk
    rw [hcomp, walk_snoc] at hlast
    obtain ⟨d, hd, hentry⟩ := Option.bind_eq_some_iff.mp hlast
    obtain ⟨-, hmem, -, hlive⟩ := entry_live hs hentry
    obtain ⟨inode, hinode, hprivate, -⟩ := vfsInode_eq hlive
    refine ⟨inode, by rw [modeOf_vfsInode hinode, htyp], ?_⟩
    intro mem hsup
    have hcore : ({ s with kmalloc := mem } : Ramfs).core = s.core := rfl
    have hwf : ({ s with kmalloc := mem } : Ramfs).Wf kids := hs.of_core rfl
    refine ⟨?_, ?_⟩
    · rw [vfsLookupPath_reach hwf hsup, reach_root_eq hne, walk_of_core hcore, vfsInode_of_core hcore,
        hwalk, Option.bind_some, hinode]
      rfl
    · have hinit : ({ s with kmalloc := mem } : Ramfs).Supplied (2 * init.length) := by
        refine hsup.mono ?_
        rw [hcomp, List.length_append]
        omega
      obtain ⟨r, s₁, hparent, -, hcases⟩ := vfsLookupParent_cases hwf hcomp
      rcases hcases with ⟨-, hnone⟩ | ⟨p, rfl, hp, -, -⟩
      · exact absurd hd (hnone d hinit)
      · rw [walk_of_core hcore, hd] at hp
        refine ⟨p, last, s₁, hparent, kids d, ?_, hprivate ▸ hmem⟩
        rw [← Option.some.inj hp]
        exact hs.chain d

theorem Ramfs.Made.findsUnder_iff (hs : s.Wf kids) (h : Made s kids d a mode last s' kids')
    (hmode : s'.modeOf a = mode) (hcomp : components path = init ++ [last])
    (hwalk : s.walk kids init = some d) :
    FindsUnder s' path typ ↔ s.isDir d = true ∧ mode &&& sIfmt = typ := by
  rw [Fs.findsUnder_iff h.wf hcomp, hcomp]
  cases hd : s.isDir d with
  | true =>
    rw [h.walk_new hs hwalk hd (length_last_le hcomp)]
    simp [hmode]
  | false =>
    have hnone : s'.walk kids' (init ++ [last]) = none := by
      rw [walk_snoc, h.walk_eq hs hwalk, Option.bind_some, h.entry_eq hs, if_neg (by simp [hd]), entry,
        if_neg (by simp [hd])]
    simp [hnone]

theorem Ramfs.Made.inodes_ne (h : Made s kids d a mode name s' kids') : s'.inodes ≠ s.inodes := by
  intro heq
  have hlive : s'.live a = s.live a := by
    unfold Ramfs.live field
    rw [heq]
  rw [h.live, Function.update_self, h.dead] at hlive
  exact absurd hlive (by decide)

theorem reportsTruth_of_core {ok : Prop} (hok : ¬ok) (h : s'.core = s.core) :
    ReportsTruth s path typ ok s' where
  success := fun h => absurd h hok
  failure := by
    intro _
    have hcount := congrArg Ramfs.inodeCount h
    exact ⟨inodes_of_core h, hcount, root_of_core h⟩

theorem Ramfs.Made.not_reportsTruth {ok : Prop} (h : Made s kids d a mode name s' kids')
    (hok : ¬ok) : ¬ReportsTruth s path typ ok s' :=
  fun ht => h.inodes_ne (ht.failure hok).1

theorem Ramfs.Made.reportsTruth_iff {ok : Prop} (hs : s.Wf kids)
    (h : Made s kids d a (typ ||| mode) last s' kids') (hmode : s'.modeOf a = typ ||| mode)
    (hcomp : components path = init ++ [last]) (hwalk : s.walk kids init = some d) :
    ReportsTruth s path typ ok s' ↔
      s.isDir d = true ∧ (typ ||| mode) &&& sIfmt = typ ∧ ok := by
  rw [← and_assoc, ← h.findsUnder_iff hs hmode hcomp hwalk]
  by_cases hok : ok
  · exact ⟨fun ht => ⟨ht.success hok, hok⟩, fun hf => ⟨fun _ => hf.1, fun hn => absurd hok hn⟩⟩
  · exact iff_of_false (h.not_reportsTruth hok) fun hf => hok hf.2

theorem forall_concat_iff {names : List Str} {P : List Str → Str → Prop} (h : names = init ++ [last]) :
    (∀ init' last', names = init' ++ [last'] → P init' last') ↔ P init last := by
  constructor
  · exact fun hall => hall init last h
  · intro hP init' last' h'
    obtain ⟨rfl, hlast⟩ := List.append_inj' (h.symm.trans h') rfl
    rwa [← List.singleton_inj.mp hlast]

theorem forall_concat_nil {names : List Str} {P : List Str → Str → Prop} (h : names = []) :
    ∀ init last, names = init ++ [last] → P init last := by
  intro init last h'
  exact absurd (h.symm.trans h').symm (by simp)

theorem forall_some_iff {α β : Type*} {x : Option (α × β)} {P : α → β → Prop} {u : α} {v : β}
    (h : x = some (u, v)) : (∀ u v, x = some (u, v) → P u v) ↔ P u v := by
  constructor
  · exact fun hall => hall u v h
  · intro hP u' v' h'
    obtain ⟨rfl, rfl⟩ := pair_inj (h.symm.trans h')
    exact hP

theorem makesWell_one (h : s.alloc k ≠ 0) : s.MakesWell typ mode d k 1 ↔
    s.isDir d = true ∧ (typ ||| mode) &&& sIfmt = typ ∧ s.alloc (k + 1) ≠ 0 := by
  constructor
  · intro hw
    obtain ⟨hd, htyp, hall⟩ := hw h
    exact ⟨hd, htyp, hall (k + 1) (by omega) le_rfl⟩
  · rintro ⟨hd, htyp, hk⟩ _
    refine ⟨hd, htyp, fun i hi hik => ?_⟩
    obtain rfl : i = k + 1 := by omega
    exact hk

theorem makesWell_two (h : s.alloc k ≠ 0) : s.MakesWell typ mode d k 2 ↔
    s.isDir d = true ∧ (typ ||| mode) &&& sIfmt = typ ∧ s.alloc (k + 1) ≠ 0 ∧ s.alloc (k + 2) ≠ 0 := by
  constructor
  · intro hw
    obtain ⟨hd, htyp, hall⟩ := hw h
    exact ⟨hd, htyp, hall (k + 1) (by omega) (by omega), hall (k + 2) (by omega) le_rfl⟩
  · rintro ⟨hd, htyp, hk, hk₂⟩ _
    refine ⟨hd, htyp, fun i hi hik => ?_⟩
    obtain rfl | rfl : i = k + 1 ∨ i = k + 2 := by omega
    · exact hk
    · exact hk₂

theorem vfsMake_truth_iff {fop : FileOps} (typ : ℕ) (path : Str) (mode : ℕ) (hs : s.Wf kids)
    (hm : FreshMem s) :
    (∀ r s', vfsMake (ramfsMake typ fop) s path mode = some (r, s') →
        ReportsTruth s path typ (r = 0) s') ↔ MakeReportsWell s kids path typ mode := by
  unfold MakeReportsWell
  rcases (components path).eq_nil_or_concat' with hcomp | ⟨init, last, hcomp⟩
  · rw [vfsMake, vfsLookupParent_root s hcomp]
    refine iff_of_true ?_ (forall_concat_nil hcomp)
    intro r s' h
    obtain ⟨rfl, rfl⟩ := pair_inj h
    exact reportsTruth_of_core (by decide) rfl
  rw [forall_concat_iff hcomp, vfsMake]
  obtain ⟨parent, s₁, hparent, hr, ⟨rfl, hnone⟩ | ⟨p, rfl, hwalk, hsup, hmem⟩⟩ :=
    vfsLookupParent_cases hs hcomp
  · rw [hparent]
    refine iff_of_true ?_ ?_
    · intro r s' h
      obtain ⟨rfl, rfl⟩ := pair_inj h
      exact reportsTruth_of_core (by decide) hr.core
    · intro d hd hsup
      exact absurd hd (hnone d (hsup.mono (Nat.le_succ _)))
  have hchild : s₁.kzalloc.1 = s.alloc (2 * init.length) := by
    have h := alloc_drop hmem 0
    rwa [alloc_zero] at h
  have ht : Reads s s₁.kzalloc.2 := hr.trans (reads_kzalloc s₁)
  have halloc : ∀ k, s₁.kzalloc.2.alloc k = s.alloc (2 * init.length + 1 + k) := by
    refine alloc_drop ?_
    rw [kmalloc_kzalloc, hmem, List.drop_drop]
  rw [hparent, Option.bind_eq_bind, Option.bind_some]
  dsimp only
  rw [hchild]
  by_cases h0 : s.alloc (2 * init.length) = 0
  · rw [if_pos h0]
    refine iff_of_true (fun _ _ h => absurd h (by simp)) ?_
    intro d _ hsup
    exact absurd h0 (supplied_add_one.mp hsup).2
  have hlive : s₁.kzalloc.2.live p.iPrivate = true := by
    rw [live_of_core ht.core]
    exact walk_live hs hwalk
  obtain ⟨r, made, s', hmake, hcases⟩ :=
    @ramfsMake_spec s₁.kzalloc.2 kids p typ fop last mode (hs.of_core ht.core) (hm.reads ht) hlive
  rw [halloc, halloc] at hcases
  rw [if_neg h0, hmake, Option.bind_eq_bind, Option.bind_some]
  have hmakes : (∀ d, s.walk kids init = some d → s.Supplied (2 * init.length + 1) →
      s.MakesWell typ mode d (2 * init.length + 1) 1) ↔
        s.MakesWell typ mode p.iPrivate (2 * init.length + 1) 1 := by
    constructor
    · exact fun h => h p.iPrivate hwalk (supplied_add_one.mpr ⟨hsup, h0⟩)
    · intro h d hd _
      rw [hwalk] at hd
      exact Option.some.inj hd ▸ h
  rw [hmakes]
  refine (forall_some_iff (u := r) (v := s') rfl).trans ?_
  rcases hcases with ⟨h1, rfl, hcore⟩ | ⟨h1, ⟨kids', hmade⟩, hmode, -, hlast⟩
  · refine iff_of_true (reportsTruth_of_core (by decide) (hcore.trans ht.core)) ?_
    exact fun h => absurd h1 h
  · have hok : r = 0 ↔ s.alloc (2 * init.length + 1 + 1) ≠ 0 := by
      rcases hlast with ⟨h2, rfl⟩ | ⟨h2, rfl, -⟩
      · exact iff_of_false (by decide) (fun h => h h2)
      · exact iff_of_true rfl h2
    rw [(hmade.of_core ht.core.symm rfl).reportsTruth_iff hs hmode hcomp hwalk, hok, makesWell_one h1]

/-! `vfs_open` from its parent on. -/

structure OpensInode (inode : Inode) (file : File) : Prop where
  privateData : file.privateData = inode.iPrivate
  fOp : file.fOp = inode.iFop
  fPos : file.fPos = 0

theorem openFile_cases (s : Ramfs) (inode : Inode) (flags mode : ℕ) :
    ∃ f s', openFile s inode flags mode = (f, s') ∧ s'.core = s.core ∧
      (f.isSome = true ↔ s.alloc 0 ≠ 0) ∧ ∀ file, f = some file → OpensInode inode file := by
  unfold openFile
  rw [alloc_zero]
  dsimp only
  by_cases h0 : s.kzalloc.1 = 0
  · rw [if_pos h0]
    exact ⟨none, _, rfl, rfl, iff_of_false (by simp) (fun h => h h0), fun _ h => absurd h (by simp)⟩
  · rw [if_neg h0]
    refine ⟨_, _, rfl, rfl, iff_of_true rfl h0, ?_⟩
    intro file hfile
    obtain rfl := Option.some.inj hfile
    exact ⟨rfl, rfl, rfl⟩

/-- What `vfs_open` does without an inode for the dentry, its next allocation being the `k`-th. -/
inductive CreateOutcome (s : Ramfs) (kids : ℕ → List ℕ) (d : ℕ) (name : Str) (flags mode k : ℕ)
    (f : Option File) (s' : Ramfs) : Prop
  | nothing : (flags &&& oCreat = 0 ∨ s.alloc k = 0) → f = none → s'.core = s.core →
      CreateOutcome s kids d name flags mode k f s'
  | made (kids' : ℕ → List ℕ) : flags &&& oCreat ≠ 0 → s.alloc k ≠ 0 →
      Made s kids d (s.alloc k) (sIfreg ||| mode) name s' kids' →
      s'.modeOf (s.alloc k) = sIfreg ||| mode →
      (f.isSome = true ↔ s.alloc (k + 1) ≠ 0 ∧ s.alloc (k + 2) ≠ 0) →
      (∀ file, f = some file → file.privateData = s.alloc k) →
      CreateOutcome s kids d name flags mode k f s'

theorem CreateOutcome.of_reads {j : ℕ} (h : CreateOutcome t kids d name flags mode j f s')
    (hcore : t.core = s.core) (hmem : t.kmalloc = s.kmalloc.drop k) :
    CreateOutcome s kids d name flags mode (k + j) f s' := by
  have halloc := alloc_drop hmem
  cases h with
  | nothing h0 hf hs' =>
    rw [halloc] at h0
    exact .nothing h0 hf (hs'.trans hcore)
  | made kids' hflag h0 hmade hmode hok hfile =>
    rw [halloc] at h0 hmade hmode hfile
    rw [halloc, halloc] at hok
    exact .made kids' hflag h0 (hmade.of_core hcore.symm rfl) hmode hok hfile

theorem openCreate_cases (name : Str) (mode : ℕ) (hs : s.Wf kids)
    (hm : flags &&& oCreat ≠ 0 → FreshMem s) (hd : s.live p.iPrivate = true) :
    ∃ f s', openCreate s p name flags mode = some (f, s') ∧
      CreateOutcome s kids p.iPrivate name flags mode 0 f s' := by
  unfold openCreate
  by_cases hflag : flags &&& oCreat = 0
  · rw [if_pos hflag]
    exact ⟨none, s, rfl, .nothing (.inl hflag) rfl rfl⟩
  obtain ⟨r, made, s', hmake, hcases⟩ :=
    @ramfsMake_spec s kids p sIfreg .ramfsFileOps name mode hs (hm hflag) hd
  rw [if_neg hflag, ramfsCreate, hmake, Option.bind_eq_bind, Option.bind_some]
  dsimp only
  rcases hcases with ⟨h0, rfl, hcore⟩ | ⟨h0, ⟨kids', hmade⟩, hmode, hmem, ⟨h1, rfl⟩ | ⟨h1, rfl, inode, rfl, ha⟩⟩
  · rw [if_pos (by decide)]
    exact ⟨none, s', rfl, .nothing (.inr h0) rfl hcore⟩
  · rw [if_pos (by decide)]
    refine ⟨none, s', rfl, .made kids' hflag h0 hmade hmode ?_ fun _ h => absurd h (by simp)⟩
    exact iff_of_false (by simp) fun h => h.1 h1
  · obtain ⟨f, s'', hopen, hcore, hok, hfile⟩ := openFile_cases s' inode flags mode
    rw [if_neg (fun h => h rfl), Option.bind_eq_bind, Option.bind_some, hopen]
    rw [alloc_drop hmem] at hok
    have hmode' : s''.modeOf (s.alloc 0) = sIfreg ||| mode := by
      rw [← hmode]
      exact congrFun (field_of_core hcore) _
    refine ⟨f, s'', rfl, .made kids' hflag h0 (hmade.of_core rfl hcore) hmode' ?_ ?_⟩
    · rw [hok]
      exact ⟨fun h => ⟨h1, h⟩, And.right⟩
    · intro file hf
      rw [(hfile file hf).privateData, ha]

theorem openEntry_null (h0 : s.alloc 0 = 0) : openEntry s p name flags mode = none := by
  rw [alloc_zero] at h0
  unfold openEntry
  exact if_pos h0

/-- An entry for which there is no memory is taken for missing. -/
theorem openEntry_cases (name : Str) (mode : ℕ) (hs : s.Wf kids)
    (hm : flags &&& oCreat ≠ 0 → FreshMem s) (hd : s.live p.iPrivate = true) (h0 : s.alloc 0 ≠ 0) :
    ∃ f s', openEntry s p name flags mode = some (f, s') ∧
      ((s.entry kids p.iPrivate name = none ∧
          CreateOutcome s kids p.iPrivate name flags mode 1 f s') ∨
        ∃ a, s.entry kids p.iPrivate name = some a ∧
          ((s.alloc 1 = 0 ∧ CreateOutcome s kids p.iPrivate name flags mode 2 f s') ∨
            (s.alloc 1 ≠ 0 ∧ s'.core = s.core ∧ (f.isSome = true ↔ s.alloc 2 ≠ 0) ∧
              ∀ file, f = some file → ∃ inode, s.vfsInode a = some inode ∧ OpensInode inode file))) := by
  have hmem₁ := kmalloc_kzalloc s
  have hmem₂ : s.kzalloc.2.kzalloc.2.kmalloc = s.kmalloc.drop 2 := by
    rw [kmalloc_kzalloc, hmem₁, List.drop_drop]
  have hr₁ : Reads s s.kzalloc.2 := reads_kzalloc s
  have hr₂ : Reads s s.kzalloc.2.kzalloc.2 := hr₁.trans (reads_kzalloc _)
  have h1 : s.kzalloc.2.kzalloc.1 = s.alloc 1 := by
    have h := alloc_drop hmem₁ 0
    rwa [alloc_zero] at h
  have hd₁ : s.kzalloc.2.live p.iPrivate = true := hd
  have hd₂ : s.kzalloc.2.kzalloc.2.live p.iPrivate = true := hd
  have hchild : s.kzalloc.1 ≠ 0 := by rwa [alloc_zero] at h0
  unfold openEntry
  dsimp only
  rw [if_neg hchild, ramfsLookup_eq (hs.of_core hr₁.core) hd₁, entry_of_core hr₁.core, h1]
  cases hentry : s.entry kids p.iPrivate name with
  | none =>
    obtain ⟨f, s', heq, hout⟩ :=
      openCreate_cases name mode (hs.of_core hr₁.core) (fun h => (hm h).reads hr₁) hd₁
    exact ⟨f, s', heq, .inl ⟨rfl, hout.of_reads hr₁.core hmem₁⟩⟩
  | some a =>
    dsimp only
    by_cases ha : s.alloc 1 = 0
    · obtain ⟨f, s', heq, hout⟩ :=
        openCreate_cases name mode (hs.of_core hr₂.core) (fun h => (hm h).reads hr₂) hd₂
      rw [if_pos ha]
      exact ⟨f, s', heq, .inr ⟨a, rfl, .inl ⟨ha, hout.of_reads hr₂.core hmem₂⟩⟩⟩
    · obtain ⟨inode, hinode, -, -⟩ := vfsInode_eq (entry_live hs hentry).2.2.2
      obtain ⟨f, s', hopen, hcore, hok, hfile⟩ :=
        openFile_cases s.kzalloc.2.kzalloc.2 inode flags mode
      rw [if_neg ha, vfsInode_of_core hr₁.core, hinode, Option.bind_eq_bind, Option.bind_some]
      dsimp only
      rw [hopen]
      rw [alloc_drop hmem₂] at hok
      refine ⟨f, s', rfl, .inr ⟨a, rfl, .inr ⟨ha, hcore.trans hr₂.core, hok, ?_⟩⟩⟩
      exact fun file hf => ⟨inode, hinode, hfile file hf⟩

/-! `vfs_open` with `O_CREAT`. -/

theorem CreateOutcome.reportsTruth_iff (hs : s.Wf kids) (hflag : flags &&& oCreat ≠ 0)
    (h : CreateOutcome s kids d last flags mode k f s') (hcomp : components path = init ++ [last])
    (hwalk : s.walk kids init = some d) :
    ReportsTruth s path sIfreg (f.isSome = true) s' ↔ s.MakesWell sIfreg mode d k 2 := by
  cases h with
  | nothing h0 hf hcore =>
    have hk : s.alloc k = 0 := h0.resolve_left hflag
    refine iff_of_true (reportsTruth_of_core ?_ hcore) fun h => absurd hk h
    simp [hf]
  | made kids' _ hk hmade hmode hok _ =>
    rw [hmade.reportsTruth_iff hs hmode hcomp hwalk, hok, makesWell_two hk]

theorem CreateOutcome.reportsTruth_root_iff (hflag : flags &&& oCreat ≠ 0)
    (h : CreateOutcome s kids d name flags mode k f s') (hcomp : components path = []) :
    ReportsTruth s path sIfreg (f.isSome = true) s' ↔ s.alloc k = 0 := by
  cases h with
  | nothing h0 hf hcore =>
    refine iff_of_true (reportsTruth_of_core ?_ hcore) (h0.resolve_left hflag)
    simp [hf]
  | made kids' _ hk hmade _ _ _ =>
    refine iff_of_false (fun ht => ?_) hk
    by_cases hok : f.isSome = true
    · exact not_findsUnder_root hcomp (ht.success hok)
    · exact hmade.not_reportsTruth hok ht

theorem found_reportsTruth_iff {ok : Prop} (hs : s.Wf kids) (hcore : s'.core = s.core)
    (hcomp : components path = init ++ [last])
    (hwalk : s.walk kids init = some d) (hentry : s.entry kids d last = some a) :
    ReportsTruth s path typ ok s' ↔ (ok → s.modeOf a &&& sIfmt = typ) := by
  have hfinds : FindsUnder s' path typ ↔ s.modeOf a &&& sIfmt = typ := by
    have hmode : s'.modeOf = s.modeOf := field_of_core hcore
    rw [findsUnder_iff (hs.of_core hcore) hcomp, walk_of_core hcore, hcomp, walk_snoc, hwalk,
      Option.bind_some, hentry, hmode]
    simp
  constructor
  · exact fun ht hok => hfinds.mp (ht.success hok)
  · intro h
    by_cases hok : ok
    · exact ⟨fun _ => hfinds.mpr (h hok), fun hn => absurd hok hn⟩
    · exact reportsTruth_of_core hok hcore

theorem openEntry_truth_iff (hs : s.Wf kids) (hm : FreshMem s) (hflag : flags &&& oCreat ≠ 0)
    (ht : Reads s t) (hmem : t.kmalloc = s.kmalloc.drop k) (hd : s.live p.iPrivate = true)
    (hcomp : components path = init ++ [last]) (hwalk : s.walk kids init = some p.iPrivate) :
    (∀ f s', openEntry t p last flags mode = some (f, s') →
        ReportsTruth s path sIfreg (f.isSome = true) s') ↔
      (s.alloc k ≠ 0 → s.OpensWell kids mode p.iPrivate last k) := by
  have halloc := alloc_drop hmem
  by_cases h0 : s.alloc k = 0
  · refine iff_of_true ?_ fun h => absurd h0 h
    intro f s' h
    rw [openEntry_null (by rw [halloc]; exact h0)] at h
    exact absurd h (by simp)
  have hd' : t.live p.iPrivate = true := by rwa [live_of_core ht.core]
  obtain ⟨f, s', heq, hcases⟩ := openEntry_cases last mode (hs.of_core ht.core) (fun _ => hm.reads ht)
    hd' (by rw [halloc]; exact h0)
  rw [entry_of_core ht.core, halloc, halloc, vfsInode_of_core ht.core] at hcases
  rw [forall_some_iff heq]
  refine Iff.trans ?_ ⟨fun h _ => h, fun h => h h0⟩
  unfold OpensWell
  rcases hcases with ⟨hentry, hout⟩ | ⟨a, hentry, ⟨h1, hout⟩ | ⟨h1, hcore, hok, -⟩⟩
  · rw [hentry]
    exact (hout.of_reads ht.core hmem).reportsTruth_iff hs hflag hcomp hwalk
  · rw [hentry]
    dsimp only
    rw [if_pos h1]
    exact (hout.of_reads ht.core hmem).reportsTruth_iff hs hflag hcomp hwalk
  · rw [hentry]
    dsimp only
    rw [if_neg h1, ← hok]
    exact found_reportsTruth_iff hs (hcore.trans ht.core) hcomp hwalk hentry

theorem openEntry_root_truth_iff (hs : s.Wf kids) (hm : FreshMem s) (hflag : flags &&& oCreat ≠ 0)
    (hcomp : components path = []) :
    (∀ f s', openEntry s (rootInode s) [] flags mode = some (f, s') →
        ReportsTruth s path sIfreg (f.isSome = true) s') ↔
      (s.alloc 0 ≠ 0 → s.alloc (if s.entry kids s.root [] = none then 1 else 2) = 0) := by
  by_cases h0 : s.alloc 0 = 0
  · refine iff_of_true ?_ fun h => absurd h0 h
    intro f s' h
    rw [openEntry_null h0] at h
    exact absurd h (by simp)
  have hroot : s.live (rootInode s).iPrivate = true := live_of_isDir hs.root_dir
  obtain ⟨f, s', heq, hcases⟩ := openEntry_cases [] mode hs (fun _ => hm) hroot h0
  have hprivate : (rootInode s).iPrivate = s.root := rfl
  rw [hprivate] at hcases
  rw [forall_some_iff heq]
  refine Iff.trans ?_ ⟨fun h _ => h, fun h => h h0⟩
  rcases hcases with ⟨hentry, hout⟩ | ⟨a, hentry, ⟨h1, hout⟩ | ⟨h1, hcore, hok, -⟩⟩
  · rw [hentry, if_pos rfl]
    exact hout.reportsTruth_root_iff hflag hcomp
  · rw [hentry, if_neg (by simp)]
    exact hout.reportsTruth_root_iff hflag hcomp
  · rw [hentry, if_neg (by simp)]
    constructor
    · intro ht
      by_contra h2
      exact not_findsUnder_root hcomp (ht.success (hok.mpr h2))
    · exact fun h2 => reportsTruth_of_core (fun h => hok.mp h h2) hcore

theorem openReportsWell_slash : OpenReportsWell s kids [slash] mode ↔ s.alloc 0 = 0 := by
  have hcomp : components [slash] = [] := by decide +kernel
  constructor
  · exact fun h => h.root rfl
  · exact fun h => ⟨fun _ => h, fun _ hne => absurd rfl hne, forall_concat_nil hcomp⟩

theorem openReportsWell_unnamed (hcomp : components path = []) (hslash : path ≠ [slash]) :
    OpenReportsWell s kids path mode ↔
      (s.alloc 0 ≠ 0 → s.alloc (if s.entry kids s.root [] = none then 1 else 2) = 0) := by
  constructor
  · exact fun h => h.unnamed hcomp hslash
  · exact fun h => ⟨fun hp => absurd hp hslash, fun _ _ => h, forall_concat_nil hcomp⟩

theorem openReportsWell_named (hcomp : components path = init ++ [last]) (hslash : path ≠ [slash]) :
    OpenReportsWell s kids path mode ↔
      ∀ d, s.walk kids init = some d → s.Supplied (2 * init.length + 1) →
        s.OpensWell kids mode d last (2 * init.length) := by
  rw [← forall_concat_iff hcomp (P := fun init last => ∀ d, s.walk kids init = some d →
    s.Supplied (2 * init.length + 1) → s.OpensWell kids mode d last (2 * init.length))]
  refine ⟨OpenReportsWell.named, fun h => ⟨fun hp => absurd hp hslash, fun hnil => ?_, h⟩⟩
  exact absurd (hcomp.symm.trans hnil) (by simp)

theorem vfsOpen_slash_truth_iff (s : Ramfs) (flags mode : ℕ) :
    (∀ f s', vfsOpen s [slash] flags mode = some (f, s') →
        ReportsTruth s [slash] sIfreg (f.isSome = true) s') ↔ s.alloc 0 = 0 := by
  have hcomp : components [slash] = [] := by decide +kernel
  obtain ⟨f, s', hopen, -, hok, -⟩ := openFile_cases s (rootInode s) flags mode
  unfold vfsOpen
  rw [if_pos rfl, hopen]
  cases f with
  | none =>
    refine iff_of_true (fun _ _ h => absurd h (by simp)) ?_
    by_contra h0
    exact absurd (hok.mpr h0) (by simp)
  | some file =>
    rw [forall_some_iff rfl]
    refine iff_of_false (fun ht => not_findsUnder_root hcomp (ht.success rfl)) ?_
    exact hok.mp rfl

theorem vfsOpen_truth_iff (path : Str) (mode : ℕ) (hs : s.Wf kids) (hm : FreshMem s)
    (hflag : flags &&& oCreat ≠ 0) :
    (∀ f s', vfsOpen s path flags mode = some (f, s') →
        ReportsTruth s path sIfreg (f.isSome = true) s') ↔ OpenReportsWell s kids path mode := by
  by_cases hslash : path = [slash]
  · rw [hslash, openReportsWell_slash]
    exact vfsOpen_slash_truth_iff s flags mode
  rw [vfsOpen_eq hslash]
  rcases (components path).eq_nil_or_concat' with hcomp | ⟨init, last, hcomp⟩
  · rw [openReportsWell_unnamed hcomp hslash, openParent_root hcomp, Option.bind_some]
    exact openEntry_root_truth_iff hs hm hflag hcomp
  · rw [openReportsWell_named hcomp hslash, openParent_eq hcomp]
    obtain ⟨parent, s₁, hparent, hr, ⟨rfl, hnone⟩ | ⟨p, rfl, hwalk, hsup, hmem⟩⟩ :=
      vfsLookupParent_cases hs hcomp
    · rw [hparent, Option.bind_some, forall_some_iff rfl]
      refine iff_of_true (reportsTruth_of_core (by simp) hr.core) ?_
      intro d hd hsup
      exact absurd hd (hnone d (hsup.mono (Nat.le_succ _)))
    · rw [hparent, Option.bind_some]
      refine (openEntry_truth_iff hs hm hflag hr hmem (walk_live hs hwalk) hcomp hwalk).trans ?_
      constructor
      · intro h d hd hsup₁
        rw [hwalk] at hd
        exact Option.some.inj hd ▸ h (supplied_add_one.mp hsup₁).2
      · exact fun h h0 => h p.iPrivate hwalk (supplied_add_one.mpr ⟨hsup, h0⟩)

/-- Creation reports the truth unless a file takes the place of the parent, the mode brings a type of
its own, an allocation behind the new inode fails, or `vfs_open` opens what is no regular file. -/
theorem creation_truth_iff (s : Ramfs) (kids : ℕ → List ℕ) (path : Str) (mode : ℕ) (hs : s.Wf kids)
    (hm : FreshMem s) :
    ((∀ r s', vfsCreate s path mode = some (r, s') → ReportsTruth s path sIfreg (r = 0) s') ↔
        MakeReportsWell s kids path sIfreg mode) ∧
      ((∀ r s', vfsMkdir s path mode = some (r, s') → ReportsTruth s path sIfdir (r = 0) s') ↔
        MakeReportsWell s kids path sIfdir mode) ∧
      ∀ flags, flags &&& oCreat ≠ 0 →
        ((∀ f s', vfsOpen s path flags mode = some (f, s') →
            ReportsTruth s path sIfreg (f.isSome = true) s') ↔ OpenReportsWell s kids path mode) := by
  refine ⟨vfsMake_truth_iff sIfreg path mode hs hm, vfsMake_truth_iff sIfdir path mode hs hm, ?_⟩
  exact fun flags hflag => vfsOpen_truth_iff path mode hs hm hflag

theorem creation_truth_supplied : ∃ s, Mounted s ∧ (∃ s', vfsCreate s [slash, 0x61] 0o644 = some (0, s')) ∧
    ∀ r s', vfsCreate s [slash, 0x61] 0o644 = some (r, s') →
      ReportsTruth s [slash, 0x61] sIfreg (r = 0) s' := by
  have heval : ((ramfsMount ⟨fun _ => none, 0, 0, 0, [0x1000, 1, 0x2000, 2]⟩).bind fun s =>
      (vfsCreate s [slash, 0x61] 0o644).map fun r => (s.kmalloc.all fun a => !s.live a) &&
        s.isDir s.root && s.alloc 2 == 2 && r.1 == 0) = some true := by decide +kernel
  obtain ⟨s, hmount, heval⟩ := Option.bind_eq_some_iff.mp heval
  obtain ⟨⟨r, s'⟩, hcreate, heval⟩ := Option.map_eq_some_iff.mp heval
  simp only [Bool.and_eq_true, beq_iff_eq] at heval
  obtain ⟨⟨⟨hfresh, hdir⟩, hmem⟩, rfl⟩ := heval
  have hs : s.Wf fun _ => [] := (mounted_wf ⟨_, hmount⟩).1
  refine ⟨s, ⟨_, hmount⟩, ⟨s', hcreate⟩, ?_⟩
  refine (creation_truth_iff s _ _ _ hs (freshMem_of_all hfresh)).1.mpr ?_
  have hcomp : components [slash, 0x61] = [] ++ [[0x61]] := by decide +kernel
  refine (forall_concat_iff hcomp).mpr ?_
  intro d hd _ _
  obtain rfl := Option.some.inj hd
  refine ⟨hdir, by decide, fun i hi hi' => ?_⟩
  obtain rfl : i = 2 := by
    rw [List.length_nil] at hi hi'
    omega
  rw [hmem]
  decide

theorem create_leaves_entry : ¬ ∀ (s : Ramfs) (kids : ℕ → List ℕ) (path : Str) (mode : ℕ),
    s.Wf kids → FreshMem s → ∀ r s', vfsCreate s path mode = some (r, s') →
      ReportsTruth s path sIfreg (r = 0) s' := by
  intro h
  have heval : ((ramfsMount ⟨fun _ => none, 0, 0, 0, [0x1000, 1, 0x2000, 0]⟩).bind fun s =>
      (vfsCreate s [slash, 0x61] 0o644).map fun r => (s.kmalloc.all fun a => !s.live a) &&
        r.1 == -eNOMEM && s.inodeCount == 1 && r.2.inodeCount == 2) = some true := by decide +kernel
  obtain ⟨s, hmount, heval⟩ := Option.bind_eq_some_iff.mp heval
  obtain ⟨⟨r, s'⟩, hcreate, heval⟩ := Option.map_eq_some_iff.mp heval
  simp only [Bool.and_eq_true, beq_iff_eq] at heval
  obtain ⟨⟨⟨hfresh, rfl⟩, hcount⟩, hcount'⟩ := heval
  have ht := h s _ _ _ (mounted_wf ⟨_, hmount⟩).1 (freshMem_of_all hfresh) _ s' hcreate
  have heq := (ht.failure (by decide)).2.1
  rw [hcount, hcount'] at heq
  exact absurd heq (by decide)

end GcAos.Fs