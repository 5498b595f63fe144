import GcAos.Lib.PathTree
import GcAos.Lib.Words
import GcAos.Fs.VfsRun

/-! Path resolution. `vfs_lookup_path` and `vfs_lookup_parent` scan the path each with a loop of its
own; both descend from the root along the components of the path. -/

namespace GcAos.Fs
open Lib Ramfs

/-- The loop of `vfs_lookup_path`. With `filename` the caller asks for the parent and for the place
of the last component in the path. -/
def lookupPathFrom (filename : Bool) :
    ℕ → Inode → Str → Ramfs → Option (Option (Inode × Option Str) × Ramfs)
  | 0, _, _, _ => none
  | fuel + 1, curr, p, s =>
    if p = [] then some (some (curr, none), s)
    else
      let start := p
      let (buf, p) := nextComponent p
      if p = [] ∧ filename then some (some (curr, some start), s)
      else
        let (child, s) := s.kzalloc
        if child = 0 then some (none, s)
        else do
          let (dInode, s) ← ramfsLookup s curr buf
          match dInode with
          | none => some (none, s)
          | some inode => lookupPathFrom filename fuel inode p s

def vfsLookupPath (s : Ramfs) (path : Str) (filename : Bool) :
    Option (Option (Inode × Option Str) × Ramfs) :=
  lookupPathFrom filename (path.length + 1) (rootInode s) (skipSlashes path) s

/-- The non-empty components, each cut off at `NAME_MAX`. -/
def components (path : Str) : List Str := (words slash path).map (List.take nameMax)

namespace Ramfs

/-- The first entry of the directory `d` under the name. -/
def entry (s : Ramfs) (kids : ℕ → List ℕ) (d : ℕ) (name : Str) : Option ℕ :=
  if s.isDir d then (kids d).find? fun c => s.nameOf c = name else none

def walk (s : Ramfs) (kids : ℕ → List ℕ) (names : List Str) : Option ℕ :=
  resolve (s.entry kids) s.root names

/-- The VFS inode that `ramfs_lookup` makes of the inode at `a`. -/
def vfsInode (s : Ramfs) (a : ℕ) : Option Inode :=
  (s.inodes a).map fun c => {
    iIno := c.ino
    iMode := c.mode
    iSize := c.size
    iFop := if sIsdir c.mode then .ramfsDirOps else .ramfsFileOps
    iPrivate := a }

/-- The VFS inode found from `dir` along the names. -/
def reach (s : Ramfs) (kids : ℕ → List ℕ) (dir : Inode) (names : List Str) : Option Inode :=
  if names = [] then some dir else (resolve (s.entry kids) dir.iPrivate names).bind s.vfsInode

/-- The next `k` calls of `kmalloc` succeed. -/
def Supplied (s : Ramfs) (k : ℕ) : Prop := k ≤ (s.kmalloc.takeWhile (· ≠ 0)).length

end Ramfs

def lookupDentry (s : Ramfs) (dir : Inode) (name : Str) : Option (Option Inode × Ramfs) :=
  let (child, s) := s.kzalloc
  if child = 0 then some (none, s) else ramfsLookup s dir name

def descend : Inode → List Str → Ramfs → Option (Option Inode × Ramfs)
  | dir, [], s => some (some dir, s)
  | dir, name :: names, s => do
    let (dInode, s) ← lookupDentry s dir name
    match dInode with
    | none => some (none, s)
    | some inode => descend inode names s

variable {s s' : Ramfs} {kids : ℕ → List ℕ} {dir inode : Inode} {path p name last : Str}
variable {names init : List Str} {fuel k a : ℕ}

/-! Scanning a path. -/

theorem components_skipSlashes (path : Str) : components (skipSlashes path) = components path :=
  congrArg (List.map (List.take nameMax)) (words_dropWhile_eq path)

theorem head?_skipSlashes (path : Str) : (skipSlashes path).head? ≠ some slash := by
  intro h
  have hhead := List.head?_dropWhile_not (fun c => decide (c = slash)) path
  rw [skipSlashes] at h
  rw [h] at hhead
  simp at hhead

theorem components_eq_cons (hne : p ≠ []) (hhead : p.head? ≠ some slash) :
    components p = (nextComponent p).1 :: components (nextComponent p).2 := by
  rw [nextComponent, components_skipSlashes, components, words_eq_cons hne hhead]
  rfl

theorem components_eq_nil (hhead : p.head? ≠ some slash) : components p = [] ↔ p = [] := by
  constructor
  · intro h
    by_contra hne
    rw [components_eq_cons hne hhead] at h
    exact List.cons_ne_nil _ _ h
  · rintro rfl
    exact congrArg _ words_nil

theorem length_nextComponent (hne : p ≠ []) (hhead : p.head? ≠ some slash) :
    (nextComponent p).2.length < p.length := by
  obtain ⟨c, p, rfl⟩ := List.exists_cons_of_ne_nil hne
  have hc : c ≠ slash := fun h => hhead (by rw [h]; rfl)
  have hdrop : (c :: p).dropWhile (· ≠ slash) = p.dropWhile (· ≠ slash) :=
    List.dropWhile_cons_of_pos (by simpa using hc)
  have hle := (List.dropWhile_sublist (fun c => decide (c ≠ slash)) (l := p)).length_le
  have hskip := (List.dropWhile_sublist (fun c => decide (c = slash))
    (l := p.dropWhile (· ≠ slash))).length_le
  rw [nextComponent, hdrop, List.length_cons, skipSlashes]
  exact Nat.lt_succ_of_le (hskip.trans hle)

theorem lookupPathFrom_eq (hfuel : p.length < fuel) (hhead : p.head? ≠ some slash) :
    lookupPathFrom false fuel dir p s =
      (descend dir (components p) s).map fun r => (r.1.map (·, none), r.2) := by
  induction fuel generalizing p dir s with
  | zero => exact absurd hfuel (Nat.not_lt_zero _)
  | succ fuel ih =>
    rw [lookupPathFrom]
    by_cases hp : p = []
    · rw [if_pos hp, (components_eq_nil hhead).mpr hp]
      rfl
    have hlen := length_nextComponent hp hhead
    have hrest : ((nextComponent p).2).head? ≠ some slash := head?_skipSlashes _
    rw [if_neg hp, components_eq_cons hp hhead, descend, lookupDentry]
    dsimp only
    rw [if_neg (fun h => absurd h.2 (by decide))]
    split_ifs with h0
    · rfl
    · rcases ramfsLookup s.kzalloc.2 dir (nextComponent p).1 with _ | ⟨_ | inode, s₁⟩
      · rfl
      · rfl
      · exact ih (by omega) hrest

theorem lookupParentFrom_eq (hfuel : p.length < fuel) (hhead : p.head? ≠ some slash)
    (hcomp : components p = init ++ [last]) : lookupParentFrom fuel dir p s =
      (descend dir init s).map fun r => (r.1.map (·, last), r.2) := by
  induction fuel generalizing p dir s init with
  | zero => exact absurd hfuel (Nat.not_lt_zero _)
  | succ fuel ih =>
    have hp : p ≠ [] := by
      rintro rfl
      rw [(components_eq_nil hhead).mpr rfl] at hcomp
      exact absurd hcomp.symm (by simp)
    have hlen := length_nextComponent hp hhead
    have hrest : ((nextComponent p).2).head? ≠ some slash := head?_skipSlashes _
    rw [components_eq_cons hp hhead] at hcomp
    rw [lookupParentFrom, if_neg hp]
    dsimp only
    cases init with
    | nil =>
      obtain ⟨hlast, hnil⟩ := List.cons.inj hcomp
      rw [if_pos ((components_eq_nil hrest).mp hnil), hlast]
      rfl
    | cons name init =>
      obtain ⟨rfl, htail⟩ := List.cons.inj hcomp
      have hne : (nextComponent p).2 ≠ [] := by
        intro h
        rw [(components_eq_nil hrest).mpr h] at htail
        exact absurd htail.symm (by simp)
      rw [if_neg hne, descend, lookupDentry]
      dsimp only
      split_ifs with h0
      · rfl
      · rcases ramfsLookup s.kzalloc.2 dir (nextComponent p).1 with _ | ⟨_ | inode, s₁⟩
        · rfl
        · rfl
        · exact ih (by omega) hrest htail

theorem length_skipSlashes (path : Str) : (skipSlashes path).length < path.length + 1 :=
  Nat.lt_succ_of_le (List.dropWhile_sublist _).length_le

theorem vfsLookupPath_eq (s : Ramfs) (path : Str) : vfsLookupPath s path false =
    (descend (rootInode s) (components path) s).map fun r => (r.1.map (·, none), r.2) := by
  rw [vfsLookupPath, lookupPathFrom_eq (length_skipSlashes path) (head?_skipSlashes path),
    components_skipSlashes]

theorem vfsLookupParent_eq (s : Ramfs) (h : components path = init ++ [last]) :
    vfsLookupParent s path =
      (descend (rootInode s) init s).map fun r => (r.1.map (·, last), r.2) := by
  rw [← components_skipSlashes] at h
  exact lookupParentFrom_eq (length_skipSlashes path) (head?_skipSlashes path) h

theorem vfsLookupParent_root (s : Ramfs) (h : components path = []) :
    vfsLookupParent s path = some (none, s) := by
  rw [← components_skipSlashes, components_eq_nil (head?_skipSlashes path)] at h
  rw [vfsLookupParent, lookupParentFrom, if_pos h]

theorem descend_append (dir : Inode) (names : List Str) (last : Str) (s : Ramfs) :
    descend dir (names ++ [last]) s = (descend dir names s).bind fun r =>
      match r.1 with
      | none => some (none, r.2)
      | some inode => lookupDentry r.2 inode last := by
  induction names generalizing dir s with
  | nil =>
    rw [List.nil_append, descend, descend, Option.bind_some]
    dsimp only
    rcases lookupDentry s dir last with _ | ⟨_ | inode, s₁⟩
    · rfl
    · rfl
    · rfl
  | cons name names ih =>
    rw [List.cons_append, descend, descend]
    rcases lookupDentry s dir name with _ | ⟨_ | inode, s₁⟩
    · rfl
    · rfl
    · exact ih inode s₁

/-! What is found in a tree. -/

theorem supplied_succ (h : s.Supplied (k + 1)) : s.kzalloc.1 ≠ 0 ∧ s.kzalloc.2.Supplied k := by
  unfold Supplied kzalloc at *
  cases hmem : s.kmalloc with
  | nil =>
    rw [hmem] at h
    exact absurd h (Nat.not_succ_le_zero k)
  | cons a mem =>
    by_cases ha : a = 0
    · rw [hmem, List.takeWhile_cons_of_neg (by simpa using ha)] at h
      exact absurd h (Nat.not_succ_le_zero k)
    · rw [hmem, List.takeWhile_cons_of_pos (by simpa using ha), List.length_cons] at h
      exact ⟨ha, Nat.le_of_succ_le_succ h⟩

theorem supplied_of_kzalloc (h0 : s.kzalloc.1 ≠ 0) (h : s.kzalloc.2.Supplied k) :
    s.Supplied (k + 1) := by
  unfold Supplied kzalloc at *
  cases hmem : s.kmalloc with
  | nil =>
    rw [hmem] at h0
    exact absurd rfl h0
  | cons a mem =>
    rw [hmem] at h0 h
    rw [List.takeWhile_cons_of_pos (by simpa using h0), List.length_cons]
    exact Nat.succ_le_succ h

theorem Ramfs.Supplied.mono {j : ℕ} (h : s.Supplied k) (hj : j ≤ k) : s.Supplied j := hj.trans h

theorem entry_live (hs : s.Wf kids) {d : ℕ} (h : s.entry kids d name = some a) :
    s.isDir d = true ∧ a ∈ kids d ∧ s.nameOf a = name ∧ s.live a = true := by
  unfold entry at h
  split_ifs at h with hdir
  have hmem := List.mem_of_find?_eq_some h
  exact ⟨hdir, hmem, by simpa using List.find?_some h, hs.kid_live d a hmem⟩

theorem vfsInode_eq (h : s.live a = true) : ∃ inode, s.vfsInode a = some inode ∧
    inode.iPrivate = a ∧ sIsdir inode.iMode = s.isDir a := by
  obtain ⟨i, hi, -, -, hdir⟩ := inodes_eq h
  refine ⟨_, by rw [vfsInode, hi, Option.map_some], rfl, ?_⟩
  exact hdir.symm

theorem iPrivate_vfsInode (h : s.vfsInode a = some inode) : inode.iPrivate = a := by
  obtain ⟨i, -, rfl⟩ := Option.map_eq_some_iff.mp h
  rfl

theorem ramfsLookupChild_eq (hs : s.Wf kids) {d : ℕ} (hd : s.live d = true) (name : Str) :
    ramfsLookupChild s d name = some ((s.entry kids d name).getD 0) := by
  obtain ⟨i, hi, -, hch, hdir⟩ := inodes_eq hd
  have hspec := lookupSiblings_spec name (hch ▸ hs.chain d) (hs.kid_live d) (hs.length_kids_lt d)
  unfold ramfsLookupChild entry
  rw [hi, Option.bind_eq_bind, Option.bind_some, hspec, hdir]
  cases sIsdir i.mode with
  | false => rfl
  | true => rfl

theorem ramfsLookup_eq (hs : s.Wf kids) (hd : s.live dir.iPrivate = true) (name : Str) :
    ramfsLookup s dir name = match s.entry kids dir.iPrivate name with
      | none => some (none, s)
      | some a => some (if s.kzalloc.1 = 0 then none else s.vfsInode a, s.kzalloc.2) := by
  unfold ramfsLookup
  rw [ramfsLookupChild_eq hs hd, Option.bind_eq_bind, Option.bind_some]
  cases hentry : s.entry kids dir.iPrivate name with
  | none => rfl
  | some a =>
    obtain ⟨-, hmem, -, hlive⟩ := entry_live hs hentry
    obtain ⟨i, hi⟩ := live_iff.mp hlive
    have hi' : s.kzalloc.2.inodes a = some i := hi
    rw [Option.getD_some, if_neg (hs.kid_ne_zero hmem)]
    dsimp only
    split_ifs with h0
    · rfl
    · rw [hi', Option.bind_eq_bind, Option.bind_some, vfsInode, hi, Option.map_some]

theorem entry_of_core (h : s'.core = s.core) : s'.entry kids = s.entry kids := by
  funext d name
  rw [entry, entry, isDir_of_core h, nameOf_of_core h]

theorem vfsInode_of_core (h : s'.core = s.core) : s'.vfsInode = s.vfsInode := by
  funext a
  rw [vfsInode, vfsInode, inodes_of_core h]

theorem reach_of_core (h : s'.core = s.core) : s'.reach kids dir names = s.reach kids dir names := by
  rw [reach, reach, entry_of_core h, vfsInode_of_core h]

theorem reach_cons (hs : s.Wf kids) (dir : Inode) (name : Str) (names : List Str) :
    s.reach kids dir (name :: names) = (s.entry kids dir.iPrivate name).bind fun a =>
      (s.vfsInode a).bind fun inode => s.reach kids inode names := by
  rw [reach, if_neg (List.cons_ne_nil _ _), resolve]
  cases hentry : s.entry kids dir.iPrivate name with
  | none => rfl
  | some a =>
    obtain ⟨inode, hinode, rfl, -⟩ := vfsInode_eq (entry_live hs hentry).2.2.2
    rw [Option.bind_some, Option.bind_some, hinode, Option.bind_some, reach]
    split_ifs with hnil
    · rw [hnil, resolve, Option.bind_some, hinode]
    · rfl

theorem descend_spec (hs : s.Wf kids) (hd : s.live dir.iPrivate = true) :
    ∃ r s', descend dir names s = some (r, s') ∧ Reads s s' ∧
      (s.Supplied (2 * names.length) → r = s.reach kids dir names) ∧
      ∀ inode, r = some inode → s.Supplied (2 * names.length) ∧
        s.reach kids dir names = some inode ∧ s'.kmalloc = s.kmalloc.drop (2 * names.length) := by
  induction names generalizing dir s with
  | nil =>
    refine ⟨some dir, s, rfl, Reads.refl s, fun _ => rfl, ?_⟩
    intro inode hinode
    exact ⟨Nat.zero_le _, hinode, rfl⟩
  | cons name names ih =>
    have hlen : 2 * (name :: names).length = 2 * names.length + 1 + 1 := by
      rw [List.length_cons]
      omega
    rw [descend, lookupDentry, reach_cons hs, hlen]
    dsimp only
    by_cases h0 : s.kzalloc.1 = 0
    · rw [if_pos h0]
      refine ⟨none, s.kzalloc.2, rfl, reads_kzalloc s, ?_, fun _ h => absurd h (by simp)⟩
      exact fun hsup => absurd h0 (supplied_succ hsup).1
    have hs₁ : s.kzalloc.2.Wf kids := hs.of_core rfl
    have hd₁ : s.kzalloc.2.live dir.iPrivate = true := hd
    have hr₁ : Reads s s.kzalloc.2 := reads_kzalloc s
    rw [if_neg h0, ramfsLookup_eq hs₁ hd₁, entry_of_core hr₁.core]
    cases hentry : s.entry kids dir.iPrivate name with
    | none => exact ⟨none, s.kzalloc.2, rfl, hr₁, fun _ => rfl, fun _ h => absurd h (by simp)⟩
    | some a =>
    obtain ⟨inode, hinode, rfl, -⟩ := vfsInode_eq (entry_live hs hentry).2.2.2
    dsimp only
    have hr₂ : Reads s s.kzalloc.2.kzalloc.2 := hr₁.trans (reads_kzalloc _)
    by_cases h1 : s.kzalloc.2.kzalloc.1 = 0
    · rw [if_pos h1]
      refine ⟨none, _, rfl, hr₂, ?_, fun _ h => absurd h (by simp)⟩
      exact fun hsup => absurd h1 (supplied_succ (supplied_succ hsup).2).1
    have hlive : s.kzalloc.2.kzalloc.2.live inode.iPrivate = true := (entry_live hs hentry).2.2.2
    obtain ⟨r, s', heq, hr, hall, hsome⟩ := ih (hs.of_core hr₂.core) hlive
    rw [if_neg h1, vfsInode_of_core hr₁.core, Option.bind_some, hinode, Option.bind_some]
    rw [reach_of_core hr₂.core] at hall hsome
    refine ⟨r, s', heq, hr₂.trans hr, ?_, ?_⟩
    · intro hsup
      exact hall (supplied_succ (supplied_succ hsup).2).2
    · intro found hfound
      obtain ⟨hsup, hreach, hmem⟩ := hsome found hfound
      refine ⟨supplied_of_kzalloc h0 (supplied_of_kzalloc h1 hsup), hreach, ?_⟩
      rw [hmem]
      unfold kzalloc
      dsimp only
      rw [← List.drop_one, ← List.drop_one, List.drop_drop, List.drop_drop]
      exact congrArg (List.drop · _) (by omega)

theorem Ramfs.Supplied.drop {j : ℕ} (h : s.Supplied (j + k)) (hmem : s'.kmalloc = s.kmalloc.drop j) :
    s'.Supplied k := by
  induction j generalizing s with
  | zero =>
    unfold Supplied at *
    rw [hmem, List.drop_zero]
    rwa [Nat.zero_add] at h
  | succ j ih =>
    rw [Nat.add_right_comm] at h
    refine ih (supplied_succ h).2 ?_
    rw [hmem]
    unfold kzalloc
    dsimp only
    rw [← List.drop_one, List.drop_drop, Nat.add_comm]

theorem resolve_live (hs : s.Wf kids) {d : ℕ} (hd : s.live d = true)
    (h : resolve (s.entry kids) d names = some a) : s.live a = true := by
  cases names using List.reverseRecOn with
  | nil =>
    obtain rfl := Option.some.inj h
    exact hd
  | append_singleton names name =>
    rw [resolve_snoc] at h
    obtain ⟨b, -, hb⟩ := Option.bind_eq_some_iff.mp h
    exact (entry_live hs hb).2.2.2

theorem reach_iPrivate (hs : s.Wf kids) (hd : s.live dir.iPrivate = true) :
    (s.reach kids dir names).map Inode.iPrivate = resolve (s.entry kids) dir.iPrivate names := by
  unfold reach
  split_ifs with hnil
  · rw [hnil]
    rfl
  · cases hres : resolve (s.entry kids) dir.iPrivate names with
    | none => rfl
    | some a =>
      obtain ⟨inode, hinode, hprivate, -⟩ := vfsInode_eq (resolve_live hs hd hres)
      rw [Option.bind_some, hinode, Option.map_some, hprivate]

theorem vfsLookupPath_reach (hs : s.Wf kids) (hmem : s.Supplied (2 * (components path).length)) :
    (vfsLookupPath s path false).map Prod.fst =
      some ((s.reach kids (rootInode s) (components path)).map (·, none)) := by
  have hroot : s.live (rootInode s).iPrivate = true := live_of_isDir hs.root_dir
  obtain ⟨r, s', heq, -, hall, -⟩ := @descend_spec s kids _ (components path) hs hroot
  rw [vfsLookupPath_eq, heq, hall hmem]
  rfl

/-- Both loops walk along the components, the second one up to the last, which it returns; looking it
up in the inode returned is what the first one does. -/
theorem path_resolution (s : Ramfs) (kids : ℕ → List ℕ) (path : Str) (hs : s.Wf kids)
    (hmem : s.Supplied (2 * (components path).length)) :
    (vfsLookupPath s path false).map Prod.fst =
        some ((s.reach kids (rootInode s) (components path)).map (·, none)) ∧
      (s.reach kids (rootInode s) (components path)).map Inode.iPrivate = s.walk kids (components path) ∧
      (components path = [] → vfsLookupParent s path = some (none, s)) ∧
      ∀ init last, components path = init ++ [last] → ∃ s',
        vfsLookupParent s path = some ((s.reach kids (rootInode s) init).map (·, last), s') ∧
        (vfsLookupPath s path false).map Prod.fst =
          match s.reach kids (rootInode s) init with
          | none => some none
          | some dir => (lookupDentry s' dir last).map fun r => r.1.map (·, none) := by
  have hroot : s.live (rootInode s).iPrivate = true := live_of_isDir hs.root_dir
  refine ⟨vfsLookupPath_reach hs hmem, reach_iPrivate hs hroot, vfsLookupParent_root s, ?_⟩
  intro init last hcomp
  obtain ⟨r, s', heq, -, hall, -⟩ := @descend_spec s kids _ init hs hroot
  have hinit : s.Supplied (2 * init.length) := by
    refine hmem.mono ?_
    rw [hcomp, List.length_append]
    omega
  rw [vfsLookupParent_eq s hcomp, vfsLookupPath_eq, hcomp, descend_append, heq, ← hall hinit]
  refine ⟨s', rfl, ?_⟩
  rw [Option.bind_some]
  cases r with
  | none => rfl
  | some dir =>
    dsimp only
    rw [Option.map_map]
    rfl

/-- The root at 0x1000 holds the directory `d` at 0x2000, and that the file `f` at 0x3000. -/
def nested : Ramfs where
  inodes a :=
    if a = 0x1000 then some { ino := 1, mode := sIfdir, children := 0x2000, name := [] }
    else if a = 0x2000 then
      some { ino := 2, mode := sIfdir, parent := 0x1000, children := 0x3000, name := [0x64] }
    else if a = 0x3000 then some { ino := 3, mode := sIfreg, parent := 0x2000, name := [0x66] }
    else none
  root := 0x1000
  nextIno := 4
  inodeCount := 3
  kmalloc := [1, 2, 3, 4]

def nestedKids (a : ℕ) : List ℕ :=
  if a = 0x1000 then [0x2000] else if a = 0x2000 then [0x3000] else []

theorem nested_wf : nested.Wf nestedKids := by
  have hkid : ∀ d c, c ∈ nestedKids d → d = 0x1000 ∧ c = 0x2000 ∨ d = 0x2000 ∧ c = 0x3000 := by
    intro d c hc
    rw [nestedKids] at hc
    split_ifs at hc <;> simp_all
  have hlive : ∀ a, nested.live a = true → a = 0x1000 ∨ a = 0x2000 ∨ a = 0x3000 := by
    intro a ha
    rw [live, field, nested] at ha
    dsimp only at ha
    split_ifs at ha <;> simp_all
  refine ⟨rfl, by decide, fun d => ?_, fun d c hc => ?_, fun d c hc => ?_, fun d => ?_,
    fun d e c hd he => ?_, fun a ha => ?_, fun a b ha hb hino => ?_⟩
  · rw [nestedKids, children, field, nested]
    dsimp only
    split_ifs <;> first | rfl | exact ⟨rfl, by decide, rfl⟩
  · obtain ⟨rfl, rfl⟩ | ⟨rfl, rfl⟩ := hkid d c hc <;> rfl
  · obtain ⟨rfl, rfl⟩ | ⟨rfl, rfl⟩ := hkid d c hc <;> decide
  · rw [nestedKids]
    split_ifs <;> simp
  · have := hkid d c hd
    have := hkid e c he
    omega
  · obtain rfl | rfl | rfl := hlive a ha <;> decide
  · obtain rfl | rfl | rfl := hlive a ha <;> obtain rfl | rfl | rfl := hlive b hb <;>
      first | rfl | exact absurd hino (by decide)

/-- `//d//f/` -/
def slashed : Str := [slash, slash, 0x64, slash, slash, 0x66, slash]

theorem path_resolution_nested :
    (vfsLookupPath nested slashed false).map Prod.fst =
        some ((nested.reach nestedKids (rootInode nested) (components slashed)).map (·, none)) ∧
      nested.walk nestedKids (components slashed) = some 0x3000 ∧
      ∃ s', vfsLookupParent nested slashed =
          some ((nested.reach nestedKids (rootInode nested) [[0x64]]).map (·, [0x66]), s') ∧
        (nested.reach nestedKids (rootInode nested) [[0x64]]).map Inode.iPrivate = some 0x2000 := by
  have hsupply : nested.Supplied (2 * (components slashed).length) := by
    rw [Supplied]
    decide +kernel
  have h := path_resolution nested nestedKids slashed nested_wf hsupply
  obtain ⟨s', hparent, -⟩ := h.2.2.2 [[0x64]] [0x66] (by decide +kernel)
  exact ⟨h.1, by decide +kernel, s', hparent, by decide +kernel⟩

end GcAos.Fs
