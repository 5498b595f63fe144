import GcAos.Fs.RamfsData
import GcAos.Fs.VfsCreate

/-! The files that are made at boot, and what `vfs_open` and `vfs_read` find of them. -/

namespace GcAos.Fs
open Lib Ramfs

def RamfsInode.content (inode : RamfsInode) : List UInt8 :=
  inode.data.elim [] fun data => (List.range inode.size).map data

def Ramfs.contentOf (s : Ramfs) : ℕ → List UInt8 := s.field RamfsInode.content []

def Readable (s : Ramfs) (path : Str) (bytes : List UInt8) : Prop :=
  ∀ mem flags mode, flags &&& oCreat = 0 →
    ({ s with kmalloc := mem } : Ramfs).Supplied (2 * (components path).length + 1) →
      ∃ file s', vfsOpen { s with kmalloc := mem } path flags mode = some (some file, s') ∧
        ∀ count, ∃ file', vfsRead s' (some file) true count =
          some (((bytes.take count).length : ℤ), bytes.take count, some file')

/-- The name of the directory and the name in it, as the ramfs cuts the path at its last slash. -/
def bootNames (path : Str) : Option (Str × Str) :=
  (lastSlash (skipSlash path)).map fun len =>
    (((skipSlash path).take len).take ramfsMaxName, ((skipSlash path).drop (len + 1)).take ramfsMaxName)

/-- Where `ramfs_create_file` makes the file. -/
def bootTarget (s : Ramfs) (kids : ℕ → List ℕ) (path : Str) : ℕ × Str :=
  match bootNames path with
  | none => (s.root, (skipSlash path).take ramfsMaxName)
  | some (dirname, filename) =>
    match s.entry kids s.root dirname with
    | none => (s.root, (skipSlash path).take ramfsMaxName)
    | some dir => (dir, filename)

/-- `ramfs_create_file_bytes` does not fall back on the root. -/
def BootDirFound (s : Ramfs) (kids : ℕ → List ℕ) (path : Str) : Prop :=
  ∀ dirname filename, bootNames path = some (dirname, filename) →
    ∃ dir, s.entry kids s.root dirname = some dir

def givenBytes (data : Option Bytes) (size : ℕ) : List UInt8 :=
  data.elim [] fun data => (List.range size).map data

/-- The path has no slash but a leading one, or it consists of a directory of the root and a name in
it, or, where the root has no entry for what stands before the last slash, of one name. -/
def BootNamed (s : Ramfs) (kids : ℕ → List ℕ) (path : Str) : Prop :=
  match bootNames path with
  | none => True
  | some (dirname, filename) =>
    match s.entry kids s.root dirname with
    | none => components path = [(skipSlash path).take ramfsMaxName]
    | some dir => components path = [dirname, filename] ∧ s.isDir dir = true

/-- A call that says it has made the file has made it where the path leads, with these bytes, unless
the path has led to an inode before; one that fails has changed nothing. -/
structure BootTruth (s : Ramfs) (kids : ℕ → List ℕ) (path : Str) (bytes : List UInt8) (r : ℤ)
    (s' : Ramfs) : Prop where
  readable : r = 0 → s.walk kids (components path) = none → Readable s' path bytes
  unchanged : r ≠ 0 → s'.inodes = s.inodes ∧ s'.inodeCount = s.inodeCount ∧ s'.root = s.root

variable {s s' : Ramfs} {kids kids' : ℕ → List ℕ} {path name last : Str} {init names : List Str}
variable {a d m mode flags : ℕ} {file : File} {inode : Inode} {bytes : List UInt8}

theorem vfsRead_content (hinode : s.vfsInode a = some inode) (hopens : OpensInode inode file)
    (ha : a ≠ 0) (hdir : s.isDir a = false) (count : ℕ) :
    ∃ file', vfsRead s (some file) true count =
      some ((((s.contentOf a).take count).length : ℤ), (s.contentOf a).take count, some file') := by
  obtain ⟨i, hi, rfl⟩ := Option.map_eq_some_iff.mp hinode
  have hprivate : file.privateData = a := hopens.privateData
  have hfop : file.fOp = .ramfsFileOps := by
    have hmode : sIsdir i.mode = false := by rwa [isDir, field, hi] at hdir
    rw [hopens.fOp]
    exact if_neg (by simp [hmode])
  have hcontent : s.contentOf a = i.content := by
    rw [contentOf, field, hi]
    rfl
  rw [hcontent, vfsRead_ramfs hfop, ramfsRead, hprivate, if_neg ha, hi, RamfsInode.content]
  dsimp only [Option.bind_eq_bind, Option.bind_some]
  cases i.data with
  | none => exact ⟨file, by rw [Option.elim_none, List.take_nil]; rfl⟩
  | some data =>
    dsimp only
    rw [hopens.fPos, Option.elim_some, ← List.map_take, List.take_range, List.length_map,
      List.length_range]
    by_cases hsize : i.size ≤ 0
    · rw [if_pos hsize, Nat.le_zero.mp hsize, Nat.min_zero]
      exact ⟨file, rfl⟩
    · rw [if_neg hsize, Nat.sub_zero]
      simp only [Nat.zero_add]
      exact ⟨_, rfl⟩

theorem vfsOpen_found (mode : ℕ) (hs : s.Wf kids) (hcomp : components path = init ++ [last])
    (hflag : flags &&& oCreat = 0) (hmem : s.Supplied (2 * (components path).length + 1)) :
    ∃ f s', vfsOpen s path flags mode = some (f, s') ∧ s'.core = s.core ∧
      ((s.walk kids (components path) = none ∧ f = none) ∨
        ∃ a file inode, s.walk kids (components path) = some a ∧ f = some file ∧
          s.vfsInode a = some inode ∧ OpensInode inode file) := by
  have hslash : path ≠ [slash] := by
    rintro rfl
    exact absurd ((by decide +kernel : components [slash] = []).symm.trans hcomp).symm (by simp)
  have hlen : 2 * (components path).length + 1 = 2 * init.length + 3 := by
    rw [hcomp, List.length_append, List.length_singleton]
    omega
  rw [hlen] at hmem
  rw [vfsOpen_eq hslash, openParent_eq hcomp, hcomp, walk_snoc]
  obtain ⟨parent, s₁, hparent, hr, ⟨rfl, hnone⟩ | ⟨p, rfl, hwalk, -, hdrop⟩⟩ :=
    vfsLookupParent_cases hs hcomp
  · rw [hparent, Option.eq_none_iff_forall_ne_some.mpr fun d =>
      hnone d (hmem.mono (Nat.le_add_right _ _))]
    exact ⟨none, s₁, rfl, hr.core, .inl ⟨rfl, rfl⟩⟩
  have halloc := supplied_iff.mp (hmem.drop hdrop)
  have hlive : s₁.live p.iPrivate = true := by
    rw [live_of_core hr.core]
    exact walk_live hs hwalk
  obtain ⟨f, s', heq, hcases⟩ := openEntry_cases last mode (hs.of_core hr.core)
    (fun h => absurd hflag h) hlive (halloc 0 (by decide))
  rw [entry_of_core hr.core, vfsInode_of_core hr.core] at hcases
  rw [hparent, hwalk, Option.bind_some]
  rcases hcases with ⟨hentry, hout⟩ | ⟨a, hentry, ⟨h1, -⟩ | ⟨-, hcore, hok, hfile⟩⟩
  · cases hout with
    | nothing _ hf hcore => exact ⟨f, s', heq, hcore.trans hr.core, .inl ⟨hentry, hf⟩⟩
    | made _ h => exact absurd hflag h
  · exact absurd h1 (halloc 1 (by decide))
  · obtain ⟨file, rfl⟩ := Option.isSome_iff_exists.mp (hok.mpr (halloc 2 (by decide)))
    obtain ⟨inode, hinode, hopens⟩ := hfile file rfl
    exact ⟨_, s', heq, hcore.trans hr.core, .inr ⟨a, file, inode, hentry, rfl, hinode, hopens⟩⟩

theorem vfsRead_dir (hinode : s.vfsInode a = some inode) (hopens : OpensInode inode file)
    (hdir : s.isDir a = true) (count : ℕ) :
    vfsRead s (some file) true count = some (-eINVAL, [], some file) := by
  obtain ⟨i, hi, rfl⟩ := Option.map_eq_some_iff.mp hinode
  have hfop : file.fOp = .ramfsDirOps := by
    have hmode : sIsdir i.mode = true := by rwa [isDir, field, hi] at hdir
    rw [hopens.fOp]
    exact if_pos hmode
  unfold vfsRead
  dsimp only
  rw [hfop]
  rfl

theorem vfsOpen_found_mem (mem : List ℕ) (mode : ℕ) (hs : s.Wf kids)
    (hcomp : components path = init ++ [last]) (hflag : flags &&& oCreat = 0)
    (hmem : ({ s with kmalloc := mem } : Ramfs).Supplied (2 * (components path).length + 1)) :
    ∃ f s', vfsOpen { s with kmalloc := mem } path flags mode = some (f, s') ∧ s'.core = s.core ∧
      ((s.walk kids (components path) = none ∧ f = none) ∨
        ∃ a file inode, s.walk kids (components path) = some a ∧ f = some file ∧
          s'.vfsInode a = some inode ∧ OpensInode inode file) := by
  have hwf : ({ s with kmalloc := mem } : Ramfs).Wf kids := hs.of_core rfl
  obtain ⟨f, s', hopen, hcore, hcases⟩ := vfsOpen_found mode hwf hcomp hflag hmem
  rw [← vfsInode_of_core hcore] at hcases
  exact ⟨f, s', hopen, hcore, hcases⟩

theorem readable_iff (hs : s.Wf kids) (hcomp : components path = init ++ [last]) :
    Readable s path bytes ↔
      ∃ a, s.walk kids (components path) = some a ∧ s.isDir a = false ∧ s.contentOf a = bytes := by
  have hne : ∀ a, s.walk kids (components path) = some a → a ≠ 0 := by
    intro a ha
    rw [hcomp, walk_snoc] at ha
    obtain ⟨d, -, hentry⟩ := Option.bind_eq_some_iff.mp ha
    exact hs.kid_ne_zero (entry_live hs hentry).2.1
  constructor
  · intro h
    have hsup := supplied_replicate s (2 * (components path).length + 1)
    obtain ⟨file, s', hopen, hread⟩ := h _ 0 0 rfl hsup
    obtain ⟨f, s'', hopen', hcore, hcases⟩ :=
      vfsOpen_found_mem _ 0 hs hcomp (show 0 &&& oCreat = 0 from rfl) hsup
    obtain ⟨rfl, rfl⟩ := pair_inj (hopen.symm.trans hopen')
    rcases hcases with ⟨-, hf⟩ | ⟨a, file', inode, hwalk, hf, hinode, hopens⟩
    · exact absurd hf (by simp)
    obtain rfl := Option.some.inj hf
    have hdir : s.isDir a = false := by
      by_contra hdir
      obtain ⟨file', hread⟩ := hread 0
      rw [← isDir_of_core hcore] at hdir
      rw [vfsRead_dir hinode hopens (by simpa using hdir)] at hread
      have := (pair_inj hread).1
      simp [eINVAL] at this
    have hcontent : s'.contentOf = s.contentOf := field_of_core hcore
    refine ⟨a, hwalk, hdir, ?_⟩
    obtain ⟨file₁, h₁⟩ := hread (bytes.length + (s.contentOf a).length)
    obtain ⟨file₂, h₂⟩ := vfsRead_content hinode hopens (hne a hwalk)
      (by rw [isDir_of_core hcore]; exact hdir) (bytes.length + (s.contentOf a).length)
    have heq := (Prod.mk.inj (pair_inj (h₁.symm.trans h₂)).2).1
    rw [hcontent, List.take_of_length_le (Nat.le_add_right _ _),
      List.take_of_length_le (Nat.le_add_left _ _)] at heq
    exact heq.symm
  · rintro ⟨a, hwalk, hdir, rfl⟩ mem flags mode hflag hsup
    obtain ⟨f, s', hopen, hcore, hcases⟩ := vfsOpen_found_mem mem mode hs hcomp hflag hsup
    rcases hcases with ⟨hnone, -⟩ | ⟨b, file, inode, hb, rfl, hinode, hopens⟩
    · exact absurd (hwalk.symm.trans hnone) (by simp)
    obtain rfl := Option.some.inj (hwalk.symm.trans hb)
    refine ⟨file, s', hopen, ?_⟩
    intro count
    have hcontent : s'.contentOf = s.contentOf := field_of_core hcore
    rw [← hcontent]
    exact vfsRead_content hinode hopens (hne a hwalk) (by rw [isDir_of_core hcore]; exact hdir) count

theorem Ramfs.Made.walk_cases (hs : s.Wf kids) (h : Made s kids d a mode name s' kids')
    (hwalk : s'.walk kids' names = some m) (hma : m ≠ a) : s.walk kids names = some m := by
  induction names using List.reverseRecOn generalizing m with
  | nil =>
    rw [← hwalk, walk, walk, resolve, resolve, h.root]
  | append_singleton names x ih =>
    rw [walk_snoc] at hwalk
    obtain ⟨b, hb, hentry⟩ := Option.bind_eq_some_iff.mp hwalk
    rw [h.entry_eq hs] at hentry
    split_ifs at hentry with hnew
    · exact absurd (Option.some.inj hentry).symm hma
    · have hba : b ≠ a := h.ne_of_live (live_of_isDir (entry_live hs hentry).1)
      rw [walk_snoc, ih hb hba]
      exact hentry

theorem Ramfs.Made.walk_iff (hs : s.Wf kids) (h : Made s kids d a mode name s' kids')
    (hcomp : components path = init ++ [last]) (hnone : s.walk kids (components path) = none)
    (m : ℕ) : s'.walk kids' (components path) = some m ↔
      m = a ∧ s.walk kids init = some d ∧ s.isDir d = true ∧ name.take ramfsMaxName = last := by
  rw [hcomp, walk_snoc] at hnone
  rw [hcomp, walk_snoc]
  constructor
  · intro hm
    obtain ⟨b, hb, hentry⟩ := Option.bind_eq_some_iff.mp hm
    rw [h.entry_eq hs] at hentry
    split_ifs at hentry with hnew
    · obtain ⟨hd, rfl, hname⟩ := hnew
      have hba : b ≠ a := h.ne_of_live (live_of_isDir hd)
      exact ⟨(Option.some.inj hentry).symm, h.walk_cases hs hb hba, hd, hname⟩
    · have hba : b ≠ a := h.ne_of_live (live_of_isDir (entry_live hs hentry).1)
      rw [h.walk_cases hs hb hba, Option.bind_some, hentry] at hnone
      exact absurd hnone (by simp)
  · rintro ⟨rfl, hwalk, hd, hname⟩
    rw [h.walk_eq hs hwalk, Option.bind_some, h.entry_eq hs, if_pos ⟨hd, rfl, hname⟩]

/-! The two ways to take a path apart. -/

theorem lastSlash_none {p : Str} (h : lastSlash p = none) : slash ∉ p := by
  induction p using List.reverseRecOn with
  | nil => exact List.not_mem_nil
  | append_singleton p c ih =>
    unfold lastSlash at h ih
    rw [List.zipIdx_append, List.foldl_append] at h
    simp only [List.zipIdx_cons, List.zipIdx_nil, List.foldl_cons, List.foldl_nil] at h
    split_ifs at h with hc
    intro hmem
    rcases List.mem_append.mp hmem with hmem | hmem
    · exact ih h hmem
    · exact hc (List.mem_singleton.mp hmem).symm

theorem components_skipSlash (path : Str) : components (skipSlash path) = components path := by
  unfold skipSlash
  split_ifs with hhead
  · obtain ⟨rest, rfl⟩ : ∃ rest, path = slash :: rest := List.head?_eq_some_iff.mp hhead
    rw [List.tail_cons, components, components, words_sep_cons]
  · rfl

theorem components_of_notMem {p : Str} (h : slash ∉ p) (hne : p ≠ []) :
    components p = [p.take nameMax] := by
  rw [components, words_of_notMem h hne]
  rfl

theorem ramfsGetParentDir_eq (hs : s.Wf kids) (path : Str) : ramfsGetParentDir s path =
    match bootNames path with
    | none => some (s.root, (skipSlash path).take ramfsMaxName)
    | some (dirname, filename) => some ((s.entry kids s.root dirname).getD 0, filename) := by
  unfold ramfsGetParentDir bootNames
  dsimp only
  cases lastSlash (skipSlash path) with
  | none => rfl
  | some len =>
    dsimp only [Option.map_some]
    rw [ramfsLookupChild_eq hs (live_of_isDir hs.root_dir)]
    rfl

/-- The file is made where the path leads if and only if both take the path apart in the same way. -/
theorem bootTarget_iff (hs : s.Wf kids) (hcomp : components path = init ++ [last]) :
    (s.walk kids init = some (bootTarget s kids path).1 ∧
        s.isDir (bootTarget s kids path).1 = true ∧
        (bootTarget s kids path).2.take ramfsMaxName = last) ↔ BootNamed s kids path := by
  -- one name below the root
  have hroot : (s.walk kids init = some s.root ∧ s.isDir s.root = true ∧
      ((skipSlash path).take ramfsMaxName).take ramfsMaxName = last) ↔
        components path = [(skipSlash path).take ramfsMaxName] := by
    rw [List.take_take, Nat.min_self, hcomp]
    constructor
    · rintro ⟨hwalk, -, hlast⟩
      have hlen : init.length = 0 := walk_length (q := []) hs hwalk rfl
      rw [List.length_eq_zero_iff.mp hlen, hlast]
      rfl
    · intro heq
      obtain ⟨hinit, hlast⟩ := List.append_inj' (show init ++ [last] = [] ++ [_] from heq) rfl
      rw [hinit]
      exact ⟨rfl, hs.root_dir, (List.singleton_inj.mp hlast).symm⟩
  unfold bootTarget BootNamed
  cases hnames : bootNames path with
  | none =>
    refine iff_of_true (hroot.mpr ?_) trivial
    have hslash := lastSlash_none (Option.map_eq_none_iff.mp hnames)
    rw [← components_skipSlash]
    refine components_of_notMem hslash ?_
    intro hnil
    rw [← components_skipSlash, hnil] at hcomp
    exact absurd hcomp.symm (by simp [components])
  | some names =>
    obtain ⟨dirname, filename⟩ := names
    dsimp only
    cases hentry : s.entry kids s.root dirname with
    | none => exact hroot
    | some e =>
      have hfile : filename.take ramfsMaxName = filename := by
        obtain ⟨len, -, heq⟩ := Option.map_eq_some_iff.mp hnames
        rw [← (Prod.mk.inj heq).2, List.take_take, Nat.min_self]
      have hone : s.walk kids [dirname] = some e := by
        rw [walk, resolve, hentry]
        rfl
      dsimp only
      rw [hfile, hcomp]
      constructor
      · rintro ⟨hwalk, hdir, rfl⟩
        have hlen : init.length = 1 := walk_length hs hwalk hone
        obtain ⟨w, rfl⟩ := List.length_eq_one_iff.mp hlen
        rw [walk, resolve] at hwalk
        obtain ⟨b, hb, hbe⟩ := Option.bind_eq_some_iff.mp hwalk
        obtain rfl := Option.some.inj hbe
        rw [← (entry_live hs hb).2.2.1, ← (entry_live hs hentry).2.2.1]
        exact ⟨rfl, hdir⟩
      · rintro ⟨heq, hdir⟩
        obtain ⟨hinit, hlast⟩ := List.append_inj' (show init ++ [last] = [dirname] ++ [filename] from heq) rfl
        rw [hinit]
        exact ⟨hone, hdir, (List.singleton_inj.mp hlast).symm⟩

/-! The calls. -/

theorem map_bytesOf (content : Str) : (List.range content.length).map (bytesOf content) = content := by
  refine List.ext_getElem (by simp) ?_
  intro i h h'
  rw [List.getElem_map, List.getElem_range, bytesOf, List.getD_eq_getElem _ _ h']

theorem sIsdir_reg (mode : ℕ) : sIsdir (sIfreg ||| mode) = false := by
  have hbit : ((sIfreg ||| mode) &&& sIfmt).testBit 15 = true := by
    rw [Nat.testBit_and, Nat.testBit_or]
    have hreg : sIfreg.testBit 15 = true := by decide
    have hfmt : sIfmt.testBit 15 = true := by decide
    rw [hreg, hfmt]
    rfl
  refine beq_false_of_ne fun heq => ?_
  rw [heq] at hbit
  exact absurd hbit (by decide)

theorem fillContent_cases (s : Ramfs) (a : ℕ) (i : RamfsInode) (content : Option Str)
    (hi : i.data = none) : ∃ (s₁ : Ramfs) (f : RamfsInode → RamfsInode),
      fillContent (s.addInode a i) a content = some (s₁.addInode a (f i)) ∧
      s₁.core = s.core ∧ DataOnly f ∧
      (f i).content = if s.alloc 0 = 0 then [] else content.getD [] := by
  have hnone : i.content = [] := by rw [RamfsInode.content, hi]; rfl
  cases content with
  | none => exact ⟨s, id, rfl, rfl, fun _ => ⟨rfl, rfl, rfl, rfl, rfl⟩, by simp [hnone]⟩
  | some content =>
    have halloc : (s.addInode a i).kzalloc.1 = s.alloc 0 := (alloc_zero s).symm
    unfold fillContent
    dsimp only
    rw [halloc]
    by_cases h0 : s.alloc 0 = 0
    · rw [if_pos h0, if_pos h0]
      exact ⟨s.kzalloc.2, id, rfl, rfl, fun _ => ⟨rfl, rfl, rfl, rfl, rfl⟩, hnone⟩
    · have hlive : (s.addInode a i).kzalloc.2.live a = true := live_addInode s.kzalloc.2 a i
      rw [if_neg h0, if_neg h0, modify_eq hlive]
      refine ⟨s.kzalloc.2, fun j => { j with
        data := some (bytesOf content)
        size := content.length
        dataCapacity := content.length }, ?_, rfl, fun _ => ⟨rfl, rfl, rfl, rfl, rfl⟩,
        map_bytesOf content⟩
      exact congrArg some (addInode_upd s.kzalloc.2 a i _)

theorem boot_content {s₁ : Ramfs} {i : RamfsInode} {r : ℤ}
    (h : ramfsAddChild (s₁.addInode a i) d a = some (r, s')) : s'.contentOf a = i.content := by
  have hfield := ramfsAddChild_field (z := []) (g := RamfsInode.content) h (fun _ _ _ => rfl)
    fun _ _ => rfl
  rw [contentOf, hfield, field_addInode, Function.update_self]

theorem root_ne_zero (hs : s.Wf kids) : s.root ≠ 0 := by
  intro h
  have hlive := live_of_isDir hs.root_dir
  rw [h, hs.null] at hlive
  exact absurd hlive (by decide)

theorem bootTarget_live (hs : s.Wf kids) (path : Str) : s.live (bootTarget s kids path).1 = true := by
  have hroot := live_of_isDir hs.root_dir
  unfold bootTarget
  cases bootNames path with
  | none => exact hroot
  | some names =>
    dsimp only
    cases hentry : s.entry kids s.root names.1 with
    | none => exact hroot
    | some e => exact (entry_live hs hentry).2.2.2

theorem ramfsCreateFile_spec (path : Str) (mode : ℕ) (content : Option Str) (hs : s.Wf kids)
    (hm : FreshMem s) :
    ∃ r s', ramfsCreateFile s path mode content = some (r, s') ∧
      ((s.alloc 0 = 0 ∧ r = -eNOMEM ∧ s'.core = s.core) ∨
        (s.alloc 0 ≠ 0 ∧ r = 0 ∧ (∃ kids', Made s kids (bootTarget s kids path).1 (s.alloc 0)
          (sIfreg ||| mode) (bootTarget s kids path).2 s' kids') ∧
          s'.contentOf (s.alloc 0) = if s.alloc 1 = 0 then [] else content.getD [])) := by
  have htarget : ((ramfsGetParentDir s path).map fun r =>
      if r.1 = 0 then (s.root, (skipSlash path).take ramfsMaxName) else r) =
        some (bootTarget s kids path) := by
    rw [ramfsGetParentDir_eq hs]
    unfold bootTarget
    cases bootNames path with
    | none => exact congrArg some (if_neg (root_ne_zero hs))
    | some names =>
      dsimp only
      cases hentry : s.entry kids s.root names.1 with
      | none => rfl
      | some e => exact congrArg some (if_neg (hs.kid_ne_zero (entry_live hs hentry).2.1))
  obtain ⟨⟨parent, filename⟩, hparent, htarget⟩ := Option.map_eq_some_iff.mp htarget
  unfold ramfsCreateFile
  rw [if_neg (root_ne_zero hs), hparent, Option.bind_eq_bind, Option.bind_some]
  dsimp only at htarget ⊢
  rw [htarget, ramfsAllocInode_eq, ← alloc_zero]
  by_cases h0 : s.alloc 0 = 0
  · rw [if_pos h0]
    exact ⟨_, _, rfl, .inl ⟨h0, rfl, rfl⟩⟩
  have hfresh : s.live (s.alloc 0) = false := by
    rw [alloc_zero] at h0 ⊢
    exact hm.head h0
  obtain ⟨s₁, f, hfill, hcore, hf, hcontent⟩ := fillContent_cases s.kzalloc.2 (s.alloc 0)
    { ino := s.nextIno, mode := sIfreg ||| mode,
      name := (bootTarget s kids path).2.take ramfsMaxName } content rfl
  obtain ⟨r', s₂, hadd, hmade⟩ := boot_made s₁ f (sIfreg ||| mode) (bootTarget s kids path).2 hs hcore
    h0 hfresh (bootTarget_live hs path) hf
  rw [if_neg h0]
  dsimp only
  rw [if_neg h0, hfill, Option.bind_eq_bind, Option.bind_some, hadd, Option.bind_eq_bind,
    Option.bind_some]
  refine ⟨0, s₂, rfl, .inr ⟨h0, rfl, hmade, ?_⟩⟩
  rw [boot_content hadd, hcontent, alloc_drop (kmalloc_kzalloc s)]

theorem getParentDir_found (hs : s.Wf kids) (hfound : BootDirFound s kids path) :
    ramfsGetParentDir s path = some (bootTarget s kids path) ∧ (bootTarget s kids path).1 ≠ 0 := by
  rw [ramfsGetParentDir_eq hs]
  unfold bootTarget
  cases hnames : bootNames path with
  | none => exact ⟨rfl, root_ne_zero hs⟩
  | some names =>
    obtain ⟨e, hentry⟩ := hfound names.1 names.2 hnames
    dsimp only
    rw [hentry]
    exact ⟨rfl, hs.kid_ne_zero (entry_live hs hentry).2.1⟩

theorem ramfsCreateFileBytes_missing (mode : ℕ) (data : Option Bytes) (size : ℕ) (hs : s.Wf kids)
    (hfound : ¬BootDirFound s kids path) :
    ramfsCreateFileBytes s path mode data size = some (-eNOENT, s) := by
  have hparent : ∃ filename, ramfsGetParentDir s path = some (0, filename) := by
    rw [ramfsGetParentDir_eq hs]
    cases hnames : bootNames path with
    | none => exact absurd (fun _ _ h => absurd (hnames.symm.trans h) (by simp)) hfound
    | some names =>
      dsimp only
      cases hentry : s.entry kids s.root names.1 with
      | none => exact ⟨names.2, rfl⟩
      | some e =>
        refine absurd (fun dirname filename h => ⟨e, ?_⟩) hfound
        rw [← hentry, Option.some.inj (hnames.symm.trans h)]
  obtain ⟨filename, hparent⟩ := hparent
  unfold ramfsCreateFileBytes
  rw [if_neg (root_ne_zero hs), hparent]
  rfl

/-- Without memory for the bytes the new inode is left behind. -/
theorem ramfsCreateFileBytes_spec (mode : ℕ) (data : Option Bytes) (size : ℕ) (hs : s.Wf kids)
    (hm : FreshMem s) (hfound : BootDirFound s kids path) :
    ∃ r s', ramfsCreateFileBytes s path mode data size = some (r, s') ∧
      ((s.alloc 0 = 0 ∧ r = -eNOMEM ∧ s'.core = s.core) ∨
        (s.alloc 0 ≠ 0 ∧ givenBytes data size ≠ [] ∧ s.alloc 1 = 0 ∧ r = -eNOMEM ∧
          s'.inodes ≠ s.inodes) ∨
        (s.alloc 0 ≠ 0 ∧ (givenBytes data size = [] ∨ s.alloc 1 ≠ 0) ∧ r = 0 ∧
          (∃ kids', Made s kids (bootTarget s kids path).1 (s.alloc 0) (sIfreg ||| mode)
            (bootTarget s kids path).2 s' kids') ∧
          s'.contentOf (s.alloc 0) = givenBytes data size)) := by
  obtain ⟨hparent, hd0⟩ := getParentDir_found hs hfound
  have hlive := bootTarget_live hs path
  obtain ⟨d, hd⟩ : ∃ d, d = bootTarget s kids path := ⟨_, rfl⟩
  rw [← hd] at hparent hd0 hlive ⊢
  unfold ramfsCreateFileBytes
  rw [if_neg (root_ne_zero hs), hparent, Option.bind_eq_bind, Option.bind_some]
  dsimp only
  rw [if_neg hd0, ramfsAllocInode_eq, ← alloc_zero]
  by_cases h0 : s.alloc 0 = 0
  · rw [if_pos h0]
    exact ⟨_, _, rfl, .inl ⟨h0, rfl, rfl⟩⟩
  have hfresh : s.live (s.alloc 0) = false := by
    rw [alloc_zero] at h0 ⊢
    exact hm.head h0
  have hgiven : (data.isSome ∧ 0 < size) ↔ givenBytes data size ≠ [] := by
    cases data with
    | none => simp [givenBytes]
    | some data => simp [givenBytes, Nat.pos_iff_ne_zero]
  rw [if_neg h0]
  dsimp only
  rw [if_neg h0]
  by_cases hdata : data.isSome ∧ 0 < size
  · rw [if_pos hdata]
    obtain ⟨i, hi⟩ : ∃ i : RamfsInode, i = {
      ino := s.nextIno
      mode := sIfreg ||| mode
      name := d.2.take ramfsMaxName } := ⟨_, rfl⟩
    have hsecond : (s.kzalloc.2.addInode (s.alloc 0) i).kzalloc.1 = s.alloc 1 := by
      have h := alloc_drop (kmalloc_kzalloc s) 0
      rwa [alloc_zero] at h
    have hnew : (s.kzalloc.2.addInode (s.alloc 0) i).kzalloc.2.live (s.alloc 0) = true :=
      live_addInode s.kzalloc.2 _ _
    rw [← hi, hsecond]
    by_cases h1 : s.alloc 1 = 0
    · rw [if_pos h1]
      refine ⟨_, _, rfl, .inr (.inl ⟨h0, hgiven.mp hdata, h1, rfl, fun heq => ?_⟩)⟩
      obtain ⟨j, hj⟩ := live_iff.mp hnew
      rw [heq] at hj
      rw [live_iff.mpr ⟨j, hj⟩] at hfresh
      exact absurd hfresh (by decide)
    · rw [if_neg h1, modify_eq hnew, Option.bind_eq_bind, Option.bind_some]
      obtain ⟨r', s₂, hadd, hmade⟩ := boot_made s.kzalloc.2.kzalloc.2
        (fun f => { f with data := data, size := size, dataCapacity := size }) (sIfreg ||| mode) d.2
        hs rfl h0 hfresh hlive fun _ => ⟨rfl, rfl, rfl, rfl, rfl⟩
      have hupd := congrArg (ramfsAddChild · d.1 (s.alloc 0)) (addInode_upd s.kzalloc.2.kzalloc.2
        (s.alloc 0) i fun f => { f with data := data, size := size, dataCapacity := size })
      rw [← hi] at hadd
      refine ⟨0, s₂, ?_, .inr (.inr ⟨h0, .inr h1, rfl, hmade, boot_content hadd⟩)⟩
      exact congrArg (Option.bind · fun r => some ((0 : ℤ), r.2)) (hupd.trans hadd)
  · rw [if_neg hdata]
    obtain ⟨r', s₂, hadd, hmade⟩ := boot_made s.kzalloc.2 id (sIfreg ||| mode) d.2 hs rfl h0 hfresh
      hlive fun _ => ⟨rfl, rfl, rfl, rfl, rfl⟩
    have hempty : givenBytes data size = [] := by
      by_contra hne
      exact hdata (hgiven.mpr hne)
    rw [id] at hadd
    rw [hadd, Option.bind_eq_bind, Option.bind_some]
    refine ⟨0, s₂, rfl, .inr (.inr ⟨h0, .inl hempty, rfl, hmade, ?_⟩)⟩
    rw [boot_content hadd, hempty]
    rfl

theorem bootTruth_of_core {r : ℤ} (hr : r ≠ 0) (h : s'.core = s.core) :
    BootTruth s kids path bytes r s' where
  readable := fun h0 => absurd h0 hr
  unchanged := by
    intro _
    have hcount := congrArg Ramfs.inodeCount h
    exact ⟨inodes_of_core h, hcount, root_of_core h⟩

theorem Ramfs.Made.bootTruth_iff (hs : s.Wf kids)
    (h : Made s kids (bootTarget s kids path).1 a (sIfreg ||| mode) (bootTarget s kids path).2 s' kids') :
    BootTruth s kids path bytes 0 s' ↔
      (s.walk kids (components path) = none → BootNamed s kids path ∧ s'.contentOf a = bytes) := by
  have hunchanged : (0 : ℤ) ≠ 0 →
      s'.inodes = s.inodes ∧ s'.inodeCount = s.inodeCount ∧ s'.root = s.root := fun h => absurd rfl h
  rcases (components path).eq_nil_or_concat' with hcomp | ⟨init, last, hcomp⟩
  · have hwalk : s.walk kids (components path) ≠ none := by
      rw [hcomp]
      exact Option.some_ne_none _
    exact iff_of_true ⟨fun _ hnone => absurd hnone hwalk, hunchanged⟩ fun hnone => absurd hnone hwalk
  have hdir : s'.isDir a = false := by rw [h.isDir, Function.update_self, sIsdir_reg]
  have hread : s.walk kids (components path) = none →
      (Readable s' path bytes ↔ BootNamed s kids path ∧ s'.contentOf a = bytes) := by
    intro hnone
    rw [readable_iff h.wf hcomp, ← bootTarget_iff hs hcomp]
    constructor
    · rintro ⟨m, hm, -, hcontent⟩
      obtain ⟨rfl, htarget⟩ := (h.walk_iff hs hcomp hnone m).mp hm
      exact ⟨htarget, hcontent⟩
    · rintro ⟨htarget, hcontent⟩
      exact ⟨a, (h.walk_iff hs hcomp hnone a).mpr ⟨rfl, htarget⟩, hdir, hcontent⟩
  constructor
  · exact fun ht hnone => (hread hnone).mp (ht.readable rfl hnone)
  · exact fun hall => ⟨fun _ hnone => (hread hnone).mpr (hall hnone), hunchanged⟩

theorem ramfsCreateFile_truth_iff (path : Str) (mode : ℕ) (content : Option Str) (hs : s.Wf kids)
    (hm : FreshMem s) :
    (∀ r s', ramfsCreateFile s path mode content = some (r, s') →
        BootTruth s kids path (content.getD []) r s') ↔
      (s.walk kids (components path) = none → s.alloc 0 ≠ 0 →
        BootNamed s kids path ∧ (content.getD [] = [] ∨ s.alloc 1 ≠ 0)) := by
  obtain ⟨r, s', heq, hcases⟩ := ramfsCreateFile_spec path mode content hs hm
  rw [forall_some_iff heq]
  rcases hcases with ⟨h0, rfl, hcore⟩ | ⟨h0, rfl, ⟨kids', hmade⟩, hcontent⟩
  · exact iff_of_true (bootTruth_of_core (by decide) hcore) fun _ h => absurd h0 h
  · have hfilled : s'.contentOf (s.alloc 0) = content.getD [] ↔
        content.getD [] = [] ∨ s.alloc 1 ≠ 0 := by
      rw [hcontent]
      by_cases h1 : s.alloc 1 = 0
      · rw [if_pos h1]
        exact ⟨fun h => .inl h.symm, fun h => (h.resolve_right fun hn => hn h1).symm⟩
      · rw [if_neg h1]
        exact iff_of_true rfl (.inr h1)
    rw [hmade.bootTruth_iff hs, hfilled]
    exact ⟨fun h hnone _ => h hnone, fun h hnone => h hnone h0⟩

theorem ramfsCreateFileBytes_truth_iff (path : Str) (mode : ℕ) (data : Option Bytes) (size : ℕ)
    (hs : s.Wf kids) (hm : FreshMem s) :
    (∀ r s', ramfsCreateFileBytes s path mode data size = some (r, s') →
        BootTruth s kids path (givenBytes data size) r s') ↔
      (BootDirFound s kids path → s.alloc 0 ≠ 0 →
        (givenBytes data size = [] ∨ s.alloc 1 ≠ 0) ∧
          (s.walk kids (components path) = none → BootNamed s kids path)) := by
  by_cases hfound : BootDirFound s kids path
  · obtain ⟨r, s', heq, hcases⟩ := ramfsCreateFileBytes_spec mode data size hs hm hfound
    rw [forall_some_iff heq]
    rcases hcases with ⟨h0, rfl, hcore⟩ | ⟨h0, hne, h1, rfl, hchanged⟩ |
      ⟨h0, hmem, rfl, ⟨kids', hmade⟩, hcontent⟩
    · exact iff_of_true (bootTruth_of_core (by decide) hcore) fun _ h => absurd h0 h
    · refine iff_of_false (fun ht => hchanged (ht.unchanged (by decide)).1) fun h => ?_
      exact (h hfound h0).1.elim hne fun hn => hn h1
    · rw [hmade.bootTruth_iff hs, hcontent]
      constructor
      · exact fun h _ _ => ⟨hmem, fun hnone => (h hnone).1⟩
      · exact fun h hnone => ⟨(h hfound h0).2 hnone, rfl⟩
  · rw [forall_some_iff (ramfsCreateFileBytes_missing mode data size hs hfound)]
    exact iff_of_true (bootTruth_of_core (by decide) rfl) fun h => absurd h hfound

/-- The files made at boot are found by the VFS where its way to take a path apart agrees with that
of the ramfs. -/
theorem boot_files_iff (s : Ramfs) (kids : ℕ → List ℕ) (path : Str) (mode : ℕ) (hs : s.Wf kids)
    (hm : FreshMem s) :
    (∀ content, (∀ r s', ramfsCreateFile s path mode content = some (r, s') →
        BootTruth s kids path (content.getD []) r s') ↔
      (s.walk kids (components path) = none → s.alloc 0 ≠ 0 →
        BootNamed s kids path ∧ (content.getD [] = [] ∨ s.alloc 1 ≠ 0))) ∧
    ∀ data size, (∀ r s', ramfsCreateFileBytes s path mode data size = some (r, s') →
        BootTruth s kids path (givenBytes data size) r s') ↔
      (BootDirFound s kids path → s.alloc 0 ≠ 0 →
        (givenBytes data size = [] ∨ s.alloc 1 ≠ 0) ∧
          (s.walk kids (components path) = none → BootNamed s kids path)) :=
  ⟨fun content => ramfsCreateFile_truth_iff path mode content hs hm,
    fun data size => ramfsCreateFileBytes_truth_iff path mode data size hs hm⟩

theorem boot_files_root : ∃ s, Mounted s ∧ ∃ s',
    ramfsCreateFile s [slash, 0x61] 0o644 (some [0x68]) = some (0, s') ∧
      BootTruth s (fun _ => []) [slash, 0x61] [0x68] 0 s' := by
  have heval : ((ramfsMount ⟨fun _ => none, 0, 0, 0, [0x1000, 0x2000, 1]⟩).bind fun s =>
      (ramfsCreateFile s [slash, 0x61] 0o644 (some [0x68])).map fun r =>
        (s.kmalloc.all fun a => !s.live a) && s.alloc 1 == 1 && r.1 == 0) = some true := by
    decide +kernel
  obtain ⟨s, hmount, heval⟩ := Option.bind_eq_some_iff.mp heval
  obtain ⟨⟨r, s'⟩, hcreate, heval⟩ := Option.map_eq_some_iff.mp heval
  simp only [Bool.and_eq_true, beq_iff_eq] at heval
  obtain ⟨⟨hfresh, hmem⟩, rfl⟩ := heval
  refine ⟨s, ⟨_, hmount⟩, s', hcreate, ?_⟩
  have hs : s.Wf fun _ => [] := (mounted_wf ⟨_, hmount⟩).1
  refine ((boot_files_iff s _ _ _ hs (freshMem_of_all hfresh)).1 (some [0x68])).mpr ?_ 0 s' hcreate
  intro _ _
  refine ⟨?_, .inr ?_⟩
  · have hnames : bootNames [slash, 0x61] = none := by decide +kernel
    rw [BootNamed, hnames]
    trivial
  · rw [hmem]
    decide

/-- `ramfs_create_file("u/x")` without a directory `u`: the file is entered in the root under the
name `u/x`, which no path leads to. -/
theorem boot_file_unreachable : ¬ ∀ (s : Ramfs) (kids : ℕ → List ℕ) (path : Str) (mode : ℕ)
    (content : Option Str), s.Wf kids → FreshMem s →
      ∀ r s', ramfsCreateFile s path mode content = some (r, s') →
        BootTruth s kids path (content.getD []) r s' := by
  intro h
  have heval : ((ramfsMount ⟨fun _ => none, 0, 0, 0, [0x1000, 0x2000, 1]⟩).bind fun s =>
      (ramfsCreateFile s [0x75, slash, 0x78] 0o644 (some [0x68])).bind fun r =>
        (vfsOpen { r.2 with kmalloc := List.replicate 5 1 } [0x75, slash, 0x78] 0 0).map fun o =>
          (s.kmalloc.all fun a => !s.live a) && r.1 == 0 && o.1.isNone) = some true := by
    decide +kernel
  obtain ⟨s, hmount, heval⟩ := Option.bind_eq_some_iff.mp heval
  obtain ⟨⟨r, s'⟩, hcreate, heval⟩ := Option.bind_eq_some_iff.mp heval
  obtain ⟨⟨o, s''⟩, hopen, heval⟩ := Option.map_eq_some_iff.mp heval
  simp only [Bool.and_eq_true, beq_iff_eq] at heval
  obtain ⟨⟨hfresh, rfl⟩, hnone⟩ := heval
  have hs : s.Wf fun _ => [] := (mounted_wf ⟨_, hmount⟩).1
  have htruth := h s _ _ _ _ hs (freshMem_of_all hfresh) _ s' hcreate
  have hcomp : components [0x75, slash, 0x78] = [[0x75], [0x78]] := by decide +kernel
  have hwalk : s.walk (fun _ => []) (components [0x75, slash, 0x78]) = none := by
    rw [hcomp, walk, resolve, entry]
    split_ifs <;> rfl
  have hsup : ({ s' with kmalloc := List.replicate 5 1 } : Ramfs).Supplied
      (2 * (components [0x75, slash, 0x78]).length + 1) := by
    rw [hcomp]
    exact supplied_replicate s' 5
  obtain ⟨file, s₃, hopen', -⟩ := htruth.readable rfl hwalk _ 0 0 rfl hsup
  obtain ⟨rfl, -⟩ := pair_inj (hopen.symm.trans hopen')
  exact absurd hnone (by simp)

end GcAos.Fs
