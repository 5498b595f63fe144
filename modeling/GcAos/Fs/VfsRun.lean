import GcAos.Fs.VfsEdit

/-! Runs of the calls that change the name space of a freshly mounted ramfs: when its inodes form a
tree, and when no directory has two entries of one name. -/

namespace GcAos.Fs
open Lib Ramfs

variable {s s' : Ramfs} {kids kids' : ℕ → List ℕ}

/-- A call with the results of `kmalloc` it meets; `kmalloc` returns memory that is not in use. -/
def FsStep (s : Ramfs) (x : FsCall × List ℕ) (s' : Ramfs) : Prop :=
  FreshMem { s with kmalloc := x.2 } ∧ x.1.run { s with kmalloc := x.2 } = some s'

def VfsStep (s : Ramfs) (x : VfsCall × List ℕ) (s' : Ramfs) : Prop := FsStep s (.vfs x.1, x.2) s'

def Mounted (s : Ramfs) : Prop := ∃ mem, ramfsMount ⟨fun _ => none, 0, 0, 0, mem⟩ = some s

def OnChildList (s : Ramfs) (d a : ℕ) : Prop := ∃ l, Chain 0 s.sibling (s.children d) l ∧ a ∈ l

/-- Every inode but the root is on the child list of its parent, a directory, and on no other, and
its parents lead to the root. -/
def TreeShaped (s : Ramfs) : Prop :=
  ∀ a, s.live a = true → a ≠ s.root →
    s.isDir (s.parent a) = true ∧ OnChildList s (s.parent a) a ∧
      (∀ d, OnChildList s d a → d = s.parent a) ∧ Reaches s.parent s.root a

def UniqueNames (s : Ramfs) : Prop :=
  ∀ d, s.isDir d = true → ∃ l, Chain 0 s.sibling (s.children d) l ∧ (l.map s.nameOf).Nodup

/-- The new place of an entry is a directory, and not inside the entry itself. -/
def Edit.KeepsTree (s : Ramfs) : Edit → Prop
  | .make dir _ _ _ => s.isDir dir = true
  | .move _ target new _ => s.isDir new = true ∧ ¬ Inside s.parent target new
  | .remove _ _ => True

def Edit.KeepsNames (s : Ramfs) : Edit → Prop
  | .make dir _ _ name =>
    s.isDir dir = true → ramfsLookupChild s dir (name.take ramfsMaxName) = some 0
  | .move _ _ _ _ => True
  | .remove _ _ => True

def TreeStep (s : Ramfs) (x : VfsCall × List ℕ) (s' : Ramfs) : Prop :=
  VfsStep s x s' ∧ ∀ e, Edits { s with kmalloc := x.2 } (.vfs x.1) e → e.KeepsTree s

def NamesStep (s : Ramfs) (x : FsCall × List ℕ) (s' : Ramfs) : Prop :=
  FsStep s x s' ∧ ∀ e, Edits { s with kmalloc := x.2 } x.1 e → e.KeepsNames s

theorem mounted_inodes (h : Mounted s) : s.root ≠ 0 ∧ s.nextIno = 2 ∧
    s.inodes = Function.update (fun _ => none) s.root
      (some { ino := 1, mode := sIfdir ||| 0o755, name := [] }) := by
  obtain ⟨mem, h⟩ := h
  unfold ramfsMount at h
  rw [ramfsAllocInode_eq] at h
  dsimp only at h
  by_cases h0 : mem.headD 0 = 0
  · rw [if_pos h0] at h
    exact absurd h (by simp)
  rw [if_neg h0] at h
  dsimp only at h
  rw [if_neg h0] at h
  obtain rfl := Option.some.inj h
  exact ⟨h0, rfl, rfl⟩

theorem mounted_field {β : Type*} {g : RamfsInode → β} {z : β} (h : Mounted s) :
    s.field g z = Function.update (fun _ => z) s.root
      (g { ino := 1, mode := sIfdir ||| 0o755, name := [] }) := by
  funext a
  rw [field, (mounted_inodes h).2.2]
  by_cases ha : a = s.root
  · rw [ha, Function.update_self, Function.update_self]
    rfl
  · rw [Function.update_of_ne ha, Function.update_of_ne ha]
    rfl

theorem mounted_root (h : Mounted s) :
    s.root ≠ 0 ∧ s.live = Function.update (fun _ => false) s.root true ∧ s.isDir s.root = true ∧
      (∀ a, s.children a = 0) ∧ s.ino s.root < s.nextIno := by
  refine ⟨(mounted_inodes h).1, mounted_field h, ?_, ?_, ?_⟩
  · rw [isDir, mounted_field h, Function.update_self]
    decide
  · intro a
    rw [children, mounted_field h, Function.update_eq_self]
  · rw [ino, mounted_field h, Function.update_self, (mounted_inodes h).2.1]
    decide

theorem mounted_wf (h : Mounted s) :
    s.Wf (fun _ => []) ∧ ∀ a, s.live a = true → a = s.root := by
  obtain ⟨hr0, hlive, hdir, hch, hino⟩ := mounted_root h
  have honly : ∀ a, s.live a = true → a = s.root := by
    intro a ha
    by_contra hne
    rw [hlive, Function.update_of_ne hne] at ha
    exact absurd ha (by decide)
  refine ⟨?_, honly⟩
  exact {
    null := by rw [hlive, Function.update_of_ne hr0.symm]
    root_dir := hdir
    chain := hch
    kid_live := fun _ _ h => absurd h List.not_mem_nil
    kid_ne_root := fun _ _ h => absurd h List.not_mem_nil
    nodup := fun _ => List.nodup_nil
    owner := fun _ _ _ h => absurd h List.not_mem_nil
    ino_lt := fun a ha => honly a ha ▸ hino
    ino_inj := fun a b ha hb _ => (honly a ha).trans (honly b hb).symm }

/-! The tree. -/

structure TreeInv (s : Ramfs) (kids : ℕ → List ℕ) : Prop where
  wf : s.Wf kids
  kid : ∀ d c, c ∈ kids d → s.isDir d = true ∧ s.parent c = d
  placed : ∀ a, s.live a = true → a ≠ s.root → a ∈ kids (s.parent a)
  reaches : ∀ a, s.live a = true → Reaches s.parent s.root a

namespace TreeInv

variable (ht : TreeInv s kids)
include ht

theorem parent_live {a : ℕ} (ha : s.live a = true) (hr : a ≠ s.root) :
    s.live (s.parent a) = true :=
  live_of_isDir (ht.kid _ a (ht.placed a ha hr)).1

theorem of_core (h : s'.core = s.core) : TreeInv s' kids where
  wf := ht.wf.of_core h
  kid := by rw [isDir_of_core h, parent_of_core h]; exact ht.kid
  placed := by rw [live_of_core h, parent_of_core h, root_of_core h]; exact ht.placed
  reaches := by rw [live_of_core h, parent_of_core h, root_of_core h]; exact ht.reaches

theorem made {d a mode : ℕ} {name : Str} (h : Made s kids d a mode name s' kids')
    (hd : s.isDir d = true) : TreeInv s' kids' := by
  obtain ⟨hkids, hpar⟩ := h.linked hd
  have hne : ∀ b, s.live b = true → b ≠ a := by
    rintro b hb rfl
    rw [h.dead] at hb
    exact absurd hb (by decide)
  have hlive : ∀ b, s'.live b = true → b = a ∨ s.live b = true := by
    intro b hb
    by_cases hba : b = a
    · exact .inl hba
    · rw [h.live, Function.update_of_ne hba] at hb
      exact .inr hb
  have hparOld : ∀ b, s.live b = true → s'.parent b = s.parent b := by
    intro b hb
    rw [hpar, Function.update_of_ne (hne b hb)]
  have hparNew : s'.parent a = d := by rw [hpar, Function.update_self]
  have hreach : ∀ b, s.live b = true → Reaches s'.parent s'.root b := by
    intro b hb
    rw [h.root]
    refine (ht.reaches b hb).transfer (P := fun y => s.live y = true) hb ?_
    exact fun y hy hr => ⟨ht.parent_live hy hr, hparOld y hy⟩
  have hdir : ∀ b, s.isDir b = true → s'.isDir b = true := by
    intro b hb
    rw [h.isDir, Function.update_of_ne (hne b (live_of_isDir hb))]
    exact hb
  refine ⟨h.wf, ?_, ?_, ?_⟩
  · intro x c hc
    rcases h.mem_kids hc with ⟨-, rfl, rfl⟩ | hc
    · exact ⟨hdir x hd, hparNew⟩
    · rw [hparOld c (ht.wf.kid_live x c hc)]
      exact ⟨hdir x (ht.kid x c hc).1, (ht.kid x c hc).2⟩
  · intro b hb hr
    rcases hlive b hb with rfl | hb
    · rw [hparNew, hkids, Function.update_self]
      exact List.mem_cons_self
    · have hmem := ht.placed b hb (h.root ▸ hr)
      rw [hparOld b hb, hkids]
      by_cases hx : s.parent b = d
      · rw [hx, Function.update_self]
        exact List.mem_cons_of_mem a (hx ▸ hmem)
      · rw [Function.update_of_ne hx]
        exact hmem
  · intro b hb
    rcases hlive b hb with rfl | hb
    · refine .step ?_
      rw [hparNew]
      exact hreach d (live_of_isDir hd)
    · exact hreach b hb

theorem moved {o t n : ℕ} {name : Str} (h : Moved s kids o t n name s' kids')
    (hn : s.isDir n = true) (hout : ¬ Inside s.parent t n) : TreeInv s' kids' := by
  have hpt : s.parent t = o := (ht.kid o t h.mem_old).2
  have hpar : s'.parent = Function.update s.parent t n := by
    rw [h.parent]
    by_cases hon : o = n
    · rw [if_pos hon, ← hon, ← hpt, Function.update_eq_self]
    · rw [if_neg hon]
  refine ⟨h.wf, ?_, ?_, ?_⟩
  · intro x c hc
    rw [h.frame.isDir, hpar]
    rcases (h.mem_kids ht.wf).mp hc with ⟨rfl, rfl⟩ | ⟨hct, hc⟩
    · exact ⟨hn, Function.update_self _ _ _⟩
    · rw [Function.update_of_ne hct]
      exact ht.kid x c hc
  · intro b hb hr
    rw [h.frame.live] at hb
    rw [h.frame.root] at hr
    rw [h.mem_kids ht.wf, hpar]
    by_cases hbt : b = t
    · rw [hbt, Function.update_self]
      exact .inl ⟨rfl, rfl⟩
    · rw [Function.update_of_ne hbt]
      exact .inr ⟨hbt, ht.placed b hb hr⟩
  · intro b hb
    rw [h.frame.live] at hb
    rw [h.frame.root, hpar]
    refine (ht.reaches b hb).move (ht.reaches n (live_of_isDir hn)) hout ?_ (Function.update_self _ _ _)
    exact fun y hy => Function.update_of_ne hy _ _

theorem removed {d t : ℕ} (h : Removed s kids d t s' kids') (hempty : kids t = []) :
    TreeInv s' kids' := by
  have hlive : ∀ b, s'.live b = true → b ≠ t ∧ s.live b = true := by
    intro b hb
    rw [h.live] at hb
    by_cases hbt : b = t
    · rw [hbt, Function.update_self] at hb
      exact absurd hb (by decide)
    · rw [Function.update_of_ne hbt] at hb
      exact ⟨hbt, hb⟩
  have hpar : ∀ b, b ≠ t → s'.parent b = s.parent b := by
    intro b hb
    rw [h.parent, Function.update_of_ne hb]
  -- nothing is below the inode that goes
  have hparNe : ∀ b, s.live b = true → b ≠ s.root → s.parent b ≠ t := by
    intro b hb hr heq
    have hmem := ht.placed b hb hr
    rw [heq, hempty] at hmem
    exact absurd hmem List.not_mem_nil
  refine ⟨h.wf, ?_, ?_, ?_⟩
  · intro x c hc
    obtain ⟨hxt, hct, hc⟩ := (h.mem_kids ht.wf).mp hc
    rw [h.isDir, Function.update_of_ne hxt, hpar c hct]
    exact ht.kid x c hc
  · intro b hb hr
    obtain ⟨hbt, hb⟩ := hlive b hb
    rw [h.root] at hr
    rw [hpar b hbt, h.mem_kids ht.wf]
    exact ⟨hparNe b hb hr, hbt, ht.placed b hb hr⟩
  · intro b hb
    obtain ⟨hbt, hb⟩ := hlive b hb
    rw [h.root]
    refine (ht.reaches b hb).transfer (P := fun y => s.live y = true ∧ y ≠ t) ⟨hb, hbt⟩ ?_
    exact fun y hy hr => ⟨⟨ht.parent_live hy.1 hr, hparNe y hy.1 hr⟩, hpar y hy.2⟩

theorem effect {e : Edit} (h : e.Effect s kids s' kids') (hok : e.KeepsTree s) :
    TreeInv s' kids' := by
  cases e with
  | make d a mode name => exact ht.made h hok
  | move o t n name => exact ht.moved h hok.1 hok.2
  | remove d t =>
    refine ht.removed h.1 ?_
    rcases h.2 with hdir | hempty
    · by_contra hne
      obtain ⟨c, hc⟩ := List.exists_mem_of_ne_nil _ hne
      have := (ht.kid t c hc).1
      rw [hdir] at this
      exact absurd this (by decide)
    · exact hempty

theorem treeShaped : TreeShaped s := by
  intro a ha hr
  have hmem := ht.placed a ha hr
  refine ⟨(ht.kid _ a hmem).1, ⟨_, ht.wf.chain _, hmem⟩, ?_, ht.reaches a ha⟩
  rintro d ⟨l, hl, hal⟩
  rw [hl.unique (ht.wf.chain d)] at hal
  exact (ht.kid d a hal).2.symm

end TreeInv

theorem mounted_tree (h : Mounted s) : TreeInv s fun _ => [] := by
  obtain ⟨hwf, honly⟩ := mounted_wf h
  refine ⟨hwf, fun _ _ hc => absurd hc List.not_mem_nil, ?_, ?_⟩
  · exact fun a ha hr => absurd (honly a ha) hr
  · intro a ha
    rw [honly a ha]
    exact .root

theorem tree_step (s : Ramfs) (x : VfsCall × List ℕ) (s' : Ramfs) (hs : ∃ kids, TreeInv s kids)
    (h : TreeStep s x s') : ∃ kids, TreeInv s' kids := by
  obtain ⟨kids, ht⟩ := hs
  obtain ⟨⟨hfresh, hrun⟩, hok⟩ := h
  have ht' : TreeInv { s with kmalloc := x.2 } kids := ht.of_core rfl
  rcases run_outcome ht'.wf hfresh hrun with hcore | ⟨e, kids', hedit, heff⟩
  · exact ⟨kids, ht'.of_core hcore⟩
  · refine ⟨kids', ht'.effect heff ?_⟩
    have := hok e hedit
    cases e <;> exact this

/-- Runs whose calls enter inodes below directories only, and never a directory below itself, keep
the name space a tree. -/
theorem ramfs_stays_tree {s₀ : Ramfs} {calls : List (VfsCall × List ℕ)} (hmount : Mounted s₀)
    (hrun : Exec TreeStep s₀ calls s) : TreeShaped s := by
  obtain ⟨kids, ht⟩ := hrun.invariant tree_step ⟨_, mounted_tree hmount⟩
  exact ht.treeShaped

def parentOf (s : Ramfs) (path : Str) : Option (Option ℕ) :=
  (vfsLookupParent s path).map fun r => r.1.map fun found => found.1.iPrivate

theorem iPrivate_of_parentOf {path name : Str} {d : ℕ} {p : Inode} {s₁ : Ramfs}
    (h : parentOf s path = some (some d)) (hp : vfsLookupParent s path = some (some (p, name), s₁)) :
    p.iPrivate = d := by
  unfold parentOf at h
  rw [hp] at h
  exact Option.some.inj (Option.some.inj h)

theorem freshMem_of_all {mem : List ℕ} (h : (mem.all fun a => !s.live a) = true) :
    FreshMem { s with kmalloc := mem } := by
  intro a ha _
  show s.live a = false
  simpa using List.all_eq_true.mp h a ha

theorem ramfs_stays_tree_two_calls :
    ∃ s₀ s, Mounted s₀ ∧ Exec TreeStep s₀
      [(.mkdir [0x2f, 0x64] 0o755, [1, 0x2000, 2]),
        (.create [0x2f, 0x64, 0x2f, 0x66] 0o644, [1, 2, 3, 0x3000, 4])] s ∧
      s.live 0x3000 = true ∧ TreeShaped s := by
  have heval : ((ramfsMount ⟨fun _ => none, 0, 0, 0, [0x1000]⟩).bind fun s₀ =>
      (VfsCall.run { s₀ with kmalloc := [1, 0x2000, 2] } (.mkdir [0x2f, 0x64] 0o755)).bind fun s₁ =>
      (VfsCall.run { s₁ with kmalloc := [1, 2, 3, 0x3000, 4] }
        (.create [0x2f, 0x64, 0x2f, 0x66] 0o644)).map fun s₂ =>
          ([1, 0x2000, 2].all fun a => !s₀.live a) &&
          ([1, 2, 3, 0x3000, 4].all fun a => !s₁.live a) &&
          (parentOf { s₀ with kmalloc := [1, 0x2000, 2] } [0x2f, 0x64] == some (some 0x1000)) &&
          s₀.isDir 0x1000 &&
          (parentOf { s₁ with kmalloc := [1, 2, 3, 0x3000, 4] } [0x2f, 0x64, 0x2f, 0x66] ==
            some (some 0x2000)) &&
          s₁.isDir 0x2000 && s₂.live 0x3000) = some true := by decide +kernel
  obtain ⟨s₀, h₀, heval⟩ := Option.bind_eq_some_iff.mp heval
  obtain ⟨s₁, h₁, heval⟩ := Option.bind_eq_some_iff.mp heval
  obtain ⟨s₂, h₂, heval⟩ := Option.map_eq_some_iff.mp heval
  simp only [Bool.and_eq_true, beq_iff_eq] at heval
  obtain ⟨⟨⟨⟨⟨⟨hfresh₁, hfresh₂⟩, hpar₁⟩, hdir₁⟩, hpar₂⟩, hdir₂⟩, hlive⟩ := heval
  have hstep₁ : TreeStep s₀ (.mkdir [0x2f, 0x64] 0o755, [1, 0x2000, 2]) s₁ := by
    refine ⟨⟨freshMem_of_all hfresh₁, h₁⟩, ?_⟩
    intro e he
    cases he with
    | mkdir hp _ =>
      show s₀.isDir _ = true
      rw [iPrivate_of_parentOf hpar₁ hp]
      exact hdir₁
  have hstep₂ : TreeStep s₁ (.create [0x2f, 0x64, 0x2f, 0x66] 0o644, [1, 2, 3, 0x3000, 4]) s₂ := by
    refine ⟨⟨freshMem_of_all hfresh₂, h₂⟩, ?_⟩
    intro e he
    cases he with
    | create hp _ =>
      show s₁.isDir _ = true
      rw [iPrivate_of_parentOf hpar₂ hp]
      exact hdir₂
  have hrun := Exec.cons hstep₁ (.cons hstep₂ (.nil s₂))
  exact ⟨s₀, s₂, ⟨_, h₀⟩, hrun, hlive, ramfs_stays_tree ⟨_, h₀⟩ hrun⟩

/-- `creat("/f")` and `creat("/f/g")`: the second file is below a file, on no child list. -/
theorem ramfs_detached_file :
    ¬ ∀ (s₀ : Ramfs) (calls : List (VfsCall × List ℕ)) (s : Ramfs),
      Mounted s₀ → Exec VfsStep s₀ calls s → TreeShaped s := by
  intro h
  have heval : ((ramfsMount ⟨fun _ => none, 0, 0, 0, [0x1000]⟩).bind fun s₀ =>
      (VfsCall.run { s₀ with kmalloc := [1, 0x2000, 2] } (.create [0x2f, 0x66] 0o644)).bind fun s₁ =>
      (VfsCall.run { s₁ with kmalloc := [1, 2, 3, 0x3000, 4] }
        (.create [0x2f, 0x66, 0x2f, 0x67] 0o644)).map fun s₂ =>
          ([1, 0x2000, 2].all fun a => !s₀.live a) &&
          ([1, 2, 3, 0x3000, 4].all fun a => !s₁.live a) &&
          s₂.live 0x3000 && (s₂.root == 0x1000) && !s₂.isDir (s₂.parent 0x3000)) = some true := by
    decide +kernel
  obtain ⟨s₀, h₀, heval⟩ := Option.bind_eq_some_iff.mp heval
  obtain ⟨s₁, h₁, heval⟩ := Option.bind_eq_some_iff.mp heval
  obtain ⟨s₂, h₂, heval⟩ := Option.map_eq_some_iff.mp heval
  simp only [Bool.and_eq_true, beq_iff_eq] at heval
  obtain ⟨⟨⟨⟨hfresh₁, hfresh₂⟩, hlive⟩, hroot⟩, hdir⟩ := heval
  have hstep₁ : VfsStep s₀ (.create [0x2f, 0x66] 0o644, [1, 0x2000, 2]) s₁ :=
    ⟨freshMem_of_all hfresh₁, h₁⟩
  have hstep₂ : VfsStep s₁ (.create [0x2f, 0x66, 0x2f, 0x67] 0o644, [1, 2, 3, 0x3000, 4]) s₂ :=
    ⟨freshMem_of_all hfresh₂, h₂⟩
  have hrun := Exec.cons hstep₁ (.cons hstep₂ (.nil s₂))
  have hne : 0x3000 ≠ s₂.root := by
    rw [hroot]
    decide
  have htree := (h s₀ _ s₂ ⟨_, h₀⟩ hrun 0x3000 hlive hne).1
  rw [htree] at hdir
  exact absurd hdir (by decide)

/-! The names. -/

structure NamesInv (s : Ramfs) (kids : ℕ → List ℕ) : Prop where
  wf : s.Wf kids
  names : ∀ d, s.isDir d = true → ∀ b ∈ kids d, ∀ c ∈ kids d, s.nameOf b = s.nameOf c → b = c

theorem lookupParentFrom_name {fuel : ℕ} {dir p : Inode} {path name : Str}
    (h : lookupParentFrom fuel dir path s = some (some (p, name), s')) :
    name.length ≤ nameMax := by
  induction fuel generalizing dir path s with
  | zero => exact absurd h (by simp [lookupParentFrom])
  | succ fuel ih =>
    unfold lookupParentFrom at h
    split at h
    · exact absurd h (by simp)
    dsimp only at h
    split at h
    · obtain ⟨hp, -⟩ := pair_inj h
      rw [← (pair_inj hp).2]
      exact List.length_take_le _ _
    split at h
    · exact absurd h (by simp)
    rw [Option.bind_eq_bind, Option.bind_eq_some_iff] at h
    obtain ⟨⟨dInode, s₂⟩, -, h⟩ := h
    cases dInode with
    | none => exact absurd h (by simp)
    | some inode => exact ih h

theorem Edits.move_name {c : FsCall} {o t n : ℕ} {name : Str} (h : Edits s c (.move o t n name)) :
    ramfsLookupChild s n (name.take ramfsMaxName) = some 0 := by
  cases h with
  | rename _ hnew _ hfree =>
    have hlen : name.length ≤ ramfsMaxName := lookupParentFrom_name hnew
    rw [List.take_of_length_le hlen]
    exact hfree

namespace NamesInv

variable (hn : NamesInv s kids)
include hn

theorem of_core (h : s'.core = s.core) : NamesInv s' kids where
  wf := hn.wf.of_core h
  names := by rw [isDir_of_core h, nameOf_of_core h]; exact hn.names

theorem ne_of_lookup {d : ℕ} {name : Str} (hd : s.isDir d = true)
    (h : ramfsLookupChild s d name = some 0) : ∀ c ∈ kids d, s.nameOf c ≠ name := by
  obtain ⟨r, hlook, hcases⟩ := ramfsLookupChild_cases hn.wf (live_of_isDir hd) name
  rw [h] at hlook
  obtain rfl := Option.some.inj hlook
  rcases hcases with ⟨-, hfree⟩ | ⟨hr, -⟩
  · exact hfree hd
  · exact absurd rfl hr

theorem made {d a mode : ℕ} {name : Str} (h : Made s kids d a mode name s' kids')
    (hfree : s.isDir d = true → ramfsLookupChild s d (name.take ramfsMaxName) = some 0) :
    NamesInv s' kids' := by
  have hne : ∀ b, s.live b = true → b ≠ a := by
    rintro b hb rfl
    rw [h.dead] at hb
    exact absurd hb (by decide)
  have hold : ∀ x c, c ∈ kids x → s'.nameOf c = s.nameOf c := by
    intro x c hc
    rw [h.nameOf, Function.update_of_ne (hne c (hn.wf.kid_live x c hc))]
  have hnew : s'.nameOf a = name.take ramfsMaxName := by rw [h.nameOf, Function.update_self]
  refine ⟨h.wf, ?_⟩
  intro x hx b hb c hc heq
  have hxdir : ∀ e, e ∈ kids x → s.isDir x = true := by
    intro e he
    have hxa : x ≠ a := by
      rintro rfl
      rw [hn.wf.kids_dead h.dead] at he
      exact absurd he List.not_mem_nil
    rwa [h.isDir, Function.update_of_ne hxa] at hx
  rcases h.mem_kids hb with ⟨hd, hxd, rfl⟩ | hb
  · rcases h.mem_kids hc with ⟨-, -, rfl⟩ | hc
    · rfl
    · rw [hnew, hold x c hc] at heq
      subst hxd
      exact absurd heq.symm (hn.ne_of_lookup hd (hfree hd) c hc)
  · rcases h.mem_kids hc with ⟨hd, hxd, rfl⟩ | hc
    · rw [hnew, hold x b hb] at heq
      subst hxd
      exact absurd heq (hn.ne_of_lookup hd (hfree hd) b hb)
    · rw [hold x b hb, hold x c hc] at heq
      exact hn.names x (hxdir b hb) b hb c hc heq

theorem moved {o t n : ℕ} {name : Str} (h : Moved s kids o t n name s' kids')
    (hfree : ramfsLookupChild s n (name.take ramfsMaxName) = some 0) : NamesInv s' kids' := by
  have hold : ∀ c, c ≠ t → s'.nameOf c = s.nameOf c := by
    intro c hc
    rw [h.nameOf, Function.update_of_ne hc]
  have hnew : s'.nameOf t = name.take ramfsMaxName := by rw [h.nameOf, Function.update_self]
  refine ⟨h.wf, ?_⟩
  intro x hx b hb c hc heq
  rw [h.frame.isDir] at hx
  rcases (h.mem_kids hn.wf).mp hb with ⟨hxn, rfl⟩ | ⟨hbt, hb⟩
  · rcases (h.mem_kids hn.wf).mp hc with ⟨-, rfl⟩ | ⟨hct, hc⟩
    · rfl
    · rw [hnew, hold c hct] at heq
      subst hxn
      exact absurd heq.symm (hn.ne_of_lookup hx hfree c hc)
  · rcases (h.mem_kids hn.wf).mp hc with ⟨hxn, rfl⟩ | ⟨hct, hc⟩
    · rw [hnew, hold b hbt] at heq
      subst hxn
      exact absurd heq (hn.ne_of_lookup hx hfree b hb)
    · rw [hold b hbt, hold c hct] at heq
      exact hn.names x hx b hb c hc heq

theorem removed {d t : ℕ} (h : Removed s kids d t s' kids') : NamesInv s' kids' := by
  refine ⟨h.wf, ?_⟩
  intro x hx b hb c hc heq
  obtain ⟨hxt, hbt, hb⟩ := (h.mem_kids hn.wf).mp hb
  obtain ⟨-, hct, hc⟩ := (h.mem_kids hn.wf).mp hc
  rw [h.isDir, Function.update_of_ne hxt] at hx
  rw [h.nameOf, Function.update_of_ne hbt, Function.update_of_ne hct] at heq
  exact hn.names x hx b hb c hc heq

theorem uniqueNames : UniqueNames s := by
  intro d hd
  refine ⟨kids d, hn.wf.chain d, ?_⟩
  exact (hn.wf.nodup d).map_on fun b hb c hc heq => hn.names d hd b hb c hc heq

end NamesInv

theorem names_step (s : Ramfs) (x : FsCall × List ℕ) (s' : Ramfs) (hs : ∃ kids, NamesInv s kids)
    (h : NamesStep s x s') : ∃ kids, NamesInv s' kids := by
  obtain ⟨kids, hn⟩ := hs
  obtain ⟨⟨hfresh, hrun⟩, hok⟩ := h
  have hn' : NamesInv { s with kmalloc := x.2 } kids := hn.of_core rfl
  rcases run_outcome hn'.wf hfresh hrun with hcore | ⟨e, kids', hedit, heff⟩
  · exact ⟨kids, hn'.of_core hcore⟩
  · cases e with
    | make d a mode name =>
      refine ⟨kids', hn'.made heff ?_⟩
      intro hd
      have hcore : ({ s with kmalloc := x.2 } : Ramfs).core = s.core := rfl
      rw [ramfsLookupChild_of_core hcore]
      exact hok _ hedit hd
    | move o t n name => exact ⟨kids', hn'.moved heff hedit.move_name⟩
    | remove d t => exact ⟨kids', hn'.removed heff.1⟩

/-- Runs whose calls make no entry of a name that the directory has keep the names unique. -/
theorem ramfs_unique_names {s₀ : Ramfs} {calls : List (FsCall × List ℕ)} (hmount : Mounted s₀)
    (hrun : Exec NamesStep s₀ calls s) : UniqueNames s := by
  have hinit : NamesInv s₀ fun _ => [] :=
    ⟨(mounted_wf hmount).1, fun _ _ _ hb => absurd hb List.not_mem_nil⟩
  obtain ⟨kids, hn⟩ := hrun.invariant names_step ⟨_, hinit⟩
  exact hn.uniqueNames

theorem ramfs_unique_names_two_calls :
    ∃ s₀ s, Mounted s₀ ∧ Exec NamesStep s₀
      [(.createDir [0x64] 0o755, [0x2000]),
        (.vfs (.create [0x2f, 0x61] 0o644), [1, 0x3000, 2])] s ∧
      s.live 0x3000 = true ∧ UniqueNames s := by
  have heval : ((ramfsMount ⟨fun _ => none, 0, 0, 0, [0x1000]⟩).bind fun s₀ =>
      (FsCall.run { s₀ with kmalloc := [0x2000] } (.createDir [0x64] 0o755)).bind fun s₁ =>
      (FsCall.run { s₁ with kmalloc := [1, 0x3000, 2] } (.vfs (.create [0x2f, 0x61] 0o644))).map
        fun s₂ =>
          ([0x2000].all fun a => !s₀.live a) && ([1, 0x3000, 2].all fun a => !s₁.live a) &&
          (ramfsLookupChild s₀ s₀.root [0x64] == some 0) &&
          (vfsLookupParent { s₁ with kmalloc := [1, 0x3000, 2] } [0x2f, 0x61]).any (fun r =>
            r.1.any fun found => ramfsLookupChild s₁ found.1.iPrivate (found.2.take ramfsMaxName) ==
              some 0) &&
          s₂.live 0x3000) = some true := by decide +kernel
  obtain ⟨s₀, h₀, heval⟩ := Option.bind_eq_some_iff.mp heval
  obtain ⟨s₁, h₁, heval⟩ := Option.bind_eq_some_iff.mp heval
  obtain ⟨s₂, h₂, heval⟩ := Option.map_eq_some_iff.mp heval
  simp only [Bool.and_eq_true, beq_iff_eq] at heval
  obtain ⟨⟨⟨⟨hfresh₁, hfresh₂⟩, hlook₁⟩, hlook₂⟩, hlive⟩ := heval
  have hstep₁ : NamesStep s₀ (.createDir [0x64] 0o755, [0x2000]) s₁ := by
    refine ⟨⟨freshMem_of_all hfresh₁, h₁⟩, ?_⟩
    intro e he
    cases he with
    | createDir _ => exact fun _ => hlook₁
  have hstep₂ : NamesStep s₁ (.vfs (.create [0x2f, 0x61] 0o644), [1, 0x3000, 2]) s₂ := by
    refine ⟨⟨freshMem_of_all hfresh₂, h₂⟩, ?_⟩
    intro e he
    cases he with
    | create hp _ =>
      intro _
      rw [hp] at hlook₂
      simpa using hlook₂
  have hrun := Exec.cons hstep₁ (.cons hstep₂ (.nil s₂))
  exact ⟨s₀, s₂, ⟨_, h₀⟩, hrun, hlive, ramfs_unique_names ⟨_, h₀⟩ hrun⟩

theorem ramfs_duplicate_name :
    ¬ ∀ (s₀ : Ramfs) (calls : List (FsCall × List ℕ)) (s : Ramfs),
      Mounted s₀ → Exec FsStep s₀ calls s → UniqueNames s := by
  intro h
  have heval : ((ramfsMount ⟨fun _ => none, 0, 0, 0, [0x1000]⟩).bind fun s₀ =>
      (FsCall.run { s₀ with kmalloc := [1, 0x2000, 2] } (.vfs (.create [0x2f, 0x61] 0o644))).bind
        fun s₁ =>
      (FsCall.run { s₁ with kmalloc := [1, 0x3000, 2] } (.vfs (.create [0x2f, 0x61] 0o644))).map
        fun s₂ =>
          ([1, 0x2000, 2].all fun a => !s₀.live a) && ([1, 0x3000, 2].all fun a => !s₁.live a) &&
          s₂.isDir 0x1000 && (s₂.children 0x1000 == 0x3000) && (s₂.sibling 0x3000 == 0x2000) &&
          (s₂.sibling 0x2000 == 0) && (s₂.nameOf 0x2000 == s₂.nameOf 0x3000)) = some true := by
    decide +kernel
  obtain ⟨s₀, h₀, heval⟩ := Option.bind_eq_some_iff.mp heval
  obtain ⟨s₁, h₁, heval⟩ := Option.bind_eq_some_iff.mp heval
  obtain ⟨s₂, h₂, heval⟩ := Option.map_eq_some_iff.mp heval
  simp only [Bool.and_eq_true, beq_iff_eq] at heval
  obtain ⟨⟨⟨⟨⟨⟨hfresh₁, hfresh₂⟩, hdir⟩, hch⟩, hsib₃⟩, hsib₂⟩, hname⟩ := heval
  have hstep₁ : FsStep s₀ (.vfs (.create [0x2f, 0x61] 0o644), [1, 0x2000, 2]) s₁ :=
    ⟨freshMem_of_all hfresh₁, h₁⟩
  have hstep₂ : FsStep s₁ (.vfs (.create [0x2f, 0x61] 0o644), [1, 0x3000, 2]) s₂ :=
    ⟨freshMem_of_all hfresh₂, h₂⟩
  have hrun := Exec.cons hstep₁ (.cons hstep₂ (.nil s₂))
  obtain ⟨l, hl, hnd⟩ := h s₀ _ s₂ ⟨_, h₀⟩ hrun 0x1000 hdir
  have hchain : Chain 0 s₂.sibling (s₂.children 0x1000) [0x3000, 0x2000] :=
    ⟨hch, by decide, hsib₃, by decide, hsib₂⟩
  rw [hl.unique hchain] at hnd
  simp [hname] at hnd

end GcAos.Fs
