import GcAos.Fs.VfsMade

/-! `vfs_rename` in a tree with unique names moves one entry and changes no other. -/

namespace GcAos.Fs
open Lib Ramfs

def LooksUp (s : Ramfs) (path : Str) (a : Option ℕ) : Prop :=
  ∀ mem, ({ s with kmalloc := mem } : Ramfs).Supplied (2 * (components path).length) →
    (vfsLookupPath { s with kmalloc := mem } path false).map
      (fun r => r.1.map fun found => found.1.iPrivate) = some a

def RamfsInode.held (i : RamfsInode) : ℕ × ℕ × ℕ × ℕ × ℕ × Option Bytes × ℕ :=
  (i.ino, i.mode, i.uid, i.gid, i.size, i.data, i.dataCapacity)

/-- How many objects `vfs_rename` allocates. -/
def renameAllocs (old new : Str) : ℕ :=
  2 * ((components old).length - 1) + 2 * ((components new).length - 1) + 3

/-- The inode `t`, found under `old` before, is the entry `last` of the directory `n` now, found under
`new`; nothing else has changed. -/
structure Renamed (s : Ramfs) (kids : ℕ → List ℕ) (old new : Str) (t n : ℕ) (last : Str) (s' : Ramfs)
    (kids' : ℕ → List ℕ) : Prop where
  wf : s'.Wf kids'
  tree : TreeShaped s'
  names : UniqueNames s'
  found : LooksUp s' new (some t)
  gone : LooksUp s' old none
  subtree : ∀ p, resolve (s'.entry kids') t p = resolve (s.entry kids) t p
  bindings : ∀ d nm, s.entry kids d nm ≠ some t → (d, nm) ≠ (n, last) →
    s'.entry kids' d nm = s.entry kids d nm
  held : ∀ a, (s'.inodes a).map RamfsInode.held = (s.inodes a).map RamfsInode.held

variable {s s' s₁ : Ramfs} {kids kids' : ℕ → List ℕ} {path old new name oldName last : Str}
variable {init oldInit p : List Str} {o t n m d a : ℕ}

theorem looksUp_walk (hs : s.Wf kids) (path : Str) : LooksUp s path (s.walk kids (components path)) := by
  intro mem hsup
  have hwf : ({ s with kmalloc := mem } : Ramfs).Wf kids := hs.of_core rfl
  have hlook := vfsLookupPath_reach hwf hsup
  have hroot : s.live (rootInode s).iPrivate = true := live_of_isDir hs.root_dir
  have hprivate : (s.reach kids (rootInode s) (components path)).map Inode.iPrivate =
      s.walk kids (components path) := reach_iPrivate hs hroot
  obtain ⟨⟨r, s'⟩, heq, hr⟩ := Option.map_eq_some_iff.mp hlook
  have hr : r = (s.reach kids (rootInode s) (components path)).map (·, none) := hr
  rw [heq, Option.map_some, hr, Option.map_map, ← hprivate]
  rfl

/-! The hypotheses in terms of the child lists. -/

theorem treeInv_of_treeShaped (hs : s.Wf kids) (h : TreeShaped s) : TreeInv s kids where
  wf := hs
  kid := by
    intro d c hc
    obtain ⟨hdir, -, honly, -⟩ := h c (hs.kid_live d c hc) (hs.kid_ne_root d c hc)
    obtain rfl := honly d ⟨kids d, hs.chain d, hc⟩
    exact ⟨hdir, rfl⟩
  placed := by
    intro a ha hr
    obtain ⟨-, ⟨l, hl, hal⟩, -, -⟩ := h a ha hr
    rwa [hl.unique (hs.chain _)] at hal
  reaches := by
    intro a ha
    by_cases hr : a = s.root
    · rw [hr]
      exact .root
    · exact (h a ha hr).2.2.2

theorem namesInv_of_uniqueNames (hs : s.Wf kids) (h : UniqueNames s) : NamesInv s kids where
  wf := hs
  names := by
    intro d hd b hb c hc heq
    obtain ⟨l, hl, hnd⟩ := h d hd
    rw [hl.unique (hs.chain d)] at hnd
    exact List.inj_on_of_nodup_map hnd hb hc heq

theorem inside_of_resolve (ht : TreeInv s kids) (h : resolve (s.entry kids) t p = some n) :
    Inside s.parent t n := by
  induction p using List.reverseRecOn generalizing n with
  | nil => exact ⟨0, (Option.some.inj h).symm⟩
  | append_singleton p x ih =>
    rw [resolve_snoc] at h
    obtain ⟨b, hb, hn⟩ := Option.bind_eq_some_iff.mp h
    obtain ⟨k, hk⟩ := ih hb
    refine ⟨k + 1, ?_⟩
    rw [Function.iterate_succ_apply, (ht.kid b n (entry_live ht.wf hn).2.1).2, hk]

/-! The bindings after an entry has moved. -/

theorem find?_erase_of_neg {q : ℕ → Bool} {l : List ℕ} (ht : q t = false) :
    (l.erase t).find? q = l.find? q := by
  induction l with
  | nil => rfl
  | cons c l ih =>
    by_cases hc : c = t
    · rw [hc, List.erase_cons_head, List.find?_cons_of_neg (by simp [ht])]
    · rw [List.erase_cons_tail (by simpa using hc), List.find?_cons, List.find?_cons, ih]

theorem Ramfs.Moved.entry_eq (hnames : NamesInv s kids) (ho : s.isDir o = true)
    (hn : s.isDir n = true) (h : Moved s kids o t n name s' kids') (m : ℕ) (nm : Str) :
    s'.entry kids' m nm =
      if m = n ∧ name.take ramfsMaxName = nm then some t
      else if m = o ∧ s.nameOf t = nm then none
      else s.entry kids m nm := by
  have hs := hnames.wf
  have hnew : s'.nameOf t = name.take ramfsMaxName := by rw [h.nameOf, Function.update_self]
  -- the children that were there, without `t`
  have hrest : ((Function.update kids o ((kids o).erase t) m).find? fun c => s'.nameOf c = nm) =
      if m = o ∧ s.nameOf t = nm then none else (kids m).find? fun c => s.nameOf c = nm := by
    have hcongr : ((Function.update kids o ((kids o).erase t) m).find? fun c => s'.nameOf c = nm) =
        (Function.update kids o ((kids o).erase t) m).find? fun c => s.nameOf c = nm := by
      refine List.find?_congr fun c hc => ?_
      have hct : c ≠ t := by
        rintro rfl
        exact kid_notMem_erase hs h.mem_old m hc
      rw [h.nameOf, Function.update_of_ne hct]
    rw [hcongr]
    by_cases hm : m = o
    · subst hm
      rw [Function.update_self]
      by_cases hname : s.nameOf t = nm
      · rw [if_pos ⟨rfl, hname⟩, List.find?_eq_none]
        intro c hc
        obtain ⟨hct, hmem⟩ := (hs.nodup m).mem_erase_iff.mp hc
        have hne : s.nameOf c ≠ nm := fun hcn =>
          hct (hnames.names m ho c hmem t h.mem_old (hcn.trans hname.symm))
        simpa using hne
      · rw [if_neg fun hc => hname hc.2]
        exact find?_erase_of_neg (by simpa using hname)
    · rw [Function.update_of_ne hm, if_neg fun hc => hm hc.1]
  unfold entry
  rw [h.frame.isDir, h.kids_eq]
  by_cases hm : m = n
  · subst hm
    rw [hn, if_pos rfl, if_pos rfl, Function.update_self, List.find?_cons, hnew, hrest]
    by_cases hname : name.take ramfsMaxName = nm
    · simp [hname]
    · simp [hname]
  · have hnew : ¬(m = n ∧ name.take ramfsMaxName = nm) := fun hc => hm hc.1
    rw [Function.update_of_ne hm, hrest, if_neg hnew]
    cases s.isDir m with
    | true => rfl
    | false => simp

section
variable (ht : TreeInv s kids) (hnames : NamesInv s kids) (h : Moved s kids o t n last s' kids')
  (hlen : last.length ≤ ramfsMaxName) (ho : s.entry kids o oldName = some t) (hn : s.isDir n = true)
include ht hnames h hlen ho hn

theorem moved_entry (m : ℕ) (nm : Str) : s'.entry kids' m nm =
    if m = n ∧ last = nm then some t else if m = o ∧ oldName = nm then none else s.entry kids m nm := by
  obtain ⟨hdir, -, hname, -⟩ := entry_live ht.wf ho
  rw [h.entry_eq hnames hdir hn, List.take_of_length_le hlen, hname]

variable (hfree : s.entry kids n last = none)
include hfree

theorem moved_edge {x : Str} {c : ℕ} (hc : s.entry kids m x = some c) (hct : c ≠ t) :
    s'.entry kids' m x = some c := by
  have hnew : ¬(m = n ∧ last = x) := by
    rintro ⟨rfl, rfl⟩
    rw [hfree] at hc
    exact absurd hc (by simp)
  have hold : ¬(m = o ∧ oldName = x) := by
    rintro ⟨rfl, rfl⟩
    rw [ho] at hc
    exact hct (Option.some.inj hc).symm
  rw [moved_entry ht hnames h hlen ho hn, if_neg hnew, if_neg hold, hc]

theorem moved_walk {q : List Str} (hwalk : s.walk kids q = some m)
    (hq : ∀ pre suf, q = pre ++ suf → suf ≠ q → s.walk kids pre ≠ some t) :
    s'.walk kids' q = some m := by
  rw [walk, h.frame.root]
  refine resolve_mono ?_ hwalk
  intro pre x suf b c heq hb hc
  refine moved_edge ht hnames h hlen ho hn hfree hc ?_
  rintro rfl
  refine hq (pre ++ [x]) suf (by rw [heq, List.append_assoc]; rfl) ?_ ?_
  · rw [heq]
    intro hsuf
    have := congrArg List.length hsuf
    rw [List.length_append, List.length_cons] at this
    omega
  · rw [walk_snoc]
    exact Option.bind_eq_some_iff.mpr ⟨b, hb, hc⟩

theorem moved_renamed (hnew : components new = init ++ [last]) (hinit : s.walk kids init = some n)
    (hold : components old = oldInit ++ [oldName]) (hoInit : s.walk kids oldInit = some o)
    (hout : ¬Inside s.parent t n)
    (hheld : ∀ a, (s'.inodes a).map RamfsInode.held = (s.inodes a).map RamfsInode.held) :
    Renamed s kids old new t n last s' kids' := by
  have hs := ht.wf
  have hentry := moved_entry ht hnames h hlen ho hn
  have hot : s.walk kids (oldInit ++ [oldName]) = some t := by rw [walk_snoc, hoInit]; exact ho
  have hne : ¬(o = n ∧ last = oldName) := by
    rintro ⟨rfl, rfl⟩
    rw [hfree] at ho
    exact absurd ho (by simp)
  have hlook : ramfsLookupChild s n (last.take ramfsMaxName) = some 0 := by
    rw [List.take_of_length_le hlen, ramfsLookupChild_eq hs (live_of_isDir hn), hfree]
    rfl
  have hnew' : s'.walk kids' init = some n := by
    refine moved_walk ht hnames h hlen ho hn hfree hinit ?_
    rintro pre suf rfl - hpre
    refine hout (inside_of_resolve ht (p := suf) ?_)
    rw [walk, resolve_append] at hinit
    rw [walk] at hpre
    rwa [hpre] at hinit
  have hold' : s'.walk kids' oldInit = some o := by
    refine moved_walk ht hnames h hlen ho hn hfree hoInit ?_
    rintro pre suf rfl hsuf hpre
    have hlength := walk_length hs hpre hot
    rw [List.length_append, List.length_append, List.length_singleton] at hlength
    omega
  exact {
    wf := h.wf
    tree := (ht.moved h hn hout).treeShaped
    names := (hnames.moved h hlook).uniqueNames
    found := by
      have hwalk : s'.walk kids' (components new) = some t := by
        rw [hnew, walk_snoc, hnew', Option.bind_some, hentry, if_pos ⟨rfl, rfl⟩]
      exact hwalk ▸ looksUp_walk h.wf new
    gone := by
      have hwalk : s'.walk kids' (components old) = none := by
        rw [hold, walk_snoc, hold', Option.bind_some, hentry, if_neg hne, if_pos ⟨rfl, rfl⟩]
      exact hwalk ▸ looksUp_walk h.wf old
    subtree := by
      intro p
      refine resolve_congr (d := p.length) ?_ le_rfl
      intro q m x hq hm
      rw [hentry, if_neg, if_neg]
      · rintro ⟨rfl, -⟩
        -- the directory that loses the entry is not below it
        have hbelow : s.walk kids (oldInit ++ [oldName] ++ q) = some m := by
          unfold walk at hot ⊢
          rw [resolve_append, hot]
          exact hm
        have hlength := walk_length hs hoInit hbelow
        rw [List.length_append, List.length_append, List.length_singleton] at hlength
        omega
      · rintro ⟨rfl, -⟩
        exact hout (inside_of_resolve ht hm)
    bindings := by
      intro d nm hd hdn
      rw [hentry, if_neg, if_neg]
      · rintro ⟨rfl, rfl⟩
        exact hd ho
      · rintro ⟨rfl, rfl⟩
        exact hdn rfl
    held := hheld }

end

/-! The call. -/

section Fields
variable {β : Type*} {g : RamfsInode → β} {z : β} {r : ℤ}
  (hg : ∀ i p b c nm, g { i with parent := p, sibling := b, children := c, name := nm } = g i)
include hg

theorem renameUnlink_field (h : renameUnlink s o t = some s') : s'.field g z = s.field g z := by
  obtain ⟨i, -, h⟩ := Option.bind_eq_some_iff.mp h
  obtain ⟨j, -, h⟩ := Option.bind_eq_some_iff.mp h
  split at h
  · exact modify_field h fun k => hg k k.parent k.sibling j.sibling k.name
  obtain ⟨curr, -, h⟩ := Option.bind_eq_some_iff.mp h
  split at h
  · exact modify_field h fun k => hg k k.parent j.sibling k.children k.name
  · rw [Option.some.inj h]

theorem renameLink_field (h : renameLink s o n t = some s') : s'.field g z = s.field g z := by
  unfold renameLink at h
  split at h
  · obtain ⟨i, -, h⟩ := Option.bind_eq_some_iff.mp h
    obtain ⟨s₁, h₁, h⟩ := Option.bind_eq_some_iff.mp h
    obtain ⟨s₂, h₂, h⟩ := Option.bind_eq_some_iff.mp h
    rw [modify_field h fun k => hg k n k.sibling k.children k.name,
      modify_field h₂ fun k => hg k k.parent k.sibling t k.name,
      modify_field h₁ fun k => hg k k.parent i.children k.children k.name]
  · obtain ⟨i, -, h⟩ := Option.bind_eq_some_iff.mp h
    obtain ⟨s₁, h₁, h⟩ := Option.bind_eq_some_iff.mp h
    rw [modify_field h fun k => hg k k.parent k.sibling t k.name,
      modify_field h₁ fun k => hg k k.parent i.children k.children k.name]

theorem ramfsRename_field {oldDir oldInode newDir : Inode}
    (h : ramfsRename s oldDir oldInode newDir name = some (r, s')) :
    s'.field g z = s.field g z := by
  unfold ramfsRename at h
  dsimp only at h
  split at h
  · rw [(pair_inj h).2]
  obtain ⟨found, -, h⟩ := Option.bind_eq_some_iff.mp h
  split at h
  · rw [(pair_inj h).2]
  obtain ⟨s₁, h₁, h⟩ := Option.bind_eq_some_iff.mp h
  obtain ⟨s₂, h₂, h⟩ := Option.bind_eq_some_iff.mp h
  obtain ⟨s₃, h₃, h⟩ := Option.bind_eq_some_iff.mp h
  rw [← (pair_inj h).2,
    modify_field h₃ fun k => hg k k.parent k.sibling k.children (name.take ramfsMaxName),
    renameLink_field hg h₂, renameUnlink_field hg h₁]

end Fields

theorem ramfsRename_held {oldDir oldInode newDir : Inode} {r : ℤ}
    (h : ramfsRename s oldDir oldInode newDir name = some (r, s')) (a : ℕ) :
    (s'.inodes a).map RamfsInode.held = (s.inodes a).map RamfsInode.held := by
  have hmap : ∀ u : Ramfs, (u.inodes a).map RamfsInode.held =
      u.field (fun i => some i.held) none a := by
    intro u
    rw [field]
    cases u.inodes a <;> rfl
  rw [hmap, hmap]
  exact congrFun (ramfsRename_field (fun _ _ _ _ _ => rfl) h) a

/-- The end of `vfs_rename`, with both parents found. -/
def renameFound (s : Ramfs) (oldParent : Inode) (oldName : Str) (newParent : Inode) (newName : Str) :
    Option (ℤ × Ramfs) := do
  let (oldChild, s) := s.kzalloc
  if oldChild = 0 then none
  else
    let (dInode, s) ← ramfsLookup s oldParent oldName
    match dInode with
    | none => some (-eNOENT, s)
    | some inode =>
      let (newChild, s) := s.kzalloc
      if newChild = 0 then none else ramfsRename s oldParent inode newParent newName

theorem vfsRename_found {po pn : Inode} {s₂ : Ramfs}
    (hold : vfsLookupParent s old = some (some (po, oldName), s₁))
    (hnew : vfsLookupParent s₁ new = some (some (pn, last), s₂)) :
    vfsRename s old new = renameFound s₂ po oldName pn last := by
  unfold vfsRename
  rw [hold, Option.bind_eq_bind, Option.bind_some]
  dsimp only
  rw [hnew]
  rfl

theorem renameFound_cases {po pn : Inode} (hs : s.Wf kids) (hlive : s.live po.iPrivate = true)
    (ho : s.entry kids po.iPrivate oldName = some t) (hn : s.live pn.iPrivate = true) :
    (renameFound s po oldName pn last = none ∧ ¬s.Supplied 3) ∨
      ∃ r s', renameFound s po oldName pn last = some (r, s') ∧
        ((r ≠ 0 ∧ s'.core = s.core ∧ (¬s.Supplied 3 ∨ s.entry kids pn.iPrivate last ≠ none)) ∨
          (r = 0 ∧ s.entry kids pn.iPrivate last = none ∧
            (∃ kids', Moved s kids po.iPrivate t pn.iPrivate last s' kids') ∧
            ∀ a, (s'.inodes a).map RamfsInode.held = (s.inodes a).map RamfsInode.held)) := by
  have hshort : ∀ i < 3, s.alloc i = 0 → ¬s.Supplied 3 :=
    fun i hi h0 hsup => supplied_iff.mp hsup i hi h0
  have h0 : s.kzalloc.1 = s.alloc 0 := (alloc_zero s).symm
  have h1 : s.kzalloc.2.kzalloc.1 = s.alloc 1 := by
    rw [← alloc_drop (kmalloc_kzalloc s) 0, alloc_zero]
    rfl
  have h2 : s.kzalloc.2.kzalloc.2.kzalloc.1 = s.alloc 2 := by
    rw [← alloc_drop (kmalloc_kzalloc s) 1, ← alloc_drop (kmalloc_kzalloc s.kzalloc.2) 0, alloc_zero]
    rfl
  have hr : Reads s s.kzalloc.2.kzalloc.2.kzalloc.2 :=
    ((reads_kzalloc _).trans (reads_kzalloc _)).trans (reads_kzalloc _)
  have hn₃ : s.kzalloc.2.kzalloc.2.kzalloc.2.live pn.iPrivate = true := by
    rw [live_of_core hr.core]
    exact hn
  obtain ⟨inode, hinode, rfl, -⟩ := vfsInode_eq (entry_live hs ho).2.2.2
  unfold renameFound
  dsimp only
  rw [h0]
  by_cases hz : s.alloc 0 = 0
  · rw [if_pos hz]
    exact .inl ⟨rfl, hshort 0 (by decide) hz⟩
  rw [if_neg hz, ramfsLookup_eq (hs.of_core (reads_kzalloc s).core) hlive,
    entry_of_core (reads_kzalloc s).core, ho, vfsInode_of_core (reads_kzalloc s).core]
  dsimp only
  rw [hinode, h1]
  by_cases hz : s.alloc 1 = 0
  · rw [if_pos hz]
    refine .inr ⟨_, _, rfl, .inl ⟨by decide, ?_, .inl (hshort 1 (by decide) hz)⟩⟩
    exact ((reads_kzalloc s).trans (reads_kzalloc _)).core
  rw [if_neg hz, Option.bind_eq_bind, Option.bind_some]
  dsimp only
  rw [h2]
  by_cases hz : s.alloc 2 = 0
  · rw [if_pos hz]
    exact .inl ⟨rfl, hshort 2 (by decide) hz⟩
  rw [if_neg hz]
  obtain ⟨r, s', heq, hcases⟩ :=
    ramfsRename_cases last (hs.of_core hr.core) (entry_live hs ho).2.1 hn₃
  rw [ramfsLookupChild_of_core hr.core, ramfsLookupChild_eq hs hn] at hcases
  refine .inr ⟨r, s', heq, ?_⟩
  have hzero : some ((s.entry kids pn.iPrivate last).getD 0) = some 0 ↔
      s.entry kids pn.iPrivate last = none := by
    cases hentry : s.entry kids pn.iPrivate last with
    | none => exact iff_of_true rfl rfl
    | some a =>
      refine iff_of_false (fun h => ?_) (by simp)
      exact hs.kid_ne_zero (entry_live hs hentry).2.1 (Option.some.inj h)
  simp only [ne_eq, hzero] at hcases
  rcases hcases with ⟨hne, rfl, htaken⟩ | ⟨rfl, hfree, kids', hmoved⟩
  · exact .inl ⟨hne, hr.core, .inr htaken⟩
  · refine .inr ⟨rfl, hfree, ⟨kids', hmoved.of_core hr.core.symm⟩, fun a => ?_⟩
    rw [ramfsRename_held heq, inodes_of_core hr.core]

theorem vfsRename_cases (hs : s.Wf kids) (hold : components old = oldInit ++ [oldName])
    (hoInit : s.walk kids oldInit = some o) (ho : s.entry kids o oldName = some t)
    (hnew : components new = init ++ [last]) (hinit : s.walk kids init = some n) :
    (vfsRename s old new = none ∧ ¬s.Supplied (renameAllocs old new)) ∨
      ∃ r s', vfsRename s old new = some (r, s') ∧
        ((r ≠ 0 ∧ s'.core = s.core ∧
            (¬s.Supplied (renameAllocs old new) ∨ s.entry kids n last ≠ none)) ∨
          (r = 0 ∧ s.entry kids n last = none ∧ (∃ kids', Moved s kids o t n last s' kids') ∧
            ∀ a, (s'.inodes a).map RamfsInode.held = (s.inodes a).map RamfsInode.held)) := by
  have hallocs : renameAllocs old new = 2 * oldInit.length + (2 * init.length + 3) := by
    rw [renameAllocs, hold, hnew, List.length_append, List.length_append]
    exact Nat.add_assoc _ _ _
  rw [hallocs]
  obtain ⟨parent, s₁, hparent₁, hr₁, ⟨rfl, hnone⟩ | ⟨po, rfl, hpo, -, hmem₁⟩⟩ :=
    vfsLookupParent_cases hs hold
  · refine .inr ⟨-eNOENT, s₁, ?_, .inl ⟨by decide, hr₁.core, .inl fun hsup => ?_⟩⟩
    · rw [vfsRename, hparent₁]
      rfl
    · exact hnone o (hsup.mono (Nat.le_add_right _ _)) hoInit
  obtain rfl := Option.some.inj (hoInit.symm.trans hpo)
  obtain ⟨parent, s₂, hparent₂, hr₂, ⟨rfl, hnone⟩ | ⟨pn, rfl, hpn, -, hmem₂⟩⟩ :=
    vfsLookupParent_cases (hs.of_core hr₁.core) hnew
  · refine .inr ⟨-eNOENT, s₂, ?_, .inl ⟨by decide, hr₂.core.trans hr₁.core, .inl fun hsup => ?_⟩⟩
    · rw [vfsRename, hparent₁, Option.bind_eq_bind, Option.bind_some]
      dsimp only
      rw [hparent₂]
      rfl
    · rw [walk_of_core hr₁.core] at hnone
      exact hnone n ((hsup.drop hmem₁).mono (Nat.le_add_right _ _)) hinit
  rw [walk_of_core hr₁.core] at hpn
  obtain rfl := Option.some.inj (hinit.symm.trans hpn)
  have hcore : s₂.core = s.core := hr₂.core.trans hr₁.core
  have hshort : ¬s₂.Supplied 3 → ¬s.Supplied (2 * oldInit.length + (2 * init.length + 3)) :=
    fun h hsup => h ((hsup.drop hmem₁).drop hmem₂)
  have hlive : ∀ {q a}, s.walk kids q = some a → s₂.live a = true := by
    intro q a ha
    rw [live_of_core hcore]
    exact walk_live hs ha
  rw [← entry_of_core hcore] at ho
  rw [vfsRename_found hparent₁ hparent₂]
  rcases renameFound_cases (hs.of_core hcore) (hlive hoInit) ho (hlive hinit) with
    ⟨hnone, hmem⟩ | ⟨r, s', heq, ⟨hne, hsame, hwhy⟩ | ⟨rfl, hfree, ⟨kids', hmoved⟩, hheld⟩⟩
  · exact .inl ⟨hnone, hshort hmem⟩
  · rw [entry_of_core hcore] at hwhy
    exact .inr ⟨r, s', heq, .inl ⟨hne, hsame.trans hcore, hwhy.imp_left hshort⟩⟩
  · rw [entry_of_core hcore] at hfree
    refine .inr ⟨0, s', heq, .inr ⟨rfl, hfree, ⟨kids', hmoved.of_core hcore.symm⟩, fun a => ?_⟩⟩
    rw [hheld, inodes_of_core hcore]

/-- `vfs_rename` fails where the name is taken and moves the one entry otherwise, if there is memory
for the call. -/
theorem rename_moves_one_entry (s : Ramfs) (kids : ℕ → List ℕ) (old new : Str) (hs : s.Wf kids)
    (htree : TreeShaped s) (hunique : UniqueNames s) (hold : s.walk kids (components old) = some t)
    (hnew : components new = init ++ [last]) (hparent : s.walk kids init = some n)
    (hdir : s.isDir n = true) (hout : ¬Inside s.parent t n) :
    (∀ r s', vfsRename s old new = some (r, s') →
        (r = 0 → s.entry kids n last = none ∧ ∃ kids', Renamed s kids old new t n last s' kids') ∧
        (r ≠ 0 → s'.core = s.core)) ∧
      (s.Supplied (renameAllocs old new) →
        ∃ r s', vfsRename s old new = some (r, s') ∧ (r = 0 ↔ s.entry kids n last = none)) := by
  have ht : TreeInv s kids := treeInv_of_treeShaped hs htree
  have hnames : NamesInv s kids := namesInv_of_uniqueNames hs hunique
  obtain ⟨oldInit, oldName, holdComp⟩ : ∃ oldInit oldName, components old = oldInit ++ [oldName] := by
    rcases (components old).eq_nil_or_concat' with hnil | h
    · -- everything is inside the root
      rw [hnil] at hold
      refine absurd ?_ hout
      obtain rfl := Option.some.inj hold
      exact inside_of_resolve ht hparent
    · exact h
  rw [holdComp, walk_snoc] at hold
  obtain ⟨o, hoInit, ho⟩ := Option.bind_eq_some_iff.mp hold
  rcases vfsRename_cases hs holdComp hoInit ho hnew hparent with ⟨hnone, hmem⟩ | ⟨r, s', heq, hcases⟩
  · refine ⟨fun r s' h => ?_, fun h => absurd h hmem⟩
    rw [hnone] at h
    exact absurd h (by simp)
  refine ⟨fun r' s'' h => ?_, fun hsup => ⟨r, s', heq, ?_⟩⟩
  · obtain ⟨rfl, rfl⟩ := pair_inj (heq.symm.trans h)
    rcases hcases with ⟨hr, hcore, -⟩ | ⟨rfl, hfree, ⟨kids', hmoved⟩, hheld⟩
    · exact ⟨fun h => absurd h hr, fun _ => hcore⟩
    · refine ⟨fun _ => ⟨hfree, kids', ?_⟩, fun h => absurd rfl h⟩
      exact moved_renamed ht hnames hmoved (length_last_le hnew) ho hdir hfree hnew hparent holdComp
        hoInit hout hheld
  · rcases hcases with ⟨hr, -, hshort⟩ | ⟨rfl, hfree, -⟩
    · exact iff_of_false hr (hshort.resolve_left fun h => h hsup)
    · exact iff_of_true rfl hfree

theorem oneFile_tree {s₀ : Ramfs} {mem : List ℕ} {r : ℤ} {made : Option Inode}
    (hmount : ramfsMount ⟨fun _ => none, 0, 0, 0, 0x1000 :: 0x2000 :: mem⟩ = some s₀)
    (hfresh : (s₀.kmalloc.all fun a => !s₀.live a) = true)
    (hmake : ramfsMake sIfreg .ramfsFileOps s₀ (rootInode s₀) [0x61] 0o644 = some (r, made, s)) :
    ∃ kids, s.Wf kids ∧ TreeShaped s ∧ UniqueNames s ∧
      s.walk kids (components [slash, 0x61]) = some 0x2000 ∧ s.walk kids [] = some s.root ∧
      s.isDir s.root = true ∧ s.entry kids s.root [0x62] = none ∧ ¬Inside s.parent 0x2000 s.root := by
  have ht : TreeInv s₀ fun _ => [] := mounted_tree ⟨_, hmount⟩
  have hempty : ∀ nm, s₀.entry (fun _ => []) s₀.root nm = none := by
    intro nm
    rw [entry]
    split_ifs <;> rfl
  have hroot : s₀.root = 0x1000 ∧ s₀.alloc 0 = 0x2000 := by
    obtain rfl := Option.some.inj hmount
    exact ⟨rfl, rfl⟩
  have hlive : s₀.live (rootInode s₀).iPrivate = true := live_of_isDir ht.wf.root_dir
  obtain ⟨r', made', s', heq, ⟨h0, -⟩ | ⟨-, ⟨kids', hmade⟩, -⟩⟩ :=
    @ramfsMake_spec s₀ _ _ sIfreg .ramfsFileOps [0x61] 0o644 ht.wf (freshMem_of_all hfresh) hlive
  · rw [hroot.2] at h0
    exact absurd h0 (by decide)
  obtain rfl := (Prod.mk.inj (pair_inj (hmake.symm.trans heq)).2).2
  rw [hroot.2] at hmade
  have hdir : s₀.isDir (rootInode s₀).iPrivate = true := ht.wf.root_dir
  have hnames : NamesInv s₀ fun _ => [] := ⟨ht.wf, fun _ _ _ hb => absurd hb List.not_mem_nil⟩
  have hlook : ramfsLookupChild s₀ (rootInode s₀).iPrivate ([0x61].take ramfsMaxName) = some 0 := by
    rw [ramfsLookupChild_eq ht.wf hlive]
    exact congrArg (fun e => some (Option.getD e 0)) (hempty _)
  refine ⟨kids', hmade.wf, (ht.made hmade hdir).treeShaped,
    (hnames.made hmade fun _ => hlook).uniqueNames, ?_, rfl, hmade.wf.root_dir, ?_, ?_⟩
  · have hcomp : components [slash, 0x61] = [] ++ [[0x61]] := by decide +kernel
    rw [hcomp]
    exact hmade.walk_new ht.wf rfl hdir (by decide)
  · have hname : ([0x61] : Str).take ramfsMaxName ≠ [0x62] := by decide
    rw [hmade.root, hmade.entry_eq ht.wf, if_neg fun h => hname h.2.2]
    exact hempty _
  · have hzero : ∀ a, s₀.parent a = 0 := by
      intro a
      rw [parent, mounted_field ⟨_, hmount⟩, Function.update_eq_self]
    have hup : ∀ a, a ≠ 0x2000 → s.parent a = 0 := by
      intro a ha
      rw [(hmade.linked hdir).2, Function.update_of_ne ha, hzero]
    rintro ⟨k, hk⟩
    rw [hmade.root, hroot.1] at hk
    cases k with
    | zero =>
      rw [Function.iterate_zero_apply] at hk
      exact absurd hk (by decide)
    | succ k =>
      rw [Function.iterate_succ_apply, hup _ (by decide), Function.iterate_fixed (hup 0 (by decide))] at hk
      exact absurd hk (by decide)

theorem rename_moves_file : ∃ s s', TreeShaped s ∧ vfsRename s [slash, 0x61] [slash, 0x62] = some (0, s') ∧
    LooksUp s' [slash, 0x62] (some 0x2000) ∧ LooksUp s' [slash, 0x61] none := by
  have heval : ((ramfsMount ⟨fun _ => none, 0, 0, 0, [0x1000, 0x2000, 1, 2, 3, 4]⟩).bind fun s₀ =>
      (ramfsMake sIfreg .ramfsFileOps s₀ (rootInode s₀) [0x61] 0o644).bind fun x =>
        (vfsRename x.2.2 [slash, 0x61] [slash, 0x62]).map fun y =>
          (s₀.kmalloc.all fun a => !s₀.live a) && y.1 == 0) = some true := by decide +kernel
  obtain ⟨s₀, hmount, heval⟩ := Option.bind_eq_some_iff.mp heval
  obtain ⟨⟨r, made, s⟩, hmake, heval⟩ := Option.bind_eq_some_iff.mp heval
  obtain ⟨⟨r', s'⟩, hrename, heval⟩ := Option.map_eq_some_iff.mp heval
  simp only [Bool.and_eq_true, beq_iff_eq] at heval
  obtain ⟨hfresh, rfl⟩ := heval
  obtain ⟨kids, hs, htree, hunique, hwalk, hparent, hdir, -, hout⟩ := oneFile_tree hmount hfresh hmake
  have hcomp : components [slash, 0x62] = [] ++ [[0x62]] := by decide +kernel
  obtain ⟨-, kids', hrenamed⟩ := ((rename_moves_one_entry s kids [slash, 0x61] [slash, 0x62] hs htree
    hunique hwalk hcomp hparent hdir hout).1 0 s' hrename).1 rfl
  exact ⟨s, s', htree, hrename, hrenamed.found, hrenamed.gone⟩

theorem rename_short_of_memory : ¬ ∀ (s : Ramfs) (kids : ℕ → List ℕ) (old new : Str) (t n : ℕ)
    (init : List Str) (last : Str), s.Wf kids → TreeShaped s → UniqueNames s →
      s.walk kids (components old) = some t → components new = init ++ [last] →
      s.walk kids init = some n → s.isDir n = true → ¬Inside s.parent t n →
        ∃ r s', vfsRename s old new = some (r, s') ∧ (r = 0 ↔ s.entry kids n last = none) := by
  intro h
  have heval : ((ramfsMount ⟨fun _ => none, 0, 0, 0, [0x1000, 0x2000, 1, 2]⟩).bind fun s₀ =>
      (ramfsMake sIfreg .ramfsFileOps s₀ (rootInode s₀) [0x61] 0o644).bind fun x =>
        (vfsRename x.2.2 [slash, 0x61] [slash, 0x62]).map fun y =>
          (s₀.kmalloc.all fun a => !s₀.live a) && y.1 == -eNOENT) = some true := by decide +kernel
  obtain ⟨s₀, hmount, heval⟩ := Option.bind_eq_some_iff.mp heval
  obtain ⟨⟨r, made, s⟩, hmake, heval⟩ := Option.bind_eq_some_iff.mp heval
  obtain ⟨⟨r', s'⟩, hrename, heval⟩ := Option.map_eq_some_iff.mp heval
  simp only [Bool.and_eq_true, beq_iff_eq] at heval
  obtain ⟨hfresh, rfl⟩ := heval
  obtain ⟨kids, hs, htree, hunique, hwalk, hparent, hdir, hfree, hout⟩ :=
    oneFile_tree hmount hfresh hmake
  have hcomp : components [slash, 0x62] = [] ++ [[0x62]] := by decide +kernel
  obtain ⟨r, s'', hrename', hiff⟩ :=
    h s kids _ _ _ _ _ _ hs htree hunique hwalk hcomp hparent hdir hout
  obtain ⟨rfl, -⟩ := pair_inj (hrename.symm.trans hrename')
  exact absurd (hiff.mpr hfree) (by decide)

end GcAos.Fs
