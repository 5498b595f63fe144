import GcAos.Fs.RamfsInv

/-! What the operations of the ramfs do to the child lists: they make one entry, move one entry or
remove one entry. -/

namespace GcAos.Fs
open Lib

namespace Ramfs

variable {s s' : Ramfs} {kids kids' : ℕ → List ℕ} {a d t n o : ℕ} {name : Str} {mode : ℕ}

/-- `t` is put in front of the children of `n`; the parent pointers are `par` afterwards. -/
structure Linked (s : Ramfs) (kids : ℕ → List ℕ) (n t : ℕ) (par : ℕ → ℕ) (s' : Ramfs) : Prop where
  frame : Frame s s'
  wf : s'.Wf (Function.update kids n (t :: kids n))
  nameOf : s'.nameOf = s.nameOf
  parent : s'.parent = par

/-- A new inode at `a`, below `d` if that is a directory and nowhere otherwise. -/
structure Made (s : Ramfs) (kids : ℕ → List ℕ) (d a mode : ℕ) (name : Str) (s' : Ramfs)
    (kids' : ℕ → List ℕ) : Prop where
  wf : s'.Wf kids'
  root : s'.root = s.root
  dead : s.live a = false
  ne_zero : a ≠ 0
  live : s'.live = Function.update s.live a true
  isDir : s'.isDir = Function.update s.isDir a (sIsdir mode)
  ino : s'.ino = Function.update s.ino a s.nextIno
  nameOf : s'.nameOf = Function.update s.nameOf a (name.take ramfsMaxName)
  linked : s.isDir d = true →
    kids' = Function.update kids d (a :: kids d) ∧ s'.parent = Function.update s.parent a d
  detached : s.isDir d = false → kids' = kids ∧ s'.parent = Function.update s.parent a 0

structure Moved (s : Ramfs) (kids : ℕ → List ℕ) (o t n : ℕ) (name : Str) (s' : Ramfs)
    (kids' : ℕ → List ℕ) : Prop where
  wf : s'.Wf kids'
  frame : Frame s s'
  mem_old : t ∈ kids o
  kids_eq : kids' = Function.update (Function.update kids o ((kids o).erase t)) n
    (t :: Function.update kids o ((kids o).erase t) n)
  nameOf : s'.nameOf = Function.update s.nameOf t (name.take ramfsMaxName)
  parent : s'.parent = if o = n then s.parent else Function.update s.parent t n

structure Removed (s : Ramfs) (kids : ℕ → List ℕ) (d t : ℕ) (s' : Ramfs) (kids' : ℕ → List ℕ) :
    Prop where
  wf : s'.Wf kids'
  root : s'.root = s.root
  mem_old : t ∈ kids d
  kids_eq : kids' = Function.update (Function.update kids d ((kids d).erase t)) t []
  live : s'.live = Function.update s.live t false
  isDir : s'.isDir = Function.update s.isDir t false
  ino : s'.ino = Function.update s.ino t 0
  nameOf : s'.nameOf = Function.update s.nameOf t []
  parent : s'.parent = Function.update s.parent t 0

theorem kid_notMem_erase (hs : s.Wf kids) (ht : t ∈ kids d) (x : ℕ) :
    t ∉ Function.update kids d ((kids d).erase t) x := by
  intro h
  by_cases hx : x = d
  · rw [hx, Function.update_self] at h
    exact (hs.nodup d).not_mem_erase h
  · rw [Function.update_of_ne hx] at h
    exact hx (hs.owner x d t h ht)

theorem ramfsAddChild_spec (hs : s.Wf kids) (hd : s.live d = true) (ha : s.live a = true)
    (hroot : a ≠ s.root) (hout : ∀ x, a ∉ kids x) :
    ∃ r s', ramfsAddChild s d a = some (r, s') ∧
      ((s.isDir d = true ∧ Linked s kids d a (Function.update s.parent a d) s') ∨
        (s.isDir d = false ∧ s' = s)) := by
  obtain ⟨i, hi, -, hch, hdir⟩ := inodes_eq hd
  unfold ramfsAddChild
  simp only [hi, Option.bind_eq_bind, Option.bind_some, hdir]
  cases hmode : sIsdir i.mode with
  | false => exact ⟨_, s, rfl, .inr ⟨rfl, rfl⟩⟩
  | true =>
    obtain ⟨s₁, hs₁⟩ : ∃ s₁, s₁ = s.upd a fun c => { c with parent := d, sibling := i.children } :=
      ⟨_, rfl⟩
    have hf₁ : Frame s s₁ := hs₁ ▸ frame_upd (fun _ => rfl) fun _ => rfl
    have hd₁ : s₁.live d = true := by rw [hf₁.live]; exact hd
    have hsib₁ : s₁.sibling = Function.update s.sibling a (s.children d) := by
      rw [hs₁, hch]
      exact field_upd ha fun _ => rfl
    have hch₁ : s₁.children = s.children := by rw [hs₁]; exact field_upd_same fun _ => rfl
    have hpar₁ : s₁.parent = Function.update s.parent a d := by
      rw [hs₁]
      exact field_upd ha fun _ => rfl
    have hname₁ : s₁.nameOf = s.nameOf := by rw [hs₁]; exact field_upd_same fun _ => rfl
    simp only [Bool.not_true, Bool.false_eq_true, if_false, modify_eq ha, ← hs₁, Option.bind_some,
      modify_eq hd₁]
    have hf : Frame s (s₁.upd d fun j => { j with children := a }) :=
      hf₁.trans (frame_upd (fun _ => rfl) fun _ => rfl)
    refine ⟨_, _, rfl, .inl ⟨trivial, hf, ?_, ?_, ?_⟩⟩
    · refine hs.push hf ha hroot hout ?_ ?_
      · rw [← hsib₁]
        exact field_upd_same fun _ => rfl
      · rw [← hch₁]
        exact field_upd hd₁ fun _ => rfl
    · rw [← hname₁]
      exact field_upd_same fun _ => rfl
    · rw [← hpar₁]
      exact field_upd_same fun _ => rfl

theorem renameLink_spec (hs : s.Wf kids) (hn : s.live n = true) (ht : s.live t = true)
    (hroot : t ≠ s.root) (hout : ∀ x, t ∉ kids x) :
    ∃ s', renameLink s o n t = some s' ∧
      Linked s kids n t (if o = n then s.parent else Function.update s.parent t n) s' := by
  obtain ⟨i, hi, -, hch, -⟩ := inodes_eq hn
  obtain ⟨s₁, hs₁⟩ : ∃ s₁, s₁ = s.upd t fun c => { c with sibling := i.children } := ⟨_, rfl⟩
  have hf₁ : Frame s s₁ := hs₁ ▸ frame_upd (fun _ => rfl) fun _ => rfl
  have hn₁ : s₁.live n = true := by rw [hf₁.live]; exact hn
  obtain ⟨s₂, hs₂⟩ : ∃ s₂, s₂ = s₁.upd n fun c => { c with children := t } := ⟨_, rfl⟩
  have hf₂ : Frame s s₂ := hf₁.trans (hs₂ ▸ frame_upd (fun _ => rfl) fun _ => rfl)
  have ht₂ : s₂.live t = true := by rw [hf₂.live]; exact ht
  have hsib₂ : s₂.sibling = Function.update s.sibling t (s.children n) := by
    have h₁ : s₁.sibling = Function.update s.sibling t (s.children n) := by
      rw [hs₁, hch]
      exact field_upd ht fun _ => rfl
    rw [← h₁, hs₂]
    exact field_upd_same fun _ => rfl
  have hch₂ : s₂.children = Function.update s.children n t := by
    have h₁ : s₁.children = s.children := by rw [hs₁]; exact field_upd_same fun _ => rfl
    rw [← h₁, hs₂]
    exact field_upd hn₁ fun _ => rfl
  have hpar₂ : s₂.parent = s.parent := by
    have h₁ : s₁.parent = s.parent := by rw [hs₁]; exact field_upd_same fun _ => rfl
    rw [← h₁, hs₂]
    exact field_upd_same fun _ => rfl
  have hname₂ : s₂.nameOf = s.nameOf := by
    have h₁ : s₁.nameOf = s.nameOf := by rw [hs₁]; exact field_upd_same fun _ => rfl
    rw [← h₁, hs₂]
    exact field_upd_same fun _ => rfl
  unfold renameLink
  by_cases hon : o = n
  · subst hon
    simp only [ne_eq, not_true_eq_false, if_false, hi, Option.bind_eq_bind, Option.bind_some,
      modify_eq ht, ← hs₁, modify_eq hn₁, ← hs₂, if_true]
    exact ⟨s₂, rfl, hf₂, hs.push hf₂ ht hroot hout hsib₂ hch₂, hname₂, hpar₂⟩
  · simp only [ne_eq, hon, not_false_eq_true, if_true, hi, Option.bind_eq_bind, Option.bind_some,
      modify_eq ht, ← hs₁, modify_eq hn₁, ← hs₂, modify_eq ht₂, if_false]
    have hf₃ : Frame s (s₂.upd t fun c => { c with parent := n }) :=
      hf₂.trans (frame_upd (fun _ => rfl) fun _ => rfl)
    refine ⟨_, rfl, hf₃, hs.push hf₃ ht hroot hout ?_ ?_, ?_, ?_⟩
    · rw [← hsib₂]
      exact field_upd_same fun _ => rfl
    · rw [← hch₂]
      exact field_upd_same fun _ => rfl
    · rw [← hname₂]
      exact field_upd_same fun _ => rfl
    · rw [← hpar₂]
      exact field_upd ht₂ fun _ => rfl

theorem ramfsRename_cases (name : Str) {oldDir oldInode newDir : Inode} (hs : s.Wf kids)
    (ht : oldInode.iPrivate ∈ kids oldDir.iPrivate) (hn : s.live newDir.iPrivate = true) :
    ∃ r s', ramfsRename s oldDir oldInode newDir name = some (r, s') ∧
      ((r ≠ 0 ∧ s' = s ∧ ramfsLookupChild s newDir.iPrivate name ≠ some 0) ∨
        (r = 0 ∧ ramfsLookupChild s newDir.iPrivate name = some 0 ∧
        ∃ kids', Moved s kids oldDir.iPrivate oldInode.iPrivate newDir.iPrivate name s' kids')) := by
  unfold ramfsRename
  generalize oldDir.iPrivate = o at ht ⊢
  generalize newDir.iPrivate = n at hn ⊢
  generalize oldInode.iPrivate = t at ht ⊢
  obtain ⟨r, hlook, hcases⟩ := ramfsLookupChild_cases hs hn name
  simp only [if_neg (hs.kid_ne_zero ht), hlook, Option.bind_eq_bind, Option.bind_some]
  rcases hcases with ⟨rfl, -⟩ | ⟨hr0, -⟩
  · obtain ⟨s₁, heq₁, hcut⟩ := renameUnlink_spec hs ht
    have ht₁ : s₁.live t = true := by rw [hcut.frame.live]; exact hs.kid_live o t ht
    have hroot₁ : t ≠ s₁.root := by rw [hcut.frame.root]; exact hs.kid_ne_root o t ht
    have hn₁ : s₁.live n = true := by rw [hcut.frame.live]; exact hn
    obtain ⟨s₂, heq₂, hlink⟩ :=
      renameLink_spec (o := o) hcut.wf hn₁ ht₁ hroot₁ (kid_notMem_erase hs ht)
    have ht₂ : s₂.live t = true := by rw [hlink.frame.live]; exact ht₁
    simp only [ne_eq, not_true_eq_false, if_false, heq₁, heq₂, Option.bind_some, modify_eq ht₂]
    have hf₃ : Frame s₂ (s₂.upd t fun c => { c with name := name.take ramfsMaxName }) :=
      frame_upd (fun _ => rfl) fun _ => rfl
    refine ⟨_, _, rfl, .inr ⟨rfl, trivial, _, ?_, ?_, ht, rfl, ?_, ?_⟩⟩
    · refine hlink.wf.sublist hf₃ (fun _ => List.Sublist.refl _) ?_
      have hsib : (s₂.upd t fun c => { c with name := name.take ramfsMaxName }).sibling =
          s₂.sibling := field_upd_same fun _ => rfl
      have hch : (s₂.upd t fun c => { c with name := name.take ramfsMaxName }).children =
          s₂.children := field_upd_same fun _ => rfl
      rw [hsib, hch]
      exact hlink.wf.chain
    · exact hcut.frame.trans (hlink.frame.trans hf₃)
    · rw [← hcut.nameOf, ← hlink.nameOf]
      exact field_upd ht₂ fun _ => rfl
    · rw [← hcut.parent, ← hlink.parent]
      exact field_upd_same fun _ => rfl
  · simp only [ne_eq, hr0, not_false_eq_true, if_true]
    exact ⟨_, s, rfl, .inl ⟨by decide, rfl, by simpa using hr0⟩⟩

theorem ramfsRename_spec (name : Str) {oldDir oldInode newDir : Inode} (hs : s.Wf kids)
    (ht : oldInode.iPrivate ∈ kids oldDir.iPrivate) (hn : s.live newDir.iPrivate = true) :
    ∃ r s', ramfsRename s oldDir oldInode newDir name = some (r, s') ∧
      (s' = s ∨ (ramfsLookupChild s newDir.iPrivate name = some 0 ∧
        ∃ kids', Moved s kids oldDir.iPrivate oldInode.iPrivate newDir.iPrivate name s' kids')) := by
  obtain ⟨r, s', heq, ⟨-, rfl, -⟩ | ⟨-, hmoved⟩⟩ := ramfsRename_cases name hs ht hn
  · exact ⟨r, s', heq, .inl rfl⟩
  · exact ⟨r, s', heq, .inr hmoved⟩

theorem removeChild_free (hs : s.Wf kids) (ht : t ∈ kids d) :
    ∃ s', removeChild s t s.nextIno (.children d) = some s' ∧
      ∃ kids', Removed s kids d t (ramfsFreeInode s' t) kids' := by
  obtain ⟨s₁, heq, hcut⟩ := removeChild_spec hs ht
  have ht0 := hs.kid_ne_zero ht
  have hroot₁ : t ≠ s₁.root := by rw [hcut.frame.root]; exact hs.kid_ne_root d t ht
  refine ⟨s₁, heq, _, hcut.wf.free ht0 hroot₁ (kid_notMem_erase hs ht), ?_, ht, rfl, ?_, ?_, ?_, ?_,
    ?_⟩
  · rw [← hcut.frame.root, ramfsFreeInode, if_neg ht0]
  · rw [← hcut.frame.live]
    exact field_free ht0
  · rw [← hcut.frame.isDir]
    exact field_free ht0
  · rw [← hcut.frame.ino]
    exact field_free ht0
  · rw [← hcut.nameOf]
    exact field_free ht0
  · rw [← hcut.parent]
    exact field_free ht0

theorem Made.of_core {s₁ s₁' : Ramfs} (h : Made s kids d a mode name s' kids')
    (hs : s₁.core = s.core) (hs' : s₁'.core = s'.core) : Made s₁ kids d a mode name s₁' kids' where
  wf := h.wf.of_core hs'
  root := by rw [root_of_core hs', root_of_core hs, h.root]
  dead := by rw [live_of_core hs, h.dead]
  ne_zero := h.ne_zero
  live := by rw [live_of_core hs', live_of_core hs, h.live]
  isDir := by rw [isDir_of_core hs', isDir_of_core hs, h.isDir]
  ino := by rw [ino_of_core hs', ino_of_core hs, nextIno_of_core hs, h.ino]
  nameOf := by rw [nameOf_of_core hs', nameOf_of_core hs, h.nameOf]
  linked := by
    rw [isDir_of_core hs, parent_of_core hs', parent_of_core hs]
    exact h.linked
  detached := by
    rw [isDir_of_core hs, parent_of_core hs', parent_of_core hs]
    exact h.detached

theorem Moved.of_core {s₁ : Ramfs} (h : Moved s kids o t n name s' kids')
    (hs : s₁.core = s.core) : Moved s₁ kids o t n name s' kids' where
  wf := h.wf
  frame := ⟨by rw [live_of_core hs, h.frame.live], by rw [isDir_of_core hs, h.frame.isDir],
    by rw [ino_of_core hs, h.frame.ino], by rw [root_of_core hs, h.frame.root],
    by rw [nextIno_of_core hs, h.frame.nextIno]⟩
  mem_old := h.mem_old
  kids_eq := h.kids_eq
  nameOf := by rw [nameOf_of_core hs, h.nameOf]
  parent := by rw [parent_of_core hs, h.parent]

theorem Removed.of_core {s₁ : Ramfs} (h : Removed s kids d t s' kids')
    (hs : s₁.core = s.core) : Removed s₁ kids d t s' kids' where
  wf := h.wf
  root := by rw [root_of_core hs, h.root]
  mem_old := h.mem_old
  kids_eq := h.kids_eq
  live := by rw [live_of_core hs, h.live]
  isDir := by rw [isDir_of_core hs, h.isDir]
  ino := by rw [ino_of_core hs, h.ino]
  nameOf := by rw [nameOf_of_core hs, h.nameOf]
  parent := by rw [parent_of_core hs, h.parent]

theorem addInode_upd (s : Ramfs) (a : ℕ) (i : RamfsInode) (f : RamfsInode → RamfsInode) :
    (s.addInode a i).upd a f = s.addInode a (f i) := by
  unfold upd addInode set
  simp

theorem made_detached (mode : ℕ) (name : Str) (i : RamfsInode) (hs : s.Wf kids) (ha0 : a ≠ 0)
    (ha : s.live a = false) (hd : s.isDir d = false) (hino : i.ino = s.nextIno)
    (hmode : i.mode = mode) (hname : i.name = name.take ramfsMaxName) (hch : i.children = 0)
    (hpar : i.parent = 0) : Made s kids d a mode name (s.addInode a i) kids where
  wf := hs.addInode ha0 ha hino hch
  root := rfl
  dead := ha
  ne_zero := ha0
  live := field_addInode s a i
  isDir := hmode ▸ field_addInode s a i
  ino := hino ▸ field_addInode s a i
  nameOf := hname ▸ field_addInode s a i
  linked := fun h => absurd (hd.symm.trans h) (by decide)
  detached := fun _ => ⟨rfl, hpar ▸ field_addInode s a i⟩

theorem made_of_addChild (mode : ℕ) (name : Str) (i : RamfsInode) (hs : s.Wf kids)
    (ha0 : a ≠ 0) (ha : s.live a = false) (hd : s.live d = true) (hino : i.ino = s.nextIno)
    (hmode : i.mode = mode) (hname : i.name = name.take ramfsMaxName) (hch : i.children = 0)
    (hpar : i.parent = 0) :
    ∃ r s', ramfsAddChild (s.addInode a i) d a = some (r, s') ∧
      ∃ kids', Made s kids d a mode name s' kids' := by
  obtain ⟨s₁, hs₁⟩ : ∃ s₁, s₁ = s.addInode a i := ⟨_, rfl⟩
  have hwf : s₁.Wf kids := hs₁ ▸ hs.addInode ha0 ha hino hch
  have hroot₁ : s₁.root = s.root := by rw [hs₁]; rfl
  have hlive₁ : s₁.live = Function.update s.live a true := by rw [hs₁]; exact field_addInode s a i
  have hdir₁ : s₁.isDir = Function.update s.isDir a (sIsdir mode) := by
    rw [hs₁, ← hmode]
    exact field_addInode s a i
  have hino₁ : s₁.ino = Function.update s.ino a s.nextIno := by
    rw [hs₁, ← hino]
    exact field_addInode s a i
  have hname₁ : s₁.nameOf = Function.update s.nameOf a (name.take ramfsMaxName) := by
    rw [hs₁, ← hname]
    exact field_addInode s a i
  have hpar₁ : s₁.parent = Function.update s.parent a 0 := by
    rw [hs₁, ← hpar]
    exact field_addInode s a i
  have hda : d ≠ a := by
    rintro rfl
    rw [ha] at hd
    exact absurd hd (by decide)
  have hd₁ : s₁.live d = true := by rw [hlive₁, Function.update_of_ne hda]; exact hd
  have ha₁ : s₁.live a = true := by rw [hlive₁, Function.update_self]
  have hdd : s₁.isDir d = s.isDir d := by rw [hdir₁, Function.update_of_ne hda]
  have haroot : a ≠ s₁.root := by
    rw [hroot₁]
    rintro rfl
    rw [live_of_isDir hs.root_dir] at ha
    exact absurd ha (by decide)
  have hout : ∀ x, a ∉ kids x := by
    intro x hx
    have := hs.kid_live x a hx
    rw [ha] at this
    exact absurd this (by decide)
  rw [← hs₁]
  obtain ⟨r, s', heq, hcases⟩ := ramfsAddChild_spec hwf hd₁ ha₁ haroot hout
  refine ⟨r, s', heq, ?_⟩
  rcases hcases with ⟨hdir, hlink⟩ | ⟨hdir, rfl⟩
  · refine ⟨_, hlink.wf, hlink.frame.root.trans hroot₁, ha, ha0, hlink.frame.live.trans hlive₁,
      hlink.frame.isDir.trans hdir₁, hlink.frame.ino.trans hino₁, hlink.nameOf.trans hname₁, ?_, ?_⟩
    · intro _
      refine ⟨rfl, ?_⟩
      rw [hlink.parent, hpar₁, Function.update_idem]
    · intro h
      rw [hdd, h] at hdir
      exact absurd hdir (by decide)
  · rw [hdd] at hdir
    rw [hs₁]
    exact ⟨kids, made_detached mode name i hs ha0 ha hdir hino hmode hname hch hpar⟩

theorem Moved.mem_kids {x c : ℕ} (hs : s.Wf kids)
    (h : Moved s kids o t n name s' kids') :
    c ∈ kids' x ↔ (x = n ∧ c = t) ∨ (c ≠ t ∧ c ∈ kids x) := by
  have herase : c ∈ Function.update kids o ((kids o).erase t) x ↔ c ≠ t ∧ c ∈ kids x := by
    by_cases hx : x = o
    · rw [hx, Function.update_self, (hs.nodup o).mem_erase_iff]
    · rw [Function.update_of_ne hx]
      refine ⟨fun hc => ⟨?_, hc⟩, And.right⟩
      rintro rfl
      exact hx (hs.owner x o c hc h.mem_old)
  rw [h.kids_eq]
  by_cases hx : x = n
  · rw [hx] at herase ⊢
    rw [Function.update_self, List.mem_cons, herase]
    simp
  · rw [Function.update_of_ne hx, herase]
    simp [hx]

theorem Made.mem_kids {x c : ℕ} (h : Made s kids d a mode name s' kids')
    (hc : c ∈ kids' x) : (s.isDir d = true ∧ x = d ∧ c = a) ∨ c ∈ kids x := by
  cases hd : s.isDir d with
  | false =>
    rw [(h.detached hd).1] at hc
    exact .inr hc
  | true =>
    rw [(h.linked hd).1] at hc
    by_cases hx : x = d
    · rw [hx, Function.update_self, List.mem_cons] at hc
      rcases hc with hc | hc
      · exact .inl ⟨rfl, hx, hc⟩
      · exact .inr (hx ▸ hc)
    · rw [Function.update_of_ne hx] at hc
      exact .inr hc

theorem Removed.mem_kids {x c : ℕ} (hs : s.Wf kids) (h : Removed s kids d t s' kids') :
    c ∈ kids' x ↔ x ≠ t ∧ c ≠ t ∧ c ∈ kids x := by
  rw [h.kids_eq]
  by_cases hx : x = t
  · rw [hx, Function.update_self]
    simp
  · rw [Function.update_of_ne hx]
    by_cases hxd : x = d
    · rw [hxd, Function.update_self, (hs.nodup d).mem_erase_iff]
      simp [hxd ▸ hx]
    · rw [Function.update_of_ne hxd]
      refine ⟨fun hc => ⟨hx, ?_, hc⟩, fun hc => hc.2.2⟩
      rintro rfl
      exact hxd (hs.owner x d c hc h.mem_old)

end Ramfs

end GcAos.Fs
