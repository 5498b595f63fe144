import GcAos.Fs.Ramfs

/-! The child lists of the ramfs. Whatever the calls do, the siblings of each inode form a finite
list, and no inode is on two of these lists. -/

namespace GcAos.Fs
open Lib

namespace Ramfs

variable {β : Type*} {s s' : Ramfs} {a d t : ℕ} {f : RamfsInode → RamfsInode}

/-- A field of the inode at an address, `z` where there is none. -/
def field (s : Ramfs) (g : RamfsInode → β) (z : β) (a : ℕ) : β := (s.inodes a).elim z g

def live (s : Ramfs) : ℕ → Bool := s.field (fun _ => true) false
def isDir (s : Ramfs) : ℕ → Bool := s.field (fun i => sIsdir i.mode) false
def ino (s : Ramfs) : ℕ → ℕ := s.field RamfsInode.ino 0
def children (s : Ramfs) : ℕ → ℕ := s.field RamfsInode.children 0
def sibling (s : Ramfs) : ℕ → ℕ := s.field RamfsInode.sibling 0
def parent (s : Ramfs) : ℕ → ℕ := s.field RamfsInode.parent 0
def nameOf (s : Ramfs) : ℕ → Str := s.field RamfsInode.name []

def upd (s : Ramfs) (a : ℕ) (f : RamfsInode → RamfsInode) : Ramfs :=
  { s with inodes := Function.update s.inodes a ((s.inodes a).map f) }

theorem live_iff : s.live a = true ↔ ∃ i, s.inodes a = some i := by
  unfold live field
  cases s.inodes a <;> simp

theorem live_of_isDir (h : s.isDir a = true) : s.live a = true := by
  unfold isDir field at h
  rw [live_iff]
  cases hi : s.inodes a with
  | none => simp [hi] at h
  | some i => exact ⟨i, rfl⟩

theorem children_dead (h : s.live d = false) : s.children d = 0 := by
  unfold live field at h
  unfold children field
  cases hi : s.inodes d with
  | none => rfl
  | some i => simp [hi] at h

theorem modify_eq (h : s.live a = true) : s.modify a f = some (s.upd a f) := by
  obtain ⟨i, hi⟩ := live_iff.mp h
  rw [modify, upd, hi]
  rfl

theorem field_upd_same {g : RamfsInode → β} {z : β} (h : ∀ i, g (f i) = g i) :
    (s.upd a f).field g z = s.field g z := by
  funext b
  unfold field upd
  dsimp only
  by_cases hb : b = a
  · subst hb
    rw [Function.update_self]
    cases s.inodes b with
    | none => rfl
    | some i => exact h i
  · rw [Function.update_of_ne hb]

theorem field_upd {g : RamfsInode → β} {z v : β} (ha : s.live a = true) (h : ∀ i, g (f i) = v) :
    (s.upd a f).field g z = Function.update (s.field g z) a v := by
  obtain ⟨i, hi⟩ := live_iff.mp ha
  funext b
  unfold field upd
  dsimp only
  by_cases hb : b = a
  · subst hb
    rw [Function.update_self, Function.update_self, hi]
    exact h i
  · rw [Function.update_of_ne hb, Function.update_of_ne hb]

/-- The state without the results of `kmalloc` still to come. -/
def core (s : Ramfs) : Ramfs := { s with kmalloc := [] }

theorem inodes_of_core (h : s'.core = s.core) : s'.inodes = s.inodes := by
  have := congrArg Ramfs.inodes h
  exact this

theorem root_of_core (h : s'.core = s.core) : s'.root = s.root := by
  have := congrArg Ramfs.root h
  exact this

theorem nextIno_of_core (h : s'.core = s.core) : s'.nextIno = s.nextIno := by
  have := congrArg Ramfs.nextIno h
  exact this

theorem field_of_core {g : RamfsInode → β} {z : β} (h : s'.core = s.core) :
    s'.field g z = s.field g z := by
  unfold field
  rw [inodes_of_core h]

theorem live_of_core (h : s'.core = s.core) : s'.live = s.live := field_of_core h

theorem isDir_of_core (h : s'.core = s.core) : s'.isDir = s.isDir := field_of_core h

theorem ino_of_core (h : s'.core = s.core) : s'.ino = s.ino := field_of_core h

theorem children_of_core (h : s'.core = s.core) : s'.children = s.children := field_of_core h

theorem sibling_of_core (h : s'.core = s.core) : s'.sibling = s.sibling := field_of_core h

theorem parent_of_core (h : s'.core = s.core) : s'.parent = s.parent := field_of_core h

theorem nameOf_of_core (h : s'.core = s.core) : s'.nameOf = s.nameOf := field_of_core h

structure Wf (s : Ramfs) (kids : ℕ → List ℕ) : Prop where
  null : s.live 0 = false
  root_dir : s.isDir s.root = true
  chain : ∀ d, Chain 0 s.sibling (s.children d) (kids d)
  kid_live : ∀ d c, c ∈ kids d → s.live c = true
  kid_ne_root : ∀ d c, c ∈ kids d → c ≠ s.root
  nodup : ∀ d, (kids d).Nodup
  owner : ∀ d e c, c ∈ kids d → c ∈ kids e → d = e
  ino_lt : ∀ a, s.live a = true → s.ino a < s.nextIno
  ino_inj : ∀ a b, s.live a = true → s.live b = true → s.ino a = s.ino b → a = b

namespace Wf

variable {kids : ℕ → List ℕ} (hs : s.Wf kids)
include hs

theorem of_core (h : s'.core = s.core) : s'.Wf kids where
  null := by rw [live_of_core h]; exact hs.null
  root_dir := by rw [isDir_of_core h, root_of_core h]; exact hs.root_dir
  chain := by rw [sibling_of_core h, children_of_core h]; exact hs.chain
  kid_live := by rw [live_of_core h]; exact hs.kid_live
  kid_ne_root := by rw [root_of_core h]; exact hs.kid_ne_root
  nodup := hs.nodup
  owner := hs.owner
  ino_lt := by rw [live_of_core h, ino_of_core h, nextIno_of_core h]; exact hs.ino_lt
  ino_inj := by rw [live_of_core h, ino_of_core h]; exact hs.ino_inj

theorem kid_ne_zero {c : ℕ} (h : c ∈ kids d) : c ≠ 0 := (hs.chain d).ne_nil h

theorem kids_dead (h : s.live d = false) : kids d = [] := by
  have hchain := hs.chain d
  rw [children_dead h] at hchain
  exact hchain.unique (show Chain 0 s.sibling 0 [] from rfl)

theorem length_kids_lt (d : ℕ) : (kids d).length < s.nextIno := by
  have hnd : (s.root :: kids d).Nodup :=
    List.nodup_cons.mpr ⟨fun h => hs.kid_ne_root d _ h rfl, hs.nodup d⟩
  have hlive : ∀ a ∈ s.root :: kids d, s.live a = true := by
    intro a ha
    rcases List.mem_cons.mp ha with rfl | ha
    · exact live_of_isDir hs.root_dir
    · exact hs.kid_live d a ha
  have hmap : ((s.root :: kids d).map s.ino).Nodup :=
    hnd.map_on fun a ha b hb => hs.ino_inj a b (hlive a ha) (hlive b hb)
  have hsub : (s.root :: kids d).map s.ino ⊆ List.range s.nextIno := by
    intro n hn
    obtain ⟨a, ha, rfl⟩ := List.mem_map.mp hn
    exact List.mem_range.mpr (hs.ino_lt a (hlive a ha))
  have hle := (List.subperm_of_subset hmap hsub).length_le
  rw [List.length_map, List.length_cons, List.length_range] at hle
  exact hle

end Wf

structure Frame (s s' : Ramfs) : Prop where
  live : s'.live = s.live
  isDir : s'.isDir = s.isDir
  ino : s'.ino = s.ino
  root : s'.root = s.root
  nextIno : s'.nextIno = s.nextIno

theorem Frame.trans {s₁ s₂ s₃ : Ramfs} (h : Frame s₁ s₂) (h' : Frame s₂ s₃) : Frame s₁ s₃ :=
  ⟨h'.live.trans h.live, h'.isDir.trans h.isDir, h'.ino.trans h.ino, h'.root.trans h.root,
    h'.nextIno.trans h.nextIno⟩

theorem frame_upd (hino : ∀ i, (f i).ino = i.ino) (hmode : ∀ i, (f i).mode = i.mode) :
    Frame s (s.upd a f) where
  live := field_upd_same fun _ => rfl
  isDir := field_upd_same fun i => by rw [hmode i]
  ino := field_upd_same hino
  root := rfl
  nextIno := rfl

theorem update_sublist {kids : ℕ → List ℕ} (pre post : List ℕ)
    (hd : kids d = pre ++ t :: post) (x : ℕ) :
    (Function.update kids d (pre ++ post) x).Sublist (kids x) := by
  by_cases hx : x = d
  · rw [hx, Function.update_self, hd]
    exact (List.Sublist.refl pre).append (List.sublist_cons_self t post)
  · rw [Function.update_of_ne hx]

section Edits
variable {kids kids' : ℕ → List ℕ} {n b : ℕ} {pre post : List ℕ} (hs : s.Wf kids)
include hs

theorem Wf.sublist (hf : Frame s s') (hsub : ∀ d, (kids' d).Sublist (kids d))
    (hchain : ∀ d, Chain 0 s'.sibling (s'.children d) (kids' d)) : s'.Wf kids' where
  null := by rw [hf.live]; exact hs.null
  root_dir := by rw [hf.isDir, hf.root]; exact hs.root_dir
  chain := hchain
  kid_live := by
    intro d c hc
    rw [hf.live]
    exact hs.kid_live d c ((hsub d).subset hc)
  kid_ne_root := by
    intro d c hc
    rw [hf.root]
    exact hs.kid_ne_root d c ((hsub d).subset hc)
  nodup := fun d => (hs.nodup d).sublist (hsub d)
  owner := fun d e c hd he => hs.owner d e c ((hsub d).subset hd) ((hsub e).subset he)
  ino_lt := by rw [hf.live, hf.ino, hf.nextIno]; exact hs.ino_lt
  ino_inj := by rw [hf.live, hf.ino]; exact hs.ino_inj

theorem Wf.cut_head (hf : Frame s s') (hd : kids d = t :: post) (hsib : s'.sibling = s.sibling)
    (hch : s'.children = Function.update s.children d (s.sibling t)) :
    s'.Wf (Function.update kids d post) := by
  refine hs.sublist hf (update_sublist [] post hd) ?_
  intro x
  rw [hsib, hch]
  by_cases hx : x = d
  · have hchain := hs.chain d
    rw [hd] at hchain
    rw [hx, Function.update_self, Function.update_self]
    exact hchain.2.2
  · rw [Function.update_of_ne hx, Function.update_of_ne hx]
    exact hs.chain x

theorem Wf.cut_after (hf : Frame s s') (hd : kids d = pre ++ b :: t :: post)
    (hsib : s'.sibling = Function.update s.sibling b (s.sibling t))
    (hch : s'.children = s.children) :
    s'.Wf (Function.update kids d (pre ++ b :: post)) := by
  have hnd := hs.nodup d
  rw [hd] at hnd
  have hd' : kids d = (pre ++ [b]) ++ t :: post := by
    rw [hd, List.append_assoc]
    rfl
  have hrest : (pre ++ [b]) ++ post = pre ++ b :: post := by
    rw [List.append_assoc]
    rfl
  refine hs.sublist hf ?_ ?_
  · rw [← hrest]
    exact update_sublist (pre ++ [b]) post hd'
  · intro x
    rw [hsib, hch]
    by_cases hx : x = d
    · have hchain := hs.chain d
      rw [hd] at hchain
      rw [hx, Function.update_self]
      refine hchain.unlink (Function.update_self _ _ _) ?_
      intro c hc
      apply Function.update_of_ne
      rintro rfl
      rw [List.nodup_append] at hnd
      rcases List.mem_append.mp hc with h | h
      · exact hnd.2.2 c h c List.mem_cons_self rfl
      · exact (List.nodup_cons.mp hnd.2.1).1 (List.mem_cons_of_mem t h)
    · rw [Function.update_of_ne hx]
      refine (hs.chain x).congr ?_
      intro c hc
      apply Function.update_of_ne
      rintro rfl
      have hb : c ∈ kids d := by
        rw [hd]
        exact List.mem_append_right pre List.mem_cons_self
      exact hx (hs.owner x d c hc hb)

theorem Wf.push (hf : Frame s s') (ht : s.live t = true) (hroot : t ≠ s.root)
    (hout : ∀ x, t ∉ kids x) (hsib : s'.sibling = Function.update s.sibling t (s.children n))
    (hch : s'.children = Function.update s.children n t) :
    s'.Wf (Function.update kids n (t :: kids n)) := by
  have ht0 : t ≠ 0 := by
    rintro rfl
    rw [hs.null] at ht
    exact absurd ht (by decide)
  have hmem : ∀ x c, c ∈ Function.update kids n (t :: kids n) x → (x = n ∧ c = t) ∨ c ∈ kids x := by
    intro x c hc
    by_cases hx : x = n
    · rw [hx, Function.update_self] at hc
      rcases List.mem_cons.mp hc with h | h
      · exact .inl ⟨hx, h⟩
      · exact .inr (hx ▸ h)
    · rw [Function.update_of_ne hx] at hc
      exact .inr hc
  have hnx : ∀ c, c ≠ t → s'.sibling c = s.sibling c := by
    intro c hc
    rw [hsib, Function.update_of_ne hc]
  exact {
    null := by rw [hf.live]; exact hs.null
    root_dir := by rw [hf.isDir, hf.root]; exact hs.root_dir
    chain := by
      intro x
      rw [hch]
      by_cases hx : x = n
      · rw [hx, Function.update_self, Function.update_self]
        refine (hs.chain n).push ht0 (hout n) ?_ hnx
        rw [hsib, Function.update_self]
      · rw [Function.update_of_ne hx, Function.update_of_ne hx]
        exact (hs.chain x).congr fun c hc => hnx c fun h => hout x (h ▸ hc)
    kid_live := by
      intro x c hc
      rw [hf.live]
      rcases hmem x c hc with ⟨-, rfl⟩ | h
      · exact ht
      · exact hs.kid_live x c h
    kid_ne_root := by
      intro x c hc
      rw [hf.root]
      rcases hmem x c hc with ⟨-, rfl⟩ | h
      · exact hroot
      · exact hs.kid_ne_root x c h
    nodup := by
      intro x
      by_cases hx : x = n
      · rw [hx, Function.update_self]
        exact List.nodup_cons.mpr ⟨hout n, hs.nodup n⟩
      · rw [Function.update_of_ne hx]
        exact hs.nodup x
    owner := by
      intro x y c hx hy
      rcases hmem x c hx with ⟨hxn, hct⟩ | hx'
      · rcases hmem y c hy with ⟨hyn, -⟩ | hy'
        · rw [hxn, hyn]
        · exact absurd (hct ▸ hy') (hout y)
      · rcases hmem y c hy with ⟨-, hct⟩ | hy'
        · exact absurd (hct ▸ hx') (hout x)
        · exact hs.owner x y c hx' hy'
    ino_lt := by rw [hf.live, hf.ino, hf.nextIno]; exact hs.ino_lt
    ino_inj := by rw [hf.live, hf.ino]; exact hs.ino_inj }

end Edits

theorem field_set {g : RamfsInode → β} {z : β} (s : Ramfs) (a : ℕ) (i : RamfsInode) :
    (s.set a i).field g z = Function.update (s.field g z) a (g i) := by
  funext b
  unfold field set
  dsimp only
  by_cases hb : b = a
  · rw [hb, Function.update_self, Function.update_self]
    rfl
  · rw [Function.update_of_ne hb, Function.update_of_ne hb]

theorem field_free {g : RamfsInode → β} {z : β} (ht : t ≠ 0) :
    (ramfsFreeInode s t).field g z = Function.update (s.field g z) t z := by
  funext b
  unfold field ramfsFreeInode
  rw [if_neg ht]
  dsimp only
  by_cases hb : b = t
  · rw [hb, Function.update_self, Function.update_self]
    rfl
  · rw [Function.update_of_ne hb, Function.update_of_ne hb]

/-- What `ramfs_alloc_inode` does when it has memory. -/
def addInode (s : Ramfs) (a : ℕ) (i : RamfsInode) : Ramfs :=
  { s.set a i with nextIno := s.nextIno + 1, inodeCount := s.inodeCount + 1 }

theorem field_addInode {g : RamfsInode → β} {z : β} (s : Ramfs) (a : ℕ) (i : RamfsInode) :
    (s.addInode a i).field g z = Function.update (s.field g z) a (g i) :=
  field_set s a i

section AddFree
variable {kids : ℕ → List ℕ} {i : RamfsInode} (hs : s.Wf kids)
include hs

theorem Wf.addInode (ha0 : a ≠ 0) (ha : s.live a = false) (hino : i.ino = s.nextIno)
    (hch : i.children = 0) : (s.addInode a i).Wf kids := by
  have hne : ∀ b, s.live b = true → b ≠ a := by
    rintro b hb rfl
    rw [ha] at hb
    exact absurd hb (by decide)
  have hlive : ∀ b, (s.addInode a i).live b = true → b = a ∨ s.live b = true := by
    intro b hb
    by_cases hba : b = a
    · exact .inl hba
    · rw [live, field_addInode, Function.update_of_ne hba] at hb
      exact .inr hb
  have hinoOld : ∀ b, b ≠ a → (s.addInode a i).ino b = s.ino b := by
    intro b hb
    rw [ino, field_addInode, Function.update_of_ne hb]
    rfl
  have hinoNew : (s.addInode a i).ino a = s.nextIno := by
    rw [ino, field_addInode, Function.update_self, hino]
  have hold : ∀ b, s.live b = true → (s.addInode a i).live b = true := by
    intro b hb
    rw [live, field_addInode, Function.update_of_ne (hne b hb)]
    exact hb
  exact {
    null := by
      rw [live, field_addInode, Function.update_of_ne ha0.symm]
      exact hs.null
    root_dir := by
      have hroot := hs.root_dir
      show (s.addInode a i).isDir s.root = true
      rw [isDir, field_addInode, Function.update_of_ne (hne _ (live_of_isDir hroot))]
      exact hroot
    chain := by
      intro d
      have hchd : (s.addInode a i).children d = s.children d := by
        rw [children, field_addInode]
        by_cases hd : d = a
        · rw [hd, Function.update_self, hch]
          exact (children_dead ha).symm
        · rw [Function.update_of_ne hd]
          rfl
      rw [hchd]
      refine (hs.chain d).congr ?_
      intro c hc
      rw [sibling, field_addInode, Function.update_of_ne (hne c (hs.kid_live d c hc))]
      rfl
    kid_live := fun d c hc => hold c (hs.kid_live d c hc)
    kid_ne_root := hs.kid_ne_root
    nodup := hs.nodup
    owner := hs.owner
    ino_lt := by
      intro b hb
      show _ < s.nextIno + 1
      rcases hlive b hb with rfl | hb
      · rw [hinoNew]
        exact Nat.lt_succ_self _
      · rw [hinoOld b (hne b hb)]
        exact Nat.lt_succ_of_lt (hs.ino_lt b hb)
    ino_inj := by
      intro b c hb hc heq
      rcases hlive b hb with rfl | hb'
      · rcases hlive c hc with rfl | hc'
        · rfl
        · rw [hinoNew, hinoOld c (hne c hc')] at heq
          exact absurd (hs.ino_lt c hc') (heq ▸ lt_irrefl _)
      · rcases hlive c hc with rfl | hc'
        · rw [hinoNew, hinoOld b (hne b hb')] at heq
          exact absurd (hs.ino_lt b hb') (heq ▸ lt_irrefl _)
        · rw [hinoOld b (hne b hb'), hinoOld c (hne c hc')] at heq
          exact hs.ino_inj b c hb' hc' heq }

theorem Wf.free (ht0 : t ≠ 0) (hroot : t ≠ s.root) (hout : ∀ x, t ∉ kids x) :
    (ramfsFreeInode s t).Wf (Function.update kids t []) := by
  have hmem : ∀ x c, c ∈ Function.update kids t [] x → c ∈ kids x := by
    intro x c hc
    by_cases hx : x = t
    · rw [hx, Function.update_self] at hc
      exact absurd hc List.not_mem_nil
    · rwa [Function.update_of_ne hx] at hc
  have hroot' : (ramfsFreeInode s t).root = s.root := by rw [ramfsFreeInode, if_neg ht0]
  have hnext : (ramfsFreeInode s t).nextIno = s.nextIno := by rw [ramfsFreeInode, if_neg ht0]
  have hlive : ∀ b, (ramfsFreeInode s t).live b = true → b ≠ t ∧ s.live b = true := by
    intro b hb
    rw [live, field_free ht0] at hb
    by_cases hbt : b = t
    · rw [hbt, Function.update_self] at hb
      exact absurd hb (by decide)
    · rw [Function.update_of_ne hbt] at hb
      exact ⟨hbt, hb⟩
  have hino : ∀ b, b ≠ t → (ramfsFreeInode s t).ino b = s.ino b := by
    intro b hb
    rw [ino, field_free ht0, Function.update_of_ne hb]
    rfl
  exact {
    null := by
      rw [live, field_free ht0, Function.update_of_ne ht0.symm]
      exact hs.null
    root_dir := by
      rw [hroot', isDir, field_free ht0, Function.update_of_ne hroot.symm]
      exact hs.root_dir
    chain := by
      intro x
      rw [children, field_free ht0]
      by_cases hx : x = t
      · rw [hx, Function.update_self, Function.update_self]
        rfl
      · rw [Function.update_of_ne hx, Function.update_of_ne hx]
        refine (hs.chain x).congr ?_
        intro c hc
        have hct : c ≠ t := fun h => hout x (h ▸ hc)
        rw [sibling, field_free ht0, Function.update_of_ne hct]
        rfl
    kid_live := by
      intro x c hc
      have hc' := hmem x c hc
      have hct : c ≠ t := fun h => hout x (h ▸ hc')
      rw [live, field_free ht0, Function.update_of_ne hct]
      exact hs.kid_live x c hc'
    kid_ne_root := by
      intro x c hc
      rw [hroot']
      exact hs.kid_ne_root x c (hmem x c hc)
    nodup := by
      intro x
      by_cases hx : x = t
      · rw [hx, Function.update_self]
        exact List.nodup_nil
      · rw [Function.update_of_ne hx]
        exact hs.nodup x
    owner := fun x y c hx hy => hs.owner x y c (hmem x c hx) (hmem y c hy)
    ino_lt := by
      intro b hb
      obtain ⟨hbt, hb'⟩ := hlive b hb
      rw [hino b hbt, hnext]
      exact hs.ino_lt b hb'
    ino_inj := by
      intro b c hb hc heq
      obtain ⟨hbt, hb'⟩ := hlive b hb
      obtain ⟨hct, hc'⟩ := hlive c hc
      rw [hino b hbt, hino c hct] at heq
      exact hs.ino_inj b c hb' hc' heq }

end AddFree

theorem lookupSiblings_spec (name : Str) {l : List ℕ} {child fuel : ℕ}
    (hchain : Chain 0 s.sibling child l) (hlive : ∀ c ∈ l, s.live c = true)
    (hfuel : l.length < fuel) :
    lookupSiblings s name fuel child = some ((l.find? fun c => s.nameOf c = name).getD 0) := by
  induction l generalizing child fuel with
  | nil =>
    obtain rfl : child = 0 := hchain
    cases fuel with
    | zero => exact absurd hfuel (Nat.not_lt_zero _)
    | succ fuel => rfl
  | cons b l ih =>
    obtain ⟨rfl, hb0, htail⟩ := hchain
    cases fuel with
    | zero => exact absurd hfuel (Nat.not_lt_zero _)
    | succ fuel =>
      obtain ⟨i, hi⟩ := live_iff.mp (hlive child List.mem_cons_self)
      have hsib : s.sibling child = i.sibling := by rw [sibling, field, hi]; rfl
      have hname : s.nameOf child = i.name := by rw [nameOf, field, hi]; rfl
      have hrest := ih htail (fun c hc => hlive c (List.mem_cons_of_mem _ hc))
        (Nat.lt_of_succ_lt_succ hfuel)
      rw [hsib] at hrest
      unfold lookupSiblings
      rw [if_neg hb0, hi, Option.bind_eq_bind, Option.bind_some, hrest]
      by_cases heq : i.name = name
      · rw [if_pos heq, List.find?_cons_of_pos (by rw [hname]; exact decide_eq_true heq)]
        rfl
      · rw [if_neg heq, List.find?_cons_of_neg (by rw [hname]; simpa using heq)]

theorem ramfsLookupChild_cases {kids : ℕ → List ℕ} (hs : s.Wf kids) (hd : s.live d = true)
    (name : Str) : ∃ r, ramfsLookupChild s d name = some r ∧
      ((r = 0 ∧ (s.isDir d = true → ∀ c ∈ kids d, s.nameOf c ≠ name)) ∨
        (r ≠ 0 ∧ s.isDir d = true ∧ r ∈ kids d ∧ s.nameOf r = name)) := by
  obtain ⟨i, hi⟩ := live_iff.mp hd
  have hdir : s.isDir d = sIsdir i.mode := by rw [isDir, field, hi]; rfl
  have hch : s.children d = i.children := by rw [children, field, hi]; rfl
  have hspec := lookupSiblings_spec name (hch ▸ hs.chain d) (hs.kid_live d)
    (hs.length_kids_lt d)
  unfold ramfsLookupChild
  rw [hi, Option.bind_eq_bind, Option.bind_some, hspec, hdir]
  cases hmode : sIsdir i.mode with
  | false => exact ⟨0, rfl, .inl ⟨rfl, fun h => absurd h (by decide)⟩⟩
  | true =>
    refine ⟨_, rfl, ?_⟩
    cases hfind : (kids d).find? fun c => s.nameOf c = name with
    | none =>
      refine .inl ⟨rfl, fun _ c hc => ?_⟩
      simpa using List.find?_eq_none.mp hfind c hc
    | some r =>
      have hr := List.mem_of_find?_eq_some hfind
      exact .inr ⟨hs.kid_ne_zero hr, rfl, hr, by simpa using List.find?_some hfind⟩

theorem inodes_eq (h : s.live a = true) : ∃ i, s.inodes a = some i ∧ s.sibling a = i.sibling ∧
    s.children a = i.children ∧ s.isDir a = sIsdir i.mode := by
  obtain ⟨i, hi⟩ := live_iff.mp h
  refine ⟨i, hi, ?_, ?_, ?_⟩
  · rw [sibling, field, hi]; rfl
  · rw [children, field, hi]; rfl
  · rw [isDir, field, hi]; rfl

/-- The child list of `d` loses its entry `t`; nothing else is changed. -/
structure Cut (s : Ramfs) (kids : ℕ → List ℕ) (d t : ℕ) (s' : Ramfs) : Prop where
  frame : Frame s s'
  wf : s'.Wf (Function.update kids d ((kids d).erase t))
  nameOf : s'.nameOf = s.nameOf
  parent : s'.parent = s.parent

section Cut
variable {kids : ℕ → List ℕ} {b : ℕ} {pre post : List ℕ} (hs : s.Wf kids)
include hs

theorem cut_children (hd : s.live d = true) (hkids : kids d = t :: post) :
    Cut s kids d t (s.upd d fun i => { i with children := s.sibling t }) where
  frame := frame_upd (fun _ => rfl) fun _ => rfl
  wf := by
    have herase : (kids d).erase t = post := by rw [hkids, List.erase_cons_head]
    rw [herase]
    refine hs.cut_head (frame_upd (fun _ => rfl) fun _ => rfl) hkids ?_ ?_
    · exact field_upd_same fun _ => rfl
    · exact field_upd hd fun _ => rfl
  nameOf := field_upd_same fun _ => rfl
  parent := field_upd_same fun _ => rfl

theorem cut_sibling (hkids : kids d = pre ++ b :: t :: post) :
    Cut s kids d t (s.upd b fun i => { i with sibling := s.sibling t }) where
  frame := frame_upd (fun _ => rfl) fun _ => rfl
  wf := by
    have hb : b ∈ kids d := by
      rw [hkids]
      exact List.mem_append_right pre List.mem_cons_self
    have hnd := hs.nodup d
    rw [hkids, List.nodup_append] at hnd
    have htpre : t ∉ pre := fun h =>
      hnd.2.2 t h t (List.mem_cons_of_mem b List.mem_cons_self) rfl
    have hbt : b ≠ t := fun h =>
      (List.nodup_cons.mp hnd.2.1).1 (h ▸ List.mem_cons_self)
    have herase : (kids d).erase t = pre ++ b :: post := by
      rw [hkids, List.erase_append_right _ htpre, List.erase_cons_tail (by simpa using hbt),
        List.erase_cons_head]
    rw [herase]
    refine hs.cut_after (frame_upd (fun _ => rfl) fun _ => rfl) hkids ?_ ?_
    · exact field_upd (hs.kid_live d b hb) fun _ => rfl
    · exact field_upd_same fun _ => rfl
  nameOf := field_upd_same fun _ => rfl
  parent := field_upd_same fun _ => rfl

omit hs in
theorem removeChild_eq {fuel p : ℕ} {link : Link} (ht0 : t ≠ 0) (ht : s.live t = true)
    (hchain : Chain 0 s.sibling p (pre ++ t :: post)) (hread : link.read s = some p)
    (hlive : ∀ c ∈ pre, s.live c = true) (htpre : t ∉ pre) (hfuel : pre.length < fuel) :
    removeChild s t fuel link =
      (pre.getLast?.elim link Link.sibling).write s (s.sibling t) := by
  obtain ⟨i, hi, hsib, -⟩ := inodes_eq ht
  induction pre generalizing fuel p link with
  | nil =>
    obtain rfl : p = t := hchain.1
    cases fuel with
    | zero => exact absurd hfuel (Nat.not_lt_zero _)
    | succ fuel =>
      unfold removeChild
      rw [hread, Option.bind_eq_bind, Option.bind_some, if_neg ht0, if_pos rfl, hi, hsib]
      rfl
  | cons c pre ih =>
    obtain ⟨rfl, hp0, htail⟩ := hchain
    cases fuel with
    | zero => exact absurd hfuel (Nat.not_lt_zero _)
    | succ fuel =>
      have hpt : p ≠ t := fun h => htpre (h ▸ List.mem_cons_self)
      obtain ⟨j, hj, hsibj, -⟩ := inodes_eq (hlive p List.mem_cons_self)
      have hnext : (Link.sibling p).read s = some (s.sibling p) := by
        rw [Link.read, hj, hsibj]
        rfl
      have hrest := ih htail hnext (fun c hc => hlive c (List.mem_cons_of_mem _ hc))
        (fun h => htpre (List.mem_cons_of_mem _ h)) (Nat.lt_of_succ_lt_succ hfuel)
      unfold removeChild
      rw [hread, Option.bind_eq_bind, Option.bind_some, if_neg hp0, if_neg hpt, hrest]
      cases pre with
      | nil => rfl
      | cons c pre =>
        rw [List.getLast?_cons_cons, List.getLast?_cons]
        rfl

theorem removeChild_spec (ht : t ∈ kids d) :
    ∃ s', removeChild s t s.nextIno (.children d) = some s' ∧ Cut s kids d t s' := by
  have hd : s.live d = true := by
    by_contra h
    rw [hs.kids_dead (by simpa using h)] at ht
    exact absurd ht List.not_mem_nil
  obtain ⟨pre, post, hkids, htpre⟩ := List.eq_append_cons_of_mem ht
  have hlen := hs.length_kids_lt d
  have hlive := hs.kid_live d
  have hchain := hs.chain d
  have hnd := hs.nodup d
  obtain ⟨i, hi, -, hch, -⟩ := inodes_eq hd
  have hread : (Link.children d).read s = some (s.children d) := by
    rw [Link.read, hi, hch]
    rfl
  rw [hkids] at hlen hlive hchain hnd
  rw [List.length_append] at hlen
  rw [removeChild_eq (hs.kid_ne_zero ht) (hs.kid_live d t ht) hchain hread
    (fun c hc => hlive c (List.mem_append_left _ hc)) htpre (by omega)]
  rcases List.eq_nil_or_concat' pre with rfl | ⟨pre, b, rfl⟩
  · exact ⟨_, modify_eq hd, cut_children hs hd hkids⟩
  · have hb := hlive b (by simp)
    have hkids' : kids d = pre ++ b :: t :: post := by rw [hkids]; simp
    rw [List.getLast?_concat]
    exact ⟨_, modify_eq hb, cut_sibling hs hkids'⟩

omit hs in
theorem findBefore_eq {fuel c : ℕ} (hchain : Chain 0 s.sibling c (pre ++ b :: t :: post))
    (hlive : ∀ c ∈ pre ++ [b], s.live c = true) (htpre : t ∉ pre ++ [b])
    (hfuel : pre.length < fuel) : findBefore s t fuel c = some b := by
  induction pre generalizing fuel c with
  | nil =>
    obtain ⟨rfl, hb0, ht, -⟩ := hchain
    cases fuel with
    | zero => exact absurd hfuel (Nat.not_lt_zero _)
    | succ fuel =>
      obtain ⟨j, hj, hsib, -⟩ := inodes_eq (hlive c List.mem_cons_self)
      unfold findBefore
      rw [if_neg hb0, hj, Option.bind_eq_bind, Option.bind_some, ← hsib, ht, if_neg (by simp)]
  | cons x pre ih =>
    obtain ⟨rfl, hc0, htail⟩ := hchain
    cases fuel with
    | zero => exact absurd hfuel (Nat.not_lt_zero _)
    | succ fuel =>
      obtain ⟨j, hj, hsib, -⟩ := inodes_eq (hlive c List.mem_cons_self)
      have hne : s.sibling c ≠ t := by
        intro h
        have hmem : t ∈ pre ++ [b] := by
          rw [← h]
          cases pre with
          | nil => exact htail.1 ▸ List.mem_cons_self
          | cons y pre => exact htail.1 ▸ List.mem_cons_self
        exact htpre (List.mem_cons_of_mem _ hmem)
      have hrest := ih htail (fun c hc => hlive c (List.mem_cons_of_mem _ hc))
        (fun h => htpre (List.mem_cons_of_mem _ h)) (Nat.lt_of_succ_lt_succ hfuel)
      unfold findBefore
      rw [if_neg hc0, hj, Option.bind_eq_bind, Option.bind_some, ← hsib, if_pos hne, hrest]

theorem renameUnlink_spec (ht : t ∈ kids d) :
    ∃ s', renameUnlink s d t = some s' ∧ Cut s kids d t s' := by
  have hd : s.live d = true := by
    by_contra h
    rw [hs.kids_dead (by simpa using h)] at ht
    exact absurd ht List.not_mem_nil
  obtain ⟨pre, post, hkids, htpre⟩ := List.eq_append_cons_of_mem ht
  have hlen := hs.length_kids_lt d
  have hlive := hs.kid_live d
  have hchain := hs.chain d
  obtain ⟨i, hi, -, hch, -⟩ := inodes_eq hd
  obtain ⟨j, hj, hsib, -⟩ := inodes_eq (hs.kid_live d t ht)
  rw [hkids] at hlen hlive hchain
  unfold renameUnlink
  simp only [hi, hj, Option.bind_eq_bind, Option.bind_some, ← hch, ← hsib]
  rcases List.eq_nil_or_concat' pre with rfl | ⟨pre, b, rfl⟩
  · rw [if_pos hchain.1]
    exact ⟨_, modify_eq hd, cut_children hs hd hkids⟩
  · have hkids' : kids d = pre ++ b :: t :: post := by rw [hkids]; simp
    have hlive' : ∀ c ∈ pre ++ [b], s.live c = true := fun c hc => hlive c (List.mem_append_left _ hc)
    have hb := hlive' b (by simp)
    have hb0 : b ≠ 0 := hs.kid_ne_zero (by rw [hkids']; simp)
    have hchain' := hs.chain d
    rw [hkids'] at hchain'
    have hne : s.children d ≠ t := by
      intro h
      rw [h] at hchain
      cases pre with
      | nil => exact htpre (hchain.1 ▸ List.mem_cons_self)
      | cons x pre => exact htpre (hchain.1 ▸ List.mem_cons_self)
    simp only [List.length_append] at hlen
    rw [if_neg hne, findBefore_eq hchain' hlive' htpre (by omega), Option.bind_some, if_pos hb0]
    exact ⟨_, modify_eq hb, cut_sibling hs hkids'⟩

end Cut

end Ramfs

end GcAos.Fs
