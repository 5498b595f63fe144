import GcAos.Fs.VfsFile
import GcAos.Fs.VfsPath

/-! The paths of a ramfs after an inode has been made. -/

namespace GcAos.Fs
open Lib Ramfs

variable {s s' : Ramfs} {kids kids' : ℕ → List ℕ} {dir : Inode} {path name last : Str}
variable {init names : List Str} {a d m mode : ℕ}

theorem walk_snoc (s : Ramfs) (kids : ℕ → List ℕ) (init : List Str) (last : Str) :
    s.walk kids (init ++ [last]) = (s.walk kids init).bind fun d => s.entry kids d last :=
  resolve_snoc _ _ _

theorem walk_live (hs : s.Wf kids) (h : s.walk kids names = some d) : s.live d = true :=
  resolve_live hs (live_of_isDir hs.root_dir) h

theorem walk_of_core (h : s'.core = s.core) : s'.walk kids names = s.walk kids names := by
  rw [walk, walk, entry_of_core h, root_of_core h]

theorem walk_length (hs : s.Wf kids) {p q : List Str} (hp : s.walk kids p = some d)
    (hq : s.walk kids q = some d) : p.length = q.length := by
  induction p using List.reverseRecOn generalizing q d with
  | nil =>
    obtain rfl := Option.some.inj hp
    cases q using List.reverseRecOn with
    | nil => rfl
    | append_singleton q y =>
      rw [walk_snoc] at hq
      obtain ⟨b, -, hb⟩ := Option.bind_eq_some_iff.mp hq
      exact absurd rfl (hs.kid_ne_root b _ (entry_live hs hb).2.1)
  | append_singleton p x ih =>
    rw [walk_snoc] at hp
    obtain ⟨b, hb, hbd⟩ := Option.bind_eq_some_iff.mp hp
    have hd := (entry_live hs hbd).2.1
    cases q using List.reverseRecOn with
    | nil =>
      obtain rfl := Option.some.inj hq
      exact absurd rfl (hs.kid_ne_root b _ hd)
    | append_singleton q y =>
      rw [walk_snoc] at hq
      obtain ⟨c, hc, hcd⟩ := Option.bind_eq_some_iff.mp hq
      obtain rfl := hs.owner b c d hd (entry_live hs hcd).2.1
      rw [List.length_append, List.length_append, ih hb hc]
      rfl

theorem length_le_of_mem_components (h : name ∈ components path) : name.length ≤ ramfsMaxName := by
  obtain ⟨word, -, rfl⟩ := List.mem_map.mp h
  exact List.length_take_le _ _

theorem length_last_le (h : components path = init ++ [last]) : last.length ≤ ramfsMaxName := by
  have hmem : last ∈ components path := by
    rw [h]
    exact List.mem_append_right init List.mem_cons_self
  exact length_le_of_mem_components hmem

/-! An inode that is made is entered in front of the others of its directory. -/

theorem Ramfs.Made.ne_of_live (h : Made s kids d a mode name s' kids') {b : ℕ} (hb : s.live b = true) :
    b ≠ a := by
  rintro rfl
  exact Bool.false_ne_true (h.dead.symm.trans hb)

theorem Ramfs.Made.entry_eq (hs : s.Wf kids) (h : Made s kids d a mode name s' kids') (m : ℕ) (nm : Str) :
    s'.entry kids' m nm =
      if s.isDir d = true ∧ m = d ∧ name.take ramfsMaxName = nm then some a
      else s.entry kids m nm := by
  have hnew : s'.nameOf a = name.take ramfsMaxName := by rw [h.nameOf, Function.update_self]
  have hdead : s.isDir a = false :=
    Bool.eq_false_iff.mpr fun hdir => h.ne_of_live (live_of_isDir hdir) rfl
  have hfind : ∀ x, ((kids x).find? fun c => s'.nameOf c = nm) =
      (kids x).find? fun c => s.nameOf c = nm := by
    intro x
    refine List.find?_congr fun c hc => ?_
    rw [h.nameOf, Function.update_of_ne (h.ne_of_live (hs.kid_live x c hc))]
  have hdir : ∀ x, x ≠ a → s'.isDir x = s.isDir x := by
    intro x hx
    rw [h.isDir, Function.update_of_ne hx]
  -- elsewhere the list is the old one, and below the new inode it is empty
  have hother : ∀ x, kids' x = kids x → s'.entry kids' x nm = s.entry kids x nm := by
    intro x hx
    unfold entry
    rw [hx, hfind]
    by_cases hxa : x = a
    · rw [hxa, hs.kids_dead h.dead, hdead]
      split_ifs <;> rfl
    · rw [hdir x hxa]
  cases hd : s.isDir d with
  | false =>
    rw [if_neg (fun hc => absurd hc.1 (by decide))]
    exact hother m (by rw [(h.detached hd).1])
  | true =>
    obtain ⟨hkids, -⟩ := h.linked hd
    have hda : d ≠ a := h.ne_of_live (live_of_isDir hd)
    by_cases hm : m = d
    · subst hm
      unfold entry
      rw [hdir m hda, hd, hkids, Function.update_self, if_pos rfl, if_pos rfl, List.find?_cons, hnew,
        hfind]
      by_cases hnm : name.take ramfsMaxName = nm
      · simp [hnm]
      · simp [hnm]
    · rw [if_neg (fun hc => hm hc.2.1)]
      exact hother m (by rw [hkids, Function.update_of_ne hm])

theorem Ramfs.Made.walk_eq (hs : s.Wf kids) (h : Made s kids d a mode name s' kids')
    (hwalk : s.walk kids names = some d) : s'.walk kids' names = some d := by
  rw [← hwalk, walk, walk, h.root]
  refine resolve_congr (d := names.length) ?_ le_rfl
  intro q m nm hq hm
  rw [h.entry_eq hs, if_neg]
  rintro ⟨-, rfl, -⟩
  exact absurd (walk_length hs hm hwalk) hq.ne

theorem Ramfs.Made.walk_new (hs : s.Wf kids) (h : Made s kids d a mode last s' kids')
    (hwalk : s.walk kids init = some d) (hd : s.isDir d = true) (hlen : last.length ≤ ramfsMaxName) :
    s'.walk kids' (init ++ [last]) = some a := by
  rw [walk_snoc, h.walk_eq hs hwalk, Option.bind_some, h.entry_eq hs, if_pos]
  exact ⟨hd, rfl, List.take_of_length_le hlen⟩

/-! What `ramfs_create` and `ramfs_mkdir` return. -/

theorem modify_kmalloc {f : RamfsInode → RamfsInode} (h : s.modify a f = some s') :
    s'.kmalloc = s.kmalloc := by
  obtain ⟨i, -, rfl⟩ := Option.map_eq_some_iff.mp h
  rfl

theorem ramfsAddChild_kmalloc {r : ℤ} (h : ramfsAddChild s d a = some (r, s')) :
    s'.kmalloc = s.kmalloc := by
  obtain ⟨i, -, h⟩ := Option.bind_eq_some_iff.mp h
  split at h
  · obtain ⟨-, rfl⟩ := pair_inj h
    rfl
  obtain ⟨s₁, h₁, h⟩ := Option.bind_eq_some_iff.mp h
  obtain ⟨s₂, h₂, h⟩ := Option.bind_eq_some_iff.mp h
  obtain ⟨-, rfl⟩ := pair_inj h
  rw [modify_kmalloc h₂, modify_kmalloc h₁]

namespace Ramfs

def modeOf (s : Ramfs) : ℕ → ℕ := s.field RamfsInode.mode 0

/-- What the call of `kmalloc` returns that comes after `k` others. -/
def alloc (s : Ramfs) (k : ℕ) : ℕ := s.kmalloc.getD k 0

end Ramfs

variable {j k : ℕ}

theorem alloc_zero (s : Ramfs) : s.alloc 0 = s.kmalloc.headD 0 := by
  unfold alloc
  cases s.kmalloc <;> rfl

theorem alloc_drop (h : s'.kmalloc = s.kmalloc.drop j) (k : ℕ) : s'.alloc k = s.alloc (j + k) := by
  rw [alloc, alloc, h, List.getD_eq_getElem?_getD, List.getElem?_drop, List.getD_eq_getElem?_getD]

theorem kmalloc_kzalloc (s : Ramfs) : s.kzalloc.2.kmalloc = s.kmalloc.drop 1 := List.drop_one.symm

theorem supplied_iff : s.Supplied k ↔ ∀ i < k, s.alloc i ≠ 0 := by
  induction k generalizing s with
  | zero => exact iff_of_true (Nat.zero_le _) fun i hi => absurd hi (Nat.not_lt_zero i)
  | succ k ih =>
    have hrest : s.kzalloc.2.Supplied k ↔ ∀ i < k, s.alloc (i + 1) ≠ 0 := by
      rw [ih]
      simp only [alloc_drop (kmalloc_kzalloc s), Nat.add_comm 1]
    constructor
    · intro h i hi
      obtain ⟨h0, htail⟩ := supplied_succ h
      cases i with
      | zero => rwa [alloc_zero]
      | succ i => exact hrest.mp htail i (Nat.lt_of_succ_lt_succ hi)
    · intro h
      have h0 := h 0 (Nat.succ_pos k)
      rw [alloc_zero] at h0
      exact supplied_of_kzalloc h0 (hrest.mpr fun i hi => h (i + 1) (Nat.succ_lt_succ hi))

theorem supplied_add_one : s.Supplied (k + 1) ↔ s.Supplied k ∧ s.alloc k ≠ 0 := by
  simp only [supplied_iff, Nat.lt_succ_iff]
  constructor
  · intro h
    exact ⟨fun i hi => h i hi.le, h k le_rfl⟩
  · rintro ⟨h, hk⟩ i hi
    rcases hi.lt_or_eq with hi | rfl
    · exact h i hi
    · exact hk

theorem ramfsMake_spec {typ : ℕ} {fop : FileOps} (name : Str) (mode : ℕ) (hs : s.Wf kids)
    (hm : FreshMem s) (hd : s.live dir.iPrivate = true) :
    ∃ r made s', ramfsMake typ fop s dir name mode = some (r, made, s') ∧
      ((s.alloc 0 = 0 ∧ r = -eNOMEM ∧ s'.core = s.core) ∨
        (s.alloc 0 ≠ 0 ∧
          (∃ kids', Made s kids dir.iPrivate (s.alloc 0) (typ ||| mode) name s' kids') ∧
          s'.modeOf (s.alloc 0) = typ ||| mode ∧ s'.kmalloc = s.kmalloc.drop 2 ∧
          ((s.alloc 1 = 0 ∧ r = -eNOMEM) ∨
            (s.alloc 1 ≠ 0 ∧ r = 0 ∧ ∃ inode, made = some inode ∧ inode.iPrivate = s.alloc 0)))) := by
  unfold ramfsMake
  rw [ramfsAllocInode_eq, ← alloc_zero]
  by_cases h0 : s.alloc 0 = 0
  · rw [if_pos h0]
    exact ⟨_, _, _, rfl, .inl ⟨h0, rfl, rfl⟩⟩
  have hfresh : s.live (s.alloc 0) = false := by
    rw [alloc_zero] at h0 ⊢
    exact hm.head h0
  obtain ⟨r', s₂, hadd, kids', hmade⟩ := made_of_addChild (typ ||| mode) name
    { ino := s.nextIno, mode := typ ||| mode, name := name.take ramfsMaxName }
    (s := s.kzalloc.2) (hs.of_core rfl) h0 hfresh hd rfl rfl rfl rfl rfl
  have hmode : s₂.modeOf (s.alloc 0) = typ ||| mode := by
    have hfield := ramfsAddChild_field (z := 0) hadd (g := RamfsInode.mode) (fun _ _ _ => rfl)
      fun _ _ => rfl
    rw [modeOf, hfield, field_addInode, Function.update_self]
  have hmem : s₂.kmalloc = s.kmalloc.drop 1 :=
    (ramfsAddChild_kmalloc hadd).trans (kmalloc_kzalloc s)
  have hmem₂ : s₂.kzalloc.2.kmalloc = s.kmalloc.drop 2 := by
    rw [kmalloc_kzalloc, hmem, List.drop_drop]
  have hmade₂ : Made s kids dir.iPrivate (s.alloc 0) (typ ||| mode) name s₂.kzalloc.2 kids' :=
    hmade.of_core rfl rfl
  have hsecond : s₂.kzalloc.1 = s.alloc 1 := by
    have h := alloc_drop hmem 0
    rwa [alloc_zero] at h
  rw [if_neg h0]
  dsimp only
  rw [if_neg h0, hadd, Option.bind_eq_bind, Option.bind_some]
  dsimp only
  rw [hsecond]
  by_cases h1 : s.alloc 1 = 0
  · rw [if_pos h1]
    exact ⟨_, _, _, rfl, .inr ⟨h0, ⟨kids', hmade₂⟩, hmode, hmem₂, .inl ⟨h1, rfl⟩⟩⟩
  · obtain ⟨i, hi⟩ : ∃ i, s₂.kzalloc.2.inodes (s.alloc 0) = some i := by
      refine live_iff.mp ?_
      rw [hmade₂.live, Function.update_self]
    rw [if_neg h1, hi, Option.bind_eq_bind, Option.bind_some]
    exact ⟨_, _, _, rfl, .inr ⟨h0, ⟨kids', hmade₂⟩, hmode, hmem₂, .inr ⟨h1, rfl, _, rfl, rfl⟩⟩⟩

/-! The parent, with any memory. -/

theorem vfsLookupParent_cases (hs : s.Wf kids) (hcomp : components path = init ++ [last]) :
    ∃ r s₁, vfsLookupParent s path = some (r, s₁) ∧ Reads s s₁ ∧
      ((r = none ∧ ∀ d, s.Supplied (2 * init.length) → s.walk kids init ≠ some d) ∨
        ∃ p : Inode, r = some (p, last) ∧ s.walk kids init = some p.iPrivate ∧
          s.Supplied (2 * init.length) ∧ s₁.kmalloc = s.kmalloc.drop (2 * init.length)) := by
  have hroot : s.live (rootInode s).iPrivate = true := live_of_isDir hs.root_dir
  obtain ⟨r, s₁, heq, hr, hall, hsome⟩ := @descend_spec s kids _ init hs hroot
  have hprivate : (s.reach kids (rootInode s) init).map Inode.iPrivate = s.walk kids init :=
    reach_iPrivate hs hroot
  rw [vfsLookupParent_eq s hcomp, heq]
  refine ⟨_, s₁, rfl, hr, ?_⟩
  cases r with
  | none =>
    refine .inl ⟨rfl, ?_⟩
    intro d hsup hwalk
    rw [← hprivate, ← hall hsup] at hwalk
    exact absurd hwalk (by simp)
  | some p =>
    obtain ⟨hsup, hreach, hmem⟩ := hsome p rfl
    refine .inr ⟨p, rfl, ?_, hsup, hmem⟩
    rw [← hprivate, hreach]
    rfl

theorem openParent_eq (hcomp : components path = init ++ [last]) :
    openParent s path = vfsLookupParent s path := by
  unfold openParent
  rw [vfsLookupParent_eq s hcomp]
  cases init with
  | nil => rfl
  | cons name init =>
    have hrest : (skipSlashes path).dropWhile (· ≠ slash) ≠ [] := by
      intro hnil
      rw [← components_skipSlashes] at hcomp
      have hne : skipSlashes path ≠ [] := by
        intro h
        rw [h] at hcomp
        exact absurd hcomp.symm (by simp [components])
      rw [components_eq_cons hne (head?_skipSlashes path), nextComponent, hnil] at hcomp
      exact absurd (List.cons.inj hcomp).2.symm (by simp [components, skipSlashes])
    rcases descend (rootInode s) (name :: init) s with _ | ⟨_ | p, s₁⟩
    · rfl
    · exact if_pos hrest
    · rfl

theorem openParent_root (hcomp : components path = []) :
    openParent s path = some (some (rootInode s, []), s) := by
  have hnil : skipSlashes path = [] := by
    rwa [← components_eq_nil (head?_skipSlashes path), components_skipSlashes]
  unfold openParent
  rw [vfsLookupParent_root s hcomp, hnil]
  rfl

end GcAos.Fs
