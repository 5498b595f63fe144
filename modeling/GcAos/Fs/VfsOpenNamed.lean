import GcAos.Fs.VfsCreate

/-! `vfs_open` with memory for everything: which file it opens or makes. -/

namespace GcAos.Fs
open Lib Ramfs

def NoDirectory (s : Ramfs) (kids : ℕ → List ℕ) (path : Str) : Prop :=
  ∃ pre suf, components path = pre ++ suf ∧ suf ≠ [] ∧ ∀ d, s.walk kids pre = some d → s.isDir d = false

/-- The file named by the path is opened, or made in its directory. A path without components names
the root, if it names anything. -/
structure OpensNamed (s : Ramfs) (kids : ℕ → List ℕ) (path : Str) (flags mode : ℕ) (f : Option File)
    (s' : Ramfs) : Prop where
  unnamed : components path = [] →
    (∀ file, f = some file → file.privateData = s.root) ∧ s'.core = s.core
  found : components path ≠ [] → ∀ a, s.walk kids (components path) = some a →
    f.map File.privateData = some a ∧ s'.core = s.core
  refused : components path ≠ [] → s.walk kids (components path) = none →
    flags &&& oCreat = 0 ∨ NoDirectory s kids path → f = none ∧ s'.core = s.core
  created : ∀ init last, components path = init ++ [last] → s.walk kids (components path) = none →
    flags &&& oCreat ≠ 0 → ¬NoDirectory s kids path → ∃ d file kids', s.walk kids init = some d ∧
      s.isDir d = true ∧ f = some file ∧ Made s kids d file.privateData (sIfreg ||| mode) last s' kids'

/-- No entry without a name is opened or made in the root, and none is made below a file. -/
structure OpensAsNamed (s : Ramfs) (kids : ℕ → List ℕ) (path : Str) (flags : ℕ) : Prop where
  unnamed : components path = [] → path ≠ [slash] →
    flags &&& oCreat = 0 ∧ s.entry kids s.root [] = none
  named : ∀ init last, components path = init ++ [last] → flags &&& oCreat ≠ 0 →
    ∀ d, s.walk kids init = some d → s.isDir d = true

variable {s s' : Ramfs} {kids kids' : ℕ → List ℕ} {path last : Str} {init pre suf : List Str}
variable {a d k mode flags : ℕ} {f : Option File}

theorem isDir_of_prefix (hs : s.Wf kids) (hwalk : s.walk kids (pre ++ suf) = some d)
    (hd : s.isDir d = true) : ∃ m, s.walk kids pre = some m ∧ s.isDir m = true := by
  unfold walk at *
  rw [resolve_append] at hwalk
  obtain ⟨m, hm, hrest⟩ := Option.bind_eq_some_iff.mp hwalk
  refine ⟨m, hm, ?_⟩
  cases suf with
  | nil =>
    obtain rfl := Option.some.inj hrest
    exact hd
  | cons name suf =>
    obtain ⟨b, hb, -⟩ := Option.bind_eq_some_iff.mp hrest
    exact (entry_live hs hb).1

theorem noDirectory_iff (hs : s.Wf kids) (hcomp : components path = init ++ [last]) :
    NoDirectory s kids path ↔ ∀ d, s.walk kids init = some d → s.isDir d = false := by
  constructor
  · rintro ⟨pre, suf, heq, hsuf, hnone⟩ d hwalk
    obtain ⟨suf, x, rfl⟩ := suf.eq_nil_or_concat'.resolve_left hsuf
    rw [hcomp, ← List.append_assoc] at heq
    rw [(List.append_inj' heq rfl).1] at hwalk
    by_contra hd
    obtain ⟨m, hm, hmd⟩ := isDir_of_prefix hs hwalk (by simpa using hd)
    rw [hnone m hm] at hmd
    exact absurd hmd (by decide)
  · exact fun hnone => ⟨init, [last], hcomp, by simp, hnone⟩

theorem CreateOutcome.cases_of_supplied (h : CreateOutcome s kids d last flags mode k f s')
    (h0 : s.alloc k ≠ 0) (h1 : s.alloc (k + 1) ≠ 0) (h2 : s.alloc (k + 2) ≠ 0) :
    (flags &&& oCreat = 0 ∧ f = none ∧ s'.core = s.core) ∨
      (flags &&& oCreat ≠ 0 ∧ ∃ file kids', f = some file ∧
        Made s kids d file.privateData (sIfreg ||| mode) last s' kids') := by
  cases h with
  | nothing hnone hf hcore => exact .inl ⟨hnone.resolve_right h0, hf, hcore⟩
  | made kids' hflag _ hmade _ hok hfile =>
    obtain ⟨file, rfl⟩ := Option.isSome_iff_exists.mp (hok.mpr ⟨h1, h2⟩)
    exact .inr ⟨hflag, file, kids', rfl, hfile file rfl ▸ hmade⟩

theorem Ramfs.Made.core_ne {name : Str} (h : Made s kids d a mode name s' kids') :
    s'.core ≠ s.core :=
  fun hcore => h.inodes_ne (inodes_of_core hcore)

theorem openNamed_iff (hs : s.Wf kids) (hcomp : components path = init ++ [last])
    (hwalk : s.walk kids init = some d)
    (hcases : (∃ a, s.entry kids d last = some a ∧ f.map File.privateData = some a ∧
          s'.core = s.core) ∨
        (s.entry kids d last = none ∧ ((flags &&& oCreat = 0 ∧ f = none ∧ s'.core = s.core) ∨
          (flags &&& oCreat ≠ 0 ∧ ∃ file kids', f = some file ∧
            Made s kids d file.privateData (sIfreg ||| mode) last s' kids')))) :
    OpensNamed s kids path flags mode f s' ↔ (flags &&& oCreat ≠ 0 → s.isDir d = true) := by
  have hne : components path ≠ [] := by simp [hcomp]
  have hpath : s.walk kids (components path) = s.entry kids d last := by
    rw [hcomp, walk_snoc, hwalk, Option.bind_some]
  have hdir : NoDirectory s kids path ↔ s.isDir d = false := by
    rw [noDirectory_iff hs hcomp, hwalk]
    exact ⟨fun h => h d rfl, fun h m hm => Option.some.inj hm ▸ h⟩
  rcases hcases with ⟨a, hentry, hfile, hcore⟩ | ⟨hentry, ⟨hflag, hf, hcore⟩ | ⟨hflag, file, kids', hf, hmade⟩⟩
  · refine iff_of_true ?_ fun _ => (entry_live hs hentry).1
    rw [hentry] at hpath
    exact {
      unnamed := fun h => absurd h hne
      found := by
        intro _ b hb
        rw [hpath] at hb
        exact ⟨by rw [hfile, hb], hcore⟩
      refused := fun _ hnone => absurd (hpath.symm.trans hnone) (by simp)
      created := fun _ _ _ hnone => absurd (hpath.symm.trans hnone) (by simp) }
  · refine iff_of_true ?_ fun h => absurd hflag h
    rw [hentry] at hpath
    exact {
      unnamed := fun h => absurd h hne
      found := fun _ b hb => absurd (hpath.symm.trans hb) (by simp)
      refused := fun _ _ _ => ⟨hf, hcore⟩
      created := fun _ _ _ _ h => absurd hflag h }
  · rw [hentry] at hpath
    constructor
    · intro h _
      by_contra hd
      have hno := hdir.mpr (by simpa using hd)
      exact hmade.core_ne (h.refused hne hpath (.inr hno)).2
    · intro hd
      have hd := hd hflag
      exact {
        unnamed := fun h => absurd h hne
        found := fun _ b hb => absurd (hpath.symm.trans hb) (by simp)
        refused := by
          rintro _ _ (h | h)
          · exact absurd h hflag
          · rw [hdir, hd] at h
            exact absurd h (by decide)
        created := by
          refine (forall_concat_iff hcomp).mpr fun _ _ _ => ?_
          exact ⟨d, file, kids', hwalk, hd, hf, hmade⟩ }

theorem openUnnamed_iff (hs : s.Wf kids) (hm : FreshMem s) (hcomp : components path = [])
    (hslash : path ≠ [slash]) (hmem : s.Supplied 4) :
    ∃ f s', vfsOpen s path flags mode = some (f, s') ∧
      (OpensNamed s kids path flags mode f s' ↔
        flags &&& oCreat = 0 ∧ s.entry kids s.root [] = none) := by
  have halloc := supplied_iff.mp hmem
  have hroot : s.live (rootInode s).iPrivate = true := live_of_isDir hs.root_dir
  have hnamed : ∀ {f s'}, OpensNamed s kids path flags mode f s' ↔
      (∀ file, f = some file → file.privateData = s.root) ∧ s'.core = s.core := by
    intro f s'
    constructor
    · exact fun h => h.unnamed hcomp
    · exact fun h => ⟨fun _ => h, fun hne => absurd hcomp hne, fun hne => absurd hcomp hne,
        forall_concat_nil hcomp⟩
  obtain ⟨f, s', heq, hcases⟩ := openEntry_cases [] mode hs (fun _ => hm) hroot (halloc 0 (by decide))
  have hprivate : (rootInode s).iPrivate = s.root := rfl
  rw [hprivate] at hcases
  refine ⟨f, s', ?_, ?_⟩
  · rw [vfsOpen_eq hslash, openParent_root hcomp]
    exact heq
  rw [hnamed]
  rcases hcases with ⟨hentry, hout⟩ | ⟨a, hentry, ⟨h1, -⟩ | ⟨-, -, hok, hfile⟩⟩
  · rcases hout.cases_of_supplied (halloc 1 (by decide)) (halloc 2 (by decide)) (halloc 3 (by decide))
      with ⟨hflag, rfl, hcore⟩ | ⟨hflag, file, kids', rfl, hmade⟩
    · exact iff_of_true ⟨fun _ h => absurd h (by simp), hcore⟩ ⟨hflag, hentry⟩
    · exact iff_of_false (fun h => hmade.core_ne h.2) fun h => hflag h.1
  · exact absurd h1 (halloc 1 (by decide))
  · obtain ⟨file, rfl⟩ := Option.isSome_iff_exists.mp (hok.mpr (halloc 2 (by decide)))
    obtain ⟨inode, hinode, hopens⟩ := hfile file rfl
    refine iff_of_false (fun h => ?_) fun h => absurd (hentry.symm.trans h.2) (by simp)
    refine hs.kid_ne_root s.root a (entry_live hs hentry).2.1 ?_
    rw [← iPrivate_vfsInode hinode, ← hopens.privateData, h.1 file rfl]

theorem openLast_iff (hs : s.Wf kids) (hm : FreshMem s) (hcomp : components path = init ++ [last])
    (hmem : s.Supplied (2 * init.length + 4)) :
    ∃ f s', vfsOpen s path flags mode = some (f, s') ∧
      (OpensNamed s kids path flags mode f s' ↔
        (flags &&& oCreat ≠ 0 → ∀ d, s.walk kids init = some d → s.isDir d = true)) := by
  have hslash : path ≠ [slash] := by
    rintro rfl
    exact absurd ((by decide +kernel : components [slash] = []).symm.trans hcomp).symm (by simp)
  rw [vfsOpen_eq hslash, openParent_eq hcomp]
  obtain ⟨parent, s₁, hparent, hr, ⟨rfl, hnone⟩ | ⟨p, rfl, hwalk, -, hdrop⟩⟩ :=
    vfsLookupParent_cases hs hcomp
  · have hunresolved : ∀ d, s.walk kids init ≠ some d := fun d =>
      hnone d (hmem.mono (Nat.le_add_right _ _))
    have hpath : s.walk kids (components path) = none := by
      rw [hcomp, walk_snoc, Option.eq_none_iff_forall_ne_some.mpr hunresolved]
      rfl
    rw [hparent]
    refine ⟨none, s₁, rfl, iff_of_true ?_ fun _ d hd => absurd hd (hunresolved d)⟩
    exact {
      unnamed := fun hnil => absurd (hcomp.symm.trans hnil) (by simp)
      found := fun _ b hb => absurd (hpath.symm.trans hb) (by simp)
      refused := fun _ _ _ => ⟨rfl, hr.core⟩
      created := by
        refine (forall_concat_iff hcomp).mpr fun _ _ hdir => absurd ?_ hdir
        exact (noDirectory_iff hs hcomp).mpr fun d hd => absurd hd (hunresolved d) }
  have halloc := supplied_iff.mp (hmem.drop hdrop)
  have hlive : s₁.live p.iPrivate = true := by
    rw [live_of_core hr.core]
    exact walk_live hs hwalk
  obtain ⟨f, s', heq, hcases⟩ := openEntry_cases last mode (hs.of_core hr.core) (fun _ => hm.reads hr)
    hlive (halloc 0 (by decide))
  rw [hparent, hwalk]
  refine ⟨f, s', heq, ?_⟩
  refine (openNamed_iff hs hcomp hwalk ?_).trans
    ⟨fun h hflag d hd => Option.some.inj hd ▸ h hflag, fun h hflag => h hflag p.iPrivate rfl⟩
  rw [entry_of_core hr.core, vfsInode_of_core hr.core] at hcases
  rcases hcases with ⟨hentry, hout⟩ | ⟨a, hentry, ⟨h1, -⟩ | ⟨-, hcore, hok, hfile⟩⟩
  · refine .inr ⟨hentry, ?_⟩
    rcases hout.cases_of_supplied (halloc 1 (by decide)) (halloc 2 (by decide)) (halloc 3 (by decide))
      with ⟨hflag, hf, hcore⟩ | ⟨hflag, file, kids', hf, hmade⟩
    · exact .inl ⟨hflag, hf, hcore.trans hr.core⟩
    · exact .inr ⟨hflag, file, kids', hf, hmade.of_core hr.core.symm rfl⟩
  · exact absurd h1 (halloc 1 (by decide))
  · obtain ⟨file, rfl⟩ := Option.isSome_iff_exists.mp (hok.mpr (halloc 2 (by decide)))
    obtain ⟨inode, hinode, hopens⟩ := hfile file rfl
    refine .inl ⟨a, hentry, ?_, hcore.trans hr.core⟩
    rw [Option.map_some, hopens.privateData, iPrivate_vfsInode hinode]

theorem openRoot_named (hmem : s.Supplied 4) :
    ∃ f s', vfsOpen s [slash] flags mode = some (f, s') ∧
      OpensNamed s kids [slash] flags mode f s' := by
  have hcomp : components [slash] = [] := by decide +kernel
  obtain ⟨f, s', hopen, hcore, hok, hfile⟩ := openFile_cases s (rootInode s) flags mode
  obtain ⟨file, rfl⟩ := Option.isSome_iff_exists.mp (hok.mpr (supplied_iff.mp hmem 0 (by decide)))
  refine ⟨some file, s', ?_, ⟨fun _ => ⟨?_, hcore⟩, fun hne => absurd hcomp hne,
    fun hne => absurd hcomp hne, forall_concat_nil hcomp⟩⟩
  · unfold vfsOpen
    rw [if_pos rfl, hopen]
  · intro file' hfile'
    exact (hfile file' hfile').privateData

/-- With memory for the way to the parent and four objects there, `vfs_open` opens or makes the file
that the path names, unless a file takes the place of the parent or the path has no components. -/
theorem vfsOpen_named_iff (s : Ramfs) (kids : ℕ → List ℕ) (path : Str) (flags mode : ℕ)
    (hs : s.Wf kids) (hm : FreshMem s) (hmem : s.Supplied (2 * ((components path).length - 1) + 4)) :
    ∃ f s', vfsOpen s path flags mode = some (f, s') ∧
      (OpensNamed s kids path flags mode f s' ↔ OpensAsNamed s kids path flags) := by
  rcases (components path).eq_nil_or_concat' with hcomp | ⟨init, last, hcomp⟩
  · have hcond : OpensAsNamed s kids path flags ↔
        (path ≠ [slash] → flags &&& oCreat = 0 ∧ s.entry kids s.root [] = none) :=
      ⟨fun h => h.unnamed hcomp, fun h => ⟨fun _ => h, forall_concat_nil hcomp⟩⟩
    rw [hcomp] at hmem
    rw [hcond]
    by_cases hslash : path = [slash]
    · subst hslash
      obtain ⟨f, s', heq, hnamed⟩ := @openRoot_named s kids mode flags hmem
      exact ⟨f, s', heq, iff_of_true hnamed fun h => absurd rfl h⟩
    · obtain ⟨f, s', heq, hiff⟩ := openUnnamed_iff hs hm hcomp hslash hmem
      exact ⟨f, s', heq, hiff.trans ⟨fun h _ => h, fun h => h hslash⟩⟩
  · have hcond : OpensAsNamed s kids path flags ↔
        (flags &&& oCreat ≠ 0 → ∀ d, s.walk kids init = some d → s.isDir d = true) := by
      rw [← forall_concat_iff hcomp (P := fun init _ => flags &&& oCreat ≠ 0 →
        ∀ d, s.walk kids init = some d → s.isDir d = true)]
      exact ⟨OpensAsNamed.named, fun h => ⟨fun hnil => absurd (hcomp.symm.trans hnil) (by simp), h⟩⟩
    have hlen : (components path).length - 1 = init.length := by
      rw [hcomp, List.length_append]
      rfl
    rw [hlen] at hmem
    rw [hcond]
    exact openLast_iff hs hm hcomp hmem

theorem vfsOpen_named_new : ∃ s, Mounted s ∧ ∃ f s',
    vfsOpen s [slash, 0x61] oCreat 0o644 = some (f, s') ∧ f.isSome = true ∧
      OpensNamed s (fun _ => []) [slash, 0x61] oCreat 0o644 f s' := by
  have heval : ((ramfsMount ⟨fun _ => none, 0, 0, 0, [0x1000, 1, 0x2000, 2, 3]⟩).bind fun s =>
      (vfsOpen s [slash, 0x61] oCreat 0o644).map fun r => (s.kmalloc.all fun a => !s.live a) &&
        s.isDir s.root && s.kmalloc == [1, 0x2000, 2, 3] && r.1.isSome) = some true := by decide +kernel
  obtain ⟨s, hmount, heval⟩ := Option.bind_eq_some_iff.mp heval
  obtain ⟨⟨f, s'⟩, hopen, heval⟩ := Option.map_eq_some_iff.mp heval
  simp only [Bool.and_eq_true, beq_iff_eq] at heval
  obtain ⟨⟨⟨hfresh, hdir⟩, hmem⟩, hok⟩ := heval
  have hs : s.Wf fun _ => [] := (mounted_wf ⟨_, hmount⟩).1
  have hcomp : components [slash, 0x61] = [] ++ [[0x61]] := by decide +kernel
  have hsup : s.Supplied (2 * ((components [slash, 0x61]).length - 1) + 4) := by
    rw [hcomp, Supplied, hmem]
    decide +kernel
  obtain ⟨f', s'', hopen', hiff⟩ :=
    vfsOpen_named_iff s _ [slash, 0x61] oCreat 0o644 hs (freshMem_of_all hfresh) hsup
  obtain ⟨rfl, rfl⟩ := pair_inj (hopen.symm.trans hopen')
  refine ⟨s, ⟨_, hmount⟩, f, s', hopen, hok, hiff.mpr ⟨?_, ?_⟩⟩
  · exact fun hnil => absurd (hcomp.symm.trans hnil) (by simp)
  · refine (forall_concat_iff hcomp).mpr fun _ d hd => ?_
    obtain rfl := Option.some.inj hd
    exact hdir

theorem vfsOpen_makes_unnamed : ¬ ∀ (s : Ramfs) (kids : ℕ → List ℕ) (path : Str) (flags mode : ℕ),
    s.Wf kids → FreshMem s → s.Supplied (2 * ((components path).length - 1) + 4) →
      ∃ f s', vfsOpen s path flags mode = some (f, s') ∧ OpensNamed s kids path flags mode f s' := by
  intro h
  have heval : ((ramfsMount ⟨fun _ => none, 0, 0, 0, [0x1000, 1, 0x2000, 2, 3]⟩).bind fun s =>
      (vfsOpen s [] oCreat 0o644).map fun r => (s.kmalloc.all fun a => !s.live a) &&
        s.kmalloc == [1, 0x2000, 2, 3] && s.inodeCount == 1 && r.2.inodeCount == 2) = some true := by
    decide +kernel
  obtain ⟨s, hmount, heval⟩ := Option.bind_eq_some_iff.mp heval
  obtain ⟨⟨f, s'⟩, hopen, heval⟩ := Option.map_eq_some_iff.mp heval
  simp only [Bool.and_eq_true, beq_iff_eq] at heval
  obtain ⟨⟨⟨hfresh, hmem⟩, hcount⟩, hcount'⟩ := heval
  have hcomp : components [] = [] := by decide +kernel
  have hsup : s.Supplied (2 * ((components []).length - 1) + 4) := by
    rw [hcomp, Supplied, hmem]
    decide +kernel
  obtain ⟨f', s'', hopen', hnamed⟩ := h s _ [] oCreat 0o644 (mounted_wf ⟨_, hmount⟩).1
    (freshMem_of_all hfresh) hsup
  obtain ⟨rfl, rfl⟩ := pair_inj (hopen.symm.trans hopen')
  have heq := congrArg Ramfs.inodeCount (hnamed.unnamed hcomp).2
  have heq : s'.inodeCount = s.inodeCount := heq
  rw [hcount, hcount'] at heq
  exact absurd heq (by decide)

end GcAos.Fs
