import GcAos.Loader.ElfReads

/-! What the loader writes: the segments, the zeros behind them and the relocations. -/

namespace GcAos.Loader
open Lib

variable {c : Call} {mem : Bytes} {isPie : Bool} {l l' : LoadState}

namespace LoadState

/-- Where the segment with the header at `phdr` ends, as `elf_load_at` counts it. -/
def segmentEnd (l : LoadState) (phdr : ℕ) : ℕ :=
  (field elf64Phdr l.mem phdr .vaddr + field elf64Phdr l.mem phdr .memsz) % 2 ^ 64

/-- Some segment that is loaded ends at `x` or later. -/
def EndsFrom (c : Call) (isPie : Bool) (mem : Bytes) (x : ℕ) : Prop :=
  ∃ l, StateTransition.Reaches (step c isPie) (init mem) l ∧
    ∃ phdr, l.phase = .segEnd phdr ∧ x ≤ l.segmentEnd phdr

theorem step_totalSize (h : l.step c isPie = some l') {x : ℕ} :
    l'.totalSize < x ↔ (∀ phdr, l.phase = .segEnd phdr → l.segmentEnd phdr < x) ∧ l.totalSize < x := by
  rcases step_cases h with ⟨⟨hphase, -⟩, rfl⟩ | ⟨phdr, dest, hphase, rfl⟩ | ⟨phdr, hphase, rfl⟩
  · have hsame : (l.loadHeader c isPie).totalSize = l.totalSize := by
      have hturn := l.loadHeader_turn c isPie
      generalize l.loadHeader c isPie = l' at hturn ⊢
      cases hturn <;> rfl
    rw [hsame, hphase]
    simp
  · have hsame : (l.zeroBss phdr dest).totalSize = l.totalSize := by
      unfold zeroBss
      dsimp only
      split <;> rfl
    rw [hsame, hphase]
    simp
  · rw [hphase]
    simp only [Phase.segEnd.injEq, forall_eq']
    have htotal : (l.addSegment phdr).totalSize =
        if l.totalSize < l.segmentEnd phdr then l.segmentEnd phdr else l.totalSize := rfl
    rw [htotal]
    generalize l.segmentEnd phdr = segEnd
    split
    · omega
    · omega

theorem totalSize_lt : (loadHeaders c isPie mem).totalSize < 2 ^ 64 := by
  rw [loadHeaders_iff (Q := fun l => l.totalSize < 2 ^ 64) fun _ _ h => step_totalSize h]
  exact ⟨Nat.two_pow_pos 64, fun l _ _ phdr _ => Nat.mod_lt _ (by decide)⟩

theorem le_totalSize_iff {x : ℕ} (hx : 0 < x) :
    x ≤ (loadHeaders c isPie mem).totalSize ↔ EndsFrom c isPie mem x := by
  rw [← Nat.not_lt, loadHeaders_iff (Q := fun l => l.totalSize < x) fun _ _ h => step_totalSize h]
  have hinit : (init mem).totalSize < x := hx
  rw [and_iff_right hinit]
  unfold EndsFrom
  push Not
  refine exists_congr fun l => and_congr_right fun _ => ⟨?_, ?_⟩
  · rintro ⟨-, phdr, hphase, hle⟩
    exact ⟨phdr, hphase, hle⟩
  · rintro ⟨phdr, hphase, hle⟩
    refine ⟨?_, phdr, hphase, hle⟩
    unfold step
    rw [hphase]
    exact Option.some_ne_none _

end LoadState

/-- The `n` bytes from `addr` on lie between the base and the largest end of a segment, of which
`ends` tells the positions below it. -/
structure Call.Fits (c : Call) (ends : ℕ → Prop) (addr n : ℕ) : Prop where
  base : c.loadBase ≤ addr
  noWrap : addr + n ≤ 2 ^ 64
  below : ends (addr + n - c.loadBase)

theorem fits_iff {total addr n : ℕ} {ends : ℕ → Prop} (htotal : total < 2 ^ 64) (haddr : addr < 2 ^ 64)
    (hn : 0 < n) (hends : ∀ x, 0 < x → (x ≤ total ↔ ends x)) :
    (⟨addr, n⟩ : Access).Within c.loadBase (c.loadBase + total) ↔ c.Fits ends addr n := by
  rw [Access.within_iff hn haddr (by omega)]
  dsimp only
  constructor
  · rintro ⟨hbase, hend, hwrap⟩
    exact ⟨hbase, hwrap, (hends _ (by omega)).mp (by omega)⟩
  · rintro ⟨hbase, hwrap, hbelow⟩
    have := (hends _ (by omega)).mpr hbelow
    omega

namespace LoadState

structure SegmentFits (c : Call) (isPie : Bool) (ends : ℕ → Prop) (l : LoadState) : Prop where
  copy : l.AtHeader c → l.Loads c → 0 < l.get c .filesz →
    c.Fits ends (l.dest c isPie) (l.get c .filesz)
  zero : ∀ phdr dest, l.phase = .bss phdr dest →
    field elf64Phdr l.mem phdr .filesz < field elf64Phdr l.mem phdr .memsz →
    c.Fits ends ((dest + field elf64Phdr l.mem phdr .filesz) % 2 ^ 64)
      (field elf64Phdr l.mem phdr .memsz - field elf64Phdr l.mem phdr .filesz)

theorem dest_lt : l.dest c isPie < 2 ^ 64 := by
  unfold dest
  split
  · exact Nat.mod_lt _ (by decide)
  · exact field_lt elf64Phdr _ _ .vaddr

theorem step_writes {total : ℕ} {ends : ℕ → Prop} (htotal : total < 2 ^ 64)
    (hends : ∀ x, 0 < x → (x ≤ total ↔ ends x)) (h : l.step c isPie = some l') :
    (∀ a ∈ l'.writes, a.Within c.loadBase (c.loadBase + total)) ↔
      SegmentFits c isPie ends l ∧ ∀ a ∈ l.writes, a.Within c.loadBase (c.loadBase + total) := by
  rcases step_cases h with ⟨hhead, rfl⟩ | ⟨phdr, dest, hphase, rfl⟩ | ⟨phdr, hphase, rfl⟩
  · have hzero : ∀ phdr dest, l.phase ≠ .bss phdr dest := by
      intro phdr dest
      rw [hhead.1]
      exact Phase.noConfusion
    have hnone : (l.Loads c → l.get c .filesz = 0) → SegmentFits c isPie ends l := fun hno =>
      ⟨fun _ hloads hpos => absurd (hno hloads) hpos.ne', fun phdr dest hbss => absurd hbss (hzero _ _)⟩
    have hturn := l.loadHeader_turn c isPie
    generalize l.loadHeader c isPie = l' at hturn ⊢
    cases hturn with
    | outside hno => exact (and_iff_right (hnone fun hl => absurd hl.inTable hno)).symm
    | dynamic _ hdyn =>
      exact (and_iff_right (hnone fun hl => absurd (hl.type.symm.trans hdyn) (by decide))).symm
    | other _ _ hno => exact (and_iff_right (hnone fun hl => absurd hl.type hno)).symm
    | badOffset _ _ hno =>
      exact (and_iff_right (hnone fun hl => absurd hl.offset (Nat.not_le.mpr hno))).symm
    | badSize _ _ _ hno =>
      exact (and_iff_right (hnone fun hl => absurd hl.filesz (Nat.not_le.mpr hno))).symm
    | empty _ hempty => exact (and_iff_right (hnone fun _ => hempty)).symm
    | copied hloads hpos =>
      rw [List.forall_mem_cons, fits_iff htotal dest_lt hpos hends]
      refine and_congr_left fun _ => ⟨fun hfits => ?_, fun hfits => hfits.copy hhead hloads hpos⟩
      exact ⟨fun _ _ _ => hfits, fun phdr dest hbss => absurd hbss (hzero _ _)⟩
  · have hcopy : ¬ l.AtHeader c := fun hhead => absurd (hhead.1.symm.trans hphase) Phase.noConfusion
    unfold zeroBss
    dsimp only
    split
    · next hlt =>
      rw [List.forall_mem_cons, fits_iff htotal (Nat.mod_lt _ (by decide)) (Nat.sub_pos_of_lt hlt) hends]
      refine and_congr_left fun _ => ⟨fun hfits => ?_, fun hfits => hfits.zero phdr dest hphase hlt⟩
      refine ⟨fun hhead => absurd hhead hcopy, fun phdr' dest' hbss _ => ?_⟩
      obtain ⟨rfl, rfl⟩ := Phase.bss.inj (hphase.symm.trans hbss)
      exact hfits
    · next hlt =>
      refine (and_iff_right ⟨fun hhead => absurd hhead hcopy, fun phdr' dest' hbss hlt' => ?_⟩).symm
      obtain ⟨rfl, rfl⟩ := Phase.bss.inj (hphase.symm.trans hbss)
      exact absurd hlt' hlt
  · have hnone : SegmentFits c isPie ends l :=
      ⟨fun hhead => absurd (hhead.1.symm.trans hphase) Phase.noConfusion,
        fun phdr' dest' hbss => absurd (hphase.symm.trans hbss) Phase.noConfusion⟩
    exact (and_iff_right hnone).symm

theorem loadHeaders_writes :
    (∀ a ∈ (loadHeaders c isPie mem).writes,
        a.Within c.loadBase (c.loadBase + (loadHeaders c isPie mem).totalSize)) ↔
      ∀ l, StateTransition.Reaches (step c isPie) (init mem) l →
        SegmentFits c isPie (EndsFrom c isPie mem) l := by
  generalize htotal : (loadHeaders c isPie mem).totalSize = total
  have hlt : total < 2 ^ 64 := htotal ▸ totalSize_lt
  have hends : ∀ x, 0 < x → (x ≤ total ↔ EndsFrom c isPie mem x) := fun x hx =>
    htotal ▸ le_totalSize_iff hx
  rw [loadHeaders_iff (Q := fun l => ∀ a ∈ l.writes, a.Within c.loadBase (c.loadBase + total))
    fun _ _ h => step_writes hlt hends h]
  have hinit : ∀ a ∈ (init mem).writes, a.Within c.loadBase (c.loadBase + total) :=
    fun a ha => absurd ha List.not_mem_nil
  rw [and_iff_right hinit]
  refine forall₂_congr fun l _ => ⟨fun h => ?_, fun h _ => h⟩
  by_cases hstep : l.step c isPie = none
  · refine ⟨fun hhead => ?_, fun phdr dest hbss => ?_⟩
    · exact absurd ((step_atHeader hhead).symm.trans hstep) (Option.some_ne_none _)
    · unfold step at hstep
      rw [hbss] at hstep
      exact absurd hstep (Option.some_ne_none _)
  · exact h hstep

end LoadState

/-! The relocations. -/

/-- The scan of the dynamic section at `dynamic` begins. -/
def DynScan.init (dynamic : ℕ) : DynScan := ⟨dynamic, 0, 0, elf64Rela.size⟩

theorem dynStep_eq_none_iff {s : DynScan} :
    dynStep mem s = none ↔ field elf64Dyn mem s.dyn .tag = dtNull := by
  unfold dynStep
  dsimp only
  split
  · next h => simp [h]
  · next h =>
    refine ⟨fun hnone => ?_, fun htag => absurd htag h⟩
    split_ifs at hnone

theorem dynStep_dyn {s s' : DynScan} (h : dynStep mem s = some s') :
    s'.dyn = (s.dyn + elf64Dyn.size) % 2 ^ 64 := by
  unfold dynStep at h
  dsimp only at h
  split_ifs at h
  all_goals
    obtain rfl := Option.some.inj h
    rfl

theorem run_dynStep_dyn {s : DynScan} {n : ℕ} (hlt : s.dyn < 2 ^ 64)
    (h : ∀ k < n, dynStep mem (Loop.run (dynStep mem) k s) ≠ none) :
    (Loop.run (dynStep mem) n s).dyn = (s.dyn + elf64Dyn.size * n) % 2 ^ 64 := by
  induction n with
  | zero => exact (Nat.mod_eq_of_lt hlt).symm
  | succ n ih =>
    obtain ⟨s', hs'⟩ := Option.ne_none_iff_exists'.mp (h n (Nat.lt_succ_self n))
    rw [Loop.run_succ hs', dynStep_dyn hs', ih fun k hk => h k (Nat.lt_succ_of_lt hk), Nat.mod_add_mod,
      Nat.mul_succ, Nat.add_assoc]

theorem scanDynamic_iff {dynamic : ℕ} (hlt : dynamic < 2 ^ 64) {d : DynScan} :
    scanDynamic mem dynamic = some d ↔
      StateTransition.Reaches (dynStep mem) (.init dynamic) d ∧ dynStep mem d = none := by
  have hscan : scanDynamic mem dynamic = some d ↔ Loop.run (dynStep mem) (2 ^ 60) (.init dynamic) = d ∧
      dynStep mem (Loop.run (dynStep mem) (2 ^ 60) (.init dynamic)) = none := by
    unfold scanDynamic
    dsimp only
    rw [← DynScan.init]
    generalize Loop.run (dynStep mem) (2 ^ 60) (DynScan.init dynamic) = s
    split
    · next hnone => simp [hnone]
    · next hsome => simp [hsome]
  rw [hscan]
  constructor
  · rintro ⟨rfl, hnone⟩
    exact ⟨Loop.reaches_run _ _ _, hnone⟩
  · rintro ⟨hd, hnone⟩
    have hex : ∃ n, dynStep mem (Loop.run (dynStep mem) n (.init dynamic)) = none := by
      obtain ⟨n, hn⟩ := Loop.exists_run_eq hd
      exact ⟨n, hn ▸ hnone⟩
    classical
    obtain ⟨n, hn⟩ : ∃ n, n = Nat.find hex := ⟨_, rfl⟩
    have hstop : dynStep mem (Loop.run (dynStep mem) n (.init dynamic)) = none := hn ▸ Nat.find_spec hex
    have hbefore : ∀ k < n, dynStep mem (Loop.run (dynStep mem) k (.init dynamic)) ≠ none :=
      fun k hk => Nat.find_min hex (hn ▸ hk)
    have hn60 : n ≤ 2 ^ 60 := by
      by_contra hgt
      obtain ⟨k, rfl⟩ := Nat.exists_eq_add_of_lt (Nat.lt_of_not_le hgt)
      -- the entry was seen 2^60 turns earlier
      have hk := run_dynStep_dyn hlt fun j hj => hbefore j (Nat.lt_trans hj (by omega : k + 1 < _))
      have hsame := run_dynStep_dyn hlt hbefore
      rw [dynStep_eq_none_iff, hsame] at hstop
      refine hbefore (k + 1) (by omega) (dynStep_eq_none_iff.mpr ?_)
      rw [hk, ← hstop]
      congr 1
      show (dynamic + 16 * (k + 1)) % 2 ^ 64 = (dynamic + 16 * (2 ^ 60 + k + 1)) % 2 ^ 64
      omega
    have hrun := Loop.run_of_stop hstop hn60
    rw [hrun]
    exact ⟨Loop.stop_unique (Loop.reaches_run _ _ _) hd hstop hnone, hstop⟩

def Reloc.get (t : Reloc) (rela : ℕ) (f : RelaField) : ℕ :=
  field elf64Rela t.mem ((rela + elf64Rela.size * t.i) % 2 ^ 64) f

def RelocFits (c : Call) (ends : ℕ → Prop) (rela n : ℕ) (t : Reloc) : Prop :=
  t.i < n → t.get rela .info % 2 ^ 32 = rAarch64Relative →
    c.Fits ends ((c.loadBase + t.get rela .offset) % 2 ^ 64) 8

theorem relocStep_writes {total rela n : ℕ} {t t' : Reloc} {ends : ℕ → Prop} (htotal : total < 2 ^ 64)
    (hends : ∀ x, 0 < x → (x ≤ total ↔ ends x)) (h : relocStep c rela n t = some t') :
    (∀ a ∈ t'.writes, a.Within c.loadBase (c.loadBase + total)) ↔
      RelocFits c ends rela n t ∧ ∀ a ∈ t.writes, a.Within c.loadBase (c.loadBase + total) := by
  unfold relocStep at h
  dsimp only at h
  split at h
  swap
  · exact absurd h (by simp)
  next hi =>
  split at h
  · next htype =>
    obtain rfl := Option.some.inj h
    rw [List.forall_mem_cons, fits_iff htotal (Nat.mod_lt _ (by decide)) (by decide) hends]
    exact and_congr_left fun _ => ⟨fun hfits _ _ => hfits, fun hfits => hfits hi htype⟩
  · next htype =>
    obtain rfl := Option.some.inj h
    exact (and_iff_right fun _ htype' => absurd htype' htype).symm

theorem relocStep_stops (rela n : ℕ) (mem : Bytes) (writes : List Access) :
    relocStep c rela n (Loop.run (relocStep c rela n) n ⟨0, mem, writes⟩) = none := by
  refine Loop.run_stops (fun t => n - t.i) (fun t t' h => ?_) (Nat.sub_le _ _)
  unfold relocStep at h
  dsimp only at h
  split at h
  · next hi =>
    split at h
    · obtain rfl := Option.some.inj h
      dsimp only
      omega
    · obtain rfl := Option.some.inj h
      dsimp only
      omega
  · exact absurd h (by simp)

theorem relocs_writes {total rela n : ℕ} {writes : List Access} {ends : ℕ → Prop} (htotal : total < 2 ^ 64)
    (hends : ∀ x, 0 < x → (x ≤ total ↔ ends x)) :
    (∀ a ∈ (Loop.run (relocStep c rela n) n ⟨0, mem, writes⟩).writes,
        a.Within c.loadBase (c.loadBase + total)) ↔
      (∀ a ∈ writes, a.Within c.loadBase (c.loadBase + total)) ∧
        ∀ t, StateTransition.Reaches (relocStep c rela n) ⟨0, mem, writes⟩ t → RelocFits c ends rela n t := by
  rw [Loop.run_iff (f := relocStep c rela n)
    (Q := fun t => ∀ a ∈ t.writes, a.Within c.loadBase (c.loadBase + total))
    (fun _ _ h => relocStep_writes htotal hends h) (relocStep_stops rela n mem writes)]
  refine and_congr_right fun _ => forall₂_congr fun t _ => ⟨fun h hi htype => ?_, fun h _ => h⟩
  refine h ?_ hi htype
  unfold relocStep
  rw [if_pos hi]
  dsimp only
  split
  · exact Option.some_ne_none _
  · exact Option.some_ne_none _

/-! `elf_load_at`. -/

namespace LoadState

structure Completes (c : Call) (mem : Bytes) (l : LoadState) : Prop where
  reached : StateTransition.Reaches (step c (c.isPie mem)) (init mem) l
  stops : l.step c (c.isPie mem) = none
  passed : l.phase ≠ .failed

/-- The scan of the dynamic section ends with `d`. -/
structure Scans (l : LoadState) (d : DynScan) : Prop where
  reached : StateTransition.Reaches (dynStep l.mem) (.init l.dynamic) d
  stops : dynStep l.mem d = none

structure Relocates (c : Call) (mem : Bytes) (l : LoadState) (d : DynScan) : Prop where
  pie : c.isPie mem = true
  dynamic : l.dynamic ≠ 0
  scans : l.Scans d
  addr : d.relaAddr ≠ 0
  size : d.relaSize ≠ 0

/-- What the loader needs not to leave the memory that it accounts for, once all headers have passed
their checks. -/
structure Harmless (c : Call) (mem : Bytes) (l : LoadState) : Prop where
  relaEnt : ∀ d, l.Relocates c mem d → d.relaEnt ≠ 0
  segments : (c.isPie mem = true → l.dynamic ≠ 0 → ∃ d, l.Scans d) →
    ∀ l₁, StateTransition.Reaches (step c (c.isPie mem)) (init mem) l₁ →
      l₁.SegmentFits c (c.isPie mem) (EndsFrom c (c.isPie mem) mem)
  relocs : ∀ d, l.Relocates c mem d → ∀ t,
    StateTransition.Reaches (relocStep c ((c.loadBase + d.relaAddr) % 2 ^ 64) (numRelas d.relaSize d.relaEnt))
      ⟨0, l.mem, l.writes⟩ t →
    RelocFits c (EndsFrom c (c.isPie mem) mem) ((c.loadBase + d.relaAddr) % 2 ^ 64)
      (numRelas d.relaSize d.relaEnt) t

theorem loadHeaders_reached (c : Call) (isPie : Bool) (mem : Bytes) :
    StateTransition.Reaches (step c isPie) (init mem) (loadHeaders c isPie mem) := Loop.reaches_run _ _ _

theorem dynamic_lt (h : StateTransition.Reaches (step c isPie) (init mem) l) : l.dynamic < 2 ^ 64 := by
  induction h with
  | refl => exact Nat.two_pow_pos 64
  | @tail l₁ l₂ _ hstep ih =>
    rcases step_cases hstep with ⟨_, rfl⟩ | ⟨phdr, dest, _, rfl⟩ | ⟨phdr, _, rfl⟩
    · have hturn := l₁.loadHeader_turn c isPie
      generalize l₁.loadHeader c isPie = l₂ at hturn ⊢
      cases hturn with
      | dynamic => exact Nat.mod_lt _ (by decide)
      | _ => exact ih
    · unfold zeroBss
      dsimp only
      split
      · exact ih
      · exact ih
    · exact ih

variable (c mem) in
/-- The end of `elf_load_at`: the status and the writes. -/
def finish (l : LoadState) : Status × Bytes × List Access :=
  if c.isPie mem ∧ l.dynamic ≠ 0 then elfProcessRelocations c l.mem l.dynamic l.writes
  else (.loaded, l.mem, l.writes)

def Ends (c : Call) (total : ℕ) (r : Status × Bytes × List Access) : Prop :=
  r.1 ≠ .dividesByZero ∧ (r.1 = .loaded → ∀ a ∈ r.2.2, a.Within c.loadBase (c.loadBase + total))

theorem harmless_of_no_relocs (hno : ∀ d, ¬ l.Relocates c mem d)
    (hscan : c.isPie mem = true → l.dynamic ≠ 0 → ∃ d, l.Scans d) :
    l.Harmless c mem ↔ ∀ l₁, StateTransition.Reaches (step c (c.isPie mem)) (init mem) l₁ →
      l₁.SegmentFits c (c.isPie mem) (EndsFrom c (c.isPie mem) mem) :=
  ⟨fun h => h.segments hscan,
    fun h => ⟨fun d hd => absurd hd (hno d), fun _ => h, fun d hd => absurd hd (hno d)⟩⟩

theorem ends_loaded {total : ℕ} {m : Bytes} {writes : List Access} :
    Ends c total (.loaded, m, writes) ↔ ∀ a ∈ writes, a.Within c.loadBase (c.loadBase + total) :=
  ⟨fun h => h.2 rfl, fun h => ⟨by simp, fun _ => h⟩⟩

theorem finish_ends_iff (hl : l = loadHeaders c (c.isPie mem) mem) :
    Ends c l.totalSize (l.finish c mem) ↔ l.Harmless c mem := by
  have hreach : StateTransition.Reaches (step c (c.isPie mem)) (init mem) l :=
    hl ▸ loadHeaders_reached c _ mem
  have hwrites : (∀ a ∈ l.writes, a.Within c.loadBase (c.loadBase + l.totalSize)) ↔
      ∀ l₁, StateTransition.Reaches (step c (c.isPie mem)) (init mem) l₁ →
        l₁.SegmentFits c (c.isPie mem) (EndsFrom c (c.isPie mem) mem) := hl ▸ loadHeaders_writes
  have htotal : l.totalSize < 2 ^ 64 := hl ▸ totalSize_lt
  have hends : ∀ x, 0 < x → (x ≤ l.totalSize ↔ EndsFrom c (c.isPie mem) mem x) := fun x hx =>
    hl ▸ le_totalSize_iff hx
  have hscan := fun d => @scanDynamic_iff l.mem l.dynamic (dynamic_lt hreach) d
  unfold finish
  by_cases hpie : c.isPie mem ∧ l.dynamic ≠ 0
  swap
  · rw [if_neg hpie, ends_loaded, hwrites, harmless_of_no_relocs]
    · exact fun d hd => hpie ⟨hd.pie, hd.dynamic⟩
    · exact fun h h' => absurd ⟨h, h'⟩ hpie
  rw [if_pos hpie]
  unfold elfProcessRelocations
  cases hd : scanDynamic l.mem l.dynamic with
  | none =>
    -- the scan never ends
    have hno : ∀ d, ¬ l.Scans d := by
      intro d h
      have := (hscan d).mpr ⟨h.reached, h.stops⟩
      rw [hd] at this
      exact absurd this (by simp)
    refine iff_of_true ⟨by simp, fun h => absurd h (by simp)⟩ ⟨?_, ?_, ?_⟩
    · exact fun d h => absurd h.scans (hno d)
    · exact fun h => absurd (h hpie.1 hpie.2).choose_spec (hno _)
    · exact fun d h => absurd h.scans (hno d)
  | some d =>
    obtain ⟨hreached, hstops⟩ := (hscan d).mp hd
    have honly : ∀ d', l.Scans d' → d' = d := fun d' h =>
      Loop.stop_unique h.reached hreached h.stops hstops
    dsimp only
    split
    · next hzero =>
      rw [ends_loaded, hwrites, harmless_of_no_relocs]
      · intro d' h
        obtain rfl := honly d' h.scans
        exact hzero.elim h.addr h.size
      · exact fun _ _ => ⟨d, hreached, hstops⟩
    next hzero =>
    have hrel : l.Relocates c mem d :=
      ⟨hpie.1, hpie.2, ⟨hreached, hstops⟩, fun h => hzero (.inl h), fun h => hzero (.inr h)⟩
    split
    · next hent => exact iff_of_false (fun h => h.1 rfl) fun h => h.relaEnt d hrel hent
    next hent =>
    rw [ends_loaded, relocs_writes htotal hends, hwrites]
    constructor
    · rintro ⟨hseg, hreloc⟩
      refine ⟨fun d' h => ?_, fun _ => hseg, fun d' h => ?_⟩
      · exact honly d' h.scans ▸ hent
      · obtain rfl := honly d' h.scans
        exact hreloc
    · intro h
      exact ⟨h.segments fun _ _ => ⟨d, hreached, hstops⟩, h.relocs d hrel⟩

end LoadState

/-- A file that is accepted is loaded without a division by zero and, if the call returns 0, without a
write outside of the memory that it accounts for, just when the segments, the dynamic section and the
relocations are harmless. -/
theorem writes_in_image_iff (c : Call) (mem : Bytes) (hvalid : elfValidate mem c.data c.size = 0) :
    ((elfLoadAt c mem).status ≠ .dividesByZero ∧
        ((elfLoadAt c mem).status = .loaded → ∀ a ∈ (elfLoadAt c mem).writes,
          a.Within c.loadBase (c.loadBase + (elfLoadAt c mem).loadSize))) ↔
      ∀ l, LoadState.Completes c mem l → l.Harmless c mem := by
  have hreach := LoadState.loadHeaders_reached c (c.isPie mem) mem
  have hstop := LoadState.loadHeaders_stops c (c.isPie mem) mem
  have hends := LoadState.finish_ends_iff (l := loadHeaders c (c.isPie mem) mem) rfl
  unfold LoadState.Ends LoadState.finish at hends
  unfold elfLoadAt
  rw [if_neg (not_not.mpr hvalid)]
  dsimp only
  split
  · next hfailed =>
    refine iff_of_true ⟨by simp, fun h => absurd h (by simp)⟩ ?_
    intro l hl
    rw [Loop.stop_unique hl.reached hreach hl.stops hstop] at hl
    exact absurd hfailed hl.passed
  · next hpassed =>
    refine hends.trans ⟨?_, fun h => h _ ⟨hreach, hstop, hpassed⟩⟩
    intro h l hl
    rw [Loop.stop_unique hl.reached hreach hl.stops hstop]
    exact h

/-- A file that is one segment, with a dynamic section of the entries `dyn` behind its headers. -/
def sampleDynamic (size : UInt8) (dyn : List UInt8) : List UInt8 :=
  sampleEhdr 56 2 ++ samplePhdr 1 0 0 size size ++ samplePhdr 2 176 176 size size ++ dyn

def sampleReloc : Bytes := sampleMem (sampleDynamic 248
  (word 7 ++ word 224 ++ word 8 ++ word 24 ++ word 0 ++ word 0 ++
    word 16 ++ [0x03, 0x04, 0, 0, 0, 0, 0, 0] ++ word 64))

theorem writes_in_image_reloc :
    elfValidate sampleReloc 4096 248 = 0 ∧
      (elfLoadAt (sampleCall 248 (by decide)) sampleReloc).status = .loaded ∧
      ∀ l, LoadState.Completes (sampleCall 248 (by decide)) sampleReloc l →
        l.Harmless (sampleCall 248 (by decide)) sampleReloc := by
  have hvalid : elfValidate sampleReloc 4096 248 = 0 := by decide +kernel
  exact ⟨hvalid, by decide +kernel,
    (writes_in_image_iff (sampleCall 248 (by decide)) _ hvalid).mp (by decide +kernel)⟩

/-- A dynamic section with entries of size 0. -/
theorem relaent_zero :
    ¬ ∀ (c : Call) (mem : Bytes), elfValidate mem c.data c.size = 0 →
      (elfLoadAt c mem).status ≠ .dividesByZero ∧
        ((elfLoadAt c mem).status = .loaded → ∀ a ∈ (elfLoadAt c mem).writes,
          a.Within c.loadBase (c.loadBase + (elfLoadAt c mem).loadSize)) := by
  intro h
  have hvalid : elfValidate (sampleMem (sampleDynamic 240 (word 7 ++ word 64 ++ word 8 ++ word 24 ++
      word 9 ++ word 0 ++ word 0 ++ word 0))) 4096 240 = 0 := by decide +kernel
  have hbad := (h (sampleCall 240 (by decide)) _ hvalid).1
  exact absurd hbad (by decide +kernel)

end GcAos.Loader
