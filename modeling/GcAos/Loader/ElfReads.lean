import GcAos.Loader.Elf

/-! What the loader reads of the file. -/

namespace GcAos.Loader
open Lib

theorem Access.within_iff {a : Access} {lo hi : ℕ} (hlen : 0 < a.len) (haddr : a.addr < 2 ^ 64)
    (hhi : hi < lo + 2 ^ 64) :
    a.Within lo hi ↔ lo ≤ a.addr ∧ a.addr + a.len ≤ hi ∧ a.addr + a.len ≤ 2 ^ 64 := by
  constructor
  · intro h
    have hfirst := h 0 hlen
    have hlast := h (a.len - 1) (by omega)
    have hround : a.addr + a.len ≤ 2 ^ 64 := by
      by_contra hgt
      -- the last byte of the address space and the first one are both written
      have htop := h (2 ^ 64 - 1 - a.addr) (by omega)
      have hzero := h (2 ^ 64 - a.addr) (by omega)
      omega
    omega
  · rintro ⟨hlo, hhi', hround⟩ k hk
    omega

theorem field_lt {F : Type*} (L : Layout F) (mem : Bytes) (a : ℕ) (f : F) :
    field L mem a f < 256 ^ L.len f := by
  unfold field
  exact Layout.get_lt

section Fields

variable {c : Call} {off : ℕ}

theorem type_within_iff (hoff : off < 2 ^ 64) :
    (fieldAccess elf64Phdr ((c.data + off) % 2 ^ 64) .type).Within c.data (c.data + c.size) ↔
      off + 4 ≤ c.size := by
  have hin := c.inside
  have hsize := c.size_lt
  have hlen : 0 < elf64Phdr.len .type := by decide
  rw [Access.within_iff hlen (Nat.mod_lt _ (by decide)) (by omega)]
  have hoff₀ : elf64Phdr.off .type = 0 := rfl
  have hlen₀ : elf64Phdr.len .type = 4 := rfl
  unfold fieldAccess
  dsimp only
  rw [hoff₀, hlen₀]
  omega

theorem field_within_iff (hoff : off + 4 ≤ c.size) (f : PhdrField) :
    (fieldAccess elf64Phdr ((c.data + off) % 2 ^ 64) f).Within c.data (c.data + c.size) ↔
      off + (elf64Phdr.off f + elf64Phdr.len f) ≤ c.size := by
  have hin := c.inside
  have hsize := c.size_lt
  have hfit : elf64Phdr.off f + elf64Phdr.len f ≤ 56 := elf64Phdr.fits f
  have hlen : 0 < elf64Phdr.len f := by cases f <;> decide
  rw [Access.within_iff hlen (Nat.mod_lt _ (by decide)) (by omega)]
  unfold fieldAccess
  dsimp only
  omega

/-- The type of a header is read first, and then `fs`. -/
def fieldReads (phdr : ℕ) (fs : List PhdrField) : List Access :=
  (fs ++ [PhdrField.type]).map (fieldAccess elf64Phdr phdr)

theorem fieldReads_within_iff (hoff : off < 2 ^ 64) (fs : List PhdrField) :
    (∀ a ∈ fieldReads ((c.data + off) % 2 ^ 64) fs, a.Within c.data (c.data + c.size)) ↔
      off + 4 ≤ c.size ∧ ∀ f ∈ fs, off + (elf64Phdr.off f + elf64Phdr.len f) ≤ c.size := by
  simp only [fieldReads, List.map_append, List.map_cons, List.map_nil, List.forall_mem_append,
    List.forall_mem_map, List.forall_mem_singleton, type_within_iff hoff]
  rw [and_comm]
  refine and_congr_right fun htype => ?_
  simp only [field_within_iff htype]

theorem segment_within {n : ℕ} (hpos : 0 < n) (hoff : off ≤ c.size) (hn : n ≤ c.size - off) :
    (⟨(c.data + off) % 2 ^ 64, n⟩ : Access).Within c.data (c.data + c.size) := by
  have hin := c.inside
  have hsize := c.size_lt
  rw [Access.within_iff hpos (Nat.mod_lt _ (by decide)) (by omega)]
  dsimp only
  omega

end Fields

/-! `elf_calc_size`. -/

variable {c : Call} {mem : Bytes}

theorem phdrOffset_lt (i : ℕ) : c.phdrOffset mem i < 2 ^ 64 := Nat.mod_lt _ (by decide)

/-- How much of header `i` is read by `elf_calc_size`. -/
def calcExtent (c : Call) (mem : Bytes) (i : ℕ) : ℕ :=
  if field elf64Phdr mem (c.phdr mem i) .type = ptLoad then 48 else 4

def calcReads (c : Call) (mem : Bytes) (i : ℕ) : List Access :=
  fieldReads (c.phdr mem i)
    (if field elf64Phdr mem (c.phdr mem i) .type = ptLoad then [.memsz, .vaddr] else [])

theorem calcHeader_reads (s : CalcState) (i : ℕ) :
    (calcHeader c mem s i).reads = calcReads c mem i ++ s.reads := by
  unfold calcHeader calcReads
  dsimp only
  by_cases h : field elf64Phdr mem (c.phdr mem i) .type = ptLoad
  · rw [if_neg (not_not.mpr h), if_pos h]
    rfl
  · rw [if_pos h, if_neg h]
    rfl

theorem calcReads_within_iff (i : ℕ) :
    (∀ a ∈ calcReads c mem i, a.Within c.data (c.data + c.size)) ↔
      c.phdrOffset mem i + calcExtent c mem i ≤ c.size := by
  unfold calcReads calcExtent
  rw [Call.phdr, fieldReads_within_iff (phdrOffset_lt i)]
  split
  · simp only [List.forall_mem_cons, List.not_mem_nil, false_implies, implies_true, and_true, elf64Phdr]
    omega
  · simp

theorem foldl_calcHeader_reads (P : Access → Prop) (n : ℕ) (s : CalcState) :
    (∀ a ∈ ((List.range n).foldl (calcHeader c mem) s).reads, P a) ↔
      (∀ a ∈ s.reads, P a) ∧ ∀ i < n, ∀ a ∈ calcReads c mem i, P a := by
  induction n with
  | zero => simp
  | succ n ih =>
    rw [List.range_succ, List.foldl_append, List.foldl_cons, List.foldl_nil, calcHeader_reads,
      List.forall_mem_append, ih, Nat.forall_lt_succ_right]
    rw [and_comm, and_assoc]

theorem elfCalcSize_within_iff (hvalid : elfValidate mem c.data c.size = 0) :
    (∀ a ∈ (elfCalcSize c mem).2, a.Within c.data (c.data + c.size)) ↔
      ∀ i < c.phnum mem, c.phdrOffset mem i + calcExtent c mem i ≤ c.size := by
  unfold elfCalcSize
  rw [if_neg (not_not.mpr hvalid), foldl_calcHeader_reads, and_iff_right (by simp)]
  exact forall₂_congr fun i _ => calcReads_within_iff i

/-! `elf_load_at`. -/

/-- The check of the end of header `i`: `e_phoff + (i + 1) * e_phentsize <= size`. -/
def Call.InTable (c : Call) (mem : Bytes) (i : ℕ) : Prop :=
  (field elf64Ehdr mem c.data .phoff +
    signExtend ((i + 1) * field elf64Ehdr mem c.data .phentsize)) % 2 ^ 64 ≤ c.size

instance (c : Call) (mem : Bytes) (i : ℕ) : Decidable (c.InTable mem i) :=
  inferInstanceAs (Decidable (_ ≤ _))

namespace LoadState

variable (c : Call) (l : LoadState)

def get (f : PhdrField) : ℕ := field elf64Phdr l.mem (c.phdr l.mem l.i) f

def AtHeader : Prop := l.phase = .header ∧ l.i < c.phnum l.mem

structure Loads : Prop where
  inTable : c.InTable l.mem l.i
  type : l.get c .type = ptLoad
  offset : l.get c .offset ≤ c.size
  filesz : l.get c .filesz ≤ c.size - l.get c .offset

def dest (isPie : Bool) : ℕ :=
  if isPie then (c.loadBase + l.get c .vaddr) % 2 ^ 64 else l.get c .vaddr

def src : ℕ := (c.data + l.get c .offset) % 2 ^ 64

inductive Turn (isPie : Bool) : LoadState → Prop
  | outside : ¬ c.InTable l.mem l.i → Turn isPie { l with phase := .failed }
  | dynamic : c.InTable l.mem l.i → l.get c .type = ptDynamic →
      Turn isPie { l.read (c.phdr l.mem l.i) [.vaddr, .type] with
        dynamic := (c.loadBase + l.get c .vaddr) % 2 ^ 64
        i := l.i + 1 }
  | other : c.InTable l.mem l.i → l.get c .type ≠ ptDynamic → l.get c .type ≠ ptLoad →
      Turn isPie { l.read (c.phdr l.mem l.i) [.type] with i := l.i + 1 }
  | badOffset : c.InTable l.mem l.i → l.get c .type = ptLoad → c.size < l.get c .offset →
      Turn isPie { l.read (c.phdr l.mem l.i) [.offset, .type] with phase := .failed }
  | badSize : c.InTable l.mem l.i → l.get c .type = ptLoad → l.get c .offset ≤ c.size →
      c.size - l.get c .offset < l.get c .filesz →
      Turn isPie { l.read (c.phdr l.mem l.i) [.filesz, .offset, .type] with phase := .failed }
  | copied : l.Loads c → 0 < l.get c .filesz →
      Turn isPie { l.read (c.phdr l.mem l.i) [.vaddr, .filesz, .offset, .type] with
        phase := .bss (c.phdr l.mem l.i) (l.dest c isPie)
        mem := elfMemcpy l.mem (l.dest c isPie) (l.src c) (l.get c .filesz)
        reads := ⟨l.src c, l.get c .filesz⟩ ::
          (l.read (c.phdr l.mem l.i) [.vaddr, .filesz, .offset, .type]).reads
        writes := ⟨l.dest c isPie, l.get c .filesz⟩ :: l.writes }
  | empty : l.Loads c → l.get c .filesz = 0 →
      Turn isPie { l.read (c.phdr l.mem l.i) [.vaddr, .filesz, .offset, .type] with
        phase := .bss (c.phdr l.mem l.i) (l.dest c isPie) }

theorem loadHeader_turn (isPie : Bool) : l.Turn c isPie (l.loadHeader c isPie) := by
  unfold loadHeader
  dsimp only
  split
  · next htable => exact .outside (Nat.not_le.mpr htable)
  next htable =>
  have htable' : c.InTable l.mem l.i := Nat.le_of_not_lt htable
  split
  · next hdyn => exact .dynamic htable' hdyn
  next hdyn =>
  split
  · next hload => exact .other htable' hdyn hload
  next hload =>
  have hload' := not_not.mp hload
  split
  · next hoff => exact .badOffset htable' hload' hoff
  next hoff =>
  have hoff' := Nat.le_of_not_lt hoff
  split
  · next hsize => exact .badSize htable' hload' hoff' hsize
  next hsize =>
  have hloads : l.Loads c := ⟨htable', hload', hoff', Nat.le_of_not_lt hsize⟩
  split
  · next hpos => exact .copied hloads hpos
  · next hzero => exact .empty hloads (Nat.eq_zero_of_not_pos hzero)

def extent : ℕ :=
  if l.get c .type = ptDynamic then 24
  else if l.get c .type ≠ ptLoad then 4
  else if c.size < l.get c .offset then 16
  else if c.size - l.get c .offset < l.get c .filesz then 40
  else 48

/-- What a turn at a header reads, before it goes on to the end of the segment. -/
def headerReads : List Access :=
  if ¬ c.InTable l.mem l.i then []
  else if l.get c .type = ptDynamic then fieldReads (c.phdr l.mem l.i) [.vaddr]
  else if l.get c .type ≠ ptLoad then fieldReads (c.phdr l.mem l.i) []
  else if c.size < l.get c .offset then fieldReads (c.phdr l.mem l.i) [.offset]
  else if c.size - l.get c .offset < l.get c .filesz then fieldReads (c.phdr l.mem l.i) [.filesz, .offset]
  else if 0 < l.get c .filesz then
    ⟨l.src c, l.get c .filesz⟩ :: fieldReads (c.phdr l.mem l.i) [.vaddr, .filesz, .offset]
  else fieldReads (c.phdr l.mem l.i) [.vaddr, .filesz, .offset]

def newReads : List Access :=
  match l.phase with
  | .header => l.headerReads c
  | .bss phdr _ => [PhdrField.filesz, .memsz].map (fieldAccess elf64Phdr phdr)
  | .segEnd phdr => [PhdrField.memsz, .vaddr].map (fieldAccess elf64Phdr phdr)
  | .failed => []

variable {c l} {l' : LoadState} {isPie : Bool}

theorem loadHeader_reads : (l.loadHeader c isPie).reads = l.headerReads c ++ l.reads := by
  unfold headerReads
  have hne : ptLoad ≠ ptDynamic := by decide
  have hturn := l.loadHeader_turn c isPie
  generalize l.loadHeader c isPie = l' at hturn ⊢
  cases hturn with
  | outside h => rw [if_pos h]; rfl
  | dynamic h hdyn => rw [if_neg (not_not.mpr h), if_pos hdyn]; rfl
  | other h hdyn hload => rw [if_neg (not_not.mpr h), if_neg hdyn, if_pos hload]; rfl
  | badOffset h hload hoff =>
    rw [if_neg (not_not.mpr h), hload, if_neg hne, if_neg (not_not.mpr rfl), if_pos hoff]
    rfl
  | badSize h hload hoff hsize =>
    rw [if_neg (not_not.mpr h), hload, if_neg hne, if_neg (not_not.mpr rfl), if_neg (Nat.not_lt.mpr hoff),
      if_pos hsize]
    rfl
  | copied h hpos =>
    rw [if_neg (not_not.mpr h.inTable), h.type, if_neg hne, if_neg (not_not.mpr rfl),
      if_neg (Nat.not_lt.mpr h.offset), if_neg (Nat.not_lt.mpr h.filesz), if_pos hpos]
    rfl
  | empty h hzero =>
    rw [if_neg (not_not.mpr h.inTable), h.type, if_neg hne, if_neg (not_not.mpr rfl),
      if_neg (Nat.not_lt.mpr h.offset), if_neg (Nat.not_lt.mpr h.filesz), if_neg (by rw [hzero]; decide)]
    rfl

theorem step_cases (h : l.step c isPie = some l') :
    (l.AtHeader c ∧ l' = l.loadHeader c isPie) ∨
      (∃ phdr dest, l.phase = .bss phdr dest ∧ l' = l.zeroBss phdr dest) ∨
      ∃ phdr, l.phase = .segEnd phdr ∧ l' = l.addSegment phdr := by
  unfold step at h
  cases hphase : l.phase with
  | header =>
    rw [hphase] at h
    dsimp only at h
    split at h
    · next hi => exact .inl ⟨⟨hphase, hi⟩, (Option.some.inj h).symm⟩
    · exact absurd h (by simp)
  | bss phdr dest =>
    rw [hphase] at h
    exact .inr (.inl ⟨phdr, dest, rfl, (Option.some.inj h).symm⟩)
  | segEnd phdr =>
    rw [hphase] at h
    exact .inr (.inr ⟨phdr, rfl, (Option.some.inj h).symm⟩)
  | failed =>
    rw [hphase] at h
    exact absurd h (by simp)

theorem zeroBss_phase (l : LoadState) (phdr dest : ℕ) :
    (l.zeroBss phdr dest).phase = .segEnd phdr ∧ (l.zeroBss phdr dest).i = l.i := by
  unfold zeroBss
  dsimp only
  split
  · exact ⟨rfl, rfl⟩
  · exact ⟨rfl, rfl⟩

theorem zeroBss_reads (l : LoadState) (phdr dest : ℕ) : (l.zeroBss phdr dest).reads =
    [PhdrField.filesz, .memsz].map (fieldAccess elf64Phdr phdr) ++ l.reads := by
  unfold zeroBss
  dsimp only
  split
  · rfl
  · rfl

theorem step_reads (h : l.step c isPie = some l') : l'.reads = l.newReads c ++ l.reads := by
  unfold newReads
  rcases step_cases h with ⟨hhead, rfl⟩ | ⟨phdr, dest, hphase, rfl⟩ | ⟨phdr, hphase, rfl⟩
  · rw [hhead.1]
    exact loadHeader_reads
  · rw [hphase]
    exact zeroBss_reads l phdr dest
  · rw [hphase]
    rfl

theorem step_atHeader (h : l.AtHeader c) : l.step c isPie = some (l.loadHeader c isPie) := by
  unfold step
  rw [h.1]
  exact if_pos h.2

theorem headerReads_within_iff (h : c.InTable l.mem l.i) (hnot : ¬ l.Loads c) :
    (∀ a ∈ l.headerReads c, a.Within c.data (c.data + c.size)) ↔
      c.phdrOffset l.mem l.i + l.extent c ≤ c.size := by
  unfold headerReads extent
  rw [if_neg (not_not.mpr h), Call.phdr]
  split
  · simp only [fieldReads_within_iff (phdrOffset_lt _), List.forall_mem_cons, List.not_mem_nil, false_implies,
      implies_true, and_true, elf64Phdr]
    omega
  split
  · simp only [fieldReads_within_iff (phdrOffset_lt _), List.not_mem_nil, false_implies, implies_true,
      and_true]
  split
  · simp only [fieldReads_within_iff (phdrOffset_lt _), List.forall_mem_cons, List.not_mem_nil, false_implies,
      implies_true, and_true, elf64Phdr]
    omega
  split
  · simp only [fieldReads_within_iff (phdrOffset_lt _), List.forall_mem_cons, List.not_mem_nil, false_implies,
      implies_true, and_true, elf64Phdr]
    omega
  · next hload hoff hsize =>
    exact absurd ⟨h, not_not.mp hload, Nat.le_of_not_lt hoff, Nat.le_of_not_lt hsize⟩ hnot

theorem Loads.headerReads_within_iff (h : l.Loads c) :
    (∀ a ∈ l.headerReads c, a.Within c.data (c.data + c.size)) ↔
      c.phdrOffset l.mem l.i + 40 ≤ c.size := by
  have hne : ptLoad ≠ ptDynamic := by decide
  have hfields : (∀ a ∈ fieldReads (c.phdr l.mem l.i) [.vaddr, .filesz, .offset],
      a.Within c.data (c.data + c.size)) ↔ c.phdrOffset l.mem l.i + 40 ≤ c.size := by
    rw [Call.phdr, fieldReads_within_iff (phdrOffset_lt _)]
    simp only [List.forall_mem_cons, List.not_mem_nil, false_implies, implies_true, and_true, elf64Phdr]
    omega
  unfold headerReads
  rw [if_neg (not_not.mpr h.inTable), h.type, if_neg hne, if_neg (not_not.mpr rfl),
    if_neg (Nat.not_lt.mpr h.offset), if_neg (Nat.not_lt.mpr h.filesz)]
  split
  · next hpos =>
    rw [List.forall_mem_cons, hfields]
    exact and_iff_right (segment_within hpos h.offset h.filesz)
  · exact hfields

theorem Loads.extent_eq (h : l.Loads c) : l.extent c = 48 := by
  have hne : ptLoad ≠ ptDynamic := by decide
  unfold extent
  rw [h.type, if_neg hne, if_neg (not_not.mpr rfl), if_neg (Nat.not_lt.mpr h.offset),
    if_neg (Nat.not_lt.mpr h.filesz)]

theorem Loads.phase_eq (h : l.Loads c) :
    (l.loadHeader c isPie).phase = .bss (c.phdr l.mem l.i) (l.dest c isPie) := by
  have hturn := l.loadHeader_turn c isPie
  generalize l.loadHeader c isPie = l' at hturn ⊢
  cases hturn with
  | outside hno => exact absurd h.inTable hno
  | dynamic _ hdyn => exact absurd (h.type.symm.trans hdyn) (by decide)
  | other _ _ hno => exact absurd h.type hno
  | badOffset _ _ hno => exact absurd h.offset (Nat.not_le.mpr hno)
  | badSize _ _ _ hno => exact absurd h.filesz (Nat.not_le.mpr hno)
  | copied | empty => rfl

theorem fields_within (h : c.phdrOffset l.mem l.i + 48 ≤ c.size) {fs : List PhdrField}
    (hfs : ∀ f ∈ fs, elf64Phdr.off f + elf64Phdr.len f ≤ 48) :
    ∀ a ∈ fs.map (fieldAccess elf64Phdr (c.phdr l.mem l.i)), a.Within c.data (c.data + c.size) := by
  rw [List.forall_mem_map]
  intro f hf
  rw [Call.phdr, field_within_iff (by omega)]
  have := hfs f hf
  omega

/-! The run. -/

def todo (l : LoadState) : ℕ :=
  match l.phase with
  | .header => 3 * (65536 - l.i)
  | .bss _ _ => 3 * (65535 - l.i) + 2
  | .segEnd _ => 3 * (65535 - l.i) + 1
  | .failed => 0

theorem step_todo (h : l.step c isPie = some l') : l'.todo < l.todo := by
  have hphnum : c.phnum l.mem < 65536 := field_lt elf64Ehdr l.mem c.data .phnum
  unfold todo
  rcases step_cases h with ⟨⟨hphase, hi⟩, rfl⟩ | ⟨phdr, dest, hphase, rfl⟩ | ⟨phdr, hphase, rfl⟩
  · have hturn := l.loadHeader_turn c isPie
    generalize l.loadHeader c isPie = l' at hturn ⊢
    cases hturn with
    | outside | badOffset | badSize | copied | empty =>
      rw [hphase]
      dsimp only [read]
      omega
    | dynamic | other =>
      dsimp only [read]
      rw [hphase]
      dsimp only
      omega
  · rw [(zeroBss_phase l phdr dest).1, (zeroBss_phase l phdr dest).2, hphase]
    dsimp only
    omega
  · rw [hphase]
    dsimp only [addSegment]
    omega

theorem loadHeaders_stops (c : Call) (isPie : Bool) (mem : Bytes) :
    (loadHeaders c isPie mem).step c isPie = none :=
  Loop.run_stops todo (fun _ _ => step_todo) le_rfl

theorem loadHeaders_iff {Q N : LoadState → Prop}
    (hturn : ∀ l l', l.step c isPie = some l' → (Q l' ↔ N l ∧ Q l)) :
    Q (loadHeaders c isPie mem) ↔
      Q (init mem) ∧ ∀ l, StateTransition.Reaches (step c isPie) (init mem) l → l.step c isPie ≠ none → N l :=
  Loop.run_iff hturn (loadHeaders_stops c isPie mem)

theorem phase_origin (h : StateTransition.Reaches (step c isPie) (init mem) l) {phdr : ℕ}
    (hphase : (∃ dest, l.phase = .bss phdr dest) ∨ l.phase = .segEnd phdr) :
    ∃ l₀, StateTransition.Reaches (step c isPie) (init mem) l₀ ∧ l₀.AtHeader c ∧ l₀.Loads c ∧
      phdr = c.phdr l₀.mem l₀.i := by
  induction h with
  | refl =>
    rcases hphase with ⟨dest, hphase⟩ | hphase
    · exact absurd hphase (by simp [init])
    · exact absurd hphase (by simp [init])
  | @tail l₁ l₂ h₁ hstep ih =>
    rcases step_cases hstep with ⟨hhead, rfl⟩ | ⟨phdr', dest', hphase', rfl⟩ | ⟨phdr', hphase', rfl⟩
    · have hturn := l₁.loadHeader_turn c isPie
      generalize l₁.loadHeader c isPie = l₂ at hturn hphase
      cases hturn with
      | outside | badOffset | badSize => simp at hphase
      | dynamic | other => simp [read, hhead.1] at hphase
      | copied hloads | empty hloads =>
        refine ⟨l₁, h₁, hhead, hloads, Eq.symm ?_⟩
        simpa using hphase
    · rw [(zeroBss_phase l₁ phdr' dest').1] at hphase
      simp only [reduceCtorEq, exists_false, Phase.segEnd.injEq, false_or] at hphase
      exact ih (.inl ⟨dest', hphase ▸ hphase'⟩)
    · simp [addSegment] at hphase

/-- The header of a segment is read up to the last field that a turn reads of it, just when the
steps of that turn read inside the file. -/
theorem loadHeaders_within_iff :
    (∀ a ∈ (loadHeaders c isPie mem).reads, a.Within c.data (c.data + c.size)) ↔
      ∀ l, StateTransition.Reaches (step c isPie) (init mem) l → l.AtHeader c → c.InTable l.mem l.i →
        c.phdrOffset l.mem l.i + l.extent c ≤ c.size := by
  have hturn : ∀ l l' : LoadState, l.step c isPie = some l' →
      ((∀ a ∈ l'.reads, a.Within c.data (c.data + c.size)) ↔
        (∀ a ∈ l.newReads c, a.Within c.data (c.data + c.size)) ∧
          ∀ a ∈ l.reads, a.Within c.data (c.data + c.size)) := by
    intro l l' h
    rw [step_reads h, List.forall_mem_append]
  rw [loadHeaders_iff (Q := fun l => ∀ a ∈ l.reads, a.Within c.data (c.data + c.size)) hturn]
  have hnone : ∀ a ∈ (init mem).reads, a.Within c.data (c.data + c.size) :=
    fun a ha => absurd ha (List.not_mem_nil)
  rw [and_iff_right hnone]
  constructor
  · intro h l hl hhead htable
    have hstep : l.step c isPie ≠ none := by
      rw [step_atHeader hhead]
      exact Option.some_ne_none _
    have hreads : ∀ a ∈ l.headerReads c, a.Within c.data (c.data + c.size) := by
      have := h l hl hstep
      rwa [newReads, hhead.1] at this
    by_cases hloads : l.Loads c
    · -- the size in memory is read in the next step
      have hnext : StateTransition.Reaches (step c isPie) (init mem) (l.loadHeader c isPie) :=
        hl.tail (step_atHeader hhead)
      have hmemsz : (fieldAccess elf64Phdr (c.phdr l.mem l.i) .memsz).Within c.data (c.data + c.size) := by
        refine h _ hnext ?_ _ ?_
        · unfold step
          rw [hloads.phase_eq]
          exact Option.some_ne_none _
        · unfold newReads
          rw [hloads.phase_eq]
          exact List.mem_cons_of_mem _ List.mem_cons_self
      have hoff := hloads.headerReads_within_iff.mp hreads
      rw [hloads.extent_eq]
      exact (field_within_iff (by omega) .memsz).mp hmemsz
    · exact (headerReads_within_iff htable hloads).mp hreads
  · intro h l hl hstep
    unfold newReads
    cases hphase : l.phase with
    | header =>
      have hhead : l.AtHeader c := by
        refine ⟨hphase, ?_⟩
        by_contra hi
        unfold step at hstep
        rw [hphase] at hstep
        exact hstep (if_neg hi)
      by_cases htable : c.InTable l.mem l.i
      · have hext := h l hl hhead htable
        by_cases hloads : l.Loads c
        · rw [hloads.extent_eq] at hext
          exact hloads.headerReads_within_iff.mpr (by omega)
        · exact (headerReads_within_iff htable hloads).mpr hext
      · intro a ha
        dsimp only at ha
        rw [headerReads, if_pos htable] at ha
        exact absurd ha List.not_mem_nil
    | bss phdr dest =>
      obtain ⟨l₀, hl₀, hhead, hloads, rfl⟩ := phase_origin hl (.inl ⟨dest, hphase⟩)
      have hext := h l₀ hl₀ hhead hloads.inTable
      rw [hloads.extent_eq] at hext
      exact fields_within hext (by decide)
    | segEnd phdr =>
      obtain ⟨l₀, hl₀, hhead, hloads, rfl⟩ := phase_origin hl (.inr hphase)
      have hext := h l₀ hl₀ hhead hloads.inTable
      rw [hloads.extent_eq] at hext
      exact fields_within hext (by decide)
    | failed => exact fun a ha => absurd ha List.not_mem_nil

end LoadState

theorem elfLoadAt_reads (hvalid : elfValidate mem c.data c.size = 0) :
    (elfLoadAt c mem).reads = (loadHeaders c (c.isPie mem) mem).reads := by
  unfold elfLoadAt
  rw [if_neg (not_not.mpr hvalid)]
  dsimp only
  split
  · rfl
  · rfl

/-- Of a file that is accepted, everything that is read of the headers and the segments lies in the
file just when every header lies in it as far as it is read: in `elf_calc_size`, and in each turn of
`elf_load_at` that gets past the check of the end of the header. -/
theorem reads_in_file_iff (c : Call) (mem : Bytes) (hvalid : elfValidate mem c.data c.size = 0) :
    ((∀ a ∈ (elfCalcSize c mem).2, a.Within c.data (c.data + c.size)) ∧
        ∀ a ∈ (elfLoadAt c mem).reads, a.Within c.data (c.data + c.size)) ↔
      (∀ i < c.phnum mem, c.phdrOffset mem i + calcExtent c mem i ≤ c.size) ∧
        ∀ l, StateTransition.Reaches (LoadState.step c (c.isPie mem)) (.init mem) l → l.AtHeader c →
          c.InTable l.mem l.i → c.phdrOffset l.mem l.i + l.extent c ≤ c.size := by
  rw [elfCalcSize_within_iff hvalid, elfLoadAt_reads hvalid, LoadState.loadHeaders_within_iff]

def word (b : UInt8) : List UInt8 := [b, 0, 0, 0, 0, 0, 0, 0]

def sampleEhdr (phentsize phnum : UInt8) : List UInt8 :=
  [0x7F, 0x45, 0x4C, 0x46, 2, 1, 1, 0, 0, 0, 0, 0, 0, 0, 0, 0, 3, 0, 183, 0, 1, 0, 0, 0] ++
    word 0 ++ word 64 ++ word 0 ++ [0, 0, 0, 0, 64, 0, phentsize, 0, phnum, 0, 0, 0, 0, 0, 0, 0]

def samplePhdr (type offset vaddr filesz memsz : UInt8) : List UInt8 :=
  word type ++ word offset ++ word vaddr ++ word vaddr ++ word filesz ++ word memsz ++ word 8

/-- The file `bytes` at 4096. -/
def sampleMem (bytes : List UInt8) : Bytes := fun a => if a < 4096 then 0 else bytes.getD (a - 4096) 0

def sampleCall (size : ℕ) (h : size < 2 ^ 63) : Call where
  data := 4096
  size := size
  loadBase := 0x44000000
  inside := by omega
  size_lt := h
  base_lt := by decide

/-- A file with one segment, which holds the header of the file and 16 bytes of zeros. -/
theorem reads_in_file_one :
    let c := sampleCall 120 (by decide)
    let mem := sampleMem (sampleEhdr 56 1 ++ samplePhdr 1 0 0 64 80)
    elfValidate mem c.data c.size = 0 ∧
      (∀ i < c.phnum mem, c.phdrOffset mem i + calcExtent c mem i ≤ c.size) ∧
      ∀ l, StateTransition.Reaches (LoadState.step c (c.isPie mem)) (.init mem) l → l.AtHeader c →
        c.InTable l.mem l.i → c.phdrOffset l.mem l.i + l.extent c ≤ c.size := by
  have hvalid : elfValidate (sampleMem (sampleEhdr 56 1 ++ samplePhdr 1 0 0 64 80)) 4096 120 = 0 := by
    decide +kernel
  exact ⟨hvalid, (reads_in_file_iff (sampleCall 120 (by decide)) _ hvalid).mp (by decide +kernel)⟩

/-- A header of size 0 at the end of a file of 64 bytes. -/
theorem header_beyond_file :
    ¬ ∀ (c : Call) (mem : Bytes), elfValidate mem c.data c.size = 0 →
      (∀ a ∈ (elfCalcSize c mem).2, a.Within c.data (c.data + c.size)) ∧
        ∀ a ∈ (elfLoadAt c mem).reads, a.Within c.data (c.data + c.size) := by
  intro h
  have hvalid : elfValidate (sampleMem (sampleEhdr 0 1)) 4096 64 = 0 := by decide +kernel
  have hbad := (h (sampleCall 64 (by decide)) _ hvalid).2
  exact absurd hbad (by decide +kernel)

end GcAos.Loader
