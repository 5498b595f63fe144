import GcAos.Loader.ElfWrites

/-! The image that the headers of a PIE file describe. The loop over the headers leaves it at the base
address, and leaves everything else as it was. -/

namespace GcAos.Loader
open Lib

/-! Copies that do not go round the address space. -/

theorem elfMemcpy_eq {mem : Bytes} {d s n : ℕ} (hd : d + n ≤ 2 ^ 64) (hs : s + n ≤ 2 ^ 64)
    (hapart : d + n ≤ s ∨ s + n ≤ d) : elfMemcpy mem d s n = mem.blit d n fun k => mem (s + k) := by
  induction n generalizing mem d s with
  | zero => exact (Bytes.blit_empty mem d _).symm
  | succ n ih =>
    rw [elfMemcpy, Bytes.blit_succ]
    rcases Nat.eq_zero_or_pos n with rfl | hpos
    · rw [Bytes.blit_empty]
      rfl
    rw [Nat.mod_eq_of_lt (by omega), Nat.mod_eq_of_lt (by omega), ih (by omega) (by omega) (by omega)]
    funext x
    unfold Bytes.blit
    refine if_ctx_congr Iff.rfl (fun hx => ?_) fun _ => rfl
    -- the byte that has been written is not one of those to be read
    dsimp only
    rw [Function.update_of_ne (by omega)]
    congr 1
    omega

theorem elfMemset_eq {mem : Bytes} {p n : ℕ} {b : UInt8} (hp : p + n ≤ 2 ^ 64) :
    elfMemset mem p b n = mem.blit p n fun _ => b := by
  induction n generalizing mem p with
  | zero => exact (Bytes.blit_empty mem p _).symm
  | succ n ih =>
    rw [elfMemset, Bytes.blit_succ]
    rcases Nat.eq_zero_or_pos n with rfl | hpos
    · rw [Bytes.blit_empty]
      rfl
    rw [Nat.mod_eq_of_lt (by omega), ih (by omega)]

theorem poke_eq {mem : Bytes} {a n v : ℕ} (h : a + n ≤ 2 ^ 64) : poke mem a n v = mem.store a n v := by
  funext x
  unfold poke Bytes.store Bytes.blit
  dsimp only
  by_cases hx : a ≤ x ∧ x < a + n
  · have hk : (x + 2 ^ 64 - a) % 2 ^ 64 = x - a := by omega
    rw [if_pos (by omega), if_pos hx, hk]
  · rw [if_neg (by omega), if_neg hx]

theorem field_congr {F : Type*} {L : Layout F} {m m' : Bytes} {a b : ℕ} {f : F}
    (h : ∀ k < L.size, m ((a + k) % 2 ^ 64) = m' ((b + k) % 2 ^ 64)) : field L m a f = field L m' b f := by
  unfold field
  refine Layout.get_congr fun k hk => ?_
  rw [Nat.zero_add]
  exact h k hk

/-! What the headers say. -/

namespace Call

variable (c : Call) (mem : Bytes)

def seg (i : ℕ) (f : PhdrField) : ℕ := field elf64Phdr mem (c.phdr mem i) f

/-- Header `i` is that of a segment to be loaded. -/
def IsLoad (i : ℕ) : Prop := i < c.phnum mem ∧ c.seg mem i .type = ptLoad

def InSeg (i v : ℕ) : Prop :=
  c.seg mem i .vaddr ≤ v ∧ v < c.seg mem i .vaddr + c.seg mem i .memsz

instance (i : ℕ) : Decidable (c.IsLoad mem i) := inferInstanceAs (Decidable (_ ∧ _))

instance (i v : ℕ) : Decidable (c.InSeg mem i v) := inferInstanceAs (Decidable (_ ∧ _))

/-- What segment `i` has at `v`: a byte of the file, and zeros where the file has no more. -/
def segByte (i v : ℕ) : UInt8 :=
  if v < c.seg mem i .vaddr + c.seg mem i .filesz then
    mem (c.data + c.seg mem i .offset + (v - c.seg mem i .vaddr))
  else 0

/-- The segments of the first `n` headers, laid over `bg`. -/
def image (bg : Bytes) : ℕ → Bytes
  | 0, v => bg v
  | n + 1, v =>
    if c.seg mem n .type = ptLoad ∧ c.InSeg mem n v then c.segByte mem n v else image bg n v

/-- The last of the first `n` headers that is that of a dynamic section. -/
def lastDynamic : ℕ → Option ℕ
  | 0 => none
  | n + 1 => if c.seg mem n .type = ptDynamic then some n else lastDynamic n

/-- The pointer to the dynamic section after `n` headers. -/
def dynamicPtr (n : ℕ) : ℕ :=
  match c.lastDynamic mem n with
  | none => 0
  | some i => (c.loadBase + c.seg mem i .vaddr) % 2 ^ 64

/-- The headers and the segments of a well-formed file, whose addresses lie in `[0, S)`. -/
structure Segments (S : ℕ) : Prop where
  valid : elfValidate mem c.data c.size = 0
  pie : c.isPie mem = true
  inTable : ∀ i < c.phnum mem, c.InTable mem i
  header : ∀ i < c.phnum mem, c.phdrOffset mem i + elf64Phdr.size ≤ c.size
  filesz : ∀ i, c.IsLoad mem i → c.seg mem i .filesz ≤ c.seg mem i .memsz
  file : ∀ i, c.IsLoad mem i → c.seg mem i .offset + c.seg mem i .filesz ≤ c.size
  inside : ∀ i, c.IsLoad mem i → c.seg mem i .vaddr + c.seg mem i .memsz ≤ S
  disjoint : ∀ i j v, c.IsLoad mem i → c.IsLoad mem j → c.InSeg mem i v → c.InSeg mem j v → i = j

/-- At the base there is room for `S` bytes, apart from the file. -/
structure Room (S : ℕ) : Prop where
  noWrap : c.loadBase + S ≤ 2 ^ 64
  apart : c.loadBase + S ≤ c.data ∨ c.data + c.size ≤ c.loadBase

end Call

variable {c : Call} {mem m : Bytes} {S n : ℕ}

theorem image_of_not_inSeg {bg : Bytes} {v : ℕ} (hn : n ≤ c.phnum mem)
    (h : ∀ i, c.IsLoad mem i → ¬ c.InSeg mem i v) : c.image mem bg n v = bg v := by
  induction n with
  | zero => rfl
  | succ n ih =>
    rw [Call.image, if_neg, ih (Nat.le_of_succ_le hn)]
    rintro ⟨hload, hin⟩
    exact h n ⟨hn, hload⟩ hin

theorem image_of_inSeg (hseg : c.Segments mem S) {bg : Bytes} {i v : ℕ} (hn : n ≤ c.phnum mem)
    (hi : c.IsLoad mem i) (hlt : i < n) (hv : c.InSeg mem i v) :
    c.image mem bg n v = c.segByte mem i v := by
  induction n with
  | zero => exact absurd hlt (Nat.not_lt_zero i)
  | succ n ih =>
    rw [Call.image]
    by_cases hlast : c.seg mem n .type = ptLoad ∧ c.InSeg mem n v
    · rw [if_pos hlast, hseg.disjoint i n v hi ⟨hn, hlast.1⟩ hv hlast.2]
    · have hne : i ≠ n := by
        rintro rfl
        exact hlast ⟨hi.2, hv⟩
      rw [if_neg hlast]
      exact ih (Nat.le_of_succ_le hn) (by omega)

theorem image_congr (hseg : c.Segments mem S) {bg bg' : Bytes} {i v : ℕ} (hi : c.IsLoad mem i)
    (hv : c.InSeg mem i v) :
    c.image mem bg (c.phnum mem) v = c.image mem bg' (c.phnum mem) v := by
  rw [image_of_inSeg hseg le_rfl hi hi.1 hv, image_of_inSeg hseg le_rfl hi hi.1 hv]

/-! The file stays as it is. -/

def SameFile (c : Call) (mem m : Bytes) : Prop := ∀ x, c.data ≤ x → x < c.data + c.size → m x = mem x

namespace SameFile

theorem field_eq (h : SameFile c mem m) {F : Type*} {L : Layout F} {off : ℕ} (hoff : off + L.size ≤ c.size)
    (f : F) : field L m ((c.data + off) % 2 ^ 64) f = field L mem ((c.data + off) % 2 ^ 64) f := by
  have hin := c.inside
  refine field_congr fun k hk => h _ ?_ ?_
  · omega
  · omega

variable (hseg : c.Segments mem S)
include hseg

theorem ehdr_eq (h : SameFile c mem m) (f : EhdrField) :
    field elf64Ehdr m c.data f = field elf64Ehdr mem c.data f := by
  have hin := c.inside
  have hsize : elf64Ehdr.size ≤ c.size := by
    have hvalid := hseg.valid
    unfold elfValidate at hvalid
    split at hvalid
    · exact absurd hvalid (by decide)
    · next hsize => exact Nat.le_of_not_lt hsize
  have hzero : 0 + elf64Ehdr.size ≤ c.size := by omega
  have hfield := field_eq h hzero f
  rwa [Nat.add_zero, Nat.mod_eq_of_lt (by omega)] at hfield

theorem phnum_eq (h : SameFile c mem m) : c.phnum m = c.phnum mem := h.ehdr_eq hseg .phnum

theorem phdrOffset_eq (h : SameFile c mem m) (i : ℕ) : c.phdrOffset m i = c.phdrOffset mem i := by
  unfold Call.phdrOffset
  rw [h.ehdr_eq hseg, h.ehdr_eq hseg]

theorem phdr_eq (h : SameFile c mem m) (i : ℕ) : c.phdr m i = c.phdr mem i := by
  unfold Call.phdr
  rw [h.phdrOffset_eq hseg]

theorem inTable_iff (h : SameFile c mem m) (i : ℕ) : c.InTable m i ↔ c.InTable mem i := by
  unfold Call.InTable
  rw [h.ehdr_eq hseg, h.ehdr_eq hseg]

theorem phdr_field_eq (h : SameFile c mem m) {i : ℕ} (hi : i < c.phnum mem) (f : PhdrField) :
    field elf64Phdr m (c.phdr mem i) f = c.seg mem i f := h.field_eq (hseg.header i hi) f

end SameFile

/-! The loop over the headers. -/

namespace LoadState

variable {isPie : Bool} {l : LoadState}

theorem Loads.loadHeader_mem (h : l.Loads c) : (l.loadHeader c isPie).mem =
    elfMemcpy l.mem (l.dest c isPie) (l.src c) (l.get c .filesz) := by
  have hturn := l.loadHeader_turn c isPie
  generalize l.loadHeader c isPie = l' at hturn ⊢
  cases hturn with
  | outside hno => exact absurd h.inTable hno
  | dynamic _ hdyn => exact absurd (h.type.symm.trans hdyn) (by decide)
  | other _ _ hno => exact absurd h.type hno
  | badOffset _ _ hno => exact absurd h.offset (Nat.not_le.mpr hno)
  | badSize _ _ _ hno => exact absurd h.filesz (Nat.not_le.mpr hno)
  | copied => rfl
  | empty _ hzero =>
    rw [hzero]
    rfl

theorem loadHeader_frame (h : l.get c .type ≠ ptDynamic) :
    (l.loadHeader c isPie).dynamic = l.dynamic := by
  have hturn := l.loadHeader_turn c isPie
  generalize l.loadHeader c isPie = l' at hturn ⊢
  cases hturn with
  | dynamic _ hdyn => exact absurd hdyn h
  | _ => rfl

theorem Loads.loadHeader_i (h : l.Loads c) : (l.loadHeader c isPie).i = l.i := by
  have hturn := l.loadHeader_turn c isPie
  generalize l.loadHeader c isPie = l' at hturn ⊢
  cases hturn with
  | dynamic _ hdyn => exact absurd (h.type.symm.trans hdyn) (by decide)
  | other _ _ hno => exact absurd h.type hno
  | _ => rfl

theorem zeroBss_mem (l : LoadState) (phdr dest : ℕ) : (l.zeroBss phdr dest).mem =
    elfMemset l.mem ((dest + field elf64Phdr l.mem phdr .filesz) % 2 ^ 64) 0
      (field elf64Phdr l.mem phdr .memsz - field elf64Phdr l.mem phdr .filesz) := by
  unfold zeroBss
  dsimp only
  split
  · rfl
  · next hle =>
    rw [Nat.sub_eq_zero_of_le (Nat.le_of_not_lt hle)]
    rfl

theorem zeroBss_dynamic (l : LoadState) (phdr dest : ℕ) : (l.zeroBss phdr dest).dynamic = l.dynamic := by
  unfold zeroBss
  dsimp only
  split
  · rfl
  · rfl

/-- The first `n` headers have been gone through. -/
structure Loaded (c : Call) (mem : Bytes) (S n : ℕ) (l : LoadState) : Prop where
  phase : l.phase = .header
  i : l.i = n
  outside : ∀ x, x < c.loadBase ∨ c.loadBase + S ≤ x → l.mem x = mem x
  inside : ∀ v < S, l.mem (c.loadBase + v) = c.image mem (fun v => mem (c.loadBase + v)) n v
  dynamic : l.dynamic = c.dynamicPtr mem n

theorem Loaded.sameFile (hroom : c.Room S) (h : l.Loaded c mem S n) : SameFile c mem l.mem := by
  intro x hlo hhi
  have := hroom.apart
  exact h.outside x (by omega)

theorem loaded_init : (init mem).Loaded c mem S 0 :=
  ⟨rfl, rfl, fun _ _ => rfl, fun _ _ => rfl, rfl⟩

/-- The memory with segment `i` copied to it. -/
def withSegment (c : Call) (mem m : Bytes) (i : ℕ) : Bytes :=
  let copied := m.blit (c.loadBase + c.seg mem i .vaddr) (c.seg mem i .filesz)
    fun k => m (c.data + c.seg mem i .offset + k)
  copied.blit (c.loadBase + c.seg mem i .vaddr + c.seg mem i .filesz)
    (c.seg mem i .memsz - c.seg mem i .filesz) fun _ => 0

section Segment

variable (hseg : c.Segments mem S)
include hseg

theorem withSegment_outside {i x : ℕ} (hi : c.IsLoad mem i)
    (hx : x < c.loadBase ∨ c.loadBase + S ≤ x) : withSegment c mem m i x = m x := by
  have hin := hseg.inside i hi
  have hle := hseg.filesz i hi
  unfold withSegment Bytes.blit
  dsimp only
  rw [if_neg (by omega), if_neg (by omega)]

theorem withSegment_inside {i v : ℕ} (hi : c.IsLoad mem i) (hm : SameFile c mem m) :
    withSegment c mem m i (c.loadBase + v) =
      if c.seg mem i .type = ptLoad ∧ c.InSeg mem i v then c.segByte mem i v else m (c.loadBase + v) := by
  have hle := hseg.filesz i hi
  have hfile := hseg.file i hi
  unfold withSegment Bytes.blit Call.InSeg Call.segByte
  dsimp only
  by_cases hv : c.seg mem i .vaddr ≤ v ∧ v < c.seg mem i .vaddr + c.seg mem i .memsz
  · rw [if_pos (⟨hi.2, hv⟩ : _ = ptLoad ∧ _)]
    by_cases hlt : v < c.seg mem i .vaddr + c.seg mem i .filesz
    · have hoff : c.loadBase + v - (c.loadBase + c.seg mem i .vaddr) = v - c.seg mem i .vaddr := by omega
      rw [if_neg (by omega), if_pos (by omega), if_pos hlt, hoff]
      exact hm _ (by omega) (by omega)
    · rw [if_pos (by omega), if_neg hlt]
  · rw [if_neg (by omega), if_neg (by omega), if_neg (fun h : _ = ptLoad ∧ _ => hv h.2)]

end Segment

variable (hseg : c.Segments mem S) (hroom : c.Room S)
include hseg hroom

theorem Loaded.load_segment (h : l.Loaded c mem S n) (hn : c.IsLoad mem n) (hpie : isPie = true) :
    ∃ l', StateTransition.Reaches (step c isPie) l l' ∧ l'.phase = .header ∧ l'.i = n + 1 ∧
      l'.dynamic = l.dynamic ∧ l'.mem = withSegment c mem l.mem n := by
  subst hpie
  have hsame := h.sameFile hroom
  have hget : ∀ f, l.get c f = c.seg mem n f := by
    intro f
    unfold get
    rw [h.i, hsame.phdr_eq hseg, hsame.phdr_field_eq hseg hn.1]
  have hle := hseg.filesz n hn
  have hfile := hseg.file n hn
  have hin := hseg.inside n hn
  have hwrap := hroom.noWrap
  have hapart := hroom.apart
  have hdata := c.inside
  have hphdr : c.phdr l.mem l.i = c.phdr mem n := by rw [h.i, hsame.phdr_eq hseg]
  have hhead : l.AtHeader c := ⟨h.phase, by rw [h.i, hsame.phnum_eq hseg]; exact hn.1⟩
  have hloads : l.Loads c := by
    refine ⟨?_, ?_, ?_, ?_⟩
    · rw [h.i, hsame.inTable_iff hseg]
      exact hseg.inTable n hn.1
    · rw [hget, hn.2]
    · rw [hget]
      omega
    · rw [hget, hget]
      omega
  have hdest : l.dest c true % 2 ^ 64 = (c.loadBase + c.seg mem n .vaddr) % 2 ^ 64 := by
    rw [dest, if_pos rfl, hget, Nat.mod_mod]
  -- the copy
  have hcopy : (l.loadHeader c true).mem = l.mem.blit (c.loadBase + c.seg mem n .vaddr) (c.seg mem n .filesz)
      fun k => l.mem (c.data + c.seg mem n .offset + k) := by
    rw [hloads.loadHeader_mem, dest, if_pos rfl, src, hget, hget, hget]
    rcases Nat.eq_zero_or_pos (c.seg mem n .filesz) with hzero | hpos
    · rw [hzero, Bytes.blit_empty]
      rfl
    · rw [Nat.mod_eq_of_lt (by omega), Nat.mod_eq_of_lt (by omega)]
      exact elfMemcpy_eq (by omega) (by omega) (by omega)
  have hsame' : SameFile c mem (l.loadHeader c true).mem := by
    intro x hlo hhi
    rw [hcopy, Bytes.blit, if_neg (by omega)]
    exact hsame x hlo hhi
  -- the zeros
  have hzero : ((l.loadHeader c true).zeroBss (c.phdr l.mem l.i) (l.dest c true)).mem =
      withSegment c mem l.mem n := by
    rw [zeroBss_mem, hphdr, hsame'.phdr_field_eq hseg hn.1, hsame'.phdr_field_eq hseg hn.1, hcopy]
    unfold withSegment
    dsimp only
    rcases Nat.eq_zero_or_pos (c.seg mem n .memsz - c.seg mem n .filesz) with hnone | hpos
    · rw [hnone, Bytes.blit_empty]
      rfl
    · rw [Nat.add_mod, hdest, ← Nat.add_mod, Nat.mod_eq_of_lt (by omega)]
      exact elfMemset_eq (by omega)
  have hstep₁ : l.step c true = some (l.loadHeader c true) := step_atHeader hhead
  have hstep₂ : (l.loadHeader c true).step c true =
      some ((l.loadHeader c true).zeroBss (c.phdr l.mem l.i) (l.dest c true)) := by
    unfold step
    rw [hloads.phase_eq]
  have hphase := zeroBss_phase (l.loadHeader c true) (c.phdr l.mem l.i) (l.dest c true)
  generalize hl₂ : (l.loadHeader c true).zeroBss (c.phdr l.mem l.i) (l.dest c true) = l₂ at hzero hstep₂ hphase
  have hstep₃ : l₂.step c true = some (l₂.addSegment (c.phdr l.mem l.i)) := by
    unfold step
    rw [hphase.1]
  refine ⟨_, .head hstep₁ (.head hstep₂ (.head hstep₃ .refl)), rfl, ?_, ?_, hzero⟩
  · show l₂.i + 1 = n + 1
    rw [hphase.2, hloads.loadHeader_i, h.i]
  · show l₂.dynamic = l.dynamic
    rw [← hl₂, zeroBss_dynamic, loadHeader_frame]
    rw [hloads.type]
    decide

theorem Loaded.next (h : l.Loaded c mem S n) (hn : n < c.phnum mem) (hpie : isPie = true) :
    ∃ l', StateTransition.Reaches (step c isPie) l l' ∧ l'.Loaded c mem S (n + 1) := by
  have hsame := h.sameFile hroom
  have hget : ∀ f, l.get c f = c.seg mem n f := by
    intro f
    unfold get
    rw [h.i, hsame.phdr_eq hseg, hsame.phdr_field_eq hseg hn]
  have hload : c.seg mem n .type ≠ ptLoad → ∀ bg, c.image mem bg (n + 1) = c.image mem bg n := by
    intro hno bg
    funext v
    rw [Call.image, if_neg fun h => hno h.1]
  by_cases htype : c.seg mem n .type = ptLoad
  · obtain ⟨l', hreach, hphase, hi, hdyn, hmem⟩ := h.load_segment hseg hroom ⟨hn, htype⟩ hpie
    refine ⟨l', hreach, hphase, hi, fun x hx => ?_, fun v hv => ?_, ?_⟩
    · rw [hmem, withSegment_outside hseg ⟨hn, htype⟩ hx, h.outside x hx]
    · rw [hmem, withSegment_inside hseg ⟨hn, htype⟩ hsame, h.inside v hv, Call.image]
    · have hne : ptLoad ≠ ptDynamic := by decide
      rw [hdyn, h.dynamic, Call.dynamicPtr, Call.dynamicPtr, Call.lastDynamic, htype, if_neg hne]
  · have hhead : l.AtHeader c := ⟨h.phase, by rw [h.i, hsame.phnum_eq hseg]; exact hn⟩
    have htable : c.InTable l.mem l.i := by
      rw [h.i, hsame.inTable_iff hseg]
      exact hseg.inTable n hn
    refine ⟨l.loadHeader c isPie, .head (step_atHeader hhead) .refl, ?_⟩
    have hturn := l.loadHeader_turn c isPie
    generalize l.loadHeader c isPie = l' at hturn ⊢
    cases hturn with
    | outside hno => exact absurd htable hno
    | badOffset _ hl | badSize _ hl => exact absurd ((hget _).symm.trans hl) htype
    | copied hl | empty hl => exact absurd ((hget _).symm.trans hl.type) htype
    | dynamic _ hdyn =>
      refine ⟨h.phase, congrArg (· + 1) h.i, h.outside, fun v hv => ?_, ?_⟩
      · rw [hload htype]
        exact h.inside v hv
      · rw [hget] at hdyn ⊢
        rw [Call.dynamicPtr, Call.lastDynamic, if_pos hdyn]
    | other _ hdyn =>
      refine ⟨h.phase, congrArg (· + 1) h.i, h.outside, fun v hv => ?_, ?_⟩
      · rw [hload htype]
        exact h.inside v hv
      · rw [hget] at hdyn
        rw [Call.dynamicPtr, Call.lastDynamic, if_neg hdyn]
        exact h.dynamic

theorem loadHeaders_loaded : (loadHeaders c true mem).Loaded c mem S (c.phnum mem) := by
  have hall : ∀ n ≤ c.phnum mem, ∃ l, StateTransition.Reaches (step c true) (init mem) l ∧
      l.Loaded c mem S n := by
    intro n hn
    induction n with
    | zero => exact ⟨_, .refl, loaded_init⟩
    | succ n ih =>
      obtain ⟨l, hreach, hl⟩ := ih (Nat.le_of_succ_le hn)
      obtain ⟨l', hreach', hl'⟩ := hl.next hseg hroom hn rfl
      exact ⟨l', hreach.trans hreach', hl'⟩
  obtain ⟨l, hreach, hl⟩ := hall _ le_rfl
  have hstop : l.step c true = none := by
    unfold step
    rw [hl.phase]
    refine if_neg ?_
    rw [hl.i, (hl.sameFile hroom).phnum_eq hseg]
    exact Nat.lt_irrefl _
  rw [Loop.stop_unique (loadHeaders_reached c true mem) hreach (loadHeaders_stops c true mem) hstop]
  exact hl

end LoadState

end GcAos.Loader
