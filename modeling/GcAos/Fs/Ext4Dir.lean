import GcAos.Fs.Ext4Append
import GcAos.Lib.Tiling

/-! Directory blocks as chains of records, and what adding an entry does to a directory. -/

namespace GcAos.Fs
open Lib Ext4 Draft

/-- `rec_len` and `name_len` of the entry at `o`. -/
def recLen (blk : Bytes) (o : ℕ) : ℕ := dirGet blk o .recLen

def nameLen (blk : Bytes) (o : ℕ) : ℕ := dirGet blk o .nameLen

/-- The records of a directory block, found by following `rec_len` as the driver does. -/
def recordsFrom (blk : Bytes) (blockSize : ℕ) : ℕ → ℕ → List ℕ
  | 0, _ => []
  | fuel + 1, offset =>
    if offset < blockSize then
      if recLen blk offset = 0 then []
      else offset :: recordsFrom blk blockSize fuel (offset + recLen blk offset)
    else []

def records (blk : Bytes) (blockSize : ℕ) : List ℕ := recordsFrom blk blockSize blockSize 0

/-- The name and the inode number of the record at `offset`. -/
def entryAt (blk : Bytes) (offset : ℕ) : List UInt8 × ℕ :=
  ((List.range (nameLen blk offset)).map fun i => blk (offset + ext4DirEntry.size + i),
    dirGet blk offset .inode)

def entries (blk : Bytes) (blockSize : ℕ) : List (List UInt8 × ℕ) :=
  (records blk blockSize).map (entryAt blk)

structure WellFormed (blk : Bytes) (blockSize : ℕ) : Prop where
  tiles : Tiles (recLen blk) 0 (records blk blockSize) blockSize
  aligned : ∀ o ∈ records blk blockSize, 4 ∣ recLen blk o
  holds : ∀ o ∈ records blk blockSize,
    entrySize (nameLen blk o) ≤ recLen blk o

theorem entrySize_eq {n : ℕ} (h : n < 256) : entrySize n = (n + 11) / 4 * 4 := by
  have hall : ∀ n < 256, entrySize n = (n + 11) / 4 * 4 := by decide +kernel
  exact hall n h

theorem entrySize_bounds {n : ℕ} (h : n < 256) :
    4 ∣ entrySize n ∧ 8 + n ≤ entrySize n ∧ entrySize n ≤ 264 := by
  rw [entrySize_eq h]
  omega

theorem nameLen_lt (blk : Bytes) (o : ℕ) : nameLen blk o < 256 := Layout.get_lt

theorem nameLength_le (name : Bytes) : nameLength name ≤ 255 := by
  have hle := (List.takeWhile_prefix (l := List.range 255) fun i => decide (name i ≠ 0)).length_le
  rwa [List.length_range] at hle

section
variable {blk blk' name : Bytes} {blockSize offset o ino len fileType : ℕ}

theorem header_size : ext4DirEntry.size = 8 := rfl

theorem dirGet_congr {f : DirField} (h : ∀ i < ext4DirEntry.size, blk' (o + i) = blk (o + i)) :
    dirGet blk' o f = dirGet blk o f := Layout.get_congr h

theorem entry_congr (h : ∀ i < ext4DirEntry.size + nameLen blk o, blk' (o + i) = blk (o + i)) :
    recLen blk' o = recLen blk o ∧ nameLen blk' o = nameLen blk o ∧
      entryAt blk' o = entryAt blk o := by
  have hhead : ∀ i < ext4DirEntry.size, blk' (o + i) = blk (o + i) := fun i hi => h i (by omega)
  have hname : nameLen blk' o = nameLen blk o := dirGet_congr hhead
  refine ⟨dirGet_congr hhead, hname, ?_⟩
  rw [entryAt, entryAt, hname, dirGet_congr hhead, Prod.mk.injEq]
  refine ⟨List.map_congr_left fun i hi => ?_, rfl⟩
  rw [Nat.add_assoc]
  exact h _ (Nat.add_lt_add_left (List.mem_range.mp hi) _)

theorem recordsFrom_eq {os : List ℕ} {fuel : ℕ}
    (h : Tiles (recLen blk) offset os blockSize)
    (hfuel : blockSize ≤ offset + fuel) : recordsFrom blk blockSize fuel offset = os := by
  induction os generalizing offset fuel with
  | nil =>
    obtain rfl : offset = blockSize := h
    cases fuel with
    | zero => rfl
    | succ fuel => rw [recordsFrom, if_neg (lt_irrefl _)]
  | cons o os ih =>
    have hle := h.le
    obtain ⟨rfl, hpos, hrest⟩ := h
    have hlt := hrest.le
    cases fuel with
    | zero => omega
    | succ fuel =>
      rw [recordsFrom, if_pos (by omega), if_neg hpos.ne', ih hrest (by omega)]

theorem wellFormed_of_tiles {os : List ℕ}
    (htiles : Tiles (recLen blk) 0 os blockSize)
    (hrec : ∀ o ∈ os, 4 ∣ recLen blk o ∧
      entrySize (nameLen blk o) ≤ recLen blk o) :
    WellFormed blk blockSize ∧ entries blk blockSize = os.map (entryAt blk) := by
  have hos : records blk blockSize = os := recordsFrom_eq htiles (by omega)
  refine ⟨⟨?_, ?_, ?_⟩, by rw [entries, hos]⟩ <;> rw [hos]
  · exact htiles
  · exact fun o ho => (hrec o ho).1
  · exact fun o ho => (hrec o ho).2

theorem not_wellFormed (hpos : 0 < blockSize) (h : recLen blk 0 = 0) : ¬WellFormed blk blockSize := by
  intro hwf
  have hnone : records blk blockSize = [] := by
    obtain ⟨n, rfl⟩ := Nat.exists_eq_succ_of_ne_zero hpos.ne'
    rw [records, recordsFrom, if_pos hpos, if_pos h]
  have htiles := hwf.tiles
  rw [hnone, tiles_nil] at htiles
  omega

namespace WellFormed

theorem bounds (h : WellFormed blk blockSize) (ho : o ∈ records blk blockSize) :
    8 + nameLen blk o ≤ recLen blk o ∧ o + recLen blk o ≤ blockSize := by
  obtain ⟨-, hname, -⟩ := entrySize_bounds (nameLen_lt blk o)
  exact ⟨hname.trans (h.holds o ho), (h.tiles.mem_bounds ho).2.2⟩

theorem record_congr (h : WellFormed blk blockSize) (ho : o ∈ records blk blockSize)
    (heq : ∀ i, o ≤ i → i < o + recLen blk o → blk' i = blk i) :
    recLen blk' o = recLen blk o ∧ nameLen blk' o = nameLen blk o ∧
      entryAt blk' o = entryAt blk o := by
  have hlen := (h.bounds ho).1
  apply entry_congr
  intro i hi
  rw [header_size] at hi
  exact heq _ (by omega) (by omega)

theorem congr (h : WellFormed blk blockSize) (heq : ∀ i < blockSize, blk' i = blk i) :
    WellFormed blk' blockSize ∧ entries blk' blockSize = entries blk blockSize := by
  have hsame (o : ℕ) (ho : o ∈ records blk blockSize) := h.record_congr ho (fun i _ hi => by
    have hend := (h.bounds ho).2
    exact heq i (by omega))
  obtain ⟨hwf, hentries⟩ := wellFormed_of_tiles (h.tiles.congr fun o ho => (hsame o ho).1)
    fun o ho => by
      obtain ⟨hrec, hname, -⟩ := hsame o ho
      rw [hrec, hname]
      exact ⟨h.aligned o ho, h.holds o ho⟩
  exact ⟨hwf, hentries.trans (List.map_congr_left fun o ho => (hsame o ho).2.2)⟩

end WellFormed

theorem dirGet_putEntry (f : DirField) :
    dirGet (putEntry blk offset ino len fileType name) offset f =
      match f with
      | .inode => ino % 2 ^ 32
      | .recLen => len % 2 ^ 16
      | .nameLen => nameLength name
      | .fileType => fileType % 2 ^ 8 := by
  have hname : nameLength name < 256 ^ 1 := Nat.lt_succ_of_le (nameLength_le name)
  rw [dirGet, putEntry, Layout.get_blit_of_apart (.inr le_rfl)]
  cases f <;>
    simp only [Layout.get_set_of_field_ne, Layout.get_set_self, ne_eq, reduceCtorEq,
      not_false_eq_true, ext4DirEntry]
  case nameLen => exact Nat.mod_eq_of_lt hname
  all_goals norm_num

theorem recLen_putEntry : recLen (putEntry blk offset ino len fileType name) offset = len % 2 ^ 16 :=
  dirGet_putEntry .recLen

theorem nameLen_putEntry :
    nameLen (putEntry blk offset ino len fileType name) offset = nameLength name :=
  dirGet_putEntry .nameLen

theorem entryAt_putEntry (hino : ino < 2 ^ 32) :
    entryAt (putEntry blk offset ino len fileType name) offset =
      ((List.range (nameLength name)).map name, ino) := by
  rw [entryAt, nameLen_putEntry, dirGet_putEntry, Prod.mk.injEq]
  refine ⟨List.map_congr_left fun i hi => ?_, Nat.mod_eq_of_lt hino⟩
  exact Bytes.blit_of_mem (List.mem_range.mp hi)

theorem set_apply_of_apart {f : DirField} {x i : ℕ}
    (h : i < offset ∨ offset + ext4DirEntry.size ≤ i) : ext4DirEntry.set blk offset f x i = blk i := by
  have hfit := ext4DirEntry.fits f
  rw [Layout.set, Bytes.store]
  rcases h with h | h
  · exact Bytes.blit_of_lt (by omega)
  · exact Bytes.blit_of_le (by omega)

theorem putEntry_apply_of_apart {i : ℕ}
    (h : i < offset ∨ offset + ext4DirEntry.size + nameLength name ≤ i) :
    putEntry blk offset ino len fileType name i = blk i := by
  have hhead : i < offset ∨ offset + ext4DirEntry.size ≤ i := by omega
  have hblit : ∀ m : Bytes, m.blit (offset + ext4DirEntry.size) (nameLength name) name i = m i := by
    intro m
    rcases h with h | h
    · exact Bytes.blit_of_lt (by omega)
    · exact Bytes.blit_of_le h
  rw [putEntry, hblit, set_apply_of_apart hhead, set_apply_of_apart hhead, set_apply_of_apart hhead,
    set_apply_of_apart hhead]

theorem putEntry_wellFormed (blk name : Bytes) (fileType : ℕ) (hino : ino < 2 ^ 32) (hsize : 264 ≤ blockSize)
    (hfour : 4 ∣ blockSize) (hlt : blockSize < 2 ^ 16) :
    WellFormed (putEntry blk 0 ino blockSize fileType name) blockSize ∧
      entries (putEntry blk 0 ino blockSize fileType name) blockSize =
        [((List.range (nameLength name)).map name, ino)] := by
  have hrec : recLen (putEntry blk 0 ino blockSize fileType name) 0 = blockSize :=
    recLen_putEntry.trans (Nat.mod_eq_of_lt hlt)
  have htiles : Tiles (recLen (putEntry blk 0 ino blockSize fileType name)) 0 [0] blockSize := by
    rw [tiles_cons, hrec]
    exact ⟨rfl, by omega, Nat.zero_add _⟩
  obtain ⟨hwf, hentries⟩ := wellFormed_of_tiles htiles fun o ho => by
    obtain rfl := List.mem_singleton.mp ho
    obtain ⟨-, -, hle⟩ := entrySize_bounds (nameLen_lt (putEntry blk 0 ino blockSize fileType name) 0)
    rw [hrec]
    exact ⟨hfour, hle.trans hsize⟩
  refine ⟨hwf, hentries.trans ?_⟩
  rw [List.map_singleton, entryAt_putEntry hino]

theorem findSlack_eq_some {need fuel : ℕ} {offset' : ℕ}
    (h : findSlack blk blockSize need fuel offset = some offset') :
    offset' ∈ recordsFrom blk blockSize fuel offset ∧
      entrySize (nameLen blk offset') + need ≤ recLen blk offset' := by
  induction fuel generalizing offset with
  | zero => cases h
  | succ fuel ih =>
    rw [findSlack] at h
    rw [recordsFrom]
    split at h
    · next hlt =>
      rw [if_pos hlt]
      dsimp only at h
      split at h
      · cases h
      · next hpos =>
        rw [if_neg (show ¬recLen blk offset = 0 from hpos)]
        split at h
        · next hroom =>
          obtain rfl := Option.some.inj h
          refine ⟨List.mem_cons_self .., ?_⟩
          rw [nameLen, recLen]
          omega
        · obtain ⟨hmem, hroom⟩ := ih h
          exact ⟨List.mem_cons_of_mem _ hmem, hroom⟩
    · cases h

theorem splitEntry_old (blk name : Bytes) (o ino fileType : ℕ) :
    recLen (splitEntry blk o ino fileType name) o = entrySize (nameLen blk o) ∧
      nameLen (splitEntry blk o ino fileType name) o = nameLen blk o ∧
      entryAt (splitEntry blk o ino fileType name) o = entryAt blk o := by
  obtain ⟨-, hname, hle⟩ := entrySize_bounds (nameLen_lt blk o)
  generalize hcut : ext4DirEntry.set blk o .recLen (entrySize (nameLen blk o)) = cut
  have hrec : recLen cut o = entrySize (nameLen blk o) := by
    rw [← hcut]
    exact Layout.get_set_self.trans (Nat.mod_eq_of_lt (hle.trans_lt (by decide)))
  have hlen : nameLen cut o = nameLen blk o := by
    rw [← hcut]
    exact Layout.get_set_of_field_ne (by decide)
  have hentry : entryAt cut o = entryAt blk o := by
    rw [entryAt, entryAt, hlen, ← hcut, Prod.mk.injEq]
    refine ⟨List.map_congr_left fun i _ => ?_, Layout.get_set_of_field_ne (by decide)⟩
    exact set_apply_of_apart (.inr (by omega))
  rw [← hrec, ← hlen, ← hentry]
  -- the new entry lies behind the name
  apply entry_congr
  intro i hi
  rw [hlen, header_size] at hi
  rw [← hcut]
  exact putEntry_apply_of_apart (.inl (by rw [← nameLen]; omega))

theorem splitEntry_new (blk name : Bytes) (o fileType : ℕ) (hino : ino < 2 ^ 32) :
    recLen (splitEntry blk o ino fileType name) (o + entrySize (nameLen blk o)) =
        recLen blk o - entrySize (nameLen blk o) ∧
      nameLen (splitEntry blk o ino fileType name) (o + entrySize (nameLen blk o)) =
        nameLength name ∧
      entryAt (splitEntry blk o ino fileType name) (o + entrySize (nameLen blk o)) =
        ((List.range (nameLength name)).map name, ino) := by
  have hlt : recLen blk o < 2 ^ 16 := Layout.get_lt
  refine ⟨recLen_putEntry.trans (Nat.mod_eq_of_lt ?_), nameLen_putEntry, entryAt_putEntry hino⟩
  exact (Nat.sub_le _ _).trans_lt hlt

section
variable (hroom : entrySize (nameLen blk o) + entrySize (nameLength name) ≤ recLen blk o)
include hroom

theorem splitEntry_apply_of_apart (ino fileType i : ℕ) (hi : i < o ∨ o + recLen blk o ≤ i) :
    splitEntry blk o ino fileType name i = blk i := by
  obtain ⟨-, hname, -⟩ := entrySize_bounds (nameLen_lt blk o)
  obtain ⟨-, hnew, -⟩ := entrySize_bounds (Nat.lt_succ_of_le (nameLength_le name))
  have hsplit : splitEntry blk o ino fileType name i =
      ext4DirEntry.set blk o .recLen (entrySize (nameLen blk o)) i := by
    apply putEntry_apply_of_apart
    rw [← nameLen, header_size]
    omega
  rw [hsplit]
  apply set_apply_of_apart
  rw [header_size]
  omega

theorem splitEntry_wellFormed (fileType : ℕ) (h : WellFormed blk blockSize) (hino : ino < 2 ^ 32)
    (ho : o ∈ records blk blockSize) :
    WellFormed (splitEntry blk o ino fileType name) blockSize ∧
      ∃ l₁ l₂, entries blk blockSize = l₁ ++ l₂ ∧
        entries (splitEntry blk o ino fileType name) blockSize =
          l₁ ++ ((List.range (nameLength name)).map name, ino) :: l₂ := by
  obtain ⟨hfour, hname, -⟩ := entrySize_bounds (nameLen_lt blk o)
  obtain ⟨hfour', hnew, -⟩ := entrySize_bounds (Nat.lt_succ_of_le (nameLength_le name))
  obtain ⟨hrec, hlen, hentry⟩ := splitEntry_old blk name o ino fileType
  obtain ⟨hrec', hlen', hentry'⟩ := splitEntry_new blk name o fileType hino
  have hapart := splitEntry_apply_of_apart hroom ino fileType
  generalize splitEntry blk o ino fileType name = blk' at hrec hlen hentry hrec' hlen' hentry' hapart ⊢
  obtain ⟨xs, ys, hsplit⟩ := List.append_of_mem ho
  have hsame : ∀ c, c ∈ xs ∨ c ∈ ys → c ∈ records blk blockSize ∧
      recLen blk' c = recLen blk c ∧ nameLen blk' c = nameLen blk c ∧
        entryAt blk' c = entryAt blk c := by
    intro c hc
    have hmem : c ∈ records blk blockSize := by
      rw [hsplit]
      exact List.mem_append.mpr (hc.imp_right (List.mem_cons_of_mem _))
    have hne : c ≠ o := by
      have hnodup := h.tiles.nodup
      rw [hsplit, List.nodup_middle, List.nodup_cons, List.mem_append] at hnodup
      rintro rfl
      exact hnodup.1 hc
    have hdisjoint := h.tiles.apart hmem ho hne
    exact ⟨hmem, h.record_congr hmem fun i hlo hhi => hapart i (by omega)⟩
  have htiles : Tiles (recLen blk') 0 (xs ++ o :: (o + entrySize (nameLen blk o)) :: ys) blockSize := by
    refine (hsplit ▸ h.tiles).split ?_ ?_ ?_ ?_ fun c hc => (hsame c hc).2.1 <;> omega
  obtain ⟨hwf, hentries⟩ := wellFormed_of_tiles htiles fun c hc => by
    have hold (hc : c ∈ xs ∨ c ∈ ys) :
        4 ∣ recLen blk' c ∧ entrySize (nameLen blk' c) ≤ recLen blk' c := by
      obtain ⟨hmem, hrec, hlen, -⟩ := hsame c hc
      rw [hrec, hlen]
      exact ⟨h.aligned c hmem, h.holds c hmem⟩
    rcases List.mem_append.mp hc with hc | hc
    · exact hold (.inl hc)
    rcases List.mem_cons.mp hc with rfl | hc
    · rw [hrec, hlen]
      exact ⟨hfour, le_rfl⟩
    rcases List.mem_cons.mp hc with rfl | hc
    · rw [hrec', hlen']
      exact ⟨Nat.dvd_sub (h.aligned o ho) hfour, by omega⟩
    · exact hold (.inr hc)
  refine ⟨hwf, (xs ++ [o]).map (entryAt blk), ys.map (entryAt blk), ?_, ?_⟩
  · rw [entries, hsplit]
    simp
  · have hxs : xs.map (entryAt blk') = xs.map (entryAt blk) :=
      List.map_congr_left fun c hc => (hsame c (.inl hc)).2.2.2
    have hys : ys.map (entryAt blk') = ys.map (entryAt blk) :=
      List.map_congr_left fun c hc => (hsame c (.inr hc)).2.2.2
    rw [hentries, List.map_append, List.map_cons, List.map_cons, hxs, hys, hentry, hentry']
    simp

end

end

theorem flatMap_insert {α β : Type} {f f' : α → List β} {l : List α} {c : α} {x : β}
    (hl : l.Nodup) (hc : c ∈ l) (hx : ∃ l₁ l₂, f c = l₁ ++ l₂ ∧ f' c = l₁ ++ x :: l₂)
    (hf : ∀ d, d ≠ c → f' d = f d) :
    ∃ l₁ l₂, l.flatMap f = l₁ ++ l₂ ∧ l.flatMap f' = l₁ ++ x :: l₂ := by
  obtain ⟨as, bs, rfl⟩ := List.append_of_mem hc
  obtain ⟨l₁, l₂, hold, hnew⟩ := hx
  rw [List.nodup_middle, List.nodup_cons, List.mem_append] at hl
  have has : as.flatMap f' = as.flatMap f :=
    List.flatMap_congr fun d hd => hf d fun heq => hl.1 (.inl (heq ▸ hd))
  have hbs : bs.flatMap f' = bs.flatMap f :=
    List.flatMap_congr fun d hd => hf d fun heq => hl.1 (.inr (heq ▸ hd))
  refine ⟨as.flatMap f ++ l₁, l₂ ++ bs.flatMap f, ?_, ?_⟩
  · simp [hold]
  · simp [hnew, has, hbs]

namespace Ext4

def dirBlocks (s : Ext4) (dirIno : ℕ) : List ℕ :=
  ((List.range (s.blocksIn (s.sizeOf dirIno))).map
    (s.fs.geometry.fileBlock s.fs.device (s.inodeOf dirIno))).filter (· ≠ 0)

def dirEntries (s : Ext4) (dirIno : ℕ) : List (List UInt8 × ℕ) :=
  (s.dirBlocks dirIno).flatMap fun c => entries (s.fs.device c) s.fs.blockSize

def DirWellFormed (s : Ext4) (dirIno : ℕ) : Prop :=
  ∀ c ∈ s.dirBlocks dirIno, WellFormed (s.fs.device c) s.fs.blockSize

/-- In `s'` the directory is well formed, with one entry more than in `s`. -/
def AddsEntry (s s' : Ext4) (dirIno : ℕ) (name : Bytes) (ino : ℕ) : Prop :=
  s'.DirWellFormed dirIno ∧ ∃ l₁ l₂, s.dirEntries dirIno = l₁ ++ l₂ ∧
    s'.dirEntries dirIno = l₁ ++ ((List.range (nameLength name)).map name, ino) :: l₂

theorem mem_dirBlocks {s : Ext4} {dirIno c : ℕ} :
    c ∈ s.dirBlocks dirIno ↔ c ≠ 0 ∧ ∃ b < s.blocksIn (s.sizeOf dirIno),
      s.fs.geometry.fileBlock s.fs.device (s.inodeOf dirIno) b = c := by
  simp [dirBlocks, and_comm]

variable {s s' : Ext4} {dirIno : ℕ}

theorem rooted_inodeOf (hs : s.fs.Consistent) (hdir : dirIno ∈ s.fs.live) :
    Geometry.Rooted (Draft.closed s.fs.geometry s.fs.live s.fs).root dirIno (s.inodeOf dirIno) :=
  hs.table dirIno hdir

theorem dirBlocks_nodup (hs : s.fs.Consistent) (hdir : dirIno ∈ s.fs.live) :
    (s.dirBlocks dirIno).Nodup := by
  rw [dirBlocks, List.filter_map]
  refine List.Nodup.map_on ?_ (List.nodup_range.filter _)
  intro b hb b' hb' heq
  have hne := (List.mem_filter.mp hb).2
  have hne' := (List.mem_filter.mp hb').2
  simp only [Function.comp_apply, decide_eq_true_eq] at hne hne'
  have hroot := rooted_inodeOf hs hdir
  have href := Geometry.refs_fileBlock hroot hs.sane hne
  have href' := Geometry.refs_fileBlock hroot hs.sane hne'
  rw [← heq] at href'
  obtain ⟨hk, hp⟩ := hs.owned href href'
  exact Geometry.fileAddr_injective (Prod.ext (Prod.mk.inj hk).2 hp)

theorem addsEntry_of_split {c o ino fileType : ℕ} {name : Bytes} (hs : s.fs.Consistent)
    (hdir : dirIno ∈ s.fs.live) (hwf : s.DirWellFormed dirIno) (hino : ino < 2 ^ 32)
    (hc : c ∈ s.dirBlocks dirIno)
    (ho : findSlack (s.fs.device c) s.fs.blockSize (entrySize (nameLength name)) s.fs.blockSize 0 =
      some o)
    (hfs : s'.fs = s.fs.putBlock c (splitEntry (s.fs.device c) o ino fileType name)) :
    s.AddsEntry s' dirIno name ino := by
  have hvalid := hs.valid dirIno hdir
  obtain ⟨hne, b, -, hb⟩ := mem_dirBlocks.mp hc
  have hleaf : (Draft.closed s.fs.geometry s.fs.live s.fs).Leaf s.fs.geometry dirIno c := by
    rw [← hb] at hne ⊢
    exact leaf_fileBlock hs rfl (rooted_inodeOf hs hdir) hne
  have hres : ¬s.fs.geometry.Reserved c := by
    obtain ⟨k, p, hr, -⟩ := hleaf
    exact (hs.data _ _ _ hr).not_reserved
  have hgeo : s'.fs.geometry = s.fs.geometry := by rw [hfs, Ext4Fs.geometry_putBlock]
  have hinode : s'.inodeOf dirIno = s.inodeOf dirIno := by
    rw [inodeOf, inodeOf, hgeo, hfs]
    exact Draft.Sound.inode_putBlock hs.sane hres hvalid
  have hdev : ∀ d, d ≠ c → s'.fs.device d = s.fs.device d := by
    intro d hd
    rw [hfs]
    exact Ext4Fs.device_putBlock_of_ne hd
  have hmap (fb : ℕ) : s.fs.geometry.fileBlock s'.fs.device (s.inodeOf dirIno) fb =
      s.fs.geometry.fileBlock s.fs.device (s.inodeOf dirIno) fb :=
    hs.fileBlock_eq (rooted_inodeOf hs hdir) (.inr hleaf) fun d _ hd => hdev d hd
  have hblocks : s'.dirBlocks dirIno = s.dirBlocks dirIno := by
    have hsize : s'.fs.blockSize = s.fs.blockSize := congrArg Geometry.blockSize hgeo
    rw [dirBlocks, dirBlocks, sizeOf, sizeOf, Geometry.size, Geometry.size, ← inodeOf, ← inodeOf,
      hinode, blocksIn, blocksIn, hsize, hgeo, funext hmap]
  obtain ⟨hmem, hroom⟩ := findSlack_eq_some ho
  obtain ⟨hsplit, hentries⟩ := splitEntry_wellFormed hroom fileType (hwf c hc) hino hmem
  have hread : ∀ i < s.fs.blockSize,
      s'.fs.device c i = splitEntry (s.fs.device c) o ino fileType name i := by
    intro i hi
    rw [hfs]
    exact Ext4Fs.device_putBlock_self hi
  obtain ⟨hsplit', hentries'⟩ := hsplit.congr hread
  rw [← hentries'] at hentries
  have hsize : s'.fs.blockSize = s.fs.blockSize := congrArg Geometry.blockSize hgeo
  refine ⟨?_, ?_⟩
  · intro d hd
    rw [hblocks] at hd
    rw [hsize]
    by_cases hdc : d = c
    · rw [hdc]
      exact hsplit'
    · rw [hdev d hdc]
      exact hwf d hd
  · rw [dirEntries, dirEntries, hblocks, hsize]
    refine flatMap_insert (dirBlocks_nodup hs hdir) hc hentries fun d hd => ?_
    rw [hdev d hd]

/-- If the directory has holes past its direct blocks and no indirect block, nothing keeps a new one
from being zeroed. -/
def KeepsHoles (s : Ext4) (dirIno : ℕ) : Prop :=
  s.kmallocs = [] ∧ s.ios = [] ∨ iBlock (s.inodeOf dirIno) ext4IndBlock ≠ 0 ∨
    s.blocksIn (s.sizeOf dirIno) ≤ ext4NdirBlocks

theorem inodeOf_congr (h : s'.fs = s.fs) : s'.inodeOf dirIno = s.inodeOf dirIno := by
  rw [inodeOf, inodeOf, h]

theorem KeepsHoles.later (h : s.KeepsHoles dirIno) (hlater : Later s s') (hfs : s'.fs = s.fs) :
    s'.KeepsHoles dirIno := by
  rw [KeepsHoles, inodeOf_congr hfs, sizeOf, blocksIn, hfs]
  exact h.imp_left fun hquiet => ⟨hlater.kmallocs_nil hquiet.1, hlater.ios_nil hquiet.2⟩

theorem size_lt_of_reach {n : ℕ} (hg : s.fs.geometry.Sane) (hsmall : s.fs.blockSize < 2 ^ 16)
    (hreach : s.blocksIn n < ext4NdirBlocks + s.fs.geometry.shape.arity) :
    n + s.fs.blockSize < 2 ^ 32 := by
  have hpos : 0 < s.fs.blockSize := hg.blockSize_pos
  have hdiv := Nat.lt_div_mul_add hpos (a := n + s.fs.blockSize - 1)
  have hreach : s.blocksIn n < 12 + s.fs.blockSize / 4 := hreach
  have hmul : s.blocksIn n * s.fs.blockSize ≤ (12 + 2 ^ 14) * 2 ^ 16 :=
    Nat.mul_le_mul (by omega) hsmall.le
  rw [blocksIn] at hmul
  omega

theorem blocksIn_add (hpos : 0 < s.fs.blockSize) (n : ℕ) :
    s.blocksIn (n + s.fs.blockSize) = s.blocksIn n + 1 := by
  rw [blocksIn, blocksIn, ← Nat.add_div_right _ hpos]
  congr 1
  omega

/-- In `s'` the directory has one block more than in `s`, with the content `blk`. -/
structure Appended (s s' : Ext4) (dirIno b : ℕ) (blk : Bytes) : Prop where
  geometry : s'.fs.geometry = s.fs.geometry
  reach : s.blocksIn (s.sizeOf dirIno) < ext4NdirBlocks + s.fs.geometry.shape.arity
  size : s'.sizeOf dirIno = (s.sizeOf dirIno + s.fs.blockSize) % 2 ^ 32
  old : ∀ c ∈ s.dirBlocks dirIno, s'.fs.device c = s.fs.device c
  ne_zero : b ≠ 0
  map : ∀ fb ≤ s.blocksIn (s.sizeOf dirIno),
    s'.fs.geometry.fileBlock s'.fs.device (s'.inodeOf dirIno) fb =
      if fb = s.blocksIn (s.sizeOf dirIno) then b
      else s.fs.geometry.fileBlock s.fs.device (s.inodeOf dirIno) fb
  new : ∀ i < s.fs.blockSize, s'.fs.device b i = blk i

theorem appendDirBlock_appended {ino fileType : ℕ} {name : Bytes} (hs : s.fs.Consistent)
    (hdir : dirIno ∈ s.fs.live) (hholes : s.KeepsHoles dirIno)
    (h : s.appendDirBlock dirIno (s.inodeOf dirIno) name ino fileType = (0, s')) :
    ∃ b, Appended s s' dirIno b (putEntry (fun _ => 0) 0 ino s.fs.blockSize fileType name) := by
  obtain ⟨s₁, D₁, -, hold, ⟨hneg, -⟩ | ⟨-, v', b, happ⟩⟩ := appendDirBlock_ends hs rfl
    (Set.mem_singleton dirIno) (rooted_inodeOf hs hdir) h
  · exact absurd hneg (lt_irrefl 0)
  have hgeo' : s'.fs.geometry = s.fs.geometry := by
    rw [happ.put, Ext4Fs.geometry_putInode, happ.geometry]
  have hinode' : ∀ i < ext4Inode.size, s'.inodeOf dirIno i = v' i := by
    intro i hi
    rw [inodeOf, hgeo', happ.put]
    exact Ext4Fs.inode_putInode_self happ.geometry hs.sane hi
  have hdev' : ∀ d, ¬s.fs.geometry.Reserved d → s'.fs.device d = s₁.fs.device d := by
    intro d hd
    rw [happ.put, Ext4Fs.device_putInode happ.geometry hs.sane]
    apply Function.update_of_ne
    rintro rfl
    exact hd (Geometry.reserved_place (hs.sane.has_inodeArea happ.valid))
  have hres := happ.block.not_reserved
  refine ⟨b, hgeo', happ.reach, ?_, ?_, fun hz => hres (.inl hz), ?_, ?_⟩
  · exact (Geometry.field_congr hinode').trans happ.size
  · intro c hc
    obtain ⟨hne, fb, -, rfl⟩ := mem_dirBlocks.mp hc
    have href := Geometry.refs_fileBlock (rooted_inodeOf hs hdir) hs.sane hne
    rw [hdev' _ (hs.data _ _ _ href).not_reserved]
    exact hold fb hne
  · intro fb hfb
    rw [hgeo', Geometry.fileBlock_inode_congr fun k => Geometry.iBlock_congr hinode',
      happ.map _ hdev' fb ?_]
    · rfl
    · rcases hholes with hquiet | hind | hle
      · exact .inr (.inr (.inr hquiet))
      · exact .inr (.inr (.inl hind))
      · rcases hfb.lt_or_eq with hlt | rfl
        · exact .inl (hlt.trans_le hle)
        · exact .inr (.inl rfl)
  · intro i hi
    rw [hdev' b hres]
    exact happ.new i hi

theorem Appended.of_fs {s₁ : Ext4} {b : ℕ} {blk : Bytes} (h : Appended s₁ s' dirIno b blk)
    (hfs : s₁.fs = s.fs) : Appended s s' dirIno b blk := by
  obtain ⟨fs, kmallocs, ios⟩ := s
  obtain ⟨fs₁, kmallocs₁, ios₁⟩ := s₁
  obtain rfl : fs₁ = fs := hfs
  exact ⟨h.geometry, h.reach, h.size, h.old, h.ne_zero, h.map, h.new⟩

namespace Appended

variable {b : ℕ} {blk : Bytes} (h : Appended s s' dirIno b blk)
include h

theorem blockSize : s'.fs.blockSize = s.fs.blockSize := congrArg Geometry.blockSize h.geometry

theorem blocksIn_eq (n : ℕ) : s'.blocksIn n = s.blocksIn n := by
  rw [blocksIn, blocksIn, h.blockSize]

theorem map_range {n : ℕ} (hn : n ≤ s.blocksIn (s.sizeOf dirIno)) :
    (List.range n).map (s'.fs.geometry.fileBlock s'.fs.device (s'.inodeOf dirIno)) =
      (List.range n).map (s.fs.geometry.fileBlock s.fs.device (s.inodeOf dirIno)) := by
  apply List.map_congr_left
  intro fb hfb
  have hlt := List.mem_range.mp hfb
  rw [h.map fb (by omega), if_neg (by omega)]

theorem size_lt (hg : s.fs.geometry.Sane) (hsmall : s.fs.blockSize < 2 ^ 16) :
    s.sizeOf dirIno + s.fs.blockSize < 2 ^ 32 := size_lt_of_reach hg hsmall h.reach

theorem dirBlocks_eq (hpos : 0 < s.fs.blockSize)
    (hwrap : s.sizeOf dirIno + s.fs.blockSize < 2 ^ 32) :
    s'.dirBlocks dirIno = s.dirBlocks dirIno ++ [b] := by
  rw [dirBlocks, dirBlocks, h.size, Nat.mod_eq_of_lt hwrap, h.blocksIn_eq, blocksIn_add hpos, List.range_succ,
    List.map_append, List.filter_append, h.map_range le_rfl, List.map_singleton, h.map _ le_rfl,
    if_pos rfl, List.filter_cons_of_pos (by simpa using h.ne_zero), List.filter_nil]

theorem entries_old : (s.dirBlocks dirIno).flatMap (fun c => entries (s'.fs.device c) s'.fs.blockSize) =
    s.dirEntries dirIno :=
  List.flatMap_congr fun c hc => by rw [h.old c hc, h.blockSize]

theorem addsEntry {ino : ℕ} {name : Bytes} (hpos : 0 < s.fs.blockSize)
    (hwrap : s.sizeOf dirIno + s.fs.blockSize < 2 ^ 32) (hwf : s.DirWellFormed dirIno)
    (hblk : WellFormed blk s.fs.blockSize)
    (hentries : entries blk s.fs.blockSize = [((List.range (nameLength name)).map name, ino)]) :
    s.AddsEntry s' dirIno name ino := by
  have hblocks := h.dirBlocks_eq hpos hwrap
  obtain ⟨hblk', hentries'⟩ := hblk.congr h.new
  refine ⟨?_, s.dirEntries dirIno, [], (List.append_nil _).symm, ?_⟩
  · intro c hc
    rw [hblocks, List.mem_append, List.mem_singleton] at hc
    rw [h.blockSize]
    rcases hc with hc | rfl
    · rw [h.old c hc]
      exact hwf c hc
    · exact hblk'
  · rw [dirEntries, hblocks, List.flatMap_append, h.entries_old, List.flatMap_singleton, h.blockSize,
      hentries', hentries]

theorem not_addsEntry_of_wrap {ino : ℕ} {name : Bytes} (hlt : s.fs.blockSize < 2 ^ 32)
    (hwrap : 2 ^ 32 ≤ s.sizeOf dirIno + s.fs.blockSize) : ¬s.AddsEntry s' dirIno name ino := by
  rintro ⟨-, l₁, l₂, hold, hnew⟩
  have hle : s.blocksIn (s'.sizeOf dirIno) ≤ s.blocksIn (s.sizeOf dirIno) := by
    have hsize : s.sizeOf dirIno < 2 ^ 32 := Layout.get_lt
    have hmod : (s.sizeOf dirIno + s.fs.blockSize) % 2 ^ 32 ≤ s.sizeOf dirIno := by
      rw [Nat.mod_eq_sub_mod hwrap, Nat.mod_eq_of_lt (by omega)]
      omega
    rw [h.size, blocksIn, blocksIn]
    exact Nat.div_le_div_right (by omega)
  have hsub : (s'.dirBlocks dirIno).Sublist (s.dirBlocks dirIno) := by
    rw [dirBlocks, dirBlocks, h.blocksIn_eq, h.map_range hle]
    exact ((List.range_sublist.mpr hle).map _).filter _
  have hlen : (s'.dirEntries dirIno).length ≤ (s.dirEntries dirIno).length := by
    rw [← h.entries_old]
    exact (hsub.flatMap fun c => entries (s'.fs.device c) s'.fs.blockSize).length_le
  rw [hold, hnew, List.length_append, List.length_append, List.length_cons] at hlen
  omega

theorem not_addsEntry_of_recLen {ino : ℕ} {name : Bytes} (hle : 8 ≤ s.fs.blockSize)
    (hlt : s.fs.blockSize < 2 ^ 32) (hrec : recLen blk 0 = 0) : ¬s.AddsEntry s' dirIno name ino := by
  rcases Nat.lt_or_ge (s.sizeOf dirIno + s.fs.blockSize) (2 ^ 32) with hwrap | hwrap
  · intro hadds
    have hmem : b ∈ s'.dirBlocks dirIno := by
      rw [h.dirBlocks_eq (by omega) hwrap]
      exact List.mem_append_right _ (List.mem_singleton_self b)
    have hwf := hadds.1 b hmem
    rw [h.blockSize] at hwf
    refine not_wellFormed (by omega) (Eq.trans (dirGet_congr fun i hi => ?_) hrec) hwf
    rw [header_size] at hi
    exact h.new _ (by omega)
  · exact h.not_addsEntry_of_wrap hlt hwrap

end Appended

def FindsRoom (s : Ext4) (dirIno : ℕ) (name : Bytes) : Prop :=
  (scanDir (s.inodeOf dirIno) (entrySize (nameLength name))
    (List.range (s.blocksIn (s.sizeOf dirIno))) (s.readInode dirIno).2.kmalloc.2).1.isSome

theorem addDirEntry_steps {ino fileType : ℕ} {name : Bytes} {r : ℤ} (hg : s.fs.geometry.Sane)
    (h : s.addDirEntry dirIno name ino fileType = (r, s')) :
    r = -1 ∧ s'.fs = s.fs ∨
      (r = 0 ∧ s.FindsRoom dirIno name ∧ ∃ c ∈ s.dirBlocks dirIno, ∃ o,
        findSlack (s.fs.device c) s.fs.blockSize (entrySize (nameLength name)) s.fs.blockSize 0 = some o ∧
        s'.fs = s.fs.putBlock c (splitEntry (s.fs.device c) o ino fileType name)) ∨
      ¬s.FindsRoom dirIno name ∧ ∃ s₁ : Ext4, s₁.fs = s.fs ∧ Later s s₁ ∧
        s₁.appendDirBlock dirIno (s₁.inodeOf dirIno) name ino fileType = (r, s') := by
  unfold addDirEntry at h
  rcases hread : s.readInode dirIno with ⟨v?, s₁⟩
  obtain ⟨hfs₁, hlater₁, hsome, -⟩ := readInode_eq rfl hg hread
  rw [hread] at h
  dsimp only at h
  split at h
  · cases h
    exact .inl ⟨rfl, hfs₁⟩
  next v =>
  obtain ⟨-, rfl⟩ := hsome v rfl
  rcases hkm : s₁.kmalloc with ⟨ok, s₂⟩
  obtain ⟨hfs₂, hlater₂, -⟩ := kmalloc_eq hkm
  have hfs₂ := hfs₂.trans hfs₁
  rw [hkm] at h
  dsimp only at h
  split at h
  · cases h
    exact .inl ⟨rfl, hfs₂⟩
  have hblocks (n : ℕ) : s₂.blocksIn n = s.blocksIn n := by rw [blocksIn, blocksIn, hfs₂]
  rw [hblocks] at h
  generalize hres : scanDir (s.fs.geometry.inode s.fs.device dirIno) _ _ s₂ = res at h
  obtain ⟨found, s₃⟩ := res
  have hscan : scanDir (s.inodeOf dirIno) (entrySize (nameLength name))
    (List.range (s.blocksIn (s.sizeOf dirIno))) s₂ = (found, s₃) := hres
  have hroom : s.FindsRoom dirIno name ↔ found.isSome := by
    rw [FindsRoom, hread, hkm, hscan]
  obtain ⟨hfs₃, hlater₃, hfound⟩ := scanDir_eq (congrArg Ext4Fs.geometry hfs₂) hscan
  rw [hfs₂] at hfs₃ hfound
  dsimp only at h
  split at h
  · next c blk o =>
    obtain ⟨b, hb, hc, hne, rfl, ho⟩ := hfound c blk o rfl
    have hmem : c ∈ s.dirBlocks dirIno :=
      mem_dirBlocks.mpr ⟨hne, b, List.mem_range.mp hb, hc.symm⟩
    obtain ⟨-, ⟨rfl, hsame, -⟩ | ⟨rfl, hput⟩⟩ := writeBlockRaw_eq h
    · exact .inl ⟨rfl, hsame.trans hfs₃⟩
    · rw [hfs₃] at hput
      exact .inr (.inl ⟨rfl, hroom.mpr rfl, c, hmem, o, ho, hput⟩)
  · rw [← inodeOf, ← inodeOf_congr hfs₃] at h
    exact .inr (.inr ⟨fun hr => absurd (hroom.mp hr) (by simp), s₃, hfs₃,
      hlater₁.trans (hlater₂.trans hlater₃), h⟩)

theorem addDirEntry_cases {ino fileType : ℕ} {name : Bytes} (hs : s.fs.Consistent)
    (hdir : dirIno ∈ s.fs.live) (hwf : s.DirWellFormed dirIno) (hino : ino < 2 ^ 32)
    (hholes : s.KeepsHoles dirIno) (h : s.addDirEntry dirIno name ino fileType = (0, s')) :
    s.FindsRoom dirIno name ∧ s.AddsEntry s' dirIno name ino ∨
      ¬s.FindsRoom dirIno name ∧
        ∃ b, Appended s s' dirIno b (putEntry (fun _ => 0) 0 ino s.fs.blockSize fileType name) := by
  rcases addDirEntry_steps hs.sane h with
    ⟨hret, -⟩ | ⟨-, hroom, c, hc, o, ho, hput⟩ | ⟨hroom, s₁, hfs₁, hlater, happend⟩
  · cases hret
  · exact .inl ⟨hroom, addsEntry_of_split hs hdir hwf hino hc ho hput⟩
  · obtain ⟨b, happ⟩ := appendDirBlock_appended (hfs₁ ▸ hs) (hfs₁ ▸ hdir)
      (hholes.later hlater hfs₁) happend
    rw [hfs₁] at happ
    exact .inr ⟨hroom, b, happ.of_fs hfs₁⟩

theorem blockSize_bounds {n : ℕ} (h : ∃ k < 22, n = 1024 <<< k) :
    1024 ≤ n ∧ n < 2 ^ 32 ∧ (n < 2 ^ 16 ∨ n % 2 ^ 16 = 0) := by
  obtain ⟨k, hk, rfl⟩ := h
  rw [Nat.shiftLeft_eq]
  have hle : 2 ^ 0 ≤ 2 ^ k := Nat.pow_le_pow_right (by decide) (Nat.zero_le k)
  have hlt : 2 ^ k ≤ 2 ^ 21 := Nat.pow_le_pow_right (by decide) (Nat.le_of_lt_succ hk)
  refine ⟨by omega, by omega, ?_⟩
  rcases Nat.lt_or_ge k 6 with hk' | hk'
  · have hsmall : 2 ^ k ≤ 2 ^ 5 := Nat.pow_le_pow_right (by decide) (Nat.le_of_lt_succ hk')
    exact .inl (by omega)
  · obtain ⟨j, rfl⟩ := Nat.exists_eq_add_of_le hk'
    rw [pow_add, ← Nat.mul_assoc]
    exact .inr (Nat.mul_mod_right _ _)

/-- Adding an entry keeps a directory well formed and adds just the entry, unless the entry needs a
new block whose size does not fit the 16 bits of `rec_len`. -/
theorem add_dir_entry_iff {ino fileType : ℕ} {name : Bytes} (hs : s.fs.Consistent)
    (hdir : dirIno ∈ s.fs.live) (hsize : ∃ k < 22, s.fs.blockSize = 1024 <<< k)
    (hwf : s.DirWellFormed dirIno) (hino : ino < 2 ^ 32) (hholes : s.KeepsHoles dirIno)
    (h : s.addDirEntry dirIno name ino fileType = (0, s')) :
    s.AddsEntry s' dirIno name ino ↔ s.fs.blockSize < 2 ^ 16 ∨ s.FindsRoom dirIno name := by
  obtain ⟨hle, hlt, hwraps⟩ := blockSize_bounds hsize
  rcases addDirEntry_cases hs hdir hwf hino hholes h with ⟨hroom, hadds⟩ | ⟨hroom, b, happ⟩
  · exact ⟨fun _ => .inr hroom, fun _ => hadds⟩
  · rw [or_iff_left hroom]
    constructor
    · intro hadds
      by_contra hbig
      refine happ.not_addsEntry_of_recLen (by omega) (by omega) ?_ hadds
      rw [recLen_putEntry]
      exact hwraps.resolve_left hbig
    · intro hsmall
      obtain ⟨hblk, hentries⟩ := putEntry_wellFormed (fun _ => 0) name fileType hino
        (by omega : 264 ≤ s.fs.blockSize) hs.sane.four_dvd hsmall
      exact happ.addsEntry (by omega) (happ.size_lt hs.sane hsmall) hwf hblk hentries

/-- The sample after a file `a` is created in its root directory. -/
def withA : Ext4 := (sample.call (.create 2 nameA 0x8000)).2

def nameB : Bytes := fun i => if i = 0 then 98 else 0

theorem withA_ready :
    withA.fs.Consistent ∧ withA.kmallocs = [] ∧ withA.ios = [] ∧ withA.DirWellFormed 2 := by
  have hcreate : sample.Gentle (.create 2 nameA 0x8000) := ⟨fun _ => by decide +kernel, .inl rfl⟩
  obtain ⟨hs, hio⟩ : withA.fs.Consistent ∧ withA.ios = [] := by
    rw [withA]
    exact call_consistent sampleFs_consistent rfl hcreate
  refine ⟨hs, by decide +kernel, hio, fun c hc => ?_⟩
  have hblocks : withA.dirBlocks 2 = [7] := by decide +kernel
  rw [hblocks] at hc
  obtain rfl := List.mem_singleton.mp hc
  have hrecords : records (withA.fs.device 7) withA.fs.blockSize = [0] := by decide +kernel
  have hlen : recLen (withA.fs.device 7) 0 = 1024 ∧ nameLen (withA.fs.device 7) 0 = 1 ∧
      withA.fs.blockSize = 1024 := by decide +kernel
  obtain ⟨hrec, hname, hsize⟩ := hlen
  refine ⟨?_, fun o ho => ?_, fun o ho => ?_⟩
  · rw [hrecords, hsize]
    exact ⟨rfl, by rw [hrec]; decide, by rw [hrec]; rfl⟩
  · rw [hrecords] at ho
    obtain rfl := List.mem_singleton.mp ho
    rw [hrec]
    decide
  · rw [hrecords] at ho
    obtain rfl := List.mem_singleton.mp ho
    rw [hrec, hname]
    decide

theorem add_dir_entry_second : withA.FindsRoom 2 nameB ∧
    ∃ s', withA.addDirEntry 2 nameB 4 1 = (0, s') ∧ withA.AddsEntry s' 2 nameB 4 := by
  obtain ⟨hs, hkm, hio, hwf⟩ := withA_ready
  have hret : (withA.addDirEntry 2 nameB 4 1).1 = 0 := by decide +kernel
  have hroom : withA.FindsRoom 2 nameB := by
    rw [FindsRoom]
    decide +kernel
  rcases hcall : withA.addDirEntry 2 nameB 4 1 with ⟨r, s'⟩
  rw [hcall] at hret
  obtain rfl : r = 0 := hret
  exact ⟨hroom, s', rfl, (add_dir_entry_iff hs (by decide +kernel) ⟨0, by decide, by decide +kernel⟩ hwf
    (by decide) (.inl ⟨hkm, hio⟩) hcall).mpr (.inr hroom)⟩

end Ext4

/-- With large blocks, the mount takes the superblock and the group descriptors from the same bytes
of block 1. -/
def largeSuper : Bytes :=
  [(DescField.blockBitmapLo, 16), (.inodeTableLo, 20), (.freeBlocksCountLo, 60),
    (.freeInodesCountLo, 14)].foldl (fun sb x => ext4GroupDesc.set sb 0 x.1 x.2)
    ([(SuperField.blocksCountLo, 64), (.logBlockSize, 6), (.blocksPerGroup, 64),
      (.inodesPerGroup, 16), (.magic, 0xEF53)].foldl
      (fun sb x => ext4Superblock.set sb 0 x.1 x.2) fun _ => 0)

/-- One group of 64 blocks of 65536 bytes, with an empty root directory: the bitmaps in blocks 16
and 64, the inodes in block 20. -/
def largeDevice : ℕ → Bytes
  | 1, i => largeSuper i
  | 16, 0 => 0x03
  | 16, 2 => 0x11
  | 20, i => ext4Inode.set (ext4Inode.set (fun _ => 0) 128 .mode ext4SIfdir) 128 .linksCount 2 i
  | 64, 0 => 0x03
  | _, _ => 0

def largeFs : Ext4Fs where
  sb := largeSuper
  blockSize := 65536
  blocksPerGroup := 64
  inodesPerGroup := 16
  inodeSize := 128
  groupCount := 1
  descSize := 32
  groupDescs _ := largeSuper
  device := largeDevice

def large : Ext4 := ⟨largeFs, [], []⟩

theorem largeFs_place {a : Area} (ha : largeFs.geometry.Has a) :
    a = .blockBitmap 0 ∧ largeFs.geometry.place a = 16 ∨
      a = .inodeBitmap 0 ∧ largeFs.geometry.place a = 64 ∨
      a = .inodeTable 0 0 ∧ largeFs.geometry.place a = 20 := by
  cases a with
  | blockBitmap group =>
    obtain rfl : group = 0 := Nat.lt_one_iff.mp ha
    exact .inl ⟨rfl, by decide +kernel⟩
  | inodeBitmap group =>
    obtain rfl : group = 0 := Nat.lt_one_iff.mp ha
    exact .inr (.inl ⟨rfl, by decide +kernel⟩)
  | inodeTable group j =>
    obtain ⟨hgroup, hj⟩ := ha
    obtain rfl : group = 0 := Nat.lt_one_iff.mp hgroup
    have hj : j * 65536 < 16 * 128 := hj
    obtain rfl : j = 0 := by omega
    exact .inr (.inr ⟨rfl, by decide +kernel⟩)

theorem largeFs_sane : largeFs.geometry.Sane where
  blockSize_pos := by decide
  four_dvd := by decide
  perGroup_pos := by decide
  perGroup_le := by decide
  inodes_pos := by decide
  inodes_le := by decide
  inodeSize_le := by decide
  inodeSize_dvd := by decide
  blocks_le := by decide +kernel
  inodes_lt := by decide
  table_le := by decide
  apart := by
    intro a a' ha ha' heq
    rcases largeFs_place ha with ⟨rfl, h⟩ | ⟨rfl, h⟩ | ⟨rfl, h⟩ <;>
      rcases largeFs_place ha' with ⟨rfl, h'⟩ | ⟨rfl, h'⟩ | ⟨rfl, h'⟩ <;>
      first | rfl | (exfalso; omega)

theorem largeFs_consistent : largeFs.Consistent := by
  apply Ext4Fs.consistent_of_no_block largeFs_sane
  · rintro b (rfl | ⟨a, ha, rfl⟩) hrange
    · decide +kernel
    · rcases largeFs_place ha with ⟨-, h⟩ | ⟨-, h⟩ | ⟨-, h⟩
      · rw [h]
        decide +kernel
      · have hend : ¬largeFs.geometry.InRange 64 := by
          rw [Geometry.InRange]
          decide +kernel
        rw [h] at hrange
        exact absurd hrange hend
      · rw [h]
        decide +kernel
  · rintro ino ⟨⟨hino, hgroup⟩, -⟩
    have hblank : ∀ ino < 17, ∀ k : Fin 15,
        iBlock (largeFs.geometry.inode largeFs.device ino) k = 0 := by decide +kernel
    have hgroup : (ino - 1) / 16 < 1 := hgroup
    exact hblank ino (by omega)

namespace Ext4

/-- The first entry of a directory with blocks of 65536 bytes: its record has length 0. -/
theorem rec_len_wraps :
    Fs.large.fs.Consistent ∧ 2 ∈ Fs.large.fs.live ∧ Fs.large.fs.blockSize = 1024 <<< 6 ∧
      Fs.large.DirWellFormed 2 ∧ Fs.large.kmallocs = [] ∧ Fs.large.ios = [] ∧
      ∃ s', Fs.large.addDirEntry 2 nameA 3 1 = (0, s') ∧ ¬Fs.large.AddsEntry s' 2 nameA 3 := by
  have hempty : Fs.large.dirBlocks 2 = [] := by decide +kernel
  have hafter : (Fs.large.addDirEntry 2 nameA 3 1).1 = 0 ∧
      2 ∈ (Fs.large.addDirEntry 2 nameA 3 1).2.dirBlocks 2 ∧
      recLen ((Fs.large.addDirEntry 2 nameA 3 1).2.fs.device 2) 0 = 0 ∧
      (Fs.large.addDirEntry 2 nameA 3 1).2.fs.blockSize = 65536 := by decide +kernel
  rcases hcall : Fs.large.addDirEntry 2 nameA 3 1 with ⟨r, s'⟩
  rw [hcall] at hafter
  obtain ⟨hret, hmem, hrec, hsize⟩ := hafter
  obtain rfl : r = 0 := hret
  refine ⟨largeFs_consistent, by decide +kernel, by decide, ?_, rfl, rfl, s', rfl, ?_⟩
  · intro c hc
    rw [hempty] at hc
    cases hc
  · rintro ⟨hwf, -⟩
    exact not_wellFormed (by rw [hsize]; decide) hrec (hwf 2 hmem)

end Ext4

end GcAos.Fs
