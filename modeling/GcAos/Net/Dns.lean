import Mathlib.Data.List.Basic
import Mathlib.Tactic.Ring

/-! Names in DNS messages, from `kernel/net/dns.c`: hostnames are strings with dots, and a message holds
their labels with a length byte before each. -/

namespace GcAos.Dns

/-- A string of C, without its null byte. -/
structure CString where
  bytes : List UInt8
  noNull : 0 ∉ bytes

def dot : UInt8 := 46
def dnsMaxNameLen : ℕ := 255

/-- A `size_t` returned as an `int`. -/
def toInt (n : ℕ) : ℤ := (BitVec.ofNat 32 n).toInt

def putLabel (bufLen : ℕ) (buf label : List UInt8) : Option (List UInt8) :=
  if bufLen ≤ buf.length + 1 + label.length then none
  else some (buf ++ UInt8.ofNat label.length :: label)

/-- The loop over the rest of the name, with the bytes from `label_start` on that it has passed. -/
def encodeLabels (bufLen : ℕ) : List UInt8 → List UInt8 → List UInt8 → Option (List UInt8 × List UInt8)
  | [], label, buf => some (label, buf)
  | c :: rest, label, buf =>
    if c = dot then do
      let buf ← putLabel bufLen buf label
      encodeLabels bufLen rest [] buf
    else encodeLabels bufLen rest (label ++ [c]) buf

/-- The bytes that `dns_encode_name` writes, if they fit. -/
def encodeName (name : CString) (bufLen : ℕ) : Option (List UInt8) := do
  let (label, buf) ← encodeLabels bufLen name.bytes [] []
  let buf ← if 0 < label.length then putLabel bufLen buf label else some buf
  some (buf ++ [0])

/-- The result, and the buffer if it is not -1 for an error. -/
def dnsEncodeName (name : CString) (bufLen : ℕ) : ℤ × List UInt8 :=
  match encodeName name bufLen with
  | none => (-1, [])
  | some buf => (toInt buf.length, buf)

/-- The variables of the loop of `dns_decode_name`; `name` is what is written of the name buffer. -/
structure Decoder where
  offset : ℕ
  name : List UInt8
  readLen : ℕ
  jumped : Bool

namespace Decoder

def lastIndex (nameLen : ℕ) : ℕ := if nameLen = 0 then 2 ^ 64 - 1 else nameLen - 1

def push (d : Decoder) (nameLen : ℕ) (c : UInt8) : Decoder :=
  if d.name.length < lastIndex nameLen then { d with name := d.name ++ [c] } else d

def copyLabel (response : List UInt8) (nameLen : ℕ) : ℕ → Decoder → Decoder
  | 0, d => d
  | left + 1, d =>
    match response[d.offset]? with
    | none => d
    | some c =>
      let d := d.push nameLen c
      copyLabel response nameLen left { d with offset := d.offset + 1 }

def label (d : Decoder) (response : List UInt8) (nameLen : ℕ) (len : UInt8) : Decoder :=
  let d := { d with readLen := if d.jumped then d.readLen else d.readLen + (1 + len.toNat) }
  let d := { d with offset := d.offset + 1 }
  let d := if 0 < d.name.length then d.push nameLen dot else d
  copyLabel response nameLen len.toNat d

def pointer (d : Decoder) (len next : UInt8) : Decoder where
  offset := (len.toNat &&& 0x3F) <<< 8 ||| next.toNat
  name := d.name
  readLen := if d.jumped then d.readLen else d.readLen + 2
  jumped := true

/-- The outer loop, for `fuel` rounds: the `int` returned and the name, or `none` if it goes on. -/
def loop (response : List UInt8) (nameLen : ℕ) : ℕ → Decoder → Option (ℤ × List UInt8)
  | 0, _ => none
  | fuel + 1, d =>
    match response[d.offset]? with
    | none => some (toInt d.readLen, d.name)
    | some len =>
      if len = 0 then some (toInt (if d.jumped then d.readLen else d.readLen + 1), d.name)
      else if len &&& 0xC0 = 0xC0 then
        match response[d.offset + 1]? with
        | none => some (-1, d.name)
        | some next => loop response nameLen fuel (d.pointer len next)
      else loop response nameLen fuel (d.label response nameLen len)

end Decoder

def dnsDecodeName (fuel : ℕ) (response : List UInt8) (offset nameLen : ℕ) : Option (ℤ × List UInt8) :=
  Decoder.loop response nameLen fuel ⟨offset, [], 0, false⟩

/-- What is encoded is decoded, all of it, to the name with at most one dot at the end taken away. -/
def RoundTrip (name : CString) (bufLen : ℕ) : Prop :=
  (dnsEncodeName name bufLen).1 = -1 ∨
    ∃ n : ℕ, (dnsEncodeName name bufLen).1 = n ∧
      ∀ nameLen, name.bytes.length < nameLen →
        ∃ fuel out,
          dnsDecodeName fuel ((dnsEncodeName name bufLen).2.take n) 0 nameLen = some ((n : ℤ), out) ∧
            (out = name.bytes ∨ out ++ [dot] = name.bytes)

def CString.stripped (name : CString) : List UInt8 :=
  if name.bytes.getLast? = some dot then name.bytes.dropLast else name.bytes

def CString.labels (name : CString) : List (List UInt8) := name.stripped.splitOn dot

def wire (ls : List (List UInt8)) : List UInt8 := ls.flatMap fun l => UInt8.ofNat l.length :: l

section Encode

variable {name : CString} {bufLen : ℕ} {ls : List (List UInt8)} {l last buf rest label : List UInt8}

@[simp] theorem wire_nil : wire [] = [] := rfl

@[simp] theorem wire_cons : wire (l :: ls) = UInt8.ofNat l.length :: (l ++ wire ls) := rfl

theorem wire_append {ls' : List (List UInt8)} : wire (ls ++ ls') = wire ls ++ wire ls' :=
    List.flatMap_append

theorem wire_length (ls : List (List UInt8)) (h : ls ≠ []) :
    (wire ls).length = ([dot].intercalate ls).length + 1 := by
  induction ls with
  | nil => exact absurd rfl h
  | cons l ls ih =>
    cases ls with
    | nil => simp [List.intercalate]
    | cons l' ls =>
      rw [wire_cons, List.length_cons, List.length_append, ih (by simp), List.intercalate_cons_cons]
      simp

theorem intercalate_concat (h : ls ≠ []) :
    [dot].intercalate (ls ++ [l]) = [dot].intercalate ls ++ dot :: l := by
  induction ls with
  | nil => exact absurd rfl h
  | cons l' ls ih =>
    cases ls with
    | nil => simp [List.intercalate]
    | cons l'' ls =>
      have hih := ih (by simp)
      rw [List.cons_append, List.cons_append, List.intercalate_cons_cons, List.intercalate_cons_cons,
        ← List.cons_append, hih]
      simp

theorem intercalate_append_last (ls : List (List UInt8)) (xs ys : List UInt8) :
    [dot].intercalate (ls ++ [xs ++ ys]) = [dot].intercalate (ls ++ [xs]) ++ ys := by
  by_cases hnil : ls = []
  · simp [hnil]
  · rw [intercalate_concat hnil, intercalate_concat hnil]
    simp

theorem intercalate_isPrefix (ls ls' : List (List UInt8)) (h : ls ≠ []) :
    [dot].intercalate ls <+: [dot].intercalate (ls ++ ls') := by
  induction ls' generalizing ls with
  | nil => simp
  | cons l' ls' ih =>
    rw [List.append_cons]
    refine List.IsPrefix.trans ?_ (ih _ (by simp))
    rw [intercalate_concat h]
    exact List.prefix_append ..

theorem foldlM_putLabel (ls : List (List UInt8)) (buf : List UInt8) :
    ls.foldlM (putLabel bufLen) buf =
      if ls ≠ [] ∧ bufLen ≤ buf.length + (wire ls).length then none else some (buf ++ wire ls) := by
  induction ls generalizing buf with
  | nil => simp
  | cons l ls ih =>
    rw [List.foldlM_cons, wire_cons]
    unfold putLabel
    by_cases hfull : bufLen ≤ buf.length + 1 + l.length
    · have hmore : bufLen ≤ buf.length + (UInt8.ofNat l.length :: (l ++ wire ls)).length := by
        rw [List.length_cons, List.length_append]
        omega
      rw [if_pos hfull, if_pos ⟨by simp, hmore⟩]
      rfl
    · rw [if_neg hfull]
      refine (ih _).trans ?_
      cases ls with
      | nil =>
        have hfits : ¬bufLen ≤ buf.length + (UInt8.ofNat l.length :: (l ++ wire [])).length := by
          simp
          omega
        rw [if_neg (by simp), if_neg fun hc => hfits hc.2]
        simp
      | cons l' ls =>
        have hlen : (buf ++ UInt8.ofNat l.length :: l).length + (wire (l' :: ls)).length =
            buf.length + (UInt8.ofNat l.length :: (l ++ wire (l' :: ls))).length := by
          simp
          omega
        rw [hlen]
        simp

theorem encodeLabels_eq (rest label buf : List UInt8) (hlabel : dot ∉ label)
    (hsplit : (label ++ rest).splitOn dot = ls ++ [last]) :
    encodeLabels bufLen rest label buf = (ls.foldlM (putLabel bufLen) buf).map fun buf =>
      (last, buf) := by
  induction rest generalizing label buf ls with
  | nil =>
    rw [List.append_nil, List.splitOn_eq_singleton hlabel] at hsplit
    obtain ⟨rfl, rfl⟩ : ls = [] ∧ last = label := by
      cases ls with
      | nil => simpa using hsplit.symm
      | cons => simp at hsplit
    rfl
  | cons c rest ih =>
    unfold encodeLabels
    by_cases hc : c = dot
    · subst hc
      rw [if_pos rfl]
      rw [List.splitOn_append_cons_self_of_not_mem hlabel] at hsplit
      obtain ⟨ls', rfl⟩ : ∃ ls', ls = label :: ls' := by
        cases ls with
        | nil => exact absurd (List.tail_eq_of_cons_eq hsplit) (List.splitOn_ne_nil _ _)
        | cons l' ls => exact ⟨ls, by rw [(List.cons.inj hsplit).1]⟩
      have htail : rest.splitOn dot = ls' ++ [last] := List.tail_eq_of_cons_eq hsplit
      rw [List.foldlM_cons]
      cases putLabel bufLen buf label with
      | none => rfl
      | some buf => exact ih [] buf (by simp) htail
    · rw [if_neg hc]
      apply ih
      · rw [List.mem_append, not_or]
        exact ⟨hlabel, fun hmem => hc (List.mem_singleton.mp hmem).symm⟩
      · rwa [List.append_assoc]

theorem CString.intercalate_labels (name : CString) : [dot].intercalate name.labels = name.stripped :=
  List.intercalate_splitOn dot

theorem CString.labels_cases (hname : name.bytes ≠ []) :
    name.bytes.splitOn dot = name.labels ++ [[]] ∨
      ∃ ls last, last ≠ [] ∧ name.bytes.splitOn dot = ls ++ [last] ∧ name.labels = ls ++ [last] := by
  unfold labels stripped
  split
  · next hlast =>
    left
    obtain ⟨xs, hxs⟩ := List.getLast?_eq_some_iff.mp hlast
    rw [hxs, List.dropLast_concat, List.splitOn_append_cons_self]
    rfl
  · next hlast =>
    right
    obtain ⟨ls, last, hls⟩ := (List.eq_nil_or_concat _).resolve_left
        (List.splitOn_ne_nil dot name.bytes)
    rw [List.concat_eq_append] at hls
    refine ⟨ls, last, ?_, hls, hls⟩
    rintro rfl
    -- the name would be empty or end in a dot
    have hjoin : [dot].intercalate (name.bytes.splitOn dot) = name.bytes := List.intercalate_splitOn dot
    rw [hls] at hjoin
    by_cases hnil : ls = []
    · rw [hnil] at hjoin
      exact hname hjoin.symm
    · rw [intercalate_concat hnil] at hjoin
      rw [← hjoin] at hlast
      exact hlast (by simp)

theorem CString.labels_ne_nil (name : CString) : name.labels ≠ [] := List.splitOn_ne_nil dot _

theorem encodeName_eq (hname : name.bytes ≠ []) : encodeName name bufLen =
    if bufLen < name.stripped.length + 2 then none else some (wire name.labels ++ [0]) := by
  have hlen : (wire name.labels).length = name.stripped.length + 1 := by
    rw [wire_length _ name.labels_ne_nil, name.intercalate_labels]
  have hput : name.labels.foldlM (putLabel bufLen) [] =
      if bufLen < name.stripped.length + 2 then none else some (wire name.labels) := by
    rw [foldlM_putLabel, hlen]
    have hiff : name.labels ≠ [] ∧ bufLen ≤ ([] : List UInt8).length + (name.stripped.length + 1) ↔
        bufLen < name.stripped.length + 2 := by
      rw [and_iff_right name.labels_ne_nil, List.length_nil]
      omega
    rw [if_congr hiff rfl rfl]
    rfl
  unfold encodeName
  rcases CString.labels_cases hname with hsplit | ⟨ls, last, hlast, hsplit, hlabels⟩
  · rw [encodeLabels_eq name.bytes [] [] (by simp) hsplit, hput]
    split <;> rfl
  · rw [encodeLabels_eq name.bytes [] [] (by simp) hsplit]
    rw [hlabels, List.foldlM_append] at hput
    have hpos : 0 < last.length := List.length_pos_of_ne_nil hlast
    cases hfold : ls.foldlM (putLabel bufLen) [] with
    | none =>
      rw [hfold] at hput
      split
      · rfl
      · next hfits =>
        rw [if_neg hfits] at hput
        exact absurd hput (by simp)
    | some buf =>
      rw [hfold] at hput
      have hlast' : putLabel bufLen buf last =
          if bufLen < name.stripped.length + 2 then none else some (wire (ls ++ [last])) := by
        rw [← hput]
        simp
      simp only [Option.map_some, Option.bind_eq_bind, Option.bind_some, if_pos hpos]
      rw [hlast', hlabels]
      split <;> rfl

end Encode

section Decode

variable {response : List UInt8} {nameLen fuel : ℕ} {ls : List (List UInt8)} {chunk post : List UInt8}
  {b : UInt8} {d : Decoder} {r : ℤ × List UInt8}

namespace Decoder

theorem push_eq (hlt : d.name.length + 1 < nameLen) (c : UInt8) :
    d.push nameLen c = { d with name := d.name ++ [c] } := by
  have hlast : lastIndex nameLen = nameLen - 1 := if_neg (by omega)
  unfold push
  rw [hlast, if_pos (by omega)]

theorem copyLabel_eq (hdrop : response.drop d.offset = chunk ++ post)
    (hlen : d.name.length + chunk.length < nameLen) :
    copyLabel response nameLen chunk.length d =
      { d with offset := d.offset + chunk.length, name := d.name ++ chunk } := by
  induction chunk generalizing d with
  | nil => simp [copyLabel]
  | cons c chunk ih =>
    have hget : response[d.offset]? = some c := by
      rw [← List.head?_drop, hdrop]
      rfl
    rw [List.length_cons] at hlen ⊢
    unfold copyLabel
    rw [hget]
    dsimp only
    rw [push_eq (by omega), ih]
    · simp [Nat.add_assoc, Nat.add_comm 1]
    · dsimp only
      rw [← List.tail_drop, hdrop]
      rfl
    · simp
      omega

/-- The loop has read the labels `ls` from the start. -/
def reading (ls : List (List UInt8)) : Decoder :=
  ⟨(wire ls).length, [dot].intercalate ls, (wire ls).length, false⟩

theorem reading_dot (hls : ∀ l ∈ ls, l ≠ [])
    (hlen : ([dot].intercalate (ls ++ [chunk])).length < nameLen)
    (d : Decoder) (hd : d.name = [dot].intercalate ls) :
    ∃ name, (if 0 < d.name.length then d.push nameLen dot else d) = { d with name := name } ∧
      name ++ chunk = [dot].intercalate (ls ++ [chunk]) := by
  by_cases hnil : ls = []
  · subst hnil
    rw [hd, if_neg (by simp)]
    exact ⟨d.name, rfl, by simp [hd]⟩
  · have hpos : 0 < d.name.length := by
      obtain ⟨l, ls, rfl⟩ := List.exists_cons_of_ne_nil hnil
      have hl := List.length_pos_of_ne_nil (hls l List.mem_cons_self)
      have hlen := wire_length (l :: ls) (by simp)
      rw [hd]
      rw [wire_cons, List.length_cons, List.length_append] at hlen
      omega
    rw [intercalate_concat hnil, List.length_append, List.length_cons, ← hd] at hlen
    refine ⟨d.name ++ [dot], ?_, by simp [intercalate_concat hnil, hd]⟩
    rw [if_pos hpos, push_eq (by omega)]

theorem reading_label (hresponse : response = wire ls ++ b :: (chunk ++ post))
    (hb : b.toNat = chunk.length)
    (hls : ∀ l ∈ ls, l ≠ []) (hlen : ([dot].intercalate (ls ++ [chunk])).length < nameLen) :
    (reading ls).label response nameLen b = reading (ls ++ [chunk]) := by
  unfold label
  dsimp only
  obtain ⟨name, hdot, hname⟩ := reading_dot hls hlen
    ⟨(wire ls).length + 1, [dot].intercalate ls, (wire ls).length + (1 + b.toNat), false⟩ rfl
  have hread : (if (reading ls).jumped = true then (reading ls).readLen
      else (reading ls).readLen + (1 + b.toNat)) = (wire ls).length + (1 + b.toNat) := rfl
  have hwire : (wire (ls ++ [chunk])).length = (wire ls).length + (1 + chunk.length) := by
    rw [wire_append, List.length_append]
    simp
    omega
  rw [← hname, List.length_append] at hlen
  rw [hread]
  refine Eq.trans (congrArg _ hdot) ?_
  have hdrop : response.drop ((wire ls).length + 1) = chunk ++ post := by
    rw [hresponse]
    simp [← List.drop_drop]
  rw [hb, copyLabel_eq hdrop hlen]
  unfold reading
  rw [hwire, ← hname]
  simp [Nat.add_assoc]

theorem isPointer_iff (b : UInt8) : b &&& 0xC0 = 0xC0 ↔ 192 ≤ b.toNat := by
  cases b with
  | ofBitVec v =>
    revert v
    decide

theorem reading_getElem (hresponse : response = wire ls ++ b :: post) :
    response[(reading ls).offset]? = some b := by
  rw [hresponse]
  simp [reading]

theorem loop_reading (hresponse : response = wire ls ++ b :: (chunk ++ post))
    (hb : b.toNat = chunk.length)
    (hpos : 0 < chunk.length) (hle : chunk.length ≤ 191) (hls : ∀ l ∈ ls, l ≠ [])
    (hlen : ([dot].intercalate (ls ++ [chunk])).length < nameLen) :
    loop response nameLen (fuel + 1) (reading ls) = loop response nameLen fuel
      (reading (ls ++ [chunk])) := by
  have hzero : b ≠ 0 := by
    rintro rfl
    exact absurd hb (Nat.ne_of_lt hpos)
  have hpointer : ¬b &&& 0xC0 = 0xC0 := by
    rw [isPointer_iff]
    omega
  conv_lhs => unfold loop
  rw [reading_getElem hresponse]
  dsimp only
  rw [if_neg hzero, if_neg hpointer, reading_label hresponse hb hls hlen]

theorem loop_end (hresponse : response = wire ls ++ 0 :: post) :
    loop response nameLen (fuel + 1) (reading ls) =
    some (toInt ((wire ls).length + 1), [dot].intercalate ls) := by
  conv_lhs => unfold loop
  rw [reading_getElem hresponse]
  rfl

def Proper (l : List UInt8) : Prop := 1 ≤ l.length ∧ l.length ≤ 191

theorem loop_proper {l : List UInt8} (ls' : List (List UInt8)) (hl : Proper l)
    (hresponse : response = wire (ls ++ l :: ls') ++ post) (hls : ∀ l ∈ ls, Proper l)
    (hlen : ([dot].intercalate (ls ++ l :: ls')).length < nameLen) :
    loop response nameLen (fuel + 1) (reading ls) = loop response nameLen fuel
      (reading (ls ++ [l])) := by
  have hbyte : response = wire ls ++ UInt8.ofNat l.length :: (l ++ (wire ls' ++ post)) := by
    rw [hresponse, wire_append]
    simp
  refine loop_reading hbyte ?_ hl.1 hl.2 ?_ ?_
  · have := hl.2
    rw [UInt8.toNat_ofNat']
    omega
  · rintro l hmem rfl
    exact absurd (hls [] hmem).1 (by simp)
  · have hwire := wire_length (ls ++ l :: ls') (by simp)
    have hwire' := wire_length (ls ++ [l]) (by simp)
    rw [wire_append, List.length_append, wire_cons, List.length_cons,
      List.length_append] at hwire hwire'
    rw [wire_nil, List.length_nil] at hwire'
    omega

theorem loop_labels (ls ls' ls'' : List (List UInt8)) (post : List UInt8)
    (hls : ∀ l ∈ ls ++ ls', Proper l)
    (hresponse : response = wire (ls ++ (ls' ++ ls'')) ++ post)
    (hlen : ([dot].intercalate (ls ++ (ls' ++ ls''))).length < nameLen) :
    loop response nameLen (fuel + ls'.length) (reading ls) =
      loop response nameLen fuel (reading (ls ++ ls')) := by
  induction ls' generalizing ls with
  | nil => simp
  | cons l ls' ih =>
    have hl : Proper l := hls l (by simp)
    rw [List.length_cons, ← Nat.add_assoc,
      loop_proper (ls' ++ ls'') hl hresponse (fun l hl => hls l (List.mem_append_left _ hl)) hlen]
    rw [List.cons_append, List.append_cons] at hresponse hlen
    rw [List.append_cons ls l ls'] at hls ⊢
    exact ih _ hls hresponse hlen

theorem loop_mono (k : ℕ) (hloop : loop response nameLen fuel d = some r) :
    loop response nameLen (fuel + k) d = some r := by
  induction fuel generalizing d with
  | zero => exact absurd hloop (by simp [loop])
  | succ fuel ih =>
    rw [Nat.add_right_comm]
    unfold loop at hloop ⊢
    split
    · next hend => rwa [hend] at hloop
    · next len hlen =>
      rw [hlen] at hloop
      dsimp only at hloop
      split
      · next hzero => rwa [if_pos hzero] at hloop
      · next hzero =>
        rw [if_neg hzero] at hloop
        split
        · next hpointer =>
          rw [if_pos hpointer] at hloop
          split
          · next hnone => rwa [hnone] at hloop
          · next next hnext =>
            rw [hnext] at hloop
            exact ih hloop
        · next hpointer =>
          rw [if_neg hpointer] at hloop
          exact ih hloop

theorem loop_succ_cases (hloop : loop response nameLen (fuel + 1) d = some r) :
    (r.2 = d.name ∧ (r.1 = -1 ∨ r.1 = toInt d.readLen ∨
      d.jumped = false ∧ r.1 = toInt (d.readLen + 1))) ∨
      (∃ len next, loop response nameLen fuel (d.pointer len next) = some r) ∨
      ∃ len, loop response nameLen fuel (d.label response nameLen len) = some r := by
  unfold loop at hloop
  split at hloop
  · obtain rfl := Option.some.inj hloop
    exact .inl ⟨rfl, .inr (.inl rfl)⟩
  · next len _ =>
    split at hloop
    · obtain rfl := Option.some.inj hloop
      refine .inl ⟨rfl, .inr ?_⟩
      cases hjumped : d.jumped with
      | false => exact .inr ⟨rfl, rfl⟩
      | true => exact .inl rfl
    · split at hloop
      · split at hloop
        · obtain rfl := Option.some.inj hloop
          exact .inl ⟨rfl, .inl rfl⟩
        · next next _ => exact .inr (.inl ⟨len, next, hloop⟩)
      · exact .inr (.inr ⟨len, hloop⟩)

theorem push_same (d : Decoder) (nameLen : ℕ) (c : UInt8) :
    (d.push nameLen c).readLen = d.readLen ∧ (d.push nameLen c).jumped = d.jumped ∧
      d.name <+: (d.push nameLen c).name := by
  unfold push
  split
  · exact ⟨rfl, rfl, List.prefix_append ..⟩
  · exact ⟨rfl, rfl, List.prefix_rfl⟩

theorem copyLabel_same (response : List UInt8) (nameLen left : ℕ) (d : Decoder) :
    (copyLabel response nameLen left d).readLen = d.readLen ∧
      (copyLabel response nameLen left d).jumped = d.jumped ∧
      d.name <+: (copyLabel response nameLen left d).name := by
  induction left generalizing d with
  | zero => exact ⟨rfl, rfl, List.prefix_rfl⟩
  | succ left ih =>
    unfold copyLabel
    split
    · exact ⟨rfl, rfl, List.prefix_rfl⟩
    · next c _ =>
      obtain ⟨hread, hjumped, hname⟩ := push_same d nameLen c
      generalize d.push nameLen c = e at hread hjumped hname ⊢
      obtain ⟨hread', hjumped', hname'⟩ := ih { e with offset := e.offset + 1 }
      exact ⟨hread'.trans hread, hjumped'.trans hjumped, hname.trans hname'⟩

theorem label_same (response : List UInt8) (nameLen : ℕ) (d : Decoder) (len : UInt8) :
    (d.label response nameLen len).readLen = (if d.jumped then d.readLen else d.readLen +
      (1 + len.toNat)) ∧
      (d.label response nameLen len).jumped = d.jumped ∧
      (if 0 < d.name.length then (d.push nameLen dot).name else d.name) <+:
        (d.label response nameLen len).name := by
  unfold label
  dsimp only
  split
  · have hpush (e : Decoder) (he : e.name = d.name) :
      (e.push nameLen dot).name = (d.push nameLen dot).name := by
      unfold push
      rw [he]
      split <;> simp [he]
    generalize he : (⟨d.offset + 1, d.name,
      if d.jumped then d.readLen else d.readLen + (1 + len.toNat), d.jumped⟩ : Decoder) = e
    obtain ⟨hread, hjumped, -⟩ := push_same e nameLen dot
    obtain ⟨hread', hjumped', hname'⟩ := copyLabel_same response nameLen len.toNat (e.push nameLen dot)
    rw [hpush e (by rw [← he])] at hname'
    rw [hread] at hread'
    rw [hjumped] at hjumped'
    subst he
    exact ⟨hread', hjumped', hname'⟩
  · exact copyLabel_same response nameLen len.toNat _

theorem loop_jumped (hjumped : d.jumped = true) (hloop : loop response nameLen fuel d = some r) :
    r.1 = -1 ∨ r.1 = toInt d.readLen := by
  induction fuel generalizing d with
  | zero => exact absurd hloop (by simp [loop])
  | succ fuel ih =>
    rcases loop_succ_cases hloop with ⟨-, hr⟩ | ⟨len, next, hloop⟩ | ⟨len, hloop⟩
    · rw [hjumped] at hr
      simpa using hr
    · have hread : (d.pointer len next).readLen = d.readLen := if_pos hjumped
      rw [← hread]
      exact ih rfl hloop
    · obtain ⟨hread, hjumped', -⟩ := label_same response nameLen d len
      rw [if_pos hjumped] at hread
      rw [← hread]
      exact ih (hjumped'.trans hjumped) hloop

theorem name_prefix_loop (hloop : loop response nameLen fuel d = some r) : d.name <+: r.2 := by
  induction fuel generalizing d with
  | zero => exact absurd hloop (by simp [loop])
  | succ fuel ih =>
    rcases loop_succ_cases hloop with ⟨hname, -⟩ | ⟨len, next, hloop⟩ | ⟨len, hloop⟩
    · exact hname ▸ List.prefix_rfl
    · exact ih (d := d.pointer len next) hloop
    · obtain ⟨-, -, hname⟩ := label_same response nameLen d len
      refine List.IsPrefix.trans ?_ (hname.trans (ih hloop))
      split
      · exact (push_same d nameLen dot).2.2
      · exact List.prefix_rfl

theorem loop_pointer (hresponse : response = wire ls ++ b :: post) (hb : 192 ≤ b.toNat)
    (hloop : loop response nameLen fuel (reading ls) = some r) :
    r.1 = -1 ∨ r.1 = toInt ((wire ls).length + 2) := by
  cases fuel with
  | zero => exact absurd hloop (by simp [loop])
  | succ fuel =>
    have hzero : b ≠ 0 := by
      rintro rfl
      exact absurd hb (by decide)
    unfold loop at hloop
    rw [reading_getElem hresponse] at hloop
    dsimp only at hloop
    rw [if_neg hzero, if_pos ((isPointer_iff b).mpr hb)] at hloop
    split at hloop
    · exact .inl (by rw [← Option.some.inj hloop])
    · exact loop_jumped rfl hloop

theorem loop_dot (hresponse : response = wire ls ++ b :: post) (hzero : b ≠ 0) (hb : b.toNat < 192)
    (hpos : 0 < ([dot].intercalate ls).length) (hlen : ([dot].intercalate ls).length + 1 < nameLen)
    (hloop : loop response nameLen fuel (reading ls) = some r) :
      [dot].intercalate ls ++ [dot] <+: r.2 := by
  cases fuel with
  | zero => exact absurd hloop (by simp [loop])
  | succ fuel =>
    have hpointer : ¬b &&& 0xC0 = 0xC0 := by
      rw [isPointer_iff]
      omega
    unfold loop at hloop
    rw [reading_getElem hresponse] at hloop
    dsimp only at hloop
    rw [if_neg hzero, if_neg hpointer] at hloop
    obtain ⟨-, -, hname⟩ := label_same response nameLen (reading ls) b
    have hpos' : 0 < (reading ls).name.length := hpos
    rw [if_pos hpos', push_eq (d := reading ls) hlen] at hname
    exact hname.trans (name_prefix_loop hloop)

end Decoder

end Decode

section RoundTrip

variable {name : CString} {bufLen : ℕ}

theorem toInt_of_lt {n : ℕ} (h : n < 2 ^ 31) : toInt n = n := by
  have hnat : (BitVec.ofNat 32 n).toNat = n := by
    rw [BitVec.toNat_ofNat]
    exact Nat.mod_eq_of_lt (by omega)
  unfold toInt
  rw [BitVec.toInt_eq_toNat_of_lt (by omega), hnat]

theorem CString.bytes_cases (name : CString) :
    name.bytes = name.stripped ∨ name.bytes = name.stripped ++ [dot] := by
  unfold stripped
  split
  · next hlast =>
    right
    obtain ⟨xs, hxs⟩ := List.getLast?_eq_some_iff.mp hlast
    rw [hxs, List.dropLast_concat]
  · exact .inl rfl

theorem CString.stripped_length_le (name : CString) : name.stripped.length ≤ name.bytes.length := by
  rcases name.bytes_cases with heq | heq
  · rw [heq]
  · rw [heq, List.length_append]
    exact Nat.le_add_right ..

theorem dot_notMem_of_mem_splitOn {xs l : List UInt8} (h : l ∈ xs.splitOn dot) : dot ∉ l := by
  induction xs generalizing l with
  | nil =>
    rw [List.splitOn_nil, List.mem_singleton] at h
    simp [h]
  | cons x xs ih =>
    rw [List.splitOn_cons_eq_if_modifyHead] at h
    split at h
    · rcases List.mem_cons.mp h with rfl | h
      · simp
      · exact ih h
    · next hx =>
      obtain ⟨l', ls, hls⟩ := List.exists_cons_of_ne_nil (List.splitOn_ne_nil dot xs)
      rw [hls, List.modifyHead_cons] at h
      rcases List.mem_cons.mp h with rfl | h
      · have hl' : dot ∉ l' := ih (hls ▸ List.mem_cons_self)
        simp only [beq_iff_eq] at hx
        rw [List.mem_cons, not_or]
        exact ⟨fun heq => hx heq.symm, hl'⟩
      · exact ih (hls ▸ List.mem_cons_of_mem _ h)

theorem mem_intercalate {ls : List (List UInt8)} {l : List UInt8} (h : l ∈ ls) {c : UInt8}
    (hc : c ∈ l) :
    c ∈ [dot].intercalate ls := by
  induction ls with
  | nil => exact absurd h List.not_mem_nil
  | cons l' ls ih =>
    by_cases hnil : ls = []
    · rw [hnil, List.mem_singleton] at h
      rwa [hnil, List.intercalate_singleton, ← h]
    · rw [List.intercalate_cons_of_ne_nil hnil, List.mem_append, List.mem_append]
      rcases List.mem_cons.mp h with rfl | h
      · exact .inl (.inl hc)
      · exact .inr (ih h)

theorem mem_bytes_of_mem_labels {l : List UInt8} (h : l ∈ name.labels) {c : UInt8} (hc : c ∈ l) :
    c ∈ name.bytes := by
  have hmem := mem_intercalate h hc
  rw [name.intercalate_labels] at hmem
  rcases name.bytes_cases with heq | heq
  · rwa [heq]
  · rw [heq]
    exact List.mem_append_left _ hmem

theorem exists_first_improper {ls : List (List UInt8)} (h : ¬∀ l ∈ ls, Decoder.Proper l) :
    ∃ good bad rest, ls = good ++ bad :: rest ∧ (∀ l ∈ good, Decoder.Proper l) ∧
      ¬Decoder.Proper bad := by
  induction ls with
  | nil => exact absurd (by simp) h
  | cons l ls ih =>
    by_cases hl : Decoder.Proper l
    · have hls : ¬∀ l ∈ ls, Decoder.Proper l := fun hall => h (by simpa using ⟨hl, hall⟩)
      obtain ⟨good, bad, rest, rfl, hgood, hbad⟩ := ih hls
      exact ⟨l :: good, bad, rest, rfl, by simpa using ⟨hl, hgood⟩, hbad⟩
    · exact ⟨[], l, ls, rfl, by simp, hl⟩

theorem dnsEncodeName_refused (hname : name.bytes ≠ []) (h : bufLen < name.stripped.length + 2) :
    (dnsEncodeName name bufLen).1 = -1 := by
  unfold dnsEncodeName
  rw [encodeName_eq hname, if_pos h]

theorem dnsEncodeName_written (hname : name.bytes ≠ []) (h : ¬bufLen < name.stripped.length + 2) :
    dnsEncodeName name bufLen = (toInt (name.stripped.length + 2), wire name.labels ++ [0]) := by
  have hlen : (wire name.labels ++ [0]).length = name.stripped.length + 2 := by
    rw [List.length_append, wire_length _ name.labels_ne_nil, name.intercalate_labels]
    rfl
  unfold dnsEncodeName
  rw [encodeName_eq hname, if_neg h]
  dsimp only
  rw [hlen]

/-- The name does not fit, or its length is an `int` and a length byte can stand for every label. -/
def Encodable (name : CString) (bufLen : ℕ) : Prop :=
  bufLen < name.stripped.length + 2 ∨
    name.stripped.length + 2 < 2 ^ 31 ∧ ∀ l ∈ name.labels, Decoder.Proper l

theorem Encodable.roundTrip (hname : name.bytes ≠ []) (h : Encodable name bufLen) :
    RoundTrip name bufLen := by
  by_cases hfull : bufLen < name.stripped.length + 2
  · exact .inl (dnsEncodeName_refused hname hfull)
  · obtain ⟨hint, hlabels⟩ := h.resolve_left hfull
    have hlen : (wire name.labels).length = name.stripped.length + 1 := by
      rw [wire_length _ name.labels_ne_nil, name.intercalate_labels]
    rw [RoundTrip, dnsEncodeName_written hname hfull]
    refine .inr ⟨name.stripped.length + 2, toInt_of_lt hint, fun nameLen hnameLen => ?_⟩
    refine ⟨1 + name.labels.length, name.stripped, ?_, ?_⟩
    · have hlt : ([dot].intercalate ([] ++ (name.labels ++ []))).length < nameLen := by
        rw [List.nil_append, List.append_nil, name.intercalate_labels]
        exact lt_of_le_of_lt name.stripped_length_le hnameLen
      have hall : ∀ l ∈ [] ++ name.labels, Decoder.Proper l := hlabels
      dsimp only
      rw [List.take_of_length_le (by simp; omega)]
      refine (Decoder.loop_labels [] name.labels [] [0] hall (by simp) hlt).trans ?_
      rw [List.nil_append, Decoder.loop_end rfl, hlen, toInt_of_lt hint,
        name.intercalate_labels]
    · exact name.bytes_cases.imp Eq.symm Eq.symm

section Improper

variable {response bytes bad chunk post : List UInt8} {good : List (List UInt8)} {c : UInt8}
  {nameLen fuel : ℕ} {r : ℤ × List UInt8}

theorem ne_length_of_lt (hint : response.length < 2 ^ 31) {k : ℕ} (hk : k < response.length)
    (hr : r.1 = -1 ∨ r.1 = toInt k) : r.1 ≠ response.length := by
  rw [toInt_of_lt (by omega)] at hr
  omega

theorem chunk_loop (hresponse : response = wire (good ++ [chunk]) ++ c :: post)
    (hint : response.length < 2 ^ 31) (hpost : 2 ≤ post.length) (hchunk : Decoder.Proper chunk)
    (hnull : c ≠ 0) (hdot : c ≠ dot) (hbytes : [dot].intercalate (good ++ [chunk]) ++ [c] <+: bytes)
    (hlen : bytes.length < nameLen)
    (hloop : Decoder.loop response nameLen fuel (Decoder.reading (good ++ [chunk])) = some r) :
    r.1 ≠ response.length ∨ ¬r.2 <+: bytes := by
  by_cases hpointer : 192 ≤ c.toNat
  · left
    refine ne_length_of_lt hint ?_ (Decoder.loop_pointer hresponse hpointer hloop)
    rw [hresponse, List.length_append, List.length_cons]
    omega
  · right
    intro hout
    have hle := hbytes.length_le
    rw [List.length_append, List.length_singleton] at hle
    have hpos : 0 < ([dot].intercalate (good ++ [chunk])).length := by
      have hwire := wire_length (good ++ [chunk]) (by simp)
      have hone := hchunk.1
      rw [wire_append, List.length_append, wire_cons, List.length_cons, List.length_append] at hwire
      omega
    have hwritten := Decoder.loop_dot hresponse hnull (by omega) hpos (by omega) hloop
    have hboth := List.prefix_of_prefix_length_le (hwritten.trans hout) hbytes (by simp)
    have heq := hboth.eq_of_length (by simp)
    exact hdot (List.singleton_inj.mp (List.append_cancel_left heq)).symm

/-- A label that its length byte does not stand for is read as less than it is, or as a pointer. -/
theorem improper_loop {rest : List (List UInt8)}
    (hresponse : response = wire (good ++ bad :: rest) ++ [0])
    (hint : response.length < 2 ^ 31) (hgood : ∀ l ∈ good, Decoder.Proper l)
    (hbad : ¬Decoder.Proper bad)
    (hnull : 0 ∉ bad) (hdot : dot ∉ bad) (hbytes : [dot].intercalate (good ++ [bad]) <+: bytes)
    (hlen : bytes.length < nameLen)
    (hloop : Decoder.loop response nameLen fuel (Decoder.reading good) = some r) :
    r.1 ≠ response.length ∨ ¬r.2 <+: bytes := by
  have hb : (UInt8.ofNat bad.length).toNat = bad.length % 256 := UInt8.toNat_ofNat'
  have hbyte : response = wire good ++ UInt8.ofNat bad.length :: (bad ++ (wire rest ++ [0])) := by
    rw [hresponse, wire_append]
    simp
  have hlength : response.length = (wire good).length + (1 + bad.length + (wire rest).length) + 1 := by
    rw [hbyte]
    simp
    omega
  have hle := Nat.mod_le bad.length 256
  cases fuel with
  | zero => exact absurd hloop (by simp [Decoder.loop])
  | succ fuel =>
    by_cases hzero : bad.length % 256 = 0
    · -- the length byte ends the name
      left
      have hend : UInt8.ofNat bad.length = 0 := by
        apply UInt8.toNat.inj
        rw [hb, hzero]
        rfl
      rw [hend] at hbyte
      rw [Decoder.loop_end hbyte] at hloop
      obtain rfl := Option.some.inj hloop
      exact ne_length_of_lt hint (by omega) (.inr rfl)
    by_cases hpointer : 192 ≤ bad.length % 256
    · exact .inl (ne_length_of_lt hint (by omega) (Decoder.loop_pointer hbyte (by omega) hloop))
    -- the byte stands for a part of the label
    have hlong : bad.length % 256 < bad.length := by
      by_contra hge
      exact hbad ⟨by omega, by omega⟩
    obtain ⟨chunk, c, tail, rfl, hchunk⟩ : ∃ chunk c tail, bad = chunk ++ c :: tail ∧
        chunk.length = bad.length % 256 := by
      refine ⟨bad.take (bad.length % 256), bad[bad.length % 256], bad.drop (bad.length % 256 + 1),
        ?_, ?_⟩
      · rw [← List.drop_eq_getElem_cons hlong, List.take_append_drop]
      · rw [List.length_take]
        omega
    have hmore : 1 ≤ tail.length := by
      rw [← hchunk, List.length_append, List.length_cons] at hlong
      rw [List.length_append, List.length_cons] at hchunk
      omega
    have hwire : wire good ++ UInt8.ofNat (chunk ++ c :: tail).length :: chunk = wire
        (good ++ [chunk]) := by
      have hsame : UInt8.ofNat chunk.length = UInt8.ofNat (chunk ++ c :: tail).length := by
        apply UInt8.toNat.inj
        rw [hb, UInt8.toNat_ofNat', hchunk, Nat.mod_mod]
      rw [wire_append, wire_cons, hsame]
      simp
    have hproper : Decoder.Proper chunk := ⟨by omega, by omega⟩
    rw [intercalate_append_last, List.append_cons] at hbytes
    have hbytes' := (List.prefix_append _ tail).trans hbytes
    have hlt : ([dot].intercalate (good ++ [chunk])).length < nameLen := by
      have := hbytes'.length_le
      rw [List.length_append, List.length_singleton] at this
      omega
    have hread : response = wire good ++ UInt8.ofNat (chunk ++ c :: tail).length ::
        (chunk ++ c :: (tail ++ (wire rest ++ [0]))) := by
      rw [hbyte]
      simp
    rw [Decoder.loop_reading hread (hb.trans hchunk.symm) hproper.1 hproper.2 _ hlt] at hloop
    · have hnext : response = wire (good ++ [chunk]) ++ c :: (tail ++ (wire rest ++ [0])) := by
        rw [hread, ← hwire]
        simp
      refine chunk_loop hnext hint ?_ hproper ?_ ?_ hbytes' hlen hloop
      · simp
        omega
      · rintro rfl
        exact hnull (by simp)
      · rintro rfl
        exact hdot (by simp)
    · rintro l hmem rfl
      exact absurd (hgood [] hmem).1 (by simp)

end Improper

/-- A name shorter than an `int` allows whose round trip holds is encodable. -/
theorem RoundTrip.encodable (hname : name.bytes ≠ []) (hint : name.stripped.length + 2 < 2 ^ 31)
    (h : RoundTrip name bufLen) : Encodable name bufLen := by
  by_cases hfull : bufLen < name.stripped.length + 2
  · exact .inl hfull
  refine .inr ⟨hint, ?_⟩
  by_contra himproper
  obtain ⟨good, bad, rest, hlabels, hgood, hbad⟩ := exists_first_improper himproper
  rw [RoundTrip, dnsEncodeName_written hname hfull, toInt_of_lt hint] at h
  have hlength : (wire name.labels ++ [0]).length = name.stripped.length + 2 := by
    rw [List.length_append, wire_length _ name.labels_ne_nil, name.intercalate_labels]
    rfl
  obtain ⟨n, hn, htrip⟩ := h.resolve_left (by omega)
  have hn : n = name.stripped.length + 2 := by
    dsimp only at hn
    omega
  obtain ⟨fuel, out, hdecode, hout⟩ := htrip (name.bytes.length + 1) (Nat.lt_succ_self _)
  dsimp only at hdecode
  rw [List.take_of_length_le (by omega)] at hdecode
  have hjoin : [dot].intercalate (good ++ bad :: rest) = name.stripped := by
    rw [← hlabels, name.intercalate_labels]
  have hmem : bad ∈ name.labels := by simp [hlabels]
  have hbytes : [dot].intercalate (good ++ [bad]) <+: name.bytes := by
    have hpre := intercalate_isPrefix (good ++ [bad]) rest (by simp)
    rw [← List.append_cons, hjoin] at hpre
    rcases name.bytes_cases with heq | heq
    · rwa [heq]
    · exact heq ▸ hpre.trans (List.prefix_append ..)
  have hlt : ([dot].intercalate ([] ++ (good ++ bad :: rest))).length < name.bytes.length + 1 := by
    rw [List.nil_append, hjoin]
    exact Nat.lt_succ_of_le name.stripped_length_le
  have hstart : ∀ l ∈ [] ++ good, Decoder.Proper l := hgood
  have hloop := Decoder.loop_mono good.length hdecode
  rw [hlabels] at hloop hlength
  have hloop' := (Decoder.loop_labels [] good (bad :: rest) [0] hstart rfl hlt).symm.trans hloop
  rcases improper_loop rfl (by omega) hgood hbad
    (fun hc => name.noNull (mem_bytes_of_mem_labels hmem hc))
    (dot_notMem_of_mem_splitOn hmem) hbytes (Nat.lt_succ_self _) hloop' with hread | hwritten
  · refine hread ?_
    dsimp only
    omega
  · refine hwritten ?_
    rcases hout with rfl | heq
    · exact List.prefix_rfl
    · exact heq ▸ List.prefix_append ..

/-- The round trip holds of the encodable names, and of no others shorter than an `int` allows. -/
theorem roundTrip_iff_encodable (name : CString) (hname : name.bytes ≠ []) (bufLen : ℕ) :
    (Encodable name bufLen → RoundTrip name bufLen) ∧
      (name.stripped.length + 2 < 2 ^ 31 → RoundTrip name bufLen → Encodable name bufLen) :=
  ⟨Encodable.roundTrip hname, RoundTrip.encodable hname⟩

theorem roundTrip_trailing_dot :
    (⟨[97, 46, 98, 46], by decide⟩ : CString).labels = [[97], [98]] ∧
      RoundTrip ⟨[97, 46, 98, 46], by decide⟩ 16 := by
  have hlabels : (⟨[97, 46, 98, 46], by decide⟩ : CString).labels = [[97], [98]] := by
    simp [CString.labels, CString.stripped, dot, List.splitOn_cons_eq_if_modifyHead]
  refine ⟨hlabels, (roundTrip_iff_encodable _ (by simp) 16).1 (.inr ⟨by decide, ?_⟩)⟩
  rw [hlabels]
  simp [Decoder.Proper]

/-- In `a..b` the empty label ends the name for the decoder. -/
theorem empty_label_ends_name : ¬RoundTrip ⟨[97, 46, 46, 98], by decide⟩ 16 := by
  intro h
  obtain ⟨n, hn, htrip⟩ := h.resolve_left (by decide)
  obtain rfl : n = 6 := by
    have hsix : (dnsEncodeName ⟨[97, 46, 46, 98], by decide⟩ 16).1 = 6 := by decide
    omega
  obtain ⟨fuel, out, hdecode, -⟩ := htrip 5 (by decide)
  have hthree : dnsDecodeName 2 [1, 97, 0, 1, 98, 0] 0 5 = some (3, [97]) := by decide
  have hmore := Decoder.loop_mono fuel hthree
  rw [Nat.add_comm] at hmore
  have hsame := (Decoder.loop_mono 2 hdecode).symm.trans hmore
  have hfst : (6 : ℤ) = 3 := congrArg Prod.fst (Option.some.inj hsame)
  exact absurd hfst (by decide)

end RoundTrip

end GcAos.Dns
