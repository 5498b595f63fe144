import GcAos.Net.DnsDecode

/-! The messages of the resolver: the query that `dns_build_query` writes into its buffer and the response
that `dns_parse_response` reads, with the places that both touch. -/

namespace GcAos.Dns
open Lib StateTransition

def dnsHeaderSize : ℕ := 12
def dnsTypeA : UInt16 := 1
def dnsFlagQr : UInt16 := 0x8000
def dnsFlagRd : UInt16 := 0x0100
def dnsRcodeMask : UInt16 := 0x000F

def beBytes (x : UInt16) : List UInt8 := [(x >>> 8).toUInt8, x.toUInt8]

/-- `putLabel`, with what has been written where it refuses. -/
def putLabelInto (bufLen : ℕ) (buf label : List UInt8) : Except (List UInt8) (List UInt8) :=
  if bufLen ≤ buf.length + 1 + label.length then .error buf
  else .ok (buf ++ UInt8.ofNat label.length :: label)

def encodeLabelsInto (bufLen : ℕ) : List UInt8 → List UInt8 → List UInt8 →
    Except (List UInt8) (List UInt8 × List UInt8)
  | [], label, buf => .ok (label, buf)
  | c :: rest, label, buf =>
    if c = dot then do
      let buf ← putLabelInto bufLen buf label
      encodeLabelsInto bufLen rest [] buf
    else encodeLabelsInto bufLen rest (label ++ [c]) buf

/-- `encodeName`, with what has been written where it refuses. -/
def encodeNameInto (name : CString) (bufLen : ℕ) : Except (List UInt8) (List UInt8) := do
  let (label, buf) ← encodeLabelsInto bufLen name.bytes [] []
  let buf ← if 0 < label.length then putLabelInto bufLen buf label else .ok buf
  .ok (buf ++ [0])

/-- What `dns_build_query` returns, the next query number, and what it writes at which place. -/
structure QueryResult where
  ret : ℤ
  queryId : UInt16
  writes : List (ℕ × List UInt8)

/-- `DNS_HEADER_SIZE + name_len`, a sum of `int`s, as a `size_t`. -/
def queryPos (nameLen : ℤ) : ℕ := (((dnsHeaderSize : ℤ) + nameLen).bmod (2 ^ 32) % 2 ^ 64).toNat

def dnsBuildQuery (queryId : UInt16) (name : CString) (type : UInt16) (bufLen : ℕ) : QueryResult :=
  if bufLen < dnsHeaderSize + dnsMaxNameLen + 4 then ⟨-1, queryId, []⟩
  else
    let header := beBytes queryId ++ beBytes dnsFlagRd ++ beBytes 1 ++ beBytes 0 ++ beBytes 0 ++ beBytes 0
    match encodeNameInto name (bufLen - dnsHeaderSize) with
    | .error buf => ⟨-1, queryId + 1, [(0, header), (dnsHeaderSize, buf)]⟩
    | .ok buf =>
      let nameLen := toInt buf.length
      if nameLen < 0 then ⟨-1, queryId + 1, [(0, header), (dnsHeaderSize, buf)]⟩
      else
        let pos := queryPos nameLen
        ⟨toInt (pos + 4), queryId + 1,
          [(0, header), (dnsHeaderSize, buf),
            (pos, [(type >>> 8 &&& 0xFF).toUInt8, (type &&& 0xFF).toUInt8, 0, 1])]⟩

/-- `response[pos]` and the byte after it as a number in network order; `none` if they are not both there. -/
def be16 (response : List UInt8) (pos : ℕ) : Option UInt16 := do
  let hi ← response[pos]?
  let lo ← response[pos + 1]?
  some (hi.toUInt16 <<< 8 ||| lo.toUInt16)

def be32 (response : List UInt8) (pos : ℕ) : Option UInt32 := do
  let b₀ ← response[pos]?
  let b₁ ← response[pos + 1]?
  let b₂ ← response[pos + 2]?
  let b₃ ← response[pos + 3]?
  some (b₀.toUInt32 <<< 24 ||| b₁.toUInt32 <<< 16 ||| b₂.toUInt32 <<< 8 ||| b₃.toUInt32)

/-- The loops that skip a name, for `fuel` rounds: the place where they are left, and whether a pointer
was the reason. -/
def skipLoop (response : List UInt8) : ℕ → ℕ → ℕ × Bool
  | 0, pos => (pos, false)
  | fuel + 1, pos =>
    match response[pos]? with
    | none => (pos, false)
    | some len =>
      if len = 0 then (pos, false)
      else if len &&& 0xC0 = 0xC0 then (pos + 2, true)
      else skipLoop response fuel (pos + 1 + len.toNat)

/-- A round of the loop over the questions: `response[pos]` is looked at after a pointer as well. Here and
below the result is `none` where a byte is read that is not there. -/
def skipQuestion (response : List UInt8) (pos : ℕ) : Option ℕ := do
  let pos := (skipLoop response response.length pos).1
  let b ← response[pos]?
  some ((if b = 0 then pos + 1 else pos) + 4)

def skipQuestions (response : List UInt8) : ℕ → ℕ → Option ℕ
  | 0, pos => some pos
  | left + 1, pos => do
    let pos ← skipQuestion response pos
    skipQuestions response left pos

/-- The name of an answer; after a pointer the code goes to `got_name`. -/
def skipAnswerName (response : List UInt8) (pos : ℕ) : Option ℕ := do
  match skipLoop response response.length pos with
  | (pos, true) => some pos
  | (pos, false) =>
    let b ← response[pos]?
    some (if b = 0 then pos + 1 else pos)

/-- The loop over the answers, with what it returns and `*ip_out`. -/
def parseAnswers (response : List UInt8) (ipOut : UInt32) : ℕ → ℕ → Option (ℤ × UInt32)
  | 0, _ => some (-1, ipOut)
  | left + 1, pos =>
    if response.length ≤ pos then some (-1, ipOut)
    else do
      let pos ← skipAnswerName response pos
      if response.length < pos + 10 then some (-1, ipOut)
      else do
        let type ← be16 response pos
        let rdlength ← be16 response (pos + 8)
        if type = dnsTypeA ∧ rdlength = 4 then do
          let ip ← be32 response (pos + 10)
          some (0, ip)
        else parseAnswers response ipOut left (pos + 10 + rdlength.toNat)

def dnsParseResponse (response : List UInt8) (ipOut : UInt32) : Option (ℤ × UInt32) :=
  if response.length < dnsHeaderSize then some (-1, ipOut)
  else do
    let flags ← be16 response 2
    if flags &&& dnsFlagQr = 0 then some (-1, ipOut)
    else if flags &&& dnsRcodeMask ≠ 0 then some (-1, ipOut)
    else do
      let qdcount ← be16 response 4
      let ancount ← be16 response 6
      if ancount = 0 then some (-1, ipOut)
      else do
        let pos ← skipQuestions response qdcount.toNat dnsHeaderSize
        parseAnswers response ipOut ancount.toNat pos

def QueryResult.Inside (r : QueryResult) (bufLen : ℕ) : Prop :=
  ∀ w ∈ r.writes, w.1 + w.2.length ≤ bufLen

def QueryFits (name : CString) (bufLen : ℕ) : Prop :=
  let nameLen := name.stripped.length + 2
  bufLen < dnsHeaderSize + dnsMaxNameLen + 4 ∨ bufLen < dnsHeaderSize + nameLen ∨ toInt nameLen < 0 ∨
    queryPos (toInt nameLen) + 4 ≤ bufLen

def nextLabel (response : List UInt8) (pos : ℕ) : Option ℕ := do
  let len ← response[pos]?
  if len = 0 ∨ len &&& 0xC0 = 0xC0 then none else some (pos + 1 + len.toNat)

/-- The labels of the name at `pos` end with `e`. -/
def LabelsEnd (response : List UInt8) (pos e : ℕ) : Prop :=
  Reaches (nextLabel response) pos e ∧ nextLabel response e = none

/-- The question at `pos` has a name that ends in the response, with a null byte or with a pointer that is
not the last thing in it; the loop takes `pos'` for the next one. -/
inductive QuestionTo (response : List UInt8) (pos : ℕ) : ℕ → Prop
  | null {e : ℕ} (hlabels : LabelsEnd response pos e) (hend : response[e]? = some 0) :
    QuestionTo response pos (e + 5)
  | pointer {e : ℕ} {b : UInt8} (hlabels : LabelsEnd response pos e) (hend : IsPointer response e)
    (hnext : response[e + 2]? = some b) : QuestionTo response pos ((if b = 0 then e + 3 else e + 2) + 4)

inductive QuestionsTo (response : List UInt8) : ℕ → ℕ → ℕ → Prop
  | nil (pos : ℕ) : QuestionsTo response 0 pos pos
  | cons {n pos pos' pos'' : ℕ} (hquestion : QuestionTo response pos pos')
    (hrest : QuestionsTo response n pos' pos'') : QuestionsTo response (n + 1) pos pos''

/-- The name of the answer at `pos` ends in the response, with a null byte or a pointer, before `pos'`. -/
inductive NameTo (response : List UInt8) (pos : ℕ) : ℕ → Prop
  | null {e : ℕ} (hlabels : LabelsEnd response pos e) (hend : response[e]? = some 0) :
    NameTo response pos (e + 1)
  | pointer {e : ℕ} (hlabels : LabelsEnd response pos e) (hend : IsPointer response e) :
    NameTo response pos (e + 2)

/-- The fields at `pos` are those of an address of four bytes. -/
def IsAddress (response : List UInt8) (pos : ℕ) : Prop :=
  be16 response pos = some dnsTypeA ∧ be16 response (pos + 8) = some 4

/-- Up to the first address, or to a record that is cut off, the names of the answers end in the response,
and so does the address. -/
inductive AnswersInside (response : List UInt8) : ℕ → ℕ → Prop
  | nil (pos : ℕ) : AnswersInside response 0 pos
  | past {n pos : ℕ} (hpos : response.length ≤ pos) : AnswersInside response n pos
  | short {n pos p : ℕ} (hname : NameTo response pos p) (hshort : response.length < p + 10) :
    AnswersInside response (n + 1) pos
  | address {n pos p : ℕ} (hname : NameTo response pos p) (htype : IsAddress response p)
    (hlen : p + 14 ≤ response.length) : AnswersInside response (n + 1) pos
  | other {n pos p : ℕ} {rdlength : UInt16} (hname : NameTo response pos p) (htype : ¬IsAddress response p)
    (hlen : be16 response (p + 8) = some rdlength)
    (hrest : AnswersInside response n (p + 10 + rdlength.toNat)) : AnswersInside response (n + 1) pos

/-- In a response without an error and with an answer, questions and answers end where they should. -/
def ReadsInside (response : List UInt8) : Prop :=
  dnsHeaderSize ≤ response.length → ∀ flags ∈ be16 response 2, flags &&& dnsFlagQr ≠ 0 →
    flags &&& dnsRcodeMask = 0 → ∀ qdcount ∈ be16 response 4, ∀ ancount ∈ be16 response 6, ancount ≠ 0 →
      ∃ pos, QuestionsTo response qdcount.toNat dnsHeaderSize pos ∧
        AnswersInside response ancount.toNat pos

section Query

variable {name : CString} {bufLen : ℕ} {label buf out : List UInt8}

theorem encodeLabelsInto_toOption (rest label buf : List UInt8) :
    (encodeLabelsInto bufLen rest label buf).toOption = encodeLabels bufLen rest label buf := by
  induction rest generalizing label buf with
  | nil => rfl
  | cons c rest ih =>
    unfold encodeLabelsInto encodeLabels putLabelInto putLabel
    split
    · split
      · rfl
      · exact ih _ _
    · exact ih _ _

theorem encodeNameInto_toOption (name : CString) (bufLen : ℕ) :
    (encodeNameInto name bufLen).toOption = encodeName name bufLen := by
  unfold encodeNameInto encodeName
  rw [← encodeLabelsInto_toOption]
  cases encodeLabelsInto bufLen name.bytes [] [] with
  | error buf => rfl
  | ok r =>
    obtain ⟨label, buf⟩ := r
    simp only [bind, Except.bind, Except.toOption, Option.bind, putLabelInto, putLabel]
    by_cases hpos : 0 < label.length
    · rw [if_pos hpos, if_pos hpos]
      split_ifs <;> rfl
    · rw [if_neg hpos, if_neg hpos]

theorem encodeLabelsInto_length (rest label : List UInt8) (h : buf.length < bufLen) :
    (∀ out, encodeLabelsInto bufLen rest label buf = .error out → out.length < bufLen) ∧
      ∀ r, encodeLabelsInto bufLen rest label buf = .ok r → r.2.length < bufLen := by
  induction rest generalizing label buf with
  | nil =>
    refine ⟨fun out hout => ?_, fun r hr => ?_⟩
    · cases hout
    · obtain rfl := Except.ok.inj hr
      exact h
  | cons c rest ih =>
    unfold encodeLabelsInto putLabelInto
    split
    · split
      · refine ⟨fun out hout => ?_, fun r hr => ?_⟩
        · obtain rfl := Except.error.inj hout
          exact h
        · cases hr
      · refine ih _ ?_
        rw [List.length_append, List.length_cons]
        omega
    · exact ih _ h

theorem encodeNameInto_length (h : 0 < bufLen)
    (hout : encodeNameInto name bufLen = .error out ∨ encodeNameInto name bufLen = .ok out) :
    out.length ≤ bufLen := by
  obtain ⟨herror, hok⟩ := encodeLabelsInto_length name.bytes [] (show [].length < bufLen from h)
  unfold encodeNameInto at hout
  cases hlabels : encodeLabelsInto bufLen name.bytes [] [] with
  | error buf =>
    rw [hlabels] at hout
    obtain rfl := Except.error.inj (hout.resolve_right nofun)
    exact (herror _ hlabels).le
  | ok r =>
    obtain ⟨label, buf⟩ := r
    have hbuf : buf.length < bufLen := hok _ hlabels
    simp only [hlabels, bind, Except.bind, putLabelInto] at hout
    by_cases hpos : 0 < label.length
    · rw [if_pos hpos] at hout
      by_cases hfull : bufLen ≤ buf.length + 1 + label.length
      · rw [if_pos hfull] at hout
        obtain rfl := Except.error.inj (hout.resolve_right nofun)
        exact hbuf.le
      · rw [if_neg hfull] at hout
        obtain rfl := Except.ok.inj (hout.resolve_left nofun)
        simp only [List.length_append, List.length_cons, List.length_nil]
        omega
    · rw [if_neg hpos] at hout
      obtain rfl := Except.ok.inj (hout.resolve_left nofun)
      rw [List.length_append]
      exact hbuf

theorem encodeName_length (h : encodeName name bufLen = some out) (hname : name.bytes ≠ []) :
    out.length = name.stripped.length + 2 ∧ name.stripped.length + 2 ≤ bufLen := by
  rw [encodeName_eq hname] at h
  split at h
  · exact absurd h (by simp)
  · next hfits =>
    obtain rfl := Option.some.inj h
    rw [List.length_append, wire_length _ name.labels_ne_nil, name.intercalate_labels]
    exact ⟨rfl, not_lt.mp hfits⟩

theorem stripped_of_nil (h : name.bytes = []) : name.stripped = [] := by
  unfold CString.stripped
  rw [h]
  rfl

theorem buildQuery_header_length (queryId : UInt16) : (beBytes queryId ++ beBytes dnsFlagRd ++ beBytes 1 ++
    beBytes 0 ++ beBytes 0 ++ beBytes 0).length = dnsHeaderSize := rfl

theorem buildQuery_inside_iff (queryId : UInt16) (name : CString) (type : UInt16) (bufLen : ℕ) :
    (dnsBuildQuery queryId name type bufLen).Inside bufLen ↔ QueryFits name bufLen := by
  unfold dnsBuildQuery QueryFits
  have hheader : dnsHeaderSize = 12 := rfl
  by_cases hbuf : bufLen < dnsHeaderSize + dnsMaxNameLen + 4
  · rw [if_pos hbuf]
    exact iff_of_true (fun w hw => absurd hw List.not_mem_nil) (.inl hbuf)
  rw [if_neg hbuf]
  have hsize : 271 ≤ bufLen := not_lt.mp hbuf
  have hoption := encodeNameInto_toOption name (bufLen - dnsHeaderSize)
  have hlength {out : List UInt8} (hout : encodeNameInto name (bufLen - dnsHeaderSize) = .error out ∨
      encodeNameInto name (bufLen - dnsHeaderSize) = .ok out) : out.length ≤ bufLen - dnsHeaderSize :=
    encodeNameInto_length (by omega) hout
  simp only [QueryResult.Inside]
  cases hencode : encodeNameInto name (bufLen - dnsHeaderSize) with
  | error buf =>
    rw [hencode] at hoption
    have hlen := hlength (.inl hencode)
    have hname : name.bytes ≠ [] := by
      intro hnil
      unfold encodeName at hoption
      rw [hnil] at hoption
      exact absurd hoption (by simp [Except.toOption, encodeLabels])
    have hrefused : bufLen - dnsHeaderSize < name.stripped.length + 2 := by
      by_contra hfits
      rw [encodeName_eq hname, if_neg hfits] at hoption
      exact absurd hoption (by simp [Except.toOption])
    refine iff_of_true ?_ (.inr (.inl (by omega)))
    simp only [List.forall_mem_cons, buildQuery_header_length]
    exact ⟨by omega, by omega, by simp⟩
  | ok buf =>
    rw [hencode] at hoption
    have hlen := hlength (.inr hencode)
    have hwritten (pos : ℕ) (b b' : UInt8) : (∀ w ∈ [(0, beBytes queryId ++ beBytes dnsFlagRd ++ beBytes 1 ++
        beBytes 0 ++ beBytes 0 ++ beBytes 0), (dnsHeaderSize, buf), (pos, [b, b', 0, 1])],
        w.1 + w.2.length ≤ bufLen) ↔ pos + 4 ≤ bufLen := by
      simp only [List.forall_mem_cons, buildQuery_header_length]
      refine ⟨fun h => h.2.2.1, fun h => ⟨by omega, by omega, h, by simp⟩⟩
    by_cases hname : name.bytes = []
    · have hbuf : buf.length = 1 := by
        unfold encodeName at hoption
        rw [hname] at hoption
        obtain rfl : buf = [0] := by simpa [Except.toOption, encodeLabels] using hoption
        rfl
      have hpos : queryPos (toInt 1) = 13 ∧ queryPos (toInt (([] : List UInt8).length + 2 : ℕ)) = 14 := by
        decide
      dsimp only
      rw [hbuf, stripped_of_nil hname, if_neg (by decide), hwritten]
      exact iff_of_true (by omega) (.inr (.inr (.inr (by omega))))
    · obtain ⟨heq, hfits⟩ := encodeName_length hoption.symm hname
      dsimp only
      rw [heq]
      split
      · next hneg =>
        refine iff_of_true ?_ (.inr (.inr (.inl hneg)))
        simp only [List.forall_mem_cons, buildQuery_header_length]
        exact ⟨by omega, by omega, by simp⟩
      · next hneg =>
        rw [hwritten]
        constructor
        · exact fun h => .inr (.inr (.inr h))
        · rintro (h | h | h | h)
          · exact absurd h hbuf
          · omega
          · exact absurd h hneg
          · exact h

end Query

section Response

variable {response : List UInt8} {pos pos' p e e' n fuel : ℕ} {ipOut : UInt32}

theorem LabelsEnd.unique (h : LabelsEnd response pos e) (h' : LabelsEnd response pos e') : e = e' :=
  Loop.stop_unique h.1 h'.1 h.2 h'.2

theorem IsPointer.ne_zero (h : IsPointer response e) : response[e]? ≠ some 0 := by
  obtain ⟨len, hlen, hpointer⟩ := h
  intro hzero
  obtain rfl := Option.mem_unique hlen hzero
  exact absurd hpointer (by decide)

theorem skipLoop_spec (h : response.length ≤ pos + fuel) : ∃ e, LabelsEnd response pos e ∧
    (IsPointer response e ∧ skipLoop response fuel pos = (e + 2, true) ∨
      (response[e]? = none ∨ response[e]? = some 0) ∧ skipLoop response fuel pos = (e, false)) := by
  induction fuel generalizing pos with
  | zero =>
    have hnone : response[pos]? = none := List.getElem?_eq_none h
    refine ⟨pos, ⟨.refl, ?_⟩, .inr ⟨.inl hnone, rfl⟩⟩
    rw [nextLabel, hnone]
    rfl
  | succ fuel ih =>
    unfold skipLoop
    cases hlen : response[pos]? with
    | none =>
      refine ⟨pos, ⟨.refl, ?_⟩, .inr ⟨.inl hlen, rfl⟩⟩
      rw [nextLabel, hlen]
      rfl
    | some len =>
      have hnext : nextLabel response pos =
          if len = 0 ∨ len &&& 0xC0 = 0xC0 then none else some (pos + 1 + len.toNat) := by
        rw [nextLabel, hlen]
        rfl
      dsimp only
      by_cases hzero : len = 0
      · rw [if_pos (.inl hzero)] at hnext
        rw [if_pos hzero]
        exact ⟨pos, ⟨.refl, hnext⟩, .inr ⟨.inr (hzero ▸ hlen), rfl⟩⟩
      · rw [if_neg hzero]
        by_cases hpointer : len &&& 0xC0 = 0xC0
        · rw [if_pos (.inr hpointer)] at hnext
          rw [if_pos hpointer]
          exact ⟨pos, ⟨.refl, hnext⟩, .inl ⟨⟨len, hlen, hpointer⟩, rfl⟩⟩
        · rw [if_neg (not_or.mpr ⟨hzero, hpointer⟩)] at hnext
          rw [if_neg hpointer]
          obtain ⟨e, hend, hcases⟩ := ih (show response.length ≤ pos + 1 + len.toNat + fuel by omega)
          exact ⟨e, ⟨.head hnext hend.1, hend.2⟩, hcases⟩

theorem skipLoop_length (response : List UInt8) (pos : ℕ) : ∃ e, LabelsEnd response pos e ∧
    (IsPointer response e ∧ skipLoop response response.length pos = (e + 2, true) ∨
      (response[e]? = none ∨ response[e]? = some 0) ∧ skipLoop response response.length pos = (e, false)) :=
  skipLoop_spec (Nat.le_add_left _ _)

theorem skipQuestion_eq_some_iff : skipQuestion response pos = some pos' ↔ QuestionTo response pos pos' := by
  obtain ⟨e, hlabels, ⟨hpointer, hskip⟩ | ⟨hend, hskip⟩⟩ := skipLoop_length response pos
  · have hquestion : skipQuestion response pos =
        (response[e + 2]?).bind fun b => some ((if b = 0 then e + 3 else e + 2) + 4) := by
      rw [skipQuestion, hskip]
      rfl
    rw [hquestion]
    constructor
    · intro h
      obtain ⟨b, hb, heq⟩ := Option.bind_eq_some_iff.mp h
      obtain rfl := Option.some.inj heq
      exact .pointer hlabels hpointer hb
    · rintro (⟨hlabels', hend⟩ | ⟨hlabels', -, hb⟩)
      · obtain rfl := hlabels.unique hlabels'
        exact absurd hend hpointer.ne_zero
      · obtain rfl := hlabels.unique hlabels'
        rw [hb]
        rfl
  · have hquestion : skipQuestion response pos =
        (response[e]?).bind fun b => some ((if b = 0 then e + 1 else e) + 4) := by
      rw [skipQuestion, hskip]
      rfl
    rw [hquestion]
    constructor
    · intro h
      obtain ⟨b, hb, heq⟩ := Option.bind_eq_some_iff.mp h
      have hzero := hend.resolve_left (hb ▸ Option.some_ne_none b)
      obtain rfl := Option.some.inj (hb.symm.trans hzero)
      obtain rfl := Option.some.inj heq
      exact .null hlabels hzero
    · rintro (⟨hlabels', hzero⟩ | ⟨hlabels', hpointer, -⟩)
      · obtain rfl := hlabels.unique hlabels'
        rw [hzero]
        rfl
      · obtain rfl := hlabels.unique hlabels'
        obtain ⟨len, hlen, -⟩ := id hpointer
        rcases hend with hend | hend
        · exact absurd (hend.symm.trans hlen) (Option.some_ne_none len).symm
        · exact absurd hend hpointer.ne_zero

theorem skipQuestions_eq_some_iff :
    skipQuestions response n pos = some pos' ↔ QuestionsTo response n pos pos' := by
  induction n generalizing pos with
  | zero =>
    constructor
    · intro h
      obtain rfl := Option.some.inj h
      exact .nil pos
    · rintro ⟨⟩
      rfl
  | succ n ih =>
    refine Option.bind_eq_some_iff.trans ⟨?_, ?_⟩
    · rintro ⟨p, hp, hrest⟩
      exact .cons (skipQuestion_eq_some_iff.mp hp) (ih.mp hrest)
    · rintro ⟨⟩
      next p hquestion hrest => exact ⟨p, skipQuestion_eq_some_iff.mpr hquestion, ih.mpr hrest⟩

theorem skipAnswerName_eq_some_iff : skipAnswerName response pos = some p ↔ NameTo response pos p := by
  unfold skipAnswerName
  obtain ⟨e, hlabels, ⟨hpointer, hskip⟩ | ⟨hend, hskip⟩⟩ := skipLoop_length response pos
  · rw [hskip]
    constructor
    · intro h
      obtain rfl := Option.some.inj h
      exact .pointer hlabels hpointer
    · rintro (⟨hlabels', hend⟩ | ⟨hlabels', -⟩)
      · obtain rfl := hlabels.unique hlabels'
        exact absurd hend hpointer.ne_zero
      · obtain rfl := hlabels.unique hlabels'
        rfl
  · rw [hskip]
    constructor
    · intro h
      obtain ⟨b, hb, heq⟩ := Option.bind_eq_some_iff.mp h
      have hzero := hend.resolve_left (hb ▸ Option.some_ne_none b)
      obtain rfl := Option.some.inj (hb.symm.trans hzero)
      obtain rfl := Option.some.inj heq
      exact .null hlabels hzero
    · rintro (⟨hlabels', hzero⟩ | ⟨hlabels', hpointer⟩)
      · obtain rfl := hlabels.unique hlabels'
        dsimp only
        rw [hzero]
        rfl
      · obtain rfl := hlabels.unique hlabels'
        obtain ⟨len, hlen, -⟩ := id hpointer
        rcases hend with hend | hend
        · exact absurd (hend.symm.trans hlen) (Option.some_ne_none len).symm
        · exact absurd hend hpointer.ne_zero

theorem NameTo.unique (h : NameTo response pos p) (h' : NameTo response pos pos') : p = pos' :=
  Option.some.inj ((skipAnswerName_eq_some_iff.mpr h).symm.trans (skipAnswerName_eq_some_iff.mpr h'))

theorem be16_isSome_iff : (be16 response pos).isSome ↔ pos + 1 < response.length := by
  unfold be16
  by_cases h : pos + 1 < response.length
  · rw [List.getElem?_eq_getElem (show pos < response.length by omega), List.getElem?_eq_getElem h]
    exact iff_of_true rfl h
  · rw [List.getElem?_eq_none (not_lt.mp h)]
    cases response[pos]? <;> exact iff_of_false (by simp) h

theorem exists_be16 (h : pos + 1 < response.length) : ∃ v, be16 response pos = some v :=
  Option.isSome_iff_exists.mp (be16_isSome_iff.mpr h)

theorem be32_isSome_iff : (be32 response pos).isSome ↔ pos + 3 < response.length := by
  unfold be32
  by_cases h : pos + 3 < response.length
  · rw [List.getElem?_eq_getElem (show pos < response.length by omega),
      List.getElem?_eq_getElem (show pos + 1 < response.length by omega),
      List.getElem?_eq_getElem (show pos + 2 < response.length by omega), List.getElem?_eq_getElem h]
    exact iff_of_true rfl h
  · rw [List.getElem?_eq_none (not_lt.mp h)]
    cases response[pos]? <;> cases response[pos + 1]? <;> cases response[pos + 2]? <;>
      exact iff_of_false (by simp) h

theorem parseAnswers_isSome_iff :
    (parseAnswers response ipOut n pos).isSome ↔ AnswersInside response n pos := by
  induction n generalizing pos with
  | zero => exact iff_of_true rfl (.nil pos)
  | succ n ih =>
    unfold parseAnswers
    by_cases hpos : response.length ≤ pos
    · rw [if_pos hpos]
      exact iff_of_true rfl (.past hpos)
    rw [if_neg hpos]
    cases hname : skipAnswerName response pos with
    | none =>
      have hnone (p : ℕ) : ¬NameTo response pos p := by
        rw [← skipAnswerName_eq_some_iff, hname]
        exact (Option.some_ne_none p).symm
      refine iff_of_false (by simp) ?_
      rintro (_ | hpast | ⟨hname', -⟩ | ⟨hname', -, -⟩ | ⟨hname', -, -, -⟩)
      · exact hpos hpast
      all_goals exact hnone _ hname'
    | some p =>
      have hname := skipAnswerName_eq_some_iff.mp hname
      dsimp only [Option.bind_eq_bind, Option.bind_some]
      by_cases hshort : response.length < p + 10
      · rw [if_pos hshort]
        exact iff_of_true rfl (.short hname hshort)
      rw [if_neg hshort]
      obtain ⟨type, htype⟩ := exists_be16 (show p + 1 < response.length by omega)
      obtain ⟨rdlength, hrdlength⟩ := exists_be16 (show p + 8 + 1 < response.length by omega)
      have haddress : IsAddress response p ↔ type = dnsTypeA ∧ rdlength = 4 := by
        rw [IsAddress, htype, hrdlength, Option.some_inj, Option.some_inj]
      rw [htype, hrdlength]
      dsimp only [Option.bind_some]
      by_cases hfound : type = dnsTypeA ∧ rdlength = 4
      · have hip : ((be32 response (p + 10)).bind fun ip => some ((0 : ℤ), ip)).isSome ↔
            p + 14 ≤ response.length := by
          refine Iff.trans ?_ be32_isSome_iff
          cases be32 response (p + 10) <;> simp
        rw [if_pos hfound]
        refine hip.trans ⟨fun hlen => .address hname (haddress.mpr hfound) hlen, ?_⟩
        rintro (_ | hpast | ⟨hname', hshort'⟩ | ⟨hname', -, hlen⟩ | ⟨hname', hother, -, -⟩)
        · exact absurd hpast hpos
        · exact absurd (hname.unique hname' ▸ hshort') hshort
        · exact hname.unique hname' ▸ hlen
        · exact absurd (haddress.mpr hfound) (hname.unique hname' ▸ hother)
      · rw [if_neg hfound, ih]
        constructor
        · exact fun hrest => .other hname (haddress.not.mpr hfound) hrdlength hrest
        · rintro (_ | hpast | ⟨hname', hshort'⟩ | ⟨hname', htype', -⟩ | ⟨hname', -, hlen, hrest⟩)
          · exact absurd hpast hpos
          · exact absurd (hname.unique hname' ▸ hshort') hshort
          · exact absurd (haddress.mp (hname.unique hname' ▸ htype')) hfound
          · obtain rfl := hname.unique hname'
            obtain rfl := Option.some.inj (hrdlength.symm.trans hlen)
            exact hrest

theorem parseResponse_isSome_iff (response : List UInt8) (ipOut : UInt32) :
    (dnsParseResponse response ipOut).isSome ↔ ReadsInside response := by
  unfold dnsParseResponse ReadsInside
  by_cases hshort : response.length < dnsHeaderSize
  · rw [if_pos hshort]
    exact iff_of_true rfl fun h => absurd hshort (not_lt.mpr h)
  rw [if_neg hshort]
  have hsize : 12 ≤ response.length := not_lt.mp hshort
  obtain ⟨flags, hflags⟩ := exists_be16 (show 2 + 1 < response.length by omega)
  obtain ⟨qdcount, hqdcount⟩ := exists_be16 (show 4 + 1 < response.length by omega)
  obtain ⟨ancount, hancount⟩ := exists_be16 (show 6 + 1 < response.length by omega)
  rw [hflags, hqdcount, hancount]
  simp only [Option.bind_eq_bind, Option.bind_some, Option.mem_def, Option.some_inj, forall_eq']
  by_cases hqr : flags &&& dnsFlagQr = 0
  · rw [if_pos hqr]
    exact iff_of_true rfl fun _ h => absurd hqr h
  by_cases hrcode : flags &&& dnsRcodeMask = 0
  · by_cases hanswers : ancount = 0
    · rw [if_neg hqr, if_neg (not_not.mpr hrcode), if_pos hanswers]
      exact iff_of_true rfl fun _ _ _ h => absurd hanswers h
    · rw [if_neg hqr, if_neg (not_not.mpr hrcode), if_neg hanswers]
      simp only [not_lt.mp hshort, ne_eq, hqr, hrcode, hanswers, not_false_eq_true, true_imp_iff]
      rw [Option.isSome_iff_exists]
      constructor
      · rintro ⟨r, hr⟩
        obtain ⟨pos, hpos, hrest⟩ := Option.bind_eq_some_iff.mp hr
        exact ⟨pos, skipQuestions_eq_some_iff.mp hpos,
          parseAnswers_isSome_iff.mp (Option.isSome_iff_exists.mpr ⟨r, hrest⟩)⟩
      · rintro ⟨pos, hpos, hrest⟩
        obtain ⟨r, hr⟩ := Option.isSome_iff_exists.mp (parseAnswers_isSome_iff.mpr hrest)
        exact ⟨r, Option.bind_eq_some_iff.mpr ⟨pos, skipQuestions_eq_some_iff.mpr hpos, hr⟩⟩
  · rw [if_neg hqr, if_pos hrcode]
    exact iff_of_true rfl fun _ _ h => absurd h hrcode

end Response

/-- When the resolver stays in its buffers. -/
theorem message_inside_iff (queryId : UInt16) (name : CString) (type : UInt16) (bufLen : ℕ)
    (response : List UInt8) (ipOut : UInt32) :
    ((dnsBuildQuery queryId name type bufLen).Inside bufLen ↔ QueryFits name bufLen) ∧
      ((dnsParseResponse response ipOut).isSome ↔ ReadsInside response) :=
  ⟨buildQuery_inside_iff .., parseResponse_isSome_iff ..⟩

/-- A name that fills the buffer up to its end, and a response that ends where its question should begin. -/
theorem message_outside :
    (∃ name, ¬(dnsBuildQuery 1 name dnsTypeA 512).Inside 512) ∧
      dnsParseResponse [0, 1, 0x80, 0, 0, 1, 0, 1, 0, 0, 0, 0] 0 = none := by
  have hnull : (0 : UInt8) ∉ List.replicate 498 97 := fun h => absurd (List.eq_of_mem_replicate h) (by decide)
  refine ⟨⟨⟨_, hnull⟩, ?_⟩, rfl⟩
  rw [buildQuery_inside_iff]
  have hstripped : CString.stripped ⟨_, hnull⟩ = List.replicate 498 97 := by
    refine if_neg ?_
    rw [List.getLast?_replicate]
    decide
  unfold QueryFits
  rw [hstripped, List.length_replicate]
  decide

end GcAos.Dns
