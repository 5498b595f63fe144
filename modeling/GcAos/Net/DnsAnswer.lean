import GcAos.Net.DnsMessage

/-! Well-formed responses, and the address that `dns_parse_response` takes from them. -/

namespace GcAos.Dns
open Lib StateTransition

/-- A name in a message: labels, and at their end a null byte or a pointer to the rest of the name. -/
structure Name where
  labels : List (List UInt8)
  pointer : Option (Fin 0x4000)
  proper : ∀ l ∈ labels, 1 ≤ l.length ∧ l.length ≤ 63

def Name.ending (name : Name) : List UInt8 :=
  match name.pointer with
  | none => [0]
  | some target => [UInt8.ofNat (0xC0 + target / 256), UInt8.ofNat target]

def Name.bytes (name : Name) : List UInt8 := wire name.labels ++ name.ending

structure Question where
  name : Name
  qtype : UInt16
  qclass : UInt16

def Question.bytes (q : Question) : List UInt8 := q.name.bytes ++ (beBytes q.qtype ++ beBytes q.qclass)

structure Record where
  name : Name
  type : UInt16
  cls : UInt16
  ttl : UInt32
  rdata : List UInt8
  short : rdata.length < 2 ^ 16

namespace Record

def bytes (r : Record) : List UInt8 :=
  r.name.bytes ++ (beBytes r.type ++ (beBytes r.cls ++ (beBytes (r.ttl >>> 16).toUInt16 ++
    (beBytes r.ttl.toUInt16 ++ (beBytes (UInt16.ofNat r.rdata.length) ++ r.rdata)))))

def address (r : Record) : Option UInt32 :=
  if r.type = dnsTypeA ∧ r.rdata.length = 4 then be32 r.rdata 0 else none

end Record

/-- A response; `rest` holds the records after the answers. One with an error code carries no address. -/
structure Response where
  id : UInt16
  flags : UInt16
  questions : List Question
  answers : List Record
  nscount : UInt16
  arcount : UInt16
  rest : List UInt8
  questions_lt : questions.length < 2 ^ 16
  answers_lt : answers.length < 2 ^ 16
  qr : flags &&& dnsFlagQr ≠ 0
  error : flags &&& dnsRcodeMask ≠ 0 → ∀ r ∈ answers, r.address = none

namespace Response

def bytes (m : Response) : List UInt8 :=
  beBytes m.id ++ (beBytes m.flags ++ (beBytes (UInt16.ofNat m.questions.length) ++
    (beBytes (UInt16.ofNat m.answers.length) ++ (beBytes m.nscount ++ (beBytes m.arcount ++
      (m.questions.flatMap Question.bytes ++ (m.answers.flatMap Record.bytes ++ m.rest)))))))

/-- What `dns_parse_response` is to return, and to leave in `*ip_out`. -/
def expected (answers : List Record) (ipOut : UInt32) : ℤ × UInt32 :=
  match answers.findSome? Record.address with
  | some ip => (0, ip)
  | none => (-1, ipOut)

def Extracts (m : Response) : Prop :=
  ∀ ipOut, dnsParseResponse m.bytes ipOut = some (expected m.answers ipOut)

end Response

/-- After a pointer at the end of the name the type does not begin with a null byte, which the code would
take for the end of the name. -/
def Question.InStep (q : Question) : Prop := q.name.pointer.isSome → (q.qtype >>> 8).toUInt8 ≠ 0

variable {response pre post a : List UInt8} {pos p : ℕ} {x : UInt16} {ipOut : UInt32}

theorem drop_add_of_eq (h : response.drop pos = a ++ post) : response.drop (pos + a.length) = post := by
  rw [← List.drop_drop, h, List.drop_left]

theorem getElem?_of_drop (h : response.drop pos = a ++ post) {i : ℕ} (hi : i < a.length) :
    response[pos + i]? = a[i]? := by
  rw [← List.getElem?_drop, h, List.getElem?_append_left hi]

theorem add_length_le_of_drop (h : response.drop pos = a ++ post) (ha : a ≠ []) :
    pos + a.length ≤ response.length := by
  have hlen := congrArg List.length h
  have hpos := List.length_pos_of_ne_nil ha
  rw [List.length_drop, List.length_append] at hlen
  omega

theorem beBytes_value (x : UInt16) : (x >>> 8).toUInt8.toUInt16 <<< 8 ||| x.toUInt8.toUInt16 = x := by
  apply UInt16.toNat_inj.mp
  have hx : x.toNat < 65536 := x.toNat_lt
  have hhi : ((x >>> 8).toUInt8.toUInt16 <<< 8).toNat = (x.toNat / 256) <<< 8 := by
    simp [Nat.shiftRight_eq_div_pow, Nat.shiftLeft_eq]
    omega
  have hlo : x.toUInt8.toUInt16.toNat = x.toNat % 256 := by simp
  rw [UInt16.toNat_or, hhi, hlo, ← Nat.shiftLeft_add_eq_or_of_lt (Nat.mod_lt _ (by decide)), Nat.shiftLeft_eq]
  omega

theorem be16_of_drop (h : response.drop pos = beBytes x ++ post) : be16 response pos = some x := by
  have h₀ : response[pos]? = some (x >>> 8).toUInt8 := getElem?_of_drop h (show 0 < 2 by decide)
  have h₁ : response[pos + 1]? = some x.toUInt8 := getElem?_of_drop h (show 1 < 2 by decide)
  rw [be16, h₀, h₁]
  exact congrArg some (beBytes_value x)

theorem be32_of_drop (h : response.drop pos = a ++ post) (ha : a.length = 4) :
    be32 response pos = be32 a 0 := by
  unfold be32
  rw [← getElem?_of_drop (i := 0) h (by omega), ← getElem?_of_drop (i := 1) h (by omega),
    ← getElem?_of_drop (i := 2) h (by omega), ← getElem?_of_drop (i := 3) h (by omega)]
  rfl

/-! Names. -/

theorem not_isPointer_of_length {l : List UInt8} (h : 1 ≤ l.length ∧ l.length ≤ 63) :
    UInt8.ofNat l.length ≠ 0 ∧ ¬UInt8.ofNat l.length &&& 0xC0 = 0xC0 := by
  have hnat : (UInt8.ofNat l.length).toNat = l.length := by
    rw [UInt8.toNat_ofNat']
    omega
  constructor
  · intro hzero
    rw [hzero] at hnat
    have : (0 : UInt8).toNat = 0 := rfl
    omega
  · rw [Decoder.isPointer_iff, hnat]
    omega

theorem reaches_wire {ls : List (List UInt8)} (hls : ∀ l ∈ ls, 1 ≤ l.length ∧ l.length ≤ 63)
    (h : response.drop pos = wire ls ++ post) :
    Reaches (nextLabel response) pos (pos + (wire ls).length) := by
  induction ls generalizing pos with
  | nil => exact .refl
  | cons l ls ih =>
    obtain ⟨hl, hls⟩ := List.forall_mem_cons.mp hls
    have hdrop : response.drop pos = (UInt8.ofNat l.length :: l) ++ (wire ls ++ post) := by
      rw [h, wire_cons]
      simp
    have hget : response[pos]? = some (UInt8.ofNat l.length) := getElem?_of_drop hdrop (Nat.succ_pos _)
    have hnat : (UInt8.ofNat l.length).toNat = l.length := by
      rw [UInt8.toNat_ofNat']
      omega
    have hnext : nextLabel response pos = some (pos + (l.length + 1)) := by
      rw [nextLabel, hget]
      refine (if_neg (not_or.mpr (not_isPointer_of_length hl))).trans ?_
      rw [hnat, Nat.add_assoc, Nat.add_comm 1]
    have hend : pos + (wire (l :: ls)).length = pos + (l.length + 1) + (wire ls).length := by
      rw [wire_cons, List.length_cons, List.length_append]
      omega
    rw [hend]
    exact .head hnext (ih hls (drop_add_of_eq hdrop))

theorem ending_pointer (target : Fin 0x4000) :
    (UInt8.ofNat (0xC0 + target / 256)) &&& 0xC0 = 0xC0 := by
  have := target.isLt
  rw [Decoder.isPointer_iff, UInt8.toNat_ofNat']
  omega

theorem nextLabel_of_getElem? {b : UInt8} (h : response[p]? = some b) (hb : b = 0 ∨ b &&& 0xC0 = 0xC0) :
    nextLabel response p = none := by
  rw [nextLabel, h]
  exact if_pos hb

theorem Name.labelsEnd (name : Name) (h : response.drop pos = name.bytes ++ post) :
    LabelsEnd response pos (pos + (wire name.labels).length) ∧
      if name.pointer.isSome then IsPointer response (pos + (wire name.labels).length)
      else response[pos + (wire name.labels).length]? = some 0 := by
  rw [Name.bytes, List.append_assoc] at h
  have hreach := reaches_wire name.proper h
  have hdrop := drop_add_of_eq h
  unfold Name.ending at hdrop
  cases hpointer : name.pointer with
  | none =>
    rw [hpointer] at hdrop
    have hget := getElem?_of_drop hdrop (show 0 < 1 by decide)
    exact ⟨⟨hreach, nextLabel_of_getElem? hget (.inl rfl)⟩, hget⟩
  | some target =>
    rw [hpointer] at hdrop
    have hget := getElem?_of_drop hdrop (show 0 < 2 by decide)
    have hbits := ending_pointer target
    exact ⟨⟨hreach, nextLabel_of_getElem? hget (.inr hbits)⟩, _, hget, hbits⟩

theorem Name.bytes_length (name : Name) : name.bytes.length =
    (wire name.labels).length + if name.pointer.isSome then 2 else 1 := by
  rw [Name.bytes, List.length_append, Name.ending]
  cases name.pointer <;> rfl

theorem Name.nameTo (name : Name) (h : response.drop pos = name.bytes ++ post) :
    NameTo response pos (pos + name.bytes.length) := by
  obtain ⟨hlabels, hend⟩ := name.labelsEnd h
  rw [name.bytes_length, ← Nat.add_assoc]
  split at hend
  · next hpointer =>
    rw [if_pos hpointer]
    exact .pointer hlabels hend
  · next hpointer =>
    rw [if_neg hpointer]
    exact .null hlabels hend

/-! Questions. The place taken for the next one is right or a byte too far. -/

theorem Question.questionTo (q : Question) (h : response.drop pos = q.bytes ++ post) :
    QuestionTo response pos (pos + q.bytes.length +
      if q.name.pointer.isSome ∧ (q.qtype >>> 8).toUInt8 = 0 then 1 else 0) := by
  have hbytes : response.drop pos = q.name.bytes ++ (beBytes q.qtype ++ (beBytes q.qclass ++ post)) := by
    rw [h, Question.bytes, List.append_assoc, List.append_assoc]
  obtain ⟨hlabels, hend⟩ := q.name.labelsEnd hbytes
  have hlen : pos + q.bytes.length = pos + q.name.bytes.length + 4 := by
    rw [Question.bytes, List.length_append]
    rfl
  rw [hlen, q.name.bytes_length]
  by_cases hpointer : q.name.pointer.isSome
  · rw [if_pos hpointer] at hend ⊢
    have hnext : response[pos + (wire q.name.labels).length + 2]? = some (q.qtype >>> 8).toUInt8 := by
      have hdrop := drop_add_of_eq hbytes
      rw [q.name.bytes_length, if_pos hpointer] at hdrop
      exact getElem?_of_drop hdrop (show 0 < 2 by decide)
    have hquestion := QuestionTo.pointer hlabels hend hnext
    simp only [hpointer, true_and]
    convert hquestion using 1
    split_ifs <;> omega
  · rw [if_neg hpointer] at hend ⊢
    rw [if_neg fun h => hpointer h.1]
    exact .null hlabels hend

theorem Question.InStep.questionTo {q : Question} (hq : q.InStep) (h : response.drop pos = q.bytes ++ post) :
    QuestionTo response pos (pos + q.bytes.length) := by
  have hquestion := q.questionTo h
  rwa [if_neg fun h => hq h.1 h.2] at hquestion

theorem questionsTo_of_inStep {qs : List Question} (hqs : ∀ q ∈ qs, q.InStep)
    (h : response.drop pos = qs.flatMap Question.bytes ++ post) :
    QuestionsTo response qs.length pos (pos + (qs.flatMap Question.bytes).length) := by
  induction qs generalizing pos with
  | nil => exact .nil pos
  | cons q qs ih =>
    obtain ⟨hq, hqs⟩ := List.forall_mem_cons.mp hqs
    rw [List.flatMap_cons, List.append_assoc] at h
    have hrest := ih hqs (drop_add_of_eq h)
    rw [Nat.add_assoc, ← List.length_append] at hrest
    exact .cons (hq.questionTo h) hrest

theorem QuestionsTo.append {n n' pos' pos'' : ℕ} (h : QuestionsTo response n pos pos')
    (h' : QuestionsTo response n' pos' pos'') : QuestionsTo response (n + n') pos pos'' := by
  induction h with
  | nil => rwa [Nat.zero_add]
  | cons hquestion _ ih =>
    rw [Nat.add_right_comm]
    exact .cons hquestion (ih h')

/-! Answers. -/

theorem Record.length_le (r : Record) (h : response.drop pos = r.bytes ++ post) :
    pos + r.name.bytes.length + 10 + r.rdata.length ≤ response.length := by
  have hlen : r.bytes.length = r.name.bytes.length + 10 + r.rdata.length := by
    simp [Record.bytes, beBytes]
    omega
  have hpos : r.bytes ≠ [] := List.ne_nil_of_length_pos (by omega)
  have := add_length_le_of_drop h hpos
  omega

theorem Record.fields (r : Record) (h : response.drop pos = r.bytes ++ post) :
    be16 response (pos + r.name.bytes.length) = some r.type ∧
      be16 response (pos + r.name.bytes.length + 8) = some (UInt16.ofNat r.rdata.length) ∧
      response.drop (pos + r.name.bytes.length + 10) = r.rdata ++ post := by
  have htype : response.drop (pos + r.name.bytes.length) = beBytes r.type ++ ((beBytes r.cls ++
      (beBytes (r.ttl >>> 16).toUInt16 ++ beBytes r.ttl.toUInt16)) ++
        (beBytes (UInt16.ofNat r.rdata.length) ++ (r.rdata ++ post))) := by
    apply drop_add_of_eq
    rw [h, Record.bytes]
    simp only [List.append_assoc]
  have hcls := drop_add_of_eq htype
  have hrdlength := drop_add_of_eq hcls
  exact ⟨be16_of_drop htype, be16_of_drop hrdlength, drop_add_of_eq hrdlength⟩

theorem Record.rdlength_eq_iff (r : Record) : UInt16.ofNat r.rdata.length = 4 ↔ r.rdata.length = 4 := by
  have hshort := r.short
  rw [← UInt16.toNat_inj, UInt16.toNat_ofNat']
  change r.rdata.length % 2 ^ 16 = 4 ↔ _
  rw [Nat.mod_eq_of_lt hshort]

theorem parseAnswers_records {as : List Record} (h : response.drop pos = as.flatMap Record.bytes ++ post) :
    parseAnswers response ipOut as.length pos = some (Response.expected as ipOut) := by
  induction as generalizing pos with
  | nil => rfl
  | cons r as ih =>
    rw [List.flatMap_cons, List.append_assoc] at h
    have hname : response.drop pos = r.name.bytes ++ ((r.bytes ++ (as.flatMap Record.bytes ++ post)).drop
        r.name.bytes.length) := by
      rw [h, Record.bytes, List.append_assoc, List.drop_left]
    have hlen := r.length_le h
    obtain ⟨htype, hrdlength, hrdata⟩ := r.fields h
    rw [List.length_cons, parseAnswers, if_neg (by omega),
      skipAnswerName_eq_some_iff.mpr (r.name.nameTo hname)]
    dsimp only [Option.bind_eq_bind, Option.bind_some]
    rw [if_neg (by omega), htype, hrdlength]
    dsimp only [Option.bind_some]
    unfold Response.expected
    rw [List.findSome?_cons, Record.address, if_congr (and_congr_right' r.rdlength_eq_iff) rfl rfl]
    split
    · next hfound =>
      have haddress := be32_of_drop hrdata hfound.2
      have hsome : (be32 r.rdata 0).isSome := be32_isSome_iff.mpr (by omega)
      obtain ⟨ip, hip⟩ := Option.isSome_iff_exists.mp hsome
      rw [haddress, hip]
      rfl
    · have hnat : (UInt16.ofNat r.rdata.length).toNat = r.rdata.length := by
        rw [UInt16.toNat_ofNat']
        exact Nat.mod_eq_of_lt r.short
      rw [hnat]
      exact ih (drop_add_of_eq hrdata)

namespace Response

variable (m : Response)

theorem header : be16 m.bytes 2 = some m.flags ∧ be16 m.bytes 4 = some (UInt16.ofNat m.questions.length) ∧
    be16 m.bytes 6 = some (UInt16.ofNat m.answers.length) ∧
    m.bytes.drop dnsHeaderSize = m.questions.flatMap Question.bytes ++
      (m.answers.flatMap Record.bytes ++ m.rest) :=
  ⟨be16_of_drop rfl, be16_of_drop rfl, be16_of_drop rfl, rfl⟩

theorem parse_eq (ipOut : UInt32) (hflags : m.flags &&& dnsRcodeMask = 0) (hanswers : m.answers ≠ []) :
    dnsParseResponse m.bytes ipOut = (skipQuestions m.bytes m.questions.length dnsHeaderSize).bind
      (parseAnswers m.bytes ipOut m.answers.length) := by
  obtain ⟨hf, hq, ha, -⟩ := m.header
  have hlen : ¬m.bytes.length < dnsHeaderSize := by
    simp [bytes, beBytes, dnsHeaderSize]
  have hqnat : (UInt16.ofNat m.questions.length).toNat = m.questions.length := by
    rw [UInt16.toNat_ofNat']
    exact Nat.mod_eq_of_lt m.questions_lt
  have hanat : (UInt16.ofNat m.answers.length).toNat = m.answers.length := by
    rw [UInt16.toNat_ofNat']
    exact Nat.mod_eq_of_lt m.answers_lt
  have hne : UInt16.ofNat m.answers.length ≠ 0 := by
    intro hzero
    rw [hzero] at hanat
    exact hanswers (List.eq_nil_of_length_eq_zero hanat.symm)
  rw [dnsParseResponse, if_neg hlen, hf]
  dsimp only [Option.bind_eq_bind, Option.bind_some]
  rw [if_neg m.qr, if_neg (not_not.mpr hflags), hq, ha]
  dsimp only [Option.bind_some]
  rw [if_neg hne, hqnat, hanat]

theorem extracts_of_none (h : m.answers.findSome? Record.address = none)
    (hrefused : m.flags &&& dnsRcodeMask ≠ 0 ∨ m.answers = []) : m.Extracts := by
  intro ipOut
  obtain ⟨hf, hq, ha, -⟩ := m.header
  have hlen : ¬m.bytes.length < dnsHeaderSize := by
    simp [bytes, beBytes, dnsHeaderSize]
  rw [expected, h, dnsParseResponse, if_neg hlen, hf]
  dsimp only [Option.bind_eq_bind, Option.bind_some]
  rw [if_neg m.qr]
  split
  · rfl
  · next hflags =>
    rw [hq, ha, hrefused.resolve_left hflags]
    rfl

def InStep : Prop := m.flags &&& dnsRcodeMask = 0 → m.answers ≠ [] → ∀ q ∈ m.questions, q.InStep

variable {m}

theorem InStep.extracts (h : m.InStep) : m.Extracts := by
  by_cases hflags : m.flags &&& dnsRcodeMask = 0
  · by_cases hanswers : m.answers = []
    · exact m.extracts_of_none (by rw [hanswers]; rfl) (.inr hanswers)
    · intro ipOut
      obtain ⟨-, -, -, hdrop⟩ := m.header
      rw [m.parse_eq ipOut hflags hanswers,
        skipQuestions_eq_some_iff.mpr (questionsTo_of_inStep (h hflags hanswers) hdrop)]
      exact parseAnswers_records (drop_add_of_eq hdrop)
  · exact m.extracts_of_none (List.findSome?_eq_none_iff.mpr (m.error hflags)) (.inl hflags)

/-- The root with an address, as the only answer after the questions `qs`. -/
def rootAddress (qs : List Question) (h : qs.length < 2 ^ 16) : Response where
  id := 0
  flags := dnsFlagQr
  questions := qs
  answers := [⟨⟨[], none, by simp⟩, dnsTypeA, 1, 0, [0, 0, 0, 0], by decide⟩]
  nscount := 0
  arcount := 0
  rest := []
  questions_lt := h
  answers_lt := by decide
  qr := by decide
  error := fun h => absurd rfl h

theorem rootAddress_not_extracts {qs : List Question} {q : Question} (hqs : ∀ q ∈ qs, q.InStep)
    (hq : ¬q.InStep) (h : (qs ++ [q]).length < 2 ^ 16) : ¬(rootAddress (qs ++ [q]) h).Extracts := by
  intro hextracts
  have hspec := hextracts 1
  obtain ⟨hpointer, hnull⟩ := Classical.not_imp.mp hq
  obtain ⟨-, -, -, hdrop⟩ := (rootAddress (qs ++ [q]) h).header
  have hcount : (rootAddress (qs ++ [q]) h).questions.length = qs.length + (0 + 1) := List.length_append
  have hflags : dnsFlagQr &&& dnsRcodeMask = 0 := by decide
  rw [parse_eq _ 1 hflags (by simp [rootAddress]), hcount] at hspec
  have hparts : (rootAddress (qs ++ [q]) h).bytes.drop dnsHeaderSize = qs.flatMap Question.bytes ++
      (q.bytes ++ [0, 0, 1, 0, 1, 0, 0, 0, 0, 0, 4, 0, 0, 0, 0]) := by
    rw [hdrop]
    simp only [rootAddress, List.flatMap_append, List.flatMap_cons, List.flatMap_nil, List.append_assoc]
    rfl
  generalize (rootAddress (qs ++ [q]) h).bytes = response at hspec hparts
  have hlast := drop_add_of_eq hparts
  have hquestion := q.questionTo hlast
  rw [if_pos ⟨hpointer, not_not.mp hnull⟩] at hquestion
  have hquestions := (questionsTo_of_inStep hqs hparts).append (.cons hquestion (.nil _))
  have hanswer := drop_add_of_eq hlast
  generalize dnsHeaderSize + (qs.flatMap Question.bytes).length + q.bytes.length = pos at hquestions hanswer
  -- the answer is read from its second byte on
  have hskip : skipAnswerName response (pos + 1) = some (pos + 2) := by
    have hget : response[pos + 1]? = some 0 := getElem?_of_drop (a := [0, 0]) hanswer (show 1 < 2 by decide)
    exact skipAnswerName_eq_some_iff.mpr (.null ⟨.refl, nextLabel_of_getElem? hget (.inl rfl)⟩ hget)
  have htype : response.drop (pos + 2) = beBytes 0x0100 ++ [1, 0, 0, 0, 0, 0, 4, 0, 0, 0, 0] := by
    rw [← List.drop_drop, hanswer]
    rfl
  have hrdlength : response.drop (pos + 2 + 8) = beBytes 0x0400 ++ [0, 0, 0] := by
    rw [Nat.add_assoc, ← List.drop_drop, hanswer]
    rfl
  have hlen : response.length - pos = 15 := by
    rw [← List.length_drop, hanswer]
    rfl
  have hparse : parseAnswers response 1 1 (pos + 1) = some (-1, 1) := by
    rw [parseAnswers, if_neg (by omega), hskip]
    dsimp only [Option.bind_eq_bind, Option.bind_some]
    rw [if_neg (by omega), be16_of_drop htype, be16_of_drop hrdlength]
    rfl
  have hexpected : expected (rootAddress (qs ++ [q]) h).answers 1 = (0, 0) := rfl
  rw [skipQuestions_eq_some_iff.mpr hquestions, hexpected] at hspec
  exact absurd (hparse.symm.trans hspec) (by decide)

end Response

/-- A response whose questions are in step gives its address; and of all question sections in which the last
question alone is not, there is a response with this section that does not. -/
theorem extracts_of_inStep (m : Response) : (m.InStep → m.Extracts) ∧
    ∀ (qs : List Question) (q : Question), (∀ q ∈ qs, q.InStep) → ¬q.InStep → qs.length + 1 < 2 ^ 16 →
      ∃ m : Response, m.questions = qs ++ [q] ∧ ¬m.Extracts := by
  refine ⟨fun h => h.extracts, fun qs q hqs hq hlen => ?_⟩
  have hlen' : (qs ++ [q]).length < 2 ^ 16 := by
    rw [List.length_append]
    exact hlen
  exact ⟨Response.rootAddress _ hlen', rfl, Response.rootAddress_not_extracts hqs hq hlen'⟩

/-- The questions are for the address of `a.b` and for the type 257 of `c.a.b`, and an alias comes first. -/
def sampleResponse : Response :=
  ⟨7, 0x8180,
    [⟨⟨[[97], [98]], none, by simp⟩, dnsTypeA, 1⟩, ⟨⟨[[99]], some 12, by simp⟩, 257, 1⟩],
    [⟨⟨[[99]], some 12, by simp⟩, 5, 1, 60, [0xc0, 12], by decide⟩,
      ⟨⟨[], some 12, by simp⟩, dnsTypeA, 1, 60, [10, 0, 0, 1], by decide⟩], 0, 0, [], by decide, by decide,
    by decide, fun h => absurd rfl h⟩

theorem extracts_of_inStep_alias : sampleResponse.InStep ∧ sampleResponse.Extracts := by
  have hstep : sampleResponse.InStep := by
    intro _ _ q hq
    rcases List.mem_cons.mp hq with rfl | hq
    · exact fun h => absurd h (by decide)
    · obtain rfl := List.mem_singleton.mp hq
      exact fun _ => by decide
  exact ⟨hstep, (extracts_of_inStep _).1 hstep⟩

/-- The second of two questions, of type A, has the name of the first one, written as a pointer. -/
theorem slip_loses_address : ∃ m : Response, m.answers.length = 1 ∧
    dnsParseResponse m.bytes 0 = some (-1, 0) ∧ ¬m.Extracts := by
  let m : Response := ⟨1, 0x8180,
    [⟨⟨[[97]], none, by simp⟩, dnsTypeA, 1⟩, ⟨⟨[], some 12, by simp⟩, dnsTypeA, 1⟩],
    [⟨⟨[], some 12, by simp⟩, dnsTypeA, 1, 60, [10, 0, 0, 1], by decide⟩], 0, 0, [], by decide, by decide,
    by decide, fun h => absurd rfl h⟩
  have hparse : dnsParseResponse m.bytes 0 = some (-1, 0) := by decide +kernel
  refine ⟨m, rfl, hparse, fun h => ?_⟩
  exact absurd (hparse.symm.trans (h 0)) (by decide)

end GcAos.Dns
