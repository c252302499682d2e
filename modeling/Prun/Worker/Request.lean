import Mathlib.Data.Nat.Digits

/-!
# Framed request reader

A request on the wire is an ASCII decimal length, a line feed and the payload.  The reader of
`PyExec.cpp`, `Request< BufferT >`, remembers the index of the line feed found in the first chunk
and starts every later copy at that index too, so the line feed itself is copied into the payload
and every later chunk loses its first bytes.  This file models the reader and the session loop
that feeds it chunk by chunk, and characterises what it stores for every stream.
-/

namespace Prun

/-- The session read buffer, `boost::array< char, 1024 >`. -/
def bufferSize : Nat := 1024

/-- The bytes one `async_read_some` leaves at the front of the buffer: at least one byte, and
no more than the buffer holds. -/
structure Chunk where
  /-- The bytes received. -/
  bytes : List Char
  /-- A successful read transfers at least one byte. -/
  nonempty : bytes ≠ []
  /-- A read never transfers more than the buffer holds. -/
  fits : bytes.length ≤ bufferSize
  deriving DecidableEq

/-! ## Decimal lengths -/

/-- Value of a string of decimal digits, most significant digit first. -/
def digitsValue (digits : List Char) : Nat :=
  digits.foldl (fun value digit => 10 * value + (digit.toNat - '0'.toNat)) 0

/-- `boost::lexical_cast< std::string >` of an unsigned length. -/
def decimal (value : Nat) : List Char := Nat.toDigits 10 value

/-- The digits case of `boost::lexical_cast< unsigned int >`: at least one digit, and a value
below `2^32`. -/
def castDigits (digits : List Char) : Option (BitVec 32) :=
  if digits ≠ [] ∧ digits.all Char.isDigit ∧ digitsValue digits < 2 ^ 32 then
    some (BitVec.ofNat 32 (digitsValue digits))
  else
    none

/-- `boost::lexical_cast< unsigned int >`: an optional sign before the digits; a minus negates
the value modulo `2^32`. -/
def lexicalCast : List Char → Option (BitVec 32)
  | '-' :: digits => (castDigits digits).map (- ·)
  | '+' :: digits => castDigits digits
  | digits => castDigits digits

private theorem digitChar_facts : ∀ digit < 10,
    (Nat.digitChar digit).toNat - '0'.toNat = digit ∧ (Nat.digitChar digit).isDigit = true := by
  decide

private theorem foldl_toDigitsCore (fuel value : Nat) (digits : List Char)
    (hfuel : value < fuel) :
    (Nat.toDigitsCore 10 fuel value digits).foldl
        (fun value digit => 10 * value + (digit.toNat - '0'.toNat)) 0 =
      digits.foldl (fun value digit => 10 * value + (digit.toNat - '0'.toNat)) value := by
  induction fuel generalizing value digits with
  | zero => omega
  | succ fuel ih =>
    have hdigit := (digitChar_facts (value % 10) (Nat.mod_lt _ (by omega))).1
    simp only [Nat.toDigitsCore]
    split
    · simp only [List.foldl_cons, hdigit]
      congr 1
      omega
    · rw [ih _ _ (by omega), List.foldl_cons, hdigit]
      congr 1
      omega

private theorem isDigit_toDigitsCore (fuel value : Nat) (digits : List Char)
    (hdigits : ∀ digit ∈ digits, digit.isDigit = true) :
    ∀ digit ∈ Nat.toDigitsCore 10 fuel value digits, digit.isDigit = true := by
  induction fuel generalizing value digits with
  | zero => exact hdigits
  | succ fuel ih =>
    have hdigit := (digitChar_facts (value % 10) (Nat.mod_lt _ (by omega))).2
    simp only [Nat.toDigitsCore]
    split
    · simpa [hdigit] using hdigits
    · exact ih _ _ (by simpa [hdigit] using hdigits)

@[simp]
theorem digitsValue_decimal (value : Nat) : digitsValue (decimal value) = value := by
  simpa using foldl_toDigitsCore (value + 1) value [] (by omega)

theorem isDigit_of_mem_decimal {value : Nat} {digit : Char} (hmem : digit ∈ decimal value) :
    digit.isDigit = true :=
  isDigit_toDigitsCore (value + 1) value [] (by simp) digit hmem

private theorem toDigitsCore_ne_nil (fuel value : Nat) (digits : List Char)
    (hdigits : digits ≠ []) : Nat.toDigitsCore 10 fuel value digits ≠ [] := by
  induction fuel generalizing value digits with
  | zero => exact hdigits
  | succ fuel ih =>
    simp only [Nat.toDigitsCore]
    split
    · simp
    · exact ih _ _ (by simp)

theorem decimal_ne_nil (value : Nat) : decimal value ≠ [] := by
  simp only [decimal, Nat.toDigits, Nat.toDigitsCore]
  split
  · simp
  · exact toDigitsCore_ne_nil _ _ _ (by simp)

theorem newline_not_mem_decimal (value : Nat) : '\n' ∉ decimal value := fun hmem =>
  absurd (isDigit_of_mem_decimal hmem) (by decide)

theorem lexicalCast_decimal {value : Nat} (hvalue : value < 2 ^ 32) :
    lexicalCast (decimal value) = some (BitVec.ofNat 32 value) := by
  obtain ⟨first, rest, hcons⟩ := List.exists_cons_of_ne_nil (decimal_ne_nil value)
  have hfirst : first.isDigit = true :=
    isDigit_of_mem_decimal (show first ∈ decimal value by simp [hcons])
  have hminus : first ≠ '-' := by rintro rfl; exact absurd hfirst (by decide)
  have hplus : first ≠ '+' := by rintro rfl; exact absurd hfirst (by decide)
  have hcast : castDigits (decimal value) = some (BitVec.ofNat 32 value) := by
    have hall : (decimal value).all Char.isDigit = true :=
      List.all_eq_true.mpr fun digit => isDigit_of_mem_decimal
    simpa [castDigits, decimal_ne_nil, hall] using hvalue
  rw [hcons] at hcast ⊢
  simpa [lexicalCast, hminus, hplus] using hcast

/-! ## The reader -/

/-- `Request< BufferT >` of `PyExec.cpp`. -/
structure Request where
  /-- `request_`: the bytes copied out of the chunks. -/
  request : List Char
  /-- `requestLength_`, an `int`: the length the header announced. -/
  requestLength : BitVec 32
  /-- `bytesRead_`, an `int`: the count `IsReadCompleted` compares with the length. -/
  bytesRead : BitVec 32
  /-- `headerOffset_`, an `unsigned int`: the index of the header's line feed. -/
  headerOffset : BitVec 32
  deriving DecidableEq, Repr

namespace Request

/-- The state after the constructor, and after `Reset`. -/
def empty : Request := ⟨[], 0, 0, 0⟩

/-- `OnRead`: copy the chunk from `headerOffset_` on, and count the bytes copied.  The count is
taken in `size_t` and stored back in an `int`, so it wraps modulo `2^32`; a chunk shorter than
`headerOffset_` copies nothing and lowers the count. -/
def onRead (request : Request) (chunk : Chunk) : Request :=
  { request with
    request := request.request ++ chunk.bytes.drop request.headerOffset.toNat
    bytesRead := request.bytesRead + (BitVec.ofNat 32 chunk.bytes.length - request.headerOffset) }

/-- `ParseRequestHeader`: look for a line feed among the bytes received.  `std::find` returns
the end of the searched range when there is none, and that is compared with the end of the
whole buffer, so a short chunk without a line feed is parsed whole as the length.  A failed
`lexical_cast` is only logged and leaves `requestLength_` as it was.  Returns the offset. -/
def parseRequestHeader (request : Request) (chunk : Chunk) : Request × Nat :=
  let position := chunk.bytes.indexOf '\n'
  if position ≠ bufferSize then
    match lexicalCast (chunk.bytes.take position) with
    | some length => ({ request with requestLength := length }, position)
    | none => (request, position)
  else
    (request, 0)

/-- `CheckHeader`: compares `headerOffset_`, not the announced length, with `maxScriptSize`. -/
def checkHeader (maxScriptSize : Nat) (request : Request) : Int :=
  if request.headerOffset.toNat > maxScriptSize then -1 else 0

/-- `OnFirstRead`: parse the header, store its offset, and return the header check. -/
def onFirstRead (maxScriptSize : Nat) (request : Request) (chunk : Chunk) : Request × Int :=
  let parsed := parseRequestHeader request chunk
  let request := { parsed.1 with headerOffset := BitVec.ofNat 32 parsed.2 }
  (request, checkHeader maxScriptSize request)

/-- `IsReadCompleted`: the signed comparison `bytesRead_ >= requestLength_`. -/
def isReadCompleted (request : Request) : Bool := request.requestLength.sle request.bytesRead

@[simp] theorem onRead_request (request : Request) (chunk : Chunk) :
    (request.onRead chunk).request = request.request ++ chunk.bytes.drop request.headerOffset.toNat :=
  rfl

@[simp] theorem onRead_headerOffset (request : Request) (chunk : Chunk) :
    (request.onRead chunk).headerOffset = request.headerOffset := rfl

theorem parseRequestHeader_offset_le (request : Request) (chunk : Chunk) :
    (request.parseRequestHeader chunk).2 ≤ chunk.bytes.length := by
  dsimp only [parseRequestHeader]
  split
  · split <;> exact List.indexOf_le_length
  · exact Nat.zero_le _

/-- A first chunk that holds its header's line feed: the header is cast, and the offset is the
line feed's index. -/
theorem parseRequestHeader_of_newline (request : Request) (chunk : Chunk) {header rest : List Char}
    (hbytes : chunk.bytes = header ++ '\n' :: rest) (hheader : '\n' ∉ header) :
    request.parseRequestHeader chunk =
      ((match lexicalCast header with
        | some length => { request with requestLength := length }
        | none => request), header.length) := by
  have hposition : chunk.bytes.indexOf '\n' = header.length := by
    simp [hbytes, List.indexOf_append_of_not_mem hheader]
  have hfits := chunk.fits
  rw [hbytes] at hfits
  simp only [List.length_append, List.length_cons] at hfits
  have htake : chunk.bytes.take header.length = header := by simp [hbytes]
  simp only [parseRequestHeader, hposition, htake]
  rw [if_pos (by omega)]
  split <;> simp_all

/-- A chunk shorter than the buffer with no line feed is parsed whole as the length. -/
theorem parseRequestHeader_of_no_newline (request : Request) (chunk : Chunk)
    (hnone : '\n' ∉ chunk.bytes) (hshort : chunk.bytes.length < bufferSize) :
    request.parseRequestHeader chunk =
      ((match lexicalCast chunk.bytes with
        | some length => { request with requestLength := length }
        | none => request), chunk.bytes.length) := by
  simp only [parseRequestHeader, List.indexOf_of_not_mem hnone, List.take_length]
  rw [if_pos (by omega)]
  split <;> rfl

theorem onFirstRead_snd_eq_zero {maxScriptSize : Nat} (hmax : bufferSize ≤ maxScriptSize)
    (request : Request) (chunk : Chunk) : (request.onFirstRead maxScriptSize chunk).2 = 0 := by
  have hoffset := parseRequestHeader_offset_le request chunk
  have hfits := chunk.fits
  simp only [onFirstRead, checkHeader, BitVec.toNat_ofNat]
  rw [if_neg]
  rw [Nat.mod_eq_of_lt (by unfold bufferSize at hfits; omega)]
  omega

/-- `CheckHeader` never fails on a chunk of the session: the offset it checks is an index into a
buffer of `1024` bytes, whatever length the header announces.  A chunk shorter than the buffer
with no line feed is not rejected either: the whole chunk is cast as the length, and its length
becomes the offset. -/
theorem onFirstRead_code_eq_zero {maxScriptSize : Nat} (hmax : bufferSize ≤ maxScriptSize)
    (request : Request) (chunk : Chunk) : (request.onFirstRead maxScriptSize chunk).2 = 0 ∧
      ('\n' ∉ chunk.bytes → chunk.bytes.length < bufferSize →
        (request.onFirstRead maxScriptSize chunk).1 =
          { (match lexicalCast chunk.bytes with
              | some length => { request with requestLength := length }
              | none => request) with headerOffset := BitVec.ofNat 32 chunk.bytes.length }) :=
  ⟨onFirstRead_snd_eq_zero hmax request chunk, fun hnone hshort => by
    simp only [onFirstRead, parseRequestHeader_of_no_newline request chunk hnone hshort]⟩

/-- The chunk `99999999` followed by a line feed announces far more than `1024` bytes, and
passes the header check; the chunk `abc` has no line feed, is not a number, and becomes a
request with offset `3` and no announced length. -/
theorem onFirstRead_code_eq_zero_oversized :
    bufferSize ≤ 1024 ∧
      (empty.onFirstRead 1024 ⟨"99999999\n".toList, by decide, by decide⟩).2 = 0 ∧
      (empty.onFirstRead 1024 ⟨"abc".toList, by decide, by decide⟩).1 = ⟨[], 0, 0, 3⟩ :=
  ⟨le_refl _, (onFirstRead_code_eq_zero (le_refl _) _ _).1,
    ((onFirstRead_code_eq_zero (le_refl _) empty ⟨"abc".toList, by decide, by decide⟩).2
      (by decide) (by decide)).trans rfl⟩

end Request

/-! ## The session loop -/

/-- Where the session's reading of one request ends. -/
inductive ReadOutcome
  /-- `FirstRead` answered the header check's error code through `OnError`. -/
  | rejected (code : Int)
  /-- `IsReadCompleted` held, so `HandleRequest` runs on this request; `rest` is left unread. -/
  | completed (request : Request) (rest : List Chunk)
  /-- The stream ended while the session still waited for payload bytes. -/
  | waiting (request : Request)
  deriving DecidableEq

/-- `Session::HandleRead`: copy each chunk and read again until `IsReadCompleted`. -/
def handleRead (request : Request) : List Chunk → ReadOutcome
  | [] => .waiting request
  | chunk :: rest =>
    let request := request.onRead chunk
    if request.isReadCompleted then .completed request rest else handleRead request rest

/-- `Session::FirstRead`: check the header of the first chunk, then hand that same chunk to
`HandleRead`. -/
def firstRead (maxScriptSize : Nat) (request : Request) : List Chunk → ReadOutcome
  | [] => .waiting request
  | chunk :: rest =>
    let parsed := request.onFirstRead maxScriptSize chunk
    if parsed.2 < 0 then .rejected parsed.2 else handleRead parsed.1 (chunk :: rest)

/-- The frame `Job::GetResponse` builds around a payload: its decimal length, a line feed, and
the payload. -/
def frame (payload : List Char) : List Char := decimal payload.length ++ '\n' :: payload

/-- The chunks `HandleRead` copies before it stops are a prefix of the stream, and the request
it hands on is the fold of `OnRead` over them. -/
theorem handleRead_completed {request final : Request} {chunks rest : List Chunk}
    (hread : handleRead request chunks = .completed final rest) :
    ∃ consumed, chunks = consumed ++ rest ∧ final = consumed.foldl Request.onRead request := by
  induction chunks generalizing request with
  | nil => simp [handleRead] at hread
  | cons chunk chunks ih =>
    simp only [handleRead] at hread
    split at hread
    · obtain ⟨rfl, rfl⟩ := ReadOutcome.completed.inj hread
      exact ⟨[chunk], rfl, rfl⟩
    · obtain ⟨consumed, hchunks, hfinal⟩ := ih hread
      exact ⟨chunk :: consumed, by simp [hchunks], hfinal⟩

/-- Every chunk `OnRead` copies contributes its bytes from the first chunk's header offset on. -/
theorem foldl_onRead_request (request : Request) (chunks : List Chunk) :
    (chunks.foldl Request.onRead request).request =
      request.request ++ (chunks.map fun chunk => chunk.bytes.drop request.headerOffset.toNat).flatten := by
  induction chunks generalizing request with
  | nil => simp
  | cons chunk chunks ih => simp [ih, List.append_assoc]

private theorem sle_ofNat {small large : Nat} (hle : small ≤ large) (hlarge : large < 2 ^ 31) :
    (BitVec.ofNat 32 small).sle (BitVec.ofNat 32 large) = true := by
  simp only [BitVec.sle, BitVec.toInt_eq_toNat_cond, BitVec.toNat_ofNat, decide_eq_true_eq]
  rw [Nat.mod_eq_of_lt (by omega), Nat.mod_eq_of_lt (by omega)]
  split <;> split <;> omega

theorem frame_ne_nil (payload : List Char) : frame payload ≠ [] := by simp [frame]

/-- The frame as one chunk, for a frame that fits in the buffer. -/
def frameChunk (payload : List Char) (hfits : (frame payload).length ≤ bufferSize) : Chunk :=
  ⟨frame payload, frame_ne_nil payload, hfits⟩

theorem onFirstRead_frameChunk {maxScriptSize : Nat} (payload : List Char)
    (hfits : (frame payload).length ≤ bufferSize) (hmax : bufferSize ≤ maxScriptSize) :
    Request.empty.onFirstRead maxScriptSize (frameChunk payload hfits) =
      (⟨[], BitVec.ofNat 32 payload.length, 0, BitVec.ofNat 32 (decimal payload.length).length⟩,
        0) := by
  have hcode := Request.onFirstRead_snd_eq_zero hmax Request.empty (frameChunk payload hfits)
  have hlength : payload.length < 2 ^ 32 := by
    simp only [frame, bufferSize, List.length_append, List.length_cons] at hfits
    omega
  have hparse := Request.parseRequestHeader_of_newline Request.empty (frameChunk payload hfits) rfl
    (newline_not_mem_decimal payload.length)
  rw [lexicalCast_decimal hlength] at hparse
  simp only [Request.onFirstRead, hparse] at hcode ⊢
  exact Prod.ext rfl hcode

/-- A frame that arrives in one chunk completes on that chunk, with the header's line feed kept
at the front of the request string.  Over any split whose first chunk holds the header through
its line feed, every chunk the session copies, the first and every later one, loses its first
`headerOffset_` bytes, as many as the header has digits. -/
theorem firstRead_frame {maxScriptSize : Nat} (payload : List Char)
    (hmax : bufferSize ≤ maxScriptSize) :
    (∀ hfits : (frame payload).length ≤ bufferSize,
      firstRead maxScriptSize Request.empty [frameChunk payload hfits] =
        .completed
          ⟨'\n' :: payload, BitVec.ofNat 32 payload.length, BitVec.ofNat 32 (payload.length + 1),
            BitVec.ofNat 32 (decimal payload.length).length⟩ []) ∧
    ∀ (first : Chunk) (chunks rest : List Chunk) (final : Request) (body : List Char),
      first.bytes = decimal payload.length ++ '\n' :: body →
      firstRead maxScriptSize Request.empty (first :: chunks) = .completed final rest →
      ∃ consumed, first :: chunks = consumed ++ rest ∧
        final.request =
          (consumed.map fun chunk => chunk.bytes.drop (decimal payload.length).length).flatten := by
  refine ⟨fun hfits => ?_, fun first chunks rest final body hfirst hread => ?_⟩
  · have hlengths : (decimal payload.length).length + 1 + payload.length ≤ bufferSize := by
      simpa [frame, Nat.add_assoc, Nat.add_comm 1] using hfits
    unfold bufferSize at hlengths
    have hdrop : (frame payload).drop (BitVec.ofNat 32 (decimal payload.length).length).toNat =
        '\n' :: payload := by
      rw [BitVec.toNat_ofNat, Nat.mod_eq_of_lt (by omega)]
      simp [frame]
    have hcount : BitVec.ofNat 32 (frame payload).length -
        BitVec.ofNat 32 (decimal payload.length).length = BitVec.ofNat 32 (payload.length + 1) := by
      simp only [frame, List.length_append, List.length_cons]
      bv_omega
    have hcompleted := sle_ofNat (Nat.le_add_right payload.length 1) (by omega)
    simp only [firstRead, onFirstRead_frameChunk payload hfits hmax, lt_self_iff_false, if_false]
    simp only [handleRead, Request.onRead, Request.isReadCompleted, frameChunk, hdrop, hcount,
      List.nil_append]
    simp [hcompleted]
  · have hparse := Request.parseRequestHeader_of_newline Request.empty first hfirst
      (newline_not_mem_decimal payload.length)
    have hdigits : (decimal payload.length).length < 2 ^ 32 := by
      have hfits := first.fits
      rw [hfirst] at hfits
      simp only [bufferSize, List.length_append, List.length_cons] at hfits
      omega
    simp only [firstRead, Request.onFirstRead_snd_eq_zero hmax, lt_self_iff_false,
      if_false] at hread
    obtain ⟨consumed, hchunks, rfl⟩ := handleRead_completed hread
    refine ⟨consumed, hchunks, ?_⟩
    rw [foldl_onRead_request]
    simp only [Request.onFirstRead, hparse, BitVec.toNat_ofNat, Nat.mod_eq_of_lt hdigits]
    split <;> rfl

/-- The payload `{}` in one chunk keeps the line feed; split into `2\n{` and `}`, the request
completes on the first chunk as `\n{`, and the `}` is never read. -/
theorem firstRead_frame_braces :
    (frame ['{', '}']).length ≤ bufferSize ∧ bufferSize ≤ 1024 ∧
      firstRead 1024 Request.empty [frameChunk ['{', '}'] (by decide)] =
        .completed ⟨['\n', '{', '}'], BitVec.ofNat 32 2, BitVec.ofNat 32 (2 + 1),
          BitVec.ofNat 32 (decimal 2).length⟩ [] ∧
      firstRead 1024 Request.empty
          [⟨['2', '\n', '{'], by decide, by decide⟩, ⟨['}'], by decide, by decide⟩] =
        .completed ⟨['\n', '{'], 2, 2, 1⟩ [⟨['}'], by decide, by decide⟩] ∧
      ∃ consumed : List Chunk,
        [⟨['2', '\n', '{'], by decide, by decide⟩, ⟨['}'], by decide, by decide⟩] =
          consumed ++ [⟨['}'], by decide, by decide⟩] ∧
        ['\n', '{'] = (consumed.map fun chunk => chunk.bytes.drop (decimal 2).length).flatten :=
  have hsplit : firstRead 1024 Request.empty
      [⟨['2', '\n', '{'], by decide, by decide⟩, ⟨['}'], by decide, by decide⟩] =
        .completed ⟨['\n', '{'], 2, 2, 1⟩ [⟨['}'], by decide, by decide⟩] := by decide
  ⟨by decide, le_refl _, (firstRead_frame ['{', '}'] (le_refl _)).1 (by decide), hsplit,
    (firstRead_frame ['{', '}'] (le_refl _)).2 _ _ _ _ ['{'] rfl hsplit⟩

end Prun
