/-
# The body buffer in memory

`http_header` and `http_write` once more (`libhttpd/http_sendrecv.c`, lines 591-623), now with the
address of the body buffer, which moves when it grows, and with `ct->body` as the address and the
size that the calls leave there.  Memory is the live blocks by their addresses: the body buffer,
as the dictionary has its strings elsewhere and the argument of `http_write` is the caller's.
Left out are an argument of `http_write` that lies in the body buffer itself, which the growing
buffer would free before the copy, and an allocation that fails.

`Represents` relates this content to the one of `Http.Content`, and each call keeps it
(`Represents.write`), so that what is known of built contents holds here (`run_denotes`).
-/

import Dukserver.Http.Build
import Dukserver.Lib.Block
import Dukserver.Lib.Machine
import Dukserver.Lib.Outcome

namespace Dukserver
namespace Http
namespace BodyBuffer

open Lib (Block Bytes Machine ascii toInt32)

/-- The live blocks. -/
abbrev Memory := List (ℕ × Block UInt8)

/-- `http_buffer_t`. -/
structure Buffer where
  buf : ℕ
  maxsize : ℤ
  size : ℤ
  deriving DecidableEq, Repr

/-- `http_reference_t`; the address 0 is `NULL`. -/
structure Reference where
  ptr : ℕ
  size : ℤ
  deriving DecidableEq, Repr

/-- The part of `http_content_t` that the calls read and write, with memory. -/
structure Content where
  memory : Memory
  bodybuf : Buffer
  body : Reference
  dict : HttpMap
  deriving DecidableEq, Repr

/-- `http_content_new`, where `http_malloc` answers `a` for the body buffer. -/
def httpContentNew (a : ℕ) : Content where
  memory := [(a, Block.fresh HTTP_MAX_BUFFER_SIZE)]
  bodybuf := ⟨a, HTTP_MAX_BUFFER_SIZE, 0⟩
  body := ⟨0, 0⟩
  dict := httpMapNew HTTP_DEFAULT_HEADERS_COUNT

/-- `http_realloc`, where `realloc` answers `a`. -/
def httpRealloc (memory : Memory) (p : ℕ) (size : ℤ) (a : ℕ) : Except Fault Memory :=
  match memory.lookup p with
  | none => .error .useAfterFree
  | some b => .ok (Lib.Assoc.set a (b.resize size.toNat) (Lib.Assoc.erase p memory))

/-- `memcpy` to the index `i` of the block at `p`. -/
def memcpy (memory : Memory) (p : ℕ) (i : ℤ) (bytes : Bytes) : Except Fault Memory :=
  match memory.lookup p with
  | none => .error .useAfterFree
  | some b =>
    if 0 ≤ i ∧ i + bytes.length ≤ b.length then
      .ok (Lib.Assoc.set p (b.write i.toNat bytes) memory)
    else .error .outOfBounds

/-- `http_header`. -/
def httpHeader (c : Content) (key value : Option Bytes) : ℤ × Content :=
  match key with
  | none => (-1, c)
  | some key => (0, { c with dict := httpMapSet c.dict key value })

/-- The buffer is made larger if it has less than `newSize` bytes. -/
def expand (c : Content) (newSize : ℤ) (a : ℕ) : Except Fault Content :=
  if c.bodybuf.maxsize < newSize then do
    let memory ← httpRealloc c.memory c.bodybuf.buf newSize a
    return { c with memory, bodybuf := { c.bodybuf with buf := a, maxsize := newSize } }
  else return c

/-- `http_write`, where `realloc` answers `a`; `buffer` is the memory of the
caller. -/
def httpWrite (c : Content) (buffer : Option Bytes) (nrBytes : ℤ) (a : ℕ) :
    Except Fault (ℤ × Content) :=
  match buffer with
  | none => .ok (-1, c)
  | some buffer =>
    if nrBytes ≤ 0 then .ok (-1, c)
    else if buffer.length < nrBytes then .error .uninitialised
    else do
      let newSize := toInt32 (c.bodybuf.size + nrBytes)
      let c ← expand c newSize a
      let memory ← memcpy c.memory c.bodybuf.buf c.bodybuf.size (buffer.take nrBytes.toNat)
      return (1, { c with
        memory, bodybuf := { c.bodybuf with size := newSize }, body := ⟨c.bodybuf.buf, newSize⟩ })

/-- The bytes behind a reference. -/
def Content.load (c : Content) (r : Reference) : Except Fault Bytes :=
  if r.size ≤ 0 then .ok []
  else if r.ptr = 0 then .error .nullPointer
  else match c.memory.lookup r.ptr with
    | none => .error .useAfterFree
    | some b => match b.read 0 r.size.toNat with
      | none => .error .uninitialised
      | some bytes => .ok bytes

/-! ### Calls -/

/-- A call on a content; `a` is what `realloc` answers if the buffer has to
grow. -/
inductive BodyCall
  | header (key value : Option Bytes)
  | write (buffer : Bytes) (nrBytes : ℤ) (a : ℕ)
  deriving DecidableEq, Repr

/-- What a call does. -/
def BodyCall.apply (c : Content) : BodyCall → Except Fault Content
  | .header key value => .ok (httpHeader c key value).2
  | .write buffer nrBytes a => do return (← httpWrite c (some buffer) nrBytes a).2

/-- A length is positive and not more than what there is, and no allocation
fails. -/
def BodyCall.Allowed : BodyCall → Prop
  | .header _ _ => True
  | .write buffer nrBytes a => 0 < nrBytes ∧ nrBytes ≤ buffer.length ∧ a ≠ 0

instance : (call : BodyCall) → Decidable call.Allowed
  | .header _ _ => inferInstanceAs (Decidable True)
  | .write _ _ _ => inferInstanceAs (Decidable (_ ∧ _ ∧ _))

/-- Calls in any order, from a content or a fault on. -/
def bodyCalls : Machine (Except Fault Content) BodyCall where
  Enabled _ call := call.Allowed
  next w call := w >>= fun c => call.apply c

instance (w : Except Fault Content) (call : BodyCall) : Decidable (bodyCalls.Enabled w call) :=
  inferInstanceAs (Decidable call.Allowed)

/-- What a call writes. -/
def BodyCall.data : BodyCall → Bytes
  | .header _ _ => []
  | .write buffer nrBytes _ => buffer.take nrBytes.toNat

/-- The arguments of `http_write`, in call order. -/
def arguments (calls : List BodyCall) : Bytes := calls.flatMap BodyCall.data

/-- What the body is after calls that have written `data`. -/
structure Denotes (c : Content) (data : Bytes) : Prop where
  /-- `ct->body` refers to what was written. -/
  load : c.load c.body = .ok data
  size : c.body.size = data.length
  fits : c.bodybuf.size ≤ c.bodybuf.maxsize
  /-- The capacity is that of the block at the address of the buffer. -/
  block : ∃ b, c.memory.lookup c.bodybuf.buf = some b ∧ (b.length : ℤ) = c.bodybuf.maxsize
  /-- `ct->body` refers to the start of the buffer, wherever it is now. -/
  ptr : data ≠ [] → c.body.ptr = c.bodybuf.buf
  /-- Before the first `http_write` there is no body. -/
  null : data = [] → c.body = ⟨0, 0⟩

/-! ### The content of `Http.Content` -/

/-- The address of a pointer into the content.  The header buffer is not in this
memory. -/
def Content.address (c : Content) : Ptr → Option ℕ
  | .null => some 0
  | .headerbuf _ => none
  | .bodybuf offset => some (c.bodybuf.buf + offset)

/-- The content `ct`, with the body buffer at an address. -/
structure Represents (c : Content) (ct : HttpContent) : Prop where
  block : ∃ b, c.memory.lookup c.bodybuf.buf = some b ∧ b.length = ct.bodybuf.maxsize ∧
    b.Starts ct.bodybuf.buf
  not_null : c.bodybuf.buf ≠ 0
  maxsize : c.bodybuf.maxsize = ct.bodybuf.maxsize
  bufSize : c.bodybuf.size = ct.bodybuf.size
  ptr : c.address ct.body.ptr = some c.body.ptr
  size : c.body.size = ct.body.size
  dict : c.dict = ct.dict

/-- The call on the content of `Http.Content`, if it does anything. -/
def BodyCall.responseCalls : BodyCall → List ResponseCall
  | .header none _ => []
  | .header (some key) value => [.header key value]
  | .write buffer nrBytes _ => [.write (buffer.take nrBytes.toNat)]

/-- The content that the calls build. -/
def built (calls : List BodyCall) : HttpContent :=
  buildResponse (calls.flatMap BodyCall.responseCalls)

section Calls

variable {c : Content} {ct : HttpContent} {data bytes buffer : Bytes} {memory : Memory}
  {b : Block UInt8} {p a : ℕ} {n : ℤ}

/-- A block that is live is moved, with what it starts with. -/
theorem httpRealloc_eq (hb : memory.lookup p = some b) : httpRealloc memory p n a =
    .ok (Lib.Assoc.set a (b.resize n.toNat) (Lib.Assoc.erase p memory)) := by
  rw [httpRealloc, hb]

/-- Bytes are copied to where the block has room for them. -/
theorem memcpy_eq (hb : memory.lookup p = some b) {i : ℕ} (hroom : i + bytes.length ≤ b.length) :
    memcpy memory p i bytes = .ok (Lib.Assoc.set p (b.write i bytes) memory) := by
  have hbounds : 0 ≤ (i : ℤ) ∧ (i : ℤ) + bytes.length ≤ b.length := by omega
  rw [memcpy, hb]
  exact if_pos hbounds

/-- A new content has an empty buffer, and a body that is `NULL`.  The buffer
has its address already, though nothing is written to it. -/
theorem represents_new (ha : a ≠ 0) : Represents (httpContentNew a) Http.httpContentNew where
  block := ⟨_, List.lookup_cons_self, Block.length_fresh, Block.starts_nil _⟩
  not_null := ha
  maxsize := rfl
  bufSize := rfl
  ptr := rfl
  size := rfl
  dict := rfl

/-- A header does not touch the buffer.  What it changes is the dictionary,
whose strings have blocks of their own. -/
theorem Represents.header (h : Represents c ct) (key : Bytes) (value : Option Bytes) :
    Represents (httpHeader c (some key) value).2 (Http.httpHeader ct key value) where
  block := h.block
  not_null := h.not_null
  maxsize := h.maxsize
  bufSize := h.bufSize
  ptr := h.ptr
  size := h.size
  dict := congrArg (httpMapSet · key value) h.dict

/-- What there is after the buffer has been made large enough. -/
structure Expanded (c d : Content) (data : Bytes) (newSize : ℤ) : Prop where
  block : ∃ b, d.memory.lookup d.bodybuf.buf = some b ∧
    (b.length : ℤ) = max c.bodybuf.maxsize newSize ∧ b.Starts data
  not_null : d.bodybuf.buf ≠ 0
  maxsize : d.bodybuf.maxsize = max c.bodybuf.maxsize newSize
  bufSize : d.bodybuf.size = c.bodybuf.size
  dict : d.dict = c.dict

/-- **The buffer keeps what is written when it moves**: `realloc` copies it, and
the pointers into it are set anew. -/
theorem Represents.expand (h : Represents c ct) (hdata : ct.bodybuf.buf = data)
    (hn : data.length ≤ n) (ha : a ≠ 0) :
    ∃ d, expand c n a = .ok d ∧ Expanded c d data n := by
  obtain ⟨b, hb, hlength, hstarts⟩ := h.block
  rw [hdata] at hstarts
  have hcap := h.maxsize
  by_cases hroom : c.bodybuf.maxsize < n
  · have hmoved : BodyBuffer.expand c n a = .ok { c with
        memory := Lib.Assoc.set a (b.resize n.toNat) (Lib.Assoc.erase c.bodybuf.buf c.memory)
        bodybuf := { c.bodybuf with buf := a, maxsize := n } } := by
      rw [BodyBuffer.expand, if_pos hroom, httpRealloc_eq hb]
      rfl
    refine ⟨_, hmoved, ⟨_, Lib.Assoc.lookup_set_self, ?_, hstarts.resize (by omega)⟩, ha, ?_, rfl,
      rfl⟩
    · rw [Block.length_resize, max_eq_right hroom.le]
      omega
    · exact (max_eq_right hroom.le).symm
  · have hle : n ≤ c.bodybuf.maxsize := le_of_not_gt hroom
    have hstays : BodyBuffer.expand c n a = .ok c := if_neg hroom
    refine ⟨c, hstays, ⟨b, hb, ?_, hstarts⟩, h.not_null, ?_, rfl, rfl⟩
    · rw [max_eq_left hle, hcap, hlength]
    · exact (max_eq_left hle).symm

/-- What there is after the copy, where `data` is everything that was written. -/
structure Copied (c d : Content) (data : Bytes) : Prop where
  block : ∃ b, d.memory.lookup d.bodybuf.buf = some b ∧
    (b.length : ℤ) = max c.bodybuf.maxsize data.length ∧ b.Starts data
  not_null : d.bodybuf.buf ≠ 0
  maxsize : d.bodybuf.maxsize = max c.bodybuf.maxsize data.length
  bufSize : d.bodybuf.size = data.length
  body : d.body = ⟨d.bodybuf.buf, data.length⟩
  dict : d.dict = c.dict

/-- **A call of `http_write` succeeds**: there is room for what it copies, as
the buffer was made larger before. -/
theorem Represents.copy (h : Represents c ct) (hct : Written ct data) (hpos : 0 < n)
    (hn : n ≤ buffer.length) (ha : a ≠ 0) (hfit : data.length + n < 2 ^ 31) :
    ∃ d, httpWrite c (some buffer) n a = .ok (1, d) ∧
      Copied c d (data ++ buffer.take n.toNat) := by
  have hsize : c.bodybuf.size = data.length := h.bufSize.trans hct.size
  have htotal : (data.length : ℤ) + n = (data ++ buffer.take n.toNat).length := by
    rw [List.length_append, List.length_take]
    omega
  have hnew : toInt32 (c.bodybuf.size + n) = (data ++ buffer.take n.toNat).length := by
    rw [hsize, ← htotal]
    exact Lib.toInt32_of_bounds (by omega) hfit
  have hgrows : (data.length : ℤ) ≤ (data ++ buffer.take n.toNat).length := by omega
  obtain ⟨d, hd, hexp⟩ := h.expand hct.buf hgrows ha
  obtain ⟨b, hb, hlength, hstarts⟩ := hexp.block
  have hroom : data.length + (buffer.take n.toNat).length ≤ b.length := by
    have hmax := le_max_right c.bodybuf.maxsize ((data ++ buffer.take n.toNat).length : ℤ)
    rw [← hlength, List.length_append] at hmax
    exact_mod_cast hmax
  have hcopy : memcpy d.memory d.bodybuf.buf d.bodybuf.size (buffer.take n.toNat) = .ok
      (Lib.Assoc.set d.bodybuf.buf (b.write data.length (buffer.take n.toNat)) d.memory) := by
    rw [hexp.bufSize, hsize]
    exact memcpy_eq hb hroom
  have hwrite : httpWrite c (some buffer) n a = .ok (1, { d with
      memory := Lib.Assoc.set d.bodybuf.buf (b.write data.length (buffer.take n.toNat)) d.memory
      bodybuf := { d.bodybuf with size := (data ++ buffer.take n.toNat).length }
      body := ⟨d.bodybuf.buf, (data ++ buffer.take n.toNat).length⟩ }) := by
    rw [httpWrite]
    rw [if_neg (by omega), if_neg (by omega), hnew]
    simp only [hd, Lib.ok_bind, hcopy]
    rfl
  refine ⟨_, hwrite, ⟨_, Lib.Assoc.lookup_set_self, ?_, hstarts.write hroom⟩, hexp.not_null,
    hexp.maxsize, rfl, rfl, hexp.dict⟩
  rw [Block.length_write, hlength]

/-- The capacity after a call of `http_write`: what it was, or what is written
in all. -/
theorem maxsize_httpWrite (hct : Written ct data) {more : Bytes} (hpos : more ≠ []) :
    ((Http.httpWrite ct more more.length).bodybuf.maxsize : ℤ) =
      max (ct.bodybuf.maxsize : ℤ) (data ++ more).length := by
  have hlength := List.length_pos_iff.2 hpos
  rw [Http.httpWrite, if_neg (by omega), hct.size, List.length_append]
  change ((if (ct.bodybuf.maxsize : ℤ) < data.length + more.length then _ else _ : ℕ) : ℤ) = _
  split_ifs <;> omega

/-- **A call of `http_write` appends**: the content is the one that
`Http.Content` has, with the buffer where it now is. -/
theorem Represents.write (h : Represents c ct) (hct : Written ct data) (hpos : 0 < n)
    (hn : n ≤ buffer.length) (ha : a ≠ 0) (hfit : data.length + n < 2 ^ 31) :
    ∃ d, httpWrite c (some buffer) n a = .ok (1, d) ∧ Represents d
      (Http.httpWrite ct (buffer.take n.toNat) (buffer.take n.toNat).length) := by
  obtain ⟨d, hd, hcopied⟩ := h.copy hct hpos hn ha hfit
  have hmore : buffer.take n.toNat ≠ [] := by
    rw [← List.length_pos_iff, List.length_take]
    omega
  have hwritten : Written (Http.httpWrite ct (buffer.take n.toNat) (buffer.take n.toNat).length)
      (data ++ buffer.take n.toNat) := hct.write
  have hmaxsize := maxsize_httpWrite hct hmore
  have hbody := body_httpWrite hct hmore
  rw [← h.maxsize] at hmaxsize
  obtain ⟨b, hb, hlength, hstarts⟩ := hcopied.block
  refine ⟨d, hd, ⟨b, hb, ?_, ?_⟩, hcopied.not_null, hcopied.maxsize.trans hmaxsize.symm,
    hcopied.bufSize.trans hwritten.size.symm, ?_, ?_, ?_⟩
  · exact_mod_cast hlength.trans hmaxsize.symm
  · rwa [hwritten.buf]
  · rw [hbody, hcopied.body]
    rfl
  · rw [hbody, hcopied.body]
  · rw [httpWrite_dict]
    exact hcopied.dict.trans h.dict

/-- The body of what nothing was written to is `NULL`.  `http_start_response`
leaves it as `http_content_new` has set it, and so does `http_header`. -/
theorem body_buildResponse_null (calls : List ResponseCall) (hnil : written calls = []) :
    (buildResponse calls).body = ⟨.null, 0⟩ := by
  induction calls using List.reverseRecOn with
  | nil => rfl
  | append_singleton calls call ih =>
    rw [written_append, List.append_eq_nil_iff] at hnil
    rw [buildResponse, build_append]
    rcases call with ⟨date, status⟩ | ⟨key, value⟩ | data
    · exact ih hnil.1
    · exact ih hnil.1
    · have hdata : data = [] := hnil.2
      subst hdata
      exact ih hnil.1

/-- **What a represented content says of its body**: its address is in the
buffer, and its size is that of what was written. -/
theorem Represents.denotes (h : Represents c ct) (hct : BodyWritten ct data)
    (hnull : data = [] → ct.body = ⟨.null, 0⟩) : Denotes c data := by
  obtain ⟨b, hb, hlength, hstarts⟩ := h.block
  rw [hct.buf] at hstarts
  have hsize : c.body.size = data.length := h.size.trans hct.size_eq
  have hptr : data ≠ [] → c.body.ptr = c.bodybuf.buf := by
    intro hdata
    have haddress := h.ptr
    rw [hct.body.resolve_right fun hnil => hdata hnil.2] at haddress
    exact (Option.some.inj haddress).symm
  refine ⟨?_, hsize, ?_, ⟨b, hb, ?_⟩, hptr, fun hdata => ?_⟩
  · by_cases hdata : data = []
    · rw [Content.load, if_pos (by rw [hsize, hdata]; rfl), hdata]
    · have hpos := List.length_pos_iff.2 hdata
      have hread : b.read 0 c.body.size.toNat = some data := by
        rw [hsize]
        exact hstarts.read
      rw [Content.load, if_neg (by omega), hptr hdata, if_neg h.not_null, hb]
      simp only [hread]
  · rw [h.bufSize, h.maxsize, hct.size]
    have hle := hstarts.le
    omega
  · rw [h.maxsize, hlength]
  · have haddress := h.ptr
    have hzero := hsize
    rw [hnull hdata] at haddress
    rw [hdata] at hzero
    change (⟨c.body.ptr, c.body.size⟩ : Reference) = ⟨0, 0⟩
    rw [← Option.some.inj haddress, hzero]
    rfl

/-- The arguments of a further call come behind the others. -/
theorem arguments_concat (calls : List BodyCall) (call : BodyCall) :
    arguments (calls ++ [call]) = arguments calls ++ call.data := by
  simp [arguments]

/-- What is written is the same, with the address and without.  The header calls
write nothing. -/
theorem written_responseCalls (calls : List BodyCall) :
    written (calls.flatMap BodyCall.responseCalls) = arguments calls := by
  induction calls using List.reverseRecOn with
  | nil => rfl
  | append_singleton calls call ih =>
    rw [arguments_concat, ← ih, List.flatMap_append, List.flatMap_singleton]
    rcases call with ⟨_ | key, value⟩ | ⟨buffer, n, a⟩
    · simp [BodyCall.responseCalls, BodyCall.data]
    · exact written_append ..
    · exact written_append ..

/-- **A call keeps the contents related**, as long as the total fits an `int`:
`ct->body` is set from the buffer by each call that writes. -/
theorem Represents.call {calls : List BodyCall} (h : Represents c (built calls)) {call : BodyCall}
    (hallowed : call.Allowed) (hfit : (arguments (calls ++ [call])).length < 2 ^ 31) :
    ∃ d, call.apply c = .ok d ∧ Represents d (built (calls ++ [call])) := by
  have hwritten := bodyWritten_buildResponse (calls.flatMap BodyCall.responseCalls)
  rw [written_responseCalls] at hwritten
  rw [built, List.flatMap_append, List.flatMap_singleton]
  rcases call with ⟨_ | key, value⟩ | ⟨buffer, n, a⟩
  · refine ⟨c, rfl, ?_⟩
    rw [BodyCall.responseCalls, List.append_nil]
    exact h
  · refine ⟨_, rfl, ?_⟩
    rw [BodyCall.responseCalls, buildResponse, build_append]
    exact h.header key value
  · obtain ⟨hpos, hn, ha⟩ := hallowed
    have htotal : ((arguments calls).length : ℤ) + n < 2 ^ 31 := by
      rw [arguments_concat, List.length_append, BodyCall.data, List.length_take] at hfit
      omega
    obtain ⟨d, hd, hrep⟩ := h.write hwritten.toWritten hpos hn ha htotal
    refine ⟨d, by rw [BodyCall.apply, hd]; rfl, ?_⟩
    rw [BodyCall.responseCalls, buildResponse, build_append]
    exact hrep

/-- **After each call, the body is what was written.**  A copy beyond the end of
the buffer would be a fault. -/
theorem run_denotes {calls : List BodyCall} {w : Except Fault Content} (ha : a ≠ 0)
    (hrun : bodyCalls.Run (.ok (httpContentNew a)) calls w)
    (hfit : (arguments calls).length < 2 ^ 31) :
    ∃ c, w = .ok c ∧ Denotes c (arguments calls) := by
  suffices hrep : (arguments calls).length < 2 ^ 31 → ∃ c, w = .ok c ∧ Represents c (built calls) by
    obtain ⟨c, hc, hrep⟩ := hrep hfit
    have hwritten := bodyWritten_buildResponse (calls.flatMap BodyCall.responseCalls)
    have hnull := body_buildResponse_null (calls.flatMap BodyCall.responseCalls)
    rw [written_responseCalls] at hwritten hnull
    exact ⟨c, hc, hrep.denotes hwritten hnull⟩
  refine Machine.run_induction (P := fun calls w => (arguments calls).length < 2 ^ 31 →
    ∃ c, w = .ok c ∧ Represents c (built calls)) ?_ ?_ hrun
  · exact fun _ => ⟨_, rfl, represents_new ha⟩
  · rintro calls w call - ih hallowed hfit
    have hbefore : (arguments calls).length < 2 ^ 31 := by
      rw [arguments_concat, List.length_append] at hfit
      omega
    obtain ⟨c, rfl, hrep⟩ := ih hbefore
    exact hrep.call hallowed hfit

/-- A header, a text, and one byte behind it. -/
def oneMore (text : Bytes) : List BodyCall :=
  [.header (some (ascii "A")) none, .write text text.length 1, .write (ascii "bc") 1 8]

/-- The text of the example has one byte more than the buffer. -/
theorem length_arguments_oneMore (text : Bytes) :
    (arguments (oneMore text)).length = text.length + 1 := by
  simp [arguments, oneMore, BodyCall.data, ascii]

/-- The hypotheses are satisfiable, for a text that fills the buffer, which then
moves. -/
theorem run_denotes_oneMore :
    ∃ c, bodyCalls.exec (.ok (httpContentNew 4096))
      (oneMore (List.replicate HTTP_MAX_BUFFER_SIZE 97)) = .ok c ∧
        Denotes c (arguments (oneMore (List.replicate HTTP_MAX_BUFFER_SIZE 97))) := by
  refine run_denotes (a := 4096) (by decide) (Lib.Machine.run_iff_exec.2 ⟨?_, rfl⟩) ?_
  · refine ⟨trivial, ⟨?_, le_rfl, by decide⟩, ⟨by decide, by decide, by decide⟩, trivial⟩
    rw [List.length_replicate]
    decide
  · rw [length_arguments_oneMore, List.length_replicate]
    decide

/-- The address is in the body buffer. -/
def Content.InBuffer (c : Content) (p : ℕ) : Prop :=
  c.bodybuf.buf ≤ p ∧ (p : ℤ) ≤ c.bodybuf.buf + c.bodybuf.maxsize

/-- A header before the first `http_write` leaves the body at `NULL`, which is
no place in the buffer. -/
theorem run_header : ∃ c, bodyCalls.Run (.ok (httpContentNew 4096))
    [.header (some (ascii "A")) none] (.ok c) ∧ ¬c.InBuffer c.body.ptr :=
  ⟨_, ⟨trivial, rfl⟩, fun h => absurd h.1 (by decide)⟩

end Calls

end BodyBuffer
end Http
end Dukserver
