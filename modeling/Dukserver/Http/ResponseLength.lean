/-
# The length of a response

`http_send_response` (`libhttpd/http_sendrecv.c`, lines 632-719) sets
`Content-Length` if there is a body, puts a body there for the statuses 200 and 404,
and writes a line for each header.  What goes out is read here as a peer reads it, up to
the first blank line of the bytes that were sent (`Http.Framing`).

Without a blank line in the program's own texts, a body is announced once and rightly
exactly if no other line has the name, and no body exactly if the program has announced
it itself.  With one, the length that is set counts for nothing: the program must have
announced, in front of its blank line, all that comes behind it (`selfDelimiting_iff`).
-/

import Dukserver.Http.Build
import Dukserver.Http.Framing

namespace Dukserver
namespace Http

open Lib (Bytes ascii atoi cstr indexOf sprintfD)

/-- Over every connection whose sends are complete, the response goes out as its
header block and `body`; `ct'` is the content that the block was built from. -/
structure ResponseSentAs (ct ct' : HttpContent) (head body : Bytes) : Prop where
  built : ∃ version status, httpMapGet ct'.dict HTTP_VERSION = some version ∧
    httpMapGet ct'.dict HTTP_STATUS = some status ∧ head = headerBlock version status ct'.dict
  sent : ∀ conn, AcceptsAll conn head body → ∃ ret conn',
    httpSendResponse conn ct = .ok (ret, conn', ct') ∧
      conn'.handle.sent = conn.handle.sent ++ (head ++ body)

/-- What is sent, read as a peer reads it, has one line of the name
`Content-Length` in front of its first blank line, and the value of that line is
the number of bytes behind it. -/
def SelfDelimiting (ct : HttpContent) : Prop :=
  ∃ ct' head body lines rest, ResponseSentAs ct ct' head body ∧
    readMessage (head ++ body) = some (lines, rest) ∧ AnnouncesOnce lines rest.length

/-! ### What is sent -/

/-- The body that is sent. -/
def sentBody (statusCode : ℤ) (data : Bytes) : Bytes :=
  if (statusCode = 200 ∨ statusCode = 404) ∧ data = [] then ascii "None" else data

section Sent

variable {ct ct' : HttpContent} {status version data head body : Bytes} {statusCode : ℤ}

/-- Completing a response changes no header but the length.  The default body
that it may write is not in the dictionary. -/
theorem httpMapGet_completeResponse {k : Bytes} (hk : cstr k ≠ ascii "Content-Length") :
    httpMapGet (completeResponse statusCode ct).dict k = httpMapGet ct.dict k := by
  have hset : ∀ ct v, httpMapGet (httpHeader ct (ascii "Content-Length") v).dict k =
      httpMapGet ct.dict k := fun ct v => httpMapGet_set_of_ne (by
    rwa [show cstr (ascii "Content-Length") = ascii "Content-Length" by decide])
  rw [completeResponse]
  split_ifs
  · rw [hset, httpWrite_dict]
  · rw [httpWrite_dict]
  · rw [hset]
  · rfl

/-- The default body is written, and `Content-Length` is set if there is a body:
with the length that the body has then. -/
theorem completeResponse_eq (h : BodyWritten ct data) :
    BodyWritten (completeResponse statusCode ct) (sentBody statusCode data) ∧
      (completeResponse statusCode ct).dict =
        if sentBody statusCode data = [] then ct.dict
        else httpMapSet ct.dict (ascii "Content-Length")
          (some (sprintfD (sentBody statusCode data).length)) := by
  have hsize : ct.body.size ≤ 0 ↔ data = [] := by
    rw [h.size_eq, ← List.length_eq_zero_iff]
    omega
  have hwritten : BodyWritten
      (if (statusCode = 200 ∨ statusCode = 404) ∧ ct.body.size ≤ 0 then
        httpWrite ct (ascii "None") 4 else ct) (sentBody statusCode data) := by
    rw [sentBody]
    by_cases hdefault : (statusCode = 200 ∨ statusCode = 404) ∧ data = []
    · have hnew := h.write (ascii "None")
      rw [if_pos ⟨hdefault.1, hsize.2 hdefault.2⟩, if_pos hdefault]
      rwa [hdefault.2] at hnew
    · rw [if_neg fun hd => hdefault ⟨hd.1, hsize.1 hd.2⟩, if_neg hdefault]
      exact h
  have hdict : (if (statusCode = 200 ∨ statusCode = 404) ∧ ct.body.size ≤ 0 then
        httpWrite ct (ascii "None") 4 else ct).dict = ct.dict := by
    split_ifs
    · exact httpWrite_dict ..
    · rfl
  rw [completeResponse]
  generalize (if (statusCode = 200 ∨ statusCode = 404) ∧ ct.body.size ≤ 0 then
    httpWrite ct (ascii "None") 4 else ct) = ct₁ at hwritten hdict
  have hpos : 0 < ct₁.body.size ↔ sentBody statusCode data ≠ [] := by
    rw [hwritten.size_eq, ← List.length_pos_iff]
    omega
  by_cases hnil : sentBody statusCode data = []
  · rw [if_neg (fun hp => hpos.1 hp hnil), if_pos hnil]
    exact ⟨hwritten, hdict⟩
  · rw [if_pos (hpos.2 hnil), if_neg hnil, hwritten.size_eq]
    exact ⟨⟨⟨hwritten.buf, hwritten.size⟩, hwritten.body⟩, by rw [httpHeader, hdict]⟩

/-- **A response is sent as it was built**, and only so: the bytes of a socket
that accepts everything say what the header block and the body were. -/
theorem responseSentAs_iff (hstatus : httpMapGet ct.dict HTTP_STATUS = some status)
    (hversion : httpMapGet ct.dict HTTP_VERSION = some version) (hdata : BodyWritten ct data) :
    ResponseSentAs ct ct' head body ↔
      ct' = completeResponse (atoi status) ct ∧ head = headerBlock version status ct'.dict ∧
        body = sentBody (atoi status) data ∧ head.length ≤ HTTP_MAX_SEND_BLOCK := by
  have hload : (completeResponse (atoi status) ct).load (completeResponse (atoi status) ct).body =
      .ok (sentBody (atoi status) data) := (completeResponse_eq hdata).1.load
  constructor
  · rintro ⟨⟨version', status', hversion', hstatus', hhead⟩, hsent⟩
    obtain ⟨ret, conn', hrun, hout⟩ := hsent ⟨[], 0, ⟨[], [], []⟩⟩ (acceptsAll_eager _ _ _ _ _ _)
    rw [httpSendResponse_eq hstatus hversion rfl hload] at hrun
    split_ifs at hrun with hlong
    obtain ⟨-, hrest⟩ := Prod.mk.inj (Except.ok.inj hrun)
    obtain ⟨rfl, rfl⟩ := Prod.mk.inj hrest
    rw [httpMapGet_completeResponse (by decide), hversion] at hversion'
    rw [httpMapGet_completeResponse (by decide), hstatus] at hstatus'
    obtain rfl := Option.some.inj hversion'
    obtain rfl := Option.some.inj hstatus'
    have hall := acceptsAll_iff.1
      (acceptsAll_eager [] 0 [] [] head (sentBody (atoi status) data))
    rw [← hhead] at hout hlong
    rw [hout] at hall
    exact ⟨rfl, hhead, List.append_cancel_left hall, not_lt.1 hlong⟩
  · rintro ⟨rfl, rfl, rfl, hlong⟩
    refine ⟨⟨version, status, ?_, ?_, rfl⟩, fun conn haccepts => ?_⟩
    · rw [httpMapGet_completeResponse (by decide), hversion]
    · rw [httpMapGet_completeResponse (by decide), hstatus]
    · rw [httpSendResponse_eq hstatus hversion rfl hload, if_neg (not_lt.2 hlong)]
      exact ⟨_, _, rfl, acceptsAll_iff.1 haccepts⟩

/-- Without a status or a version nothing is sent: `http_send_response` looks
them up first and returns `-1`. -/
theorem ResponseSentAs.started (h : ResponseSentAs ct ct' head body) :
    ∃ status version, httpMapGet ct.dict HTTP_STATUS = some status ∧
      httpMapGet ct.dict HTTP_VERSION = some version := by
  obtain ⟨version', status', -, -, hhead⟩ := h.built
  obtain ⟨ret, conn', hrun, hout⟩ := h.sent ⟨[], 0, ⟨[], [], []⟩⟩
    (fun p hp => absurd hp List.not_mem_nil)
  have hne : head ≠ [] := by
    rw [hhead, headerBlock]
    exact List.append_ne_nil_of_right_ne_nil _ (List.cons_ne_nil _ _)
  have hstart : httpSendResponse ⟨[], 0, ⟨[], [], []⟩⟩ ct ≠
      .ok (-1, ⟨[], 0, ⟨[], [], []⟩⟩, ct) := by
    rw [hrun]
    intro he
    obtain ⟨rfl, -⟩ := Prod.mk.inj (Prod.mk.inj (Except.ok.inj he)).2
    exact hne (List.append_eq_nil_iff.1 (List.nil_append _ ▸ hout.symm)).1
  cases hstatus : httpMapGet ct.dict HTTP_STATUS with
  | none => exact absurd (by rw [httpSendResponse, hstatus]) hstart
  | some status =>
    cases hversion : httpMapGet ct.dict HTTP_VERSION with
    | none => exact absurd (by rw [httpSendResponse, hstatus, hversion]) hstart
    | some version => exact ⟨status, version, rfl, rfl⟩

end Sent

/-! ### The lines of the header block -/

/-- The status line, without its end. -/
def statusLine (version status : Bytes) : Bytes :=
  version ++ ascii " " ++ status ++ ascii " " ++ httpGetStatusMessage (atoi status)

/-- What the status line and some entries announce. -/
def announced (version status : Bytes) (entries : List (Bytes × Option Bytes)) : List Bytes :=
  lengthValues (statusLine version status) ++ entries.flatMap entryLengths

/-- The status line and the lines of some entries. -/
def frontLines (version status : Bytes) (entries : List (Bytes × Option Bytes)) : Bytes :=
  statusLine version status ++ 13 :: 10 :: headerLines ⟨0, entries⟩

/-- No body is sent: nothing was written, and the status asks for none. -/
abbrev Bodiless (statusCode : ℤ) (data : Bytes) : Prop :=
  data = [] ∧ statusCode ≠ 200 ∧ statusCode ≠ 404

/-- The entries whose lines stand in front of the `Content-Length` that is set;
all of them if none is set. -/
def entriesInFront (statusCode : ℤ) (ct : HttpContent) (data : Bytes) :
    List (Bytes × Option Bytes) :=
  if Bodiless statusCode data then ct.dict.values
  else ct.dict.values.takeWhile fun p => !(p.1 == ascii "Content-Length")

section Lines

variable {version status v x : Bytes} {dict : HttpMap}

/-- The header block is its lines and the blank one. -/
theorem headerBlock_eq : headerBlock version status dict =
    frontLines version status dict.values ++ [13, 10] := by
  simp [headerBlock, frontLines, statusLine, headerLines]

/-- The lines end with CRLF, so the whole block ends with a blank line. -/
theorem frontLines_end (version status : Bytes) (entries : List (Bytes × Option Bytes)) :
    ∃ f, frontLines version status entries = f ++ [13, 10] := by
  obtain ⟨f, hf⟩ := headerLines_end 0 entries
  exact ⟨statusLine version status ++ f, by rw [frontLines, hf, List.append_assoc]⟩

/-- **What the header block announces** is what the status line and the entries
announce, one after the other. -/
theorem lengthValues_headerBlock :
    lengthValues (headerBlock version status dict) = announced version status dict.values := by
  rw [headerBlock_eq, frontLines, List.append_assoc, List.cons_append, List.cons_append,
    lengthValues_append, lengthValues_headerLines, announced]
  exact congrArg (lengthValues (statusLine version status) ++ ·) (List.append_nil _)

/-- With `Content-Length` set, one line announces the length exactly if the rest
is silent. -/
theorem announced_set (hnodup : dict.keys.Nodup) (hv : 13 ∉ v) (hcstr : cstr v = v) :
    announced version status (httpMapSet dict (ascii "Content-Length") (some v)).values = [x] ↔
      announced version status
        (dict.values.filter fun p => !(p.1 == ascii "Content-Length")) = [] ∧ x = 32 :: v := by
  obtain ⟨before, after, hset, hfilter, -⟩ :=
    Lib.Assoc.exists_set_eq (k := ascii "Content-Length") hnodup (some v)
  have hvalues : (httpMapSet dict (ascii "Content-Length") (some v)).values =
      before ++ (ascii "Content-Length", some v) :: after := by
    rw [values_httpMapSet, Option.map_some, hcstr, ← hset]
    rfl
  have hentry : entryLengths (ascii "Content-Length", some v) = [32 :: v] := by
    rw [entryLengths_of_line (by decide) (by decide) hv, if_pos (by decide)]
  rw [hvalues, ← hfilter, announced, announced, List.flatMap_append, List.flatMap_append,
    List.flatMap_cons, hentry]
  generalize lengthValues (statusLine version status) = a
  generalize before.flatMap entryLengths = b
  generalize after.flatMap entryLengths = c
  rcases a with _ | ⟨y, a⟩ <;> rcases b with _ | ⟨z, b⟩ <;> rcases c with _ | ⟨w, c⟩ <;> simp
  exact eq_comm

/-- The line of the length stands behind those of the entries that were in front
of its key. -/
theorem headerBlock_set (version status : Bytes) (hnodup : dict.keys.Nodup) (hcstr : cstr v = v) :
    ∃ tail, headerBlock version status (httpMapSet dict (ascii "Content-Length") (some v)) =
      frontLines version status
        (dict.values.takeWhile fun p => !(p.1 == ascii "Content-Length")) ++
        (ascii "Content-Length" ++ 58 :: 32 :: v) ++ 13 :: 10 :: tail := by
  obtain ⟨before, after, hset, -, rfl⟩ :=
    Lib.Assoc.exists_set_eq (k := ascii "Content-Length") hnodup (some v)
  have hvalues : (httpMapSet dict (ascii "Content-Length") (some v)).values =
      (dict.values.takeWhile fun p => !(p.1 == ascii "Content-Length")) ++
        (ascii "Content-Length", some v) :: after := by
    rw [values_httpMapSet, Option.map_some, hcstr, ← hset]
    rfl
  have hline : headerLines ⟨0, (ascii "Content-Length", some v) :: after⟩ =
      ascii "Content-Length" ++ ascii ": " ++ v ++ 13 :: 10 :: headerLines ⟨0, after⟩ :=
    headerLines_line (by decide)
  refine ⟨headerLines ⟨0, after⟩ ++ [13, 10], ?_⟩
  rw [headerBlock_eq, hvalues, frontLines, headerLines_append, hline, frontLines]
  simp [ascii]

end Lines

/-! ### When the length is announced -/

/-- When the header block delimits the response.  If there is a blank line among
the lines that the program has put in front of `Content-Length`, the lines
before it must announce all that comes behind it, so the length that is set is
never the one that counts.  Otherwise the block has no blank line but its end,
and the program's own entries announce no length apart from that under
`Content-Length` itself, which is overwritten, or, if there is no body, the
length `0` once. -/
def HeadersClear (version status : Bytes) (ct : HttpContent) (data : Bytes) : Prop :=
  let front := frontLines version status (entriesInFront (atoi status) ct data)
  let block := headerBlock version status (completeResponse (atoi status) ct).dict
  (∃ i, indexOf CRLFCRLF front = some i ∧ AnnouncesOnce (front.take i)
    (block.length + (sentBody (atoi status) data).length - (i + 4))) ∨
  indexOf CRLFCRLF block = some (block.length - 4) ∧
    if Bodiless (atoi status) data then
      ∃ v, announced version status ct.dict.values = [v] ∧ DecimalValue v 0
    else announced version status
      (ct.dict.values.filter fun p => !(p.1 == ascii "Content-Length")) = []

/-- When a response delimits itself: its status and version are there, the
header block fits its buffer, and its lines leave the length to
`http_send_response`, or announce it where it sets none. -/
def LengthClear (ct : HttpContent) (data : Bytes) : Prop :=
  ∃ status version, httpMapGet ct.dict HTTP_STATUS = some status ∧
    httpMapGet ct.dict HTTP_VERSION = some version ∧
    (headerBlock version status (completeResponse (atoi status) ct).dict).length ≤
      HTTP_MAX_SEND_BLOCK ∧
    HeadersClear version status ct data

section Announced

variable {ct : HttpContent} {status version data : Bytes}

/-- Nothing is sent as a body if nothing was written and the status has no
default body. -/
theorem sentBody_eq_nil {statusCode : ℤ} : sentBody statusCode data = [] ↔
    Bodiless statusCode data := by
  rw [sentBody]
  by_cases hd : (statusCode = 200 ∨ statusCode = 404) ∧ data = []
  · rw [if_pos hd]
    refine iff_of_false (by decide) fun h => ?_
    exact hd.1.elim h.2.1 h.2.2
  · rw [if_neg hd]
    tauto

/-- What the whole block announces, for a content whose keys are distinct.  With
a body, the line that was set is the one, and no other may have the name. -/
theorem announcesOnce_headerBlock (version status : Bytes) (hdata : BodyWritten ct data)
    (hnodup : ct.dict.keys.Nodup) :
    AnnouncesOnce (headerBlock version status (completeResponse (atoi status) ct).dict)
        (sentBody (atoi status) data).length ↔
      if Bodiless (atoi status) data then
        ∃ v, announced version status ct.dict.values = [v] ∧ DecimalValue v 0
      else announced version status
        (ct.dict.values.filter fun p => !(p.1 == ascii "Content-Length")) = [] := by
  rw [AnnouncesOnce, lengthValues_headerBlock, (completeResponse_eq hdata).2]
  by_cases hnone : Bodiless (atoi status) data
  · rw [if_pos hnone, if_pos (sentBody_eq_nil.2 hnone), sentBody_eq_nil.2 hnone]
    rfl
  · rw [if_neg hnone, if_neg fun h => hnone (sentBody_eq_nil.1 h)]
    have hcstr := Lib.cstr_of_numeral (Lib.numeral_sprintfD (sentBody (atoi status) data).length)
    simp only [announced_set hnodup (Lib.cr_notMem_sprintfD _) hcstr]
    constructor
    · rintro ⟨v, ⟨hother, -⟩, -⟩
      exact hother
    · exact fun hother => ⟨_, ⟨hother, rfl⟩, decimalValue_sprintfD_iff.2 rfl⟩

/-- Behind the lines of `entriesInFront` comes the end of the block, or the line
of the length that is set. -/
theorem headerBlock_front (version status : Bytes) (hdata : BodyWritten ct data)
    (hnodup : ct.dict.keys.Nodup) :
    ∃ rest, headerBlock version status (completeResponse (atoi status) ct).dict =
        frontLines version status (entriesInFront (atoi status) ct data) ++ rest ∧
      (rest = [13, 10] ∨ ∃ tail, rest = (ascii "Content-Length" ++
        58 :: 32 :: sprintfD (sentBody (atoi status) data).length) ++ 13 :: 10 :: tail) := by
  rw [(completeResponse_eq hdata).2, entriesInFront]
  by_cases hnone : Bodiless (atoi status) data
  · rw [if_pos hnone, if_pos (sentBody_eq_nil.2 hnone)]
    exact ⟨[13, 10], headerBlock_eq, .inl rfl⟩
  · rw [if_neg hnone, if_neg fun h => hnone (sentBody_eq_nil.1 h)]
    obtain ⟨tail, htail⟩ := headerBlock_set version status hnodup
      (Lib.cstr_of_numeral (Lib.numeral_sprintfD (sentBody (atoi status) data).length))
    exact ⟨_, htail.trans (List.append_assoc ..), .inr ⟨tail, rfl⟩⟩

/-- **A length that is set does not help behind a blank line.**  If the first
blank line comes behind it and is not the end of the block, the value is below
the number of bytes that follow. -/
theorem not_announcesOnce_of_early (version status : Bytes) (hdata : BodyWritten ct data)
    (hnodup : ct.dict.keys.Nodup) {i : ℕ} (hfront : indexOf CRLFCRLF (frontLines version status
      (entriesInFront (atoi status) ct data)) = none)
    (hi : indexOf CRLFCRLF
      (headerBlock version status (completeResponse (atoi status) ct).dict) = some i)
    (hearly : i + 4 <
      (headerBlock version status (completeResponse (atoi status) ct).dict).length) {n : ℕ}
    (hn : (sentBody (atoi status) data).length < n) :
    ¬AnnouncesOnce
      ((headerBlock version status (completeResponse (atoi status) ct).dict).take i) n := by
  obtain ⟨rest, hblock, hrest⟩ := headerBlock_front version status hdata hnodup
  obtain ⟨f, hf⟩ := frontLines_end version status (entriesInFront (atoi status) ct data)
  rw [hf] at hfront hblock
  rw [hblock] at hi hearly ⊢
  rcases hrest with rfl | ⟨tail, rfl⟩
  · -- no length is set, and the end of the block is its only blank line
    rw [List.append_assoc] at hi hearly
    have hend := indexOf_end hfront
    rw [CRLFCRLF] at hend
    obtain rfl := Option.some.inj (hi.symm.trans hend)
    rw [List.length_append] at hearly
    exact absurd hearly (Nat.lt_irrefl _)
  · rw [← List.append_assoc] at hi ⊢
    have hcr := cr_notMem_lengthLine
      (Lib.cr_notMem_sprintfD (sentBody (atoi status) data).length)
    obtain ⟨vs, hvs⟩ := lengthValues_take_of_line hfront hcr (by simp [ascii]) hi
    rintro ⟨v, hv, hdec⟩
    rw [hvs, lengthValues_lengthLine (Lib.cr_notMem_sprintfD _)] at hv
    obtain rfl : 32 :: sprintfD (sentBody (atoi status) data).length = v := by
      have hmem : 32 :: sprintfD (sentBody (atoi status) data).length ∈ [v] := by
        rw [← hv]
        simp
      exact List.mem_singleton.1 hmem
    exact absurd (decimalValue_sprintfD_iff.1 hdec) (by exact_mod_cast hn.ne)

/-- **A response is read as it should be exactly if its header lines are
clear.**  The cases are where the first blank line of the block is. -/
theorem announces_iff (hdata : BodyWritten ct data) (hnodup : ct.dict.keys.Nodup) :
    (∃ lines rest, readMessage (headerBlock version status
        (completeResponse (atoi status) ct).dict ++ sentBody (atoi status) data) =
          some (lines, rest) ∧ AnnouncesOnce lines rest.length) ↔
      HeadersClear version status ct data := by
  obtain ⟨rest, hblock, hrest⟩ := headerBlock_front version status hdata hnodup
  have hpos : 0 < rest.length := by
    rcases hrest with rfl | ⟨tail, rfl⟩ <;> simp [ascii]
  obtain ⟨f, hf⟩ := frontLines_end version status (completeResponse (atoi status) ct).dict.values
  have hend : headerBlock version status (completeResponse (atoi status) ct).dict =
      f ++ CRLFCRLF := by
    rw [headerBlock_eq, hf, List.append_assoc]
    rfl
  have hwhole := announcesOnce_headerBlock version status hdata hnodup
  have hearly := fun i => @not_announcesOnce_of_early _ _ version status hdata hnodup i
  unfold HeadersClear
  generalize headerBlock version status (completeResponse (atoi status) ct).dict = block at *
  generalize sentBody (atoi status) data = body at *
  generalize frontLines version status (entriesInFront (atoi status) ct data) = front at *
  obtain ⟨i, hi⟩ : ∃ i, indexOf CRLFCRLF block = some i := by
    refine Option.ne_none_iff_exists'.1 fun hnone => ?_
    refine (Lib.indexOf_eq_none CRLFCRLF_ne_nil).1 hnone f.length ?_
    rw [hend, List.drop_left]
  have hle := Lib.indexOf_le CRLFCRLF_ne_nil hi
  rw [length_CRLFCRLF] at hle
  rw [announces_iff_take hi]
  cases hfront : indexOf CRLFCRLF front with
  | some j =>
    have hj := Lib.indexOf_le CRLFCRLF_ne_nil hfront
    rw [length_CRLFCRLF] at hj
    obtain rfl : i = j := by
      have happend := Lib.indexOf_append (m := rest) CRLFCRLF_ne_nil hfront
      rw [← hblock, hi] at happend
      exact Option.some.inj happend
    have hlen : block.length = front.length + rest.length := by rw [hblock, List.length_append]
    have htake : block.take i = front.take i := by
      rw [hblock, List.take_append_of_le_length (by omega)]
    rw [htake]
    constructor
    · exact fun h => .inl ⟨i, hfront, h⟩
    · rintro (⟨k, hk, h⟩ | ⟨hlast, -⟩)
      · obtain rfl := Option.some.inj (hfront.symm.trans hk)
        exact h
      · have := Option.some.inj (hi.symm.trans hlast)
        omega
  | none =>
    by_cases hlast : i + 4 = block.length
    · have hsame : AnnouncesOnce (block.take i) body.length ↔ AnnouncesOnce block body.length := by
        rw [AnnouncesOnce, AnnouncesOnce, ← lengthValues_end (block.take i),
          take_append_of_last hi hlast]
      rw [show block.length + body.length - (i + 4) = body.length by omega, hsame, hwhole]
      have hat : i = block.length - 4 := by omega
      constructor
      · exact fun h => .inr ⟨by rw [hi, hat], h⟩
      · rintro (⟨k, hk, -⟩ | ⟨-, h⟩)
        · exact absurd (hfront.symm.trans hk) (Option.some_ne_none k).symm
        · exact h
    · refine iff_of_false (hearly i hfront hi (by omega) (by omega)) ?_
      rintro (⟨k, hk, -⟩ | ⟨hend, -⟩)
      · exact absurd (hfront.symm.trans hk) (Option.some_ne_none k).symm
      · have := Option.some.inj (hi.symm.trans hend)
        omega

/-- What the header block announces, up to the first blank line of the bytes.
Whether that is the one at the end of the block depends on the texts of the
program. -/
theorem selfDelimiting_of_started (hstatus : httpMapGet ct.dict HTTP_STATUS = some status)
    (hversion : httpMapGet ct.dict HTTP_VERSION = some version) (hdata : BodyWritten ct data)
    (hnodup : ct.dict.keys.Nodup) :
    SelfDelimiting ct ↔
      (headerBlock version status (completeResponse (atoi status) ct).dict).length ≤
        HTTP_MAX_SEND_BLOCK ∧
      HeadersClear version status ct data := by
  simp only [SelfDelimiting, responseSentAs_iff hstatus hversion hdata]
  rw [← announces_iff hdata hnodup]
  constructor
  · rintro ⟨_, _, _, lines, rest, ⟨rfl, rfl, rfl, hlong⟩, hread⟩
    exact ⟨hlong, lines, rest, hread⟩
  · rintro ⟨hlong, lines, rest, hread⟩
    exact ⟨_, _, _, lines, rest, ⟨rfl, rfl, rfl, hlong⟩, hread⟩

/-- **A response delimits itself exactly if its own entries leave the length to
`http_send_response`, or announce it where it sets none**, for every sequence of
calls and every status. -/
theorem selfDelimiting_iff (calls : List ResponseCall) :
    SelfDelimiting (buildResponse calls) ↔ LengthClear (buildResponse calls) (written calls) := by
  have hdata := bodyWritten_buildResponse calls
  have hnodup := nodup_keys_buildResponse calls
  constructor
  · intro h
    obtain ⟨ct', head, body, lines, rest, hsent, -⟩ := id h
    obtain ⟨status, version, hstatus, hversion⟩ := hsent.started
    exact ⟨status, version, hstatus, hversion,
      (selfDelimiting_of_started hstatus hversion hdata hnodup).1 h⟩
  · rintro ⟨status, version, hstatus, hversion, h⟩
    exact (selfDelimiting_of_started hstatus hversion hdata hnodup).2 h

/-- A redirection without a body. -/
def redirection : List ResponseCall :=
  [.start (ascii "Fri, 01 Jan 2016 12:00:00 UTC", 302),
    .header (ascii "Location") (some (ascii "/"))]

/-- It has no line that says so: a response without a body is sent without
`Content-Length`. -/
theorem selfDelimiting_redirection : ¬SelfDelimiting (buildResponse redirection) := by
  have hstatus : httpMapGet (buildResponse redirection).dict HTTP_STATUS = some (ascii "302") := by
    decide
  have hversion : httpMapGet (buildResponse redirection).dict HTTP_VERSION =
      some (ascii "HTTP/1.1") := by decide
  intro h
  have hall := ((selfDelimiting_of_started hstatus hversion
    (bodyWritten_buildResponse redirection) (nodup_keys_buildResponse redirection)).1 h).2
  have hfront : indexOf CRLFCRLF (frontLines (ascii "HTTP/1.1") (ascii "302")
      (entriesInFront (atoi (ascii "302")) (buildResponse redirection) (written redirection))) =
        none := by decide +kernel
  have hnone : announced (ascii "HTTP/1.1") (ascii "302")
      (buildResponse redirection).dict.values = [] := by decide +kernel
  rcases hall with ⟨i, hi, -⟩ | ⟨-, hall⟩
  · rw [hfront] at hi
    cases hi
  · rw [if_pos (by decide)] at hall
    obtain ⟨v, hv, -⟩ := hall
    rw [hnone] at hv
    cases hv

end Announced

end Http
end Dukserver
