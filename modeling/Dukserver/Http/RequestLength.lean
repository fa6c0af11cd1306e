/-
# The length of a request

`http_send_request` announces the size of the body buffer or of the bound file and
sends `ct->body` or that file (`libhttpd/http_sendrecv.c`, lines 833-901), and
`http_start_request` clears `ct->body` but not the body buffer (lines 572-589).
What goes out is read as a peer reads it, up to the first blank line of the bytes that
were sent (`Http.Framing`).

Without a blank line in the texts of the request, the two agree, and with what was
written, exactly if nothing that was written is left behind by a later
`http_start_request` (`WrittenLast`), or if the file holds just that, and no text
announces another length (`request_delimited_iff`).
-/

import Dukserver.Http.Framing
import Dukserver.Http.SendRequest

namespace Dukserver
namespace Http

open Lib (Bytes ascii cr_notMem_sprintfD cstr cstr_sprintfD indexOf sprintfD toInt32
  toInt32_natCast)

/-- After each `http_start_request` that has a method and a URL, something is
written if something was written before it. -/
def WrittenLast (calls : List RequestCall) : Prop :=
  ∀ before method url after, calls = before ++ .start (some method, some url) :: after →
    written before ≠ [] → written after ≠ []

/-- What is sent, read as a peer reads it, announces as many bytes in front of
its first blank line as there are behind it (none, if there is no line that
does), and these are `data`. -/
def Delimited (files : Bytes → Option Bytes) (conn : HttpConnection) (ct : HttpContent)
    (data : Bytes) : Prop :=
  ∃ ct' head body lines rest, SentAs files conn ct ct' head body ∧
    readMessage (head ++ body) = some (lines, rest) ∧ Announces lines rest.length ∧ rest = data

/-- The length that `http_send_request` sets. -/
def lengthSet (files : Bytes → Option Bytes) (ct : HttpContent) : Option ℤ :=
  match httpMapGet ct.dict HTTP_SENDFILE with
  | some fn => some (getFileSize files fn)
  | none => if 0 < ct.bodybuf.size then some ct.bodybuf.size else none

/-- Its line. -/
def lengthLine : Option ℤ → Bytes
  | some z => ascii "Content-Length" ++ 58 :: 32 :: sprintfD z ++ [13, 10]
  | none => []

/-- What is sent behind the header block: the file that is bound, or what was
written, unless a later `http_start_request` has left it behind. -/
def SentBehind (files : Bytes → Option Bytes) (calls : List RequestCall) (sent : Bytes) : Prop :=
  match httpMapGet (buildRequest calls).dict HTTP_SENDFILE with
  | some fn => sent = (files fn).getD []
  | none => WrittenLast calls ∧ sent = written calls ∨ ¬WrittenLast calls ∧ sent = []

/-- The header block of a request delimits it; `front` are its lines without the
length that is set.  If there is a blank line among them, they must announce
what was written in front of it, and what comes behind it must be just that.
Otherwise they announce no length (or, if none is set, the length `0`), and what
was written is what is sent. -/
def LinesClear (files : Bytes → Option Bytes) (calls : List RequestCall) (front : Bytes) : Prop :=
  (∃ i sent, indexOf CRLFCRLF front = some i ∧ SentBehind files calls sent ∧
    front.drop (i + 4) ++ lengthLine (lengthSet files (buildRequest calls)) ++ [13, 10] ++ sent =
      written calls ∧
    Announces (front.take i) (written calls).length) ∨
  indexOf CRLFCRLF front = none ∧ SentBehind files calls (written calls) ∧
    if lengthSet files (buildRequest calls) = none then Announces front 0
    else lengthValues front = [] ∧
      lengthSet files (buildRequest calls) = some ((written calls).length : ℤ)

/-- When the calls build a request that is sent so: its method, URL and version
are there, the host and the path can be told apart, the header block fits its
buffer, and its lines are clear. -/
structure Deliverable (files : Bytes → Option Bytes) (conn : HttpConnection)
    (calls : List RequestCall) : Prop where
  method : httpMapGet (buildRequest calls).dict HTTP_METHOD ≠ none
  version : httpMapGet (buildRequest calls).dict HTTP_VERSION ≠ none
  url : ∃ url, httpMapGet (buildRequest calls).dict HTTP_URL = some url ∧ UrlSplits url
  fits : ∀ url ct₁ head, httpMapGet (buildRequest calls).dict HTTP_URL = some url →
    preprocessRequest conn url (buildRequest calls) = .ok ct₁ →
    requestHead (announceLength files ct₁) = some head → head.length ≤ HTTP_MAX_SEND_BLOCK
  lines : ∀ url ct₁ front, httpMapGet (buildRequest calls).dict HTTP_URL = some url →
    preprocessRequest conn url (buildRequest calls) = .ok ct₁ →
    requestHead ct₁ = some (front ++ [13, 10]) → LinesClear files calls front

section Length

variable {ct : HttpContent} {calls : List RequestCall} {method url : Option Bytes}

/-- A start leaves the body buffer as it is. -/
theorem httpStartRequest_bodybuf (ct : HttpContent) (method url : Option Bytes) :
    (httpStartRequest ct method url).bodybuf = ct.bodybuf := by
  cases method <;> cases url <;> rfl

/-- So the buffer holds all that was written, before a start and behind it. -/
theorem written_buildRequest (calls : List RequestCall) :
    Written (buildRequest calls) (written calls) := by
  rw [buildRequest]
  exact written_build (fun ct a => httpStartRequest_bodybuf ct a.1 a.2) calls

/-- A call at the end starts the request again, writes, or changes nothing.
Only a start leaves behind what was written before it. -/
theorem writtenLast_append {call : RequestCall} : WrittenLast (calls ++ [call]) ↔
    (written calls ≠ [] → ∀ method url, call ≠ .start (some method, some url)) ∧
      (call.data ≠ [] ∨ WrittenLast calls) := by
  constructor
  · intro h
    refine ⟨fun hw method url he => ?_, or_iff_not_imp_left.2 fun hd => ?_⟩
    · exact h calls method url [] (by rw [he]) hw rfl
    · rintro before method url after rfl hw
      have hafter := h before method url (after ++ [call]) (by simp) hw
      rw [not_not] at hd
      rwa [written_append, hd, List.append_nil] at hafter
  · rintro ⟨hstart, hlast⟩ before method url after he hw
    rcases List.eq_nil_or_concat' after with rfl | ⟨after, c, rfl⟩
    · obtain ⟨rfl, hc⟩ := List.append_inj' he rfl
      exact absurd (List.cons.inj hc).1 (hstart hw method url)
    · have hsplit : calls ++ [call] =
          (before ++ .start (some method, some url) :: after) ++ [c] := by simpa using he
      obtain ⟨rfl, hc⟩ := List.append_inj' hsplit rfl
      obtain rfl := (List.cons.inj hc).1
      rw [written_append]
      rcases hlast with hd | hlast
      · exact List.append_ne_nil_of_right_ne_nil _ hd
      · exact List.append_ne_nil_of_left_ne_nil (hlast before method url after rfl hw) _

/-- **What `ct->body` refers to**: all that was written, or nothing.  A start
clears it, and the next write sets it to the whole buffer. -/
theorem body_buildRequest (calls : List RequestCall) :
    ((buildRequest calls).body = ⟨.bodybuf 0, (written calls).length⟩ ∨
      (buildRequest calls).body.size = 0) ∧
    ((buildRequest calls).body.size = (written calls).length ↔ WrittenLast calls) := by
  induction calls using List.reverseRecOn with
  | nil => exact ⟨.inr rfl, fun _ before _ _ _ he => absurd he (by simp), fun _ => rfl⟩
  | append_singleton calls call ih =>
    have hw := written_buildRequest calls
    rw [buildRequest, build_append, ← buildRequest, writtenLast_append, written_append]
    obtain ⟨hbody, hsize⟩ := ih
    have hkeep : (∀ method url, call ≠ .start (some method, some url)) → call.data = [] →
        (((buildRequest calls).body = ⟨.bodybuf 0, (written calls ++ call.data).length⟩ ∨
          (buildRequest calls).body.size = 0) ∧
        ((buildRequest calls).body.size = (written calls ++ call.data).length ↔
          (written calls ≠ [] → ∀ method url, call ≠ .start (some method, some url)) ∧
            (call.data ≠ [] ∨ WrittenLast calls))) := by
      intro hstart hdata
      rw [hdata, List.append_nil]
      refine ⟨hbody, hsize.trans ⟨fun h => ⟨fun _ => hstart, .inr h⟩, fun h => ?_⟩⟩
      exact h.2.resolve_left (fun hne => hne rfl)
    rcases call with ⟨_ | method, url⟩ | ⟨key, value⟩ | data
    · exact hkeep (by simp) rfl
    · cases url with
      | none => exact hkeep (by simp) rfl
      | some url =>
        refine ⟨.inr rfl, ?_⟩
        rw [Call.data, List.append_nil]
        constructor
        · intro h
          have hzero : (0 : ℤ) = (written calls).length := h
          have hnil : written calls = [] := List.length_eq_zero_iff.1 (by omega)
          refine ⟨fun hne => absurd hnil hne, .inr (hsize.1 ?_)⟩
          rcases hbody with hbody | hbody
          · rw [hbody]
          · rw [hbody, hnil]
            rfl
        · rintro ⟨hstart, -⟩
          by_contra hne
          exact hstart (fun hnil => hne (by rw [hnil]; rfl)) method url rfl
    · exact hkeep (by simp) rfl
    · by_cases hdata : data = []
      · subst hdata
        have hsame := hkeep (by simp) rfl
        exact hsame
      · have hnew := body_httpWrite hw hdata
        refine ⟨.inl hnew, iff_of_true ?_ ⟨fun _ _ _ => by simp, .inl hdata⟩⟩
        exact congrArg HttpReference.size hnew

/-- `ct->body` is read without a fault.  It is what was written, exactly if
nothing was left behind, or nothing at all. -/
theorem load_buildRequest (hbody : ct.body = (buildRequest calls).body)
    (hbuf : ct.bodybuf = (buildRequest calls).bodybuf) :
    ∃ body, ct.load ct.body = .ok body ∧ (body = written calls ↔ WrittenLast calls) ∧
      (body = written calls ∨ body = []) := by
  obtain ⟨hwhole, hlast⟩ := body_buildRequest calls
  have hw := written_buildRequest calls
  rw [← hbody] at hwhole hlast
  have hnone : ct.body.size = 0 → ∃ body, ct.load ct.body = .ok body ∧
      (body = written calls ↔ WrittenLast calls) ∧
      (body = written calls ∨ body = []) := fun hzero => by
    refine ⟨[], by rw [HttpContent.load, if_pos hzero.le], ?_, .inr rfl⟩
    rw [← hlast, hzero, eq_comm, ← List.length_eq_zero_iff]
    omega
  rcases hwhole with hwhole | hzero
  · by_cases hnil : written calls = []
    · exact hnone (by rw [hwhole, hnil]; rfl)
    · have hload := HttpContent.load_bodybuf hwhole (List.length_pos_iff.2 hnil)
      rw [hbuf, hw.buf, if_pos le_rfl, List.take_length] at hload
      exact ⟨_, hload, iff_of_true rfl (hlast.1 (by rw [hwhole])), .inl rfl⟩
  · exact hnone hzero

/-- Without a header of that name, `Content-Length` is left to
`http_send_request`. -/
theorem contentLength_notMem
    (hnames : ∀ k v, .header k v ∈ calls → cstr k ≠ ascii "Content-Length") :
    ascii "Content-Length" ∉ (buildRequest calls).dict.keys := by
  refine build_induction (P := fun ct => ascii "Content-Length" ∉ ct.dict.keys)
    List.not_mem_nil fun ct call hcall hct => ?_
  rcases call with ⟨_ | method, _ | url⟩ | ⟨k, v⟩ | data
  · exact hct
  · exact hct
  · exact hct
  · simp only [Call.apply, httpStartRequest, mem_keys_httpMapSet, not_or]
    exact ⟨by decide, by decide, by decide, by decide, by decide, by decide, hct⟩
  · rw [Call.apply, httpHeader, mem_keys_httpMapSet]
    rintro (he | hmem)
    · exact hnames k v hcall he.symm
    · exact hct hmem
  · rwa [Call.apply, httpWrite_dict]

/-- So it is not found in what the calls have built. -/
theorem contentLength_buildRequest
    (hnames : ∀ k v, .header k v ∈ calls → cstr k ≠ ascii "Content-Length") :
    httpMapGet (buildRequest calls).dict (ascii "Content-Length") = none :=
  httpMapGet_of_not_mem (contentLength_notMem hnames)

/-! ### The lines of the header block -/

/-- The request line and the lines of the entries. -/
def requestLines (method url version : Bytes) (entries : List (Bytes × Option Bytes)) : Bytes :=
  method ++ ascii " " ++ url ++ ascii " " ++ version ++ 13 :: 10 :: headerLines ⟨0, entries⟩

/-- The header block is its lines and the blank one. -/
theorem requestBlock_eq {method url version : Bytes} {dict : HttpMap} :
    requestBlock method url version dict =
      requestLines method url version dict.values ++ [13, 10] := by
  simp [requestBlock, requestLines, headerLines]

/-- The lines of a request are those in front of its blank line.  The head is
they with the CRLF of that line, which can be taken off on the right. -/
theorem eq_requestLines {method url version front : Bytes}
    (hmethod : httpMapGet ct.dict HTTP_METHOD = some method)
    (hurl : httpMapGet ct.dict HTTP_URL = some url)
    (hversion : httpMapGet ct.dict HTTP_VERSION = some version)
    (hfront : requestHead ct = some (front ++ [13, 10])) :
    front = requestLines method url version ct.dict.values := by
  rw [requestHead, hmethod, hurl, hversion] at hfront
  have hblock := Option.some.inj hfront
  rw [requestBlock_eq] at hblock
  exact (List.append_cancel_right hblock).symm

/-- What `announceLength` does to the dictionary: it sets the length of the
file, or that of the buffer if it is not empty. -/
theorem announceLength_eq {files : Bytes → Option Bytes} : announceLength files ct =
    (lengthSet files ct).elim ct fun z =>
      httpHeader ct (ascii "Content-Length") (some (sprintfD z)) := by
  rw [announceLength, lengthSet]
  cases httpMapGet ct.dict HTTP_SENDFILE with
  | some fn => rfl
  | none =>
    simp only
    split_ifs <;> rfl

/-- If no length is set, nothing was written. -/
theorem written_of_lengthSet {files : Bytes → Option Bytes}
    (h : lengthSet files (buildRequest calls) = none) : written calls = [] := by
  rw [lengthSet] at h
  split at h
  · cases h
  · split_ifs at h with hpos
    have hsize := (written_buildRequest calls).size
    exact List.length_eq_zero_iff.1 (by omega)

/-- **The length is announced in the last line**, as its key is a new one and a
new key is put behind the others. -/
theorem requestHead_announceLength {files : Bytes → Option Bytes} {head : Bytes}
    (hkey : ascii "Content-Length" ∉ ct.dict.keys)
    (hhead : requestHead (announceLength files ct) = some head) :
    ∃ f, requestHead ct = some (f ++ [13, 10] ++ [13, 10]) ∧
      head = f ++ [13, 10] ++ lengthLine (lengthSet files ct) ++ [13, 10] := by
  have hget : ∀ k, cstr k ≠ ascii "Content-Length" →
      httpMapGet (announceLength files ct).dict k = httpMapGet ct.dict k := fun k =>
    httpMapGet_announceLength
  rw [requestHead, hget HTTP_METHOD (by decide), hget HTTP_URL (by decide),
    hget HTTP_VERSION (by decide)] at hhead
  rw [requestHead]
  obtain ⟨f, hf⟩ := headerLines_end 0 ct.dict.values
  split at hhead
  · rename_i method url version _ _ _
    obtain rfl := Option.some.inj hhead
    refine ⟨method ++ ascii " " ++ url ++ ascii " " ++ version ++ f, ?_, ?_⟩
    · simp only [requestBlock_eq, requestLines, hf, List.append_assoc]
    · rw [requestBlock_eq, announceLength_eq]
      cases lengthSet files ct with
      | none => simp [requestLines, hf, lengthLine]
      | some z =>
        have hvalues : (httpHeader ct (ascii "Content-Length") (some (sprintfD z))).dict.values =
            ct.dict.values ++ [(ascii "Content-Length", some (sprintfD z))] := by
          rw [httpHeader, values_httpMapSet, Option.map_some, cstr_sprintfD]
          exact Lib.Assoc.set_of_not_mem hkey
        have hline : headerLines ⟨0, [(ascii "Content-Length", some (sprintfD z))]⟩ =
            lengthLine (some z) := by
          rw [headerLines_line (by decide), lengthLine]
          simp [ascii, headerLines]
        rw [Option.elim_some, hvalues, requestLines, headerLines_append, hline,
          ← List.cons_append, ← List.cons_append, hf]
        simp only [List.append_assoc]
  · cases hhead

/-- The lines of a message, with its length set or not, announce what they
announced before, and the length. -/
theorem announces_lengthLine {f : Bytes} {z : ℤ} {n : ℕ} :
    Announces (f ++ [13, 10] ++ (ascii "Content-Length" ++ 58 :: 32 :: sprintfD z)) n ↔
      lengthValues (f ++ [13, 10]) = [] ∧ z = n := by
  have hlines : lengthValues (f ++ [13, 10] ++ (ascii "Content-Length" ++ 58 :: 32 :: sprintfD z)) =
      lengthValues f ++ [32 :: sprintfD z] := by
    rw [List.append_assoc, List.cons_append, List.singleton_append, lengthValues_append,
      lengthValues_lengthLine (cr_notMem_sprintfD z)]
  rw [Announces, AnnouncesOnce, hlines, lengthValues_crlf]
  constructor
  · rintro (⟨hnil, -⟩ | ⟨v, hv, hdec⟩)
    · exact absurd hnil (List.append_ne_nil_of_right_ne_nil _ (List.cons_ne_nil _ _))
    · obtain ⟨hnil, he⟩ := List.append_inj' (show _ = [] ++ [v] from hv) rfl
      obtain rfl := (List.cons.inj he).1
      exact ⟨hnil, decimalValue_sprintfD_iff.1 hdec⟩
  · rintro ⟨hnil, rfl⟩
    rw [hnil]
    exact .inr ⟨_, rfl, decimalValue_sprintfD_iff.2 rfl⟩

/-- **A message is read as its lines say.**  The cases are whether there is a
blank line among them, and whether a length is set. -/
theorem read_iff {f sent data : Bytes} {set : Option ℤ} :
    (∃ lines rest, readMessage (f ++ [13, 10] ++ lengthLine set ++ [13, 10] ++ sent) =
        some (lines, rest) ∧ Announces lines rest.length ∧ rest = data) ↔
      (∃ i, indexOf CRLFCRLF (f ++ [13, 10]) = some i ∧
        (f ++ [13, 10]).drop (i + 4) ++ lengthLine set ++ [13, 10] ++ sent = data ∧
        Announces ((f ++ [13, 10]).take i) data.length) ∨
      indexOf CRLFCRLF (f ++ [13, 10]) = none ∧ sent = data ∧
        if set = none then Announces (f ++ [13, 10]) data.length
        else lengthValues (f ++ [13, 10]) = [] ∧ set = some (data.length : ℤ) := by
  cases hfront : indexOf CRLFCRLF (f ++ [13, 10]) with
  | some i =>
    have hread := readMessage_of_blank hfront (lengthLine set ++ ([13, 10] ++ sent))
    simp only [List.append_assoc] at hread ⊢
    rw [hread]
    constructor
    · rintro ⟨_, _, he, hn, rfl⟩
      obtain ⟨rfl, rfl⟩ := Prod.mk.inj (Option.some.inj he)
      exact .inl ⟨i, rfl, rfl, hn⟩
    · rintro (⟨j, hj, rfl, hn⟩ | ⟨hnone, -⟩)
      · obtain rfl := Option.some.inj hj
        exact ⟨_, _, rfl, hn, rfl⟩
      · cases hnone
  | none =>
    -- the end of the block is its only blank line
    cases set with
    | none =>
      have hblock : f ++ [13, 10] ++ lengthLine none ++ [13, 10] ++ sent =
          f ++ CRLFCRLF ++ sent := by
        simp [lengthLine, CRLFCRLF]
      have hsame : Announces (f ++ [13, 10]) data.length ↔ Announces f data.length := by
        rw [Announces, Announces, AnnouncesOnce, AnnouncesOnce, lengthValues_crlf]
      rw [hblock, readMessage_of_end (indexOf_end hfront), if_pos rfl, hsame]
      constructor
      · rintro ⟨_, _, he, hn, rfl⟩
        obtain ⟨rfl, rfl⟩ := Prod.mk.inj (Option.some.inj he)
        exact .inr ⟨rfl, rfl, hn⟩
      · rintro (⟨i, hi, -⟩ | ⟨-, rfl, hn⟩)
        · cases hi
        · exact ⟨_, _, rfl, hn, rfl⟩
    | some z =>
      have hblock : f ++ [13, 10] ++ lengthLine (some z) ++ [13, 10] ++ sent =
          f ++ [13, 10] ++ (ascii "Content-Length" ++ 58 :: 32 :: sprintfD z) ++ CRLFCRLF ++
            sent := by
        simp [lengthLine, CRLFCRLF]
      have hcr := cr_notMem_lengthLine (cr_notMem_sprintfD z)
      have hi := indexOf_behind_line hfront hcr (by simp [ascii]) CRLFCRLF
      rw [show indexOf CRLFCRLF CRLFCRLF = some 0 by decide] at hi
      rw [hblock, readMessage_of_end hi, if_neg (Option.some_ne_none z)]
      constructor
      · rintro ⟨_, _, he, hn, rfl⟩
        obtain ⟨rfl, rfl⟩ := Prod.mk.inj (Option.some.inj he)
        obtain ⟨hnil, rfl⟩ := announces_lengthLine.1 hn
        exact .inr ⟨rfl, rfl, hnil, rfl⟩
      · rintro (⟨i, hi, -⟩ | ⟨-, rfl, hnil, hz⟩)
        · cases hi
        · exact ⟨_, _, rfl, announces_lengthLine.2 ⟨hnil, Option.some.inj hz⟩, rfl⟩

/-! ### When the body is announced -/

section Sent

variable {files : Bytes → Option Bytes} {conn : HttpConnection} {url : Bytes}

/-- What is sent behind the header block is one text: the file, if one is bound,
or else what was written behind the last start. -/
theorem SentBehind.unique {a b : Bytes} (ha : SentBehind files calls a)
    (hb : SentBehind files calls b) : a = b := by
  unfold SentBehind at ha hb
  cases hfile : httpMapGet (buildRequest calls).dict HTTP_SENDFILE with
  | some fn =>
    rw [hfile] at ha hb
    exact ha.trans hb.symm
  | none =>
    rw [hfile] at ha hb
    rcases ha with ⟨hlast, rfl⟩ | ⟨hlast, rfl⟩ <;>
      rcases hb with ⟨hlast', rfl⟩ | ⟨hlast', rfl⟩
    · rfl
    · exact absurd hlast hlast'
    · exact absurd hlast' hlast
    · rfl

/-- The file, or what `ct->body` refers to, is read without a fault: the body
refers to what was written to the buffer, or to nothing. -/
theorem requestBody_sentBehind (files : Bytes → Option Bytes)
    (hpre : preprocessRequest conn url (buildRequest calls) = .ok ct) :
    ∃ sent, requestBody files (announceLength files ct) = .ok sent ∧
      SentBehind files calls sent := by
  have hsendfile := httpMapGet_preprocess (k := HTTP_SENDFILE) hpre (by decide) (by decide)
  have hbuffers := preprocessRequest_buffers hpre
  obtain ⟨hbody, hbuf, -⟩ := announceLength_buffers files ct
  rw [requestBody, httpMapGet_announceLength (by decide), hsendfile]
  unfold SentBehind
  cases httpMapGet (buildRequest calls).dict HTTP_SENDFILE with
  | some fn => exact ⟨_, rfl, rfl⟩
  | none =>
    obtain ⟨body, hload, hlast, hnil⟩ := load_buildRequest (hbody.trans hbuffers.1)
      (hbuf.trans hbuffers.2)
    refine ⟨body, hload, ?_⟩
    by_cases h : WrittenLast calls
    · exact .inl ⟨h, hlast.2 h⟩
    · exact .inr ⟨h, hnil.resolve_left fun he => h (hlast.1 he)⟩

/-- Preparing the request changes neither the file nor the buffer. -/
theorem lengthSet_preprocess (hpre : preprocessRequest conn url (buildRequest calls) = .ok ct) :
    lengthSet files ct = lengthSet files (buildRequest calls) := by
  rw [lengthSet, lengthSet,
    httpMapGet_preprocess (k := HTTP_SENDFILE) hpre (by decide) (by decide),
    (preprocessRequest_buffers hpre).2]

/-- Once method, URL and version are there and the URL is taken apart, the
request is delimited if its header block fits and its lines are clear. -/
theorem delimited_of_prepared
    (hnames : ∀ k v, .header k v ∈ calls → cstr k ≠ ascii "Content-Length")
    (hmethod : httpMapGet (buildRequest calls).dict HTTP_METHOD ≠ none)
    (hversion : httpMapGet (buildRequest calls).dict HTTP_VERSION ≠ none)
    (hurl : httpMapGet (buildRequest calls).dict HTTP_URL = some url)
    (hpre : preprocessRequest conn url (buildRequest calls) = .ok ct) :
    ∃ head front, requestHead (announceLength files ct) = some head ∧
      requestHead ct = some (front ++ [13, 10]) ∧
      (Delimited files conn (buildRequest calls) (written calls) ↔
        head.length ≤ HTTP_MAX_SEND_BLOCK ∧ LinesClear files calls front) := by
  obtain ⟨head, hhead⟩ := exists_requestHead files hmethod hversion hpre
  have hkey : ascii "Content-Length" ∉ ct.dict.keys := by
    obtain ⟨host, path, -, rfl⟩ := preprocessRequest_ok hpre
    simp only [mem_keys_httpMapSet, not_or]
    exact ⟨by decide, by decide, contentLength_notMem hnames⟩
  obtain ⟨f, hfront, hlines⟩ := requestHead_announceLength hkey hhead
  obtain ⟨sent, hbody, hsent⟩ := requestBody_sentBehind files hpre
  refine ⟨head, f ++ [13, 10], hhead, hfront, ?_⟩
  have hread : Delimited files conn (buildRequest calls) (written calls) ↔
      head.length ≤ HTTP_MAX_SEND_BLOCK ∧ ∃ lines rest, readMessage (head ++ sent) =
        some (lines, rest) ∧ Announces lines rest.length ∧ rest = written calls := by
    simp only [Delimited, sentAs_iff hmethod hurl hversion hpre hhead hbody]
    constructor
    · rintro ⟨_, _, _, lines, rest, ⟨hlong, rfl, rfl, rfl⟩, hread⟩
      exact ⟨hlong, lines, rest, hread⟩
    · rintro ⟨hlong, lines, rest, hread⟩
      exact ⟨_, _, _, lines, rest, ⟨hlong, rfl, rfl, rfl⟩, hread⟩
  rw [hread, hlines, read_iff, lengthSet_preprocess hpre, LinesClear]
  refine and_congr_right fun _ => or_congr ?_ (and_congr_right fun _ => and_congr ?_ ?_)
  · constructor
    · rintro ⟨i, hi, he, hn⟩
      exact ⟨i, sent, hi, hsent, he, hn⟩
    · rintro ⟨i, sent', hi, hsent', he, hn⟩
      obtain rfl := hsent.unique hsent'
      exact ⟨i, hi, he, hn⟩
  · exact ⟨fun he => he ▸ hsent, fun hdata => hsent.unique hdata⟩
  · by_cases hset : lengthSet files (buildRequest calls) = none
    · rw [if_pos hset, if_pos hset, written_of_lengthSet hset]
      rfl
    · rw [if_neg hset, if_neg hset]

end Sent

/-- **A request announces the body that it sends, and this is what was written,
exactly if the calls are `Deliverable`**, for every sequence of calls, every
connection and all files. -/
theorem request_delimited_iff {files : Bytes → Option Bytes} {conn : HttpConnection}
    (hnames : ∀ k v, .header k v ∈ calls → cstr k ≠ ascii "Content-Length") :
    Delimited files conn (buildRequest calls) (written calls) ↔
      Deliverable files conn calls := by
  constructor
  · intro h
    obtain ⟨ct', head, body, lines, rest, hsent, -⟩ := id h
    obtain ⟨hmethod, hversion, url, ct₁, hurl, hpre⟩ := hsent.prepared
    obtain ⟨head₀, front, hhead, hfront, hiff⟩ :=
      delimited_of_prepared hnames hmethod hversion hurl hpre
    obtain ⟨hlong, hlines⟩ := hiff.1 h
    refine ⟨hmethod, hversion, ⟨url, hurl, preprocessRequest_isOk.1 ⟨ct₁, hpre⟩⟩, ?_, ?_⟩
    · intro url' ct₂ head₂ hurl' hpre' hhead'
      obtain rfl := Option.some.inj (hurl.symm.trans hurl')
      obtain rfl := Except.ok.inj (hpre.symm.trans hpre')
      obtain rfl := Option.some.inj (hhead.symm.trans hhead')
      exact hlong
    · intro url' ct₂ front₂ hurl' hpre' hfront'
      obtain rfl := Option.some.inj (hurl.symm.trans hurl')
      obtain rfl := Except.ok.inj (hpre.symm.trans hpre')
      obtain rfl := List.append_cancel_right (Option.some.inj (hfront.symm.trans hfront'))
      exact hlines
  · intro h
    obtain ⟨url, hurl, hsplits⟩ := h.url
    obtain ⟨ct₁, hpre⟩ := preprocessRequest_isOk.2 hsplits
    obtain ⟨head, front, hhead, hfront, hiff⟩ :=
      delimited_of_prepared hnames h.method h.version hurl hpre
    exact hiff.2 ⟨h.fits url ct₁ head hurl hpre hhead, h.lines url ct₁ front hurl hpre hfront⟩

/-- A connection to a local server. -/
def localConn : HttpConnection := ⟨ascii "localhost", 8080, ⟨[], [], []⟩⟩

/-- A request with a header and a body. -/
def greeting : List RequestCall :=
  [.start (some (ascii "PUT"), some (ascii "/index.html")),
    .header (ascii "username") (some (ascii "fish")), .write (ascii "hello")]

/-- The hypothesis is satisfiable. -/
theorem request_delimited_greeting :
    Delimited (fun _ => none) localConn (buildRequest greeting) (ascii "hello") := by
  refine (request_delimited_iff fun k v hmem => ?_).2 ⟨by decide, by decide, ?_, ?_, ?_⟩
  · simp only [greeting, List.mem_cons, reduceCtorEq, List.not_mem_nil, or_false, false_or,
      Call.header.injEq] at hmem
    rw [hmem.1]
    decide
  · exact ⟨ascii "/index.html", by decide, by decide⟩
  · intro url ct₁ head hurl hpre hhead
    obtain rfl : ascii "/index.html" = url := Option.some.inj hurl
    obtain rfl := Except.ok.inj hpre
    obtain rfl := Option.some.inj hhead
    decide +kernel
  · intro url ct₁ front hurl hpre hfront
    obtain rfl : ascii "/index.html" = url := Option.some.inj hurl
    obtain rfl := Except.ok.inj hpre
    obtain rfl := @eq_requestLines _ (ascii "PUT") _ _ _ rfl rfl rfl hfront
    have hlast : WrittenLast greeting := by
      rw [← (body_buildRequest greeting).2]
      decide
    exact .inr ⟨by decide +kernel, .inl ⟨hlast, rfl⟩, by decide +kernel, by decide⟩

/-- What is written before `http_start_request` is announced and not sent: the
buffer still holds it, and `ct->body` does not refer to it any more. -/
theorem request_written_first :
    ¬Delimited (fun _ => none) localConn
      (buildRequest [.write (ascii "hello"), .start (some (ascii "PUT"), some (ascii "/"))])
      (ascii "hello") := by
  intro h
  have hnames : ∀ k v, (.header k v : RequestCall) ∉
      [.write (ascii "hello"), .start (some (ascii "PUT"), some (ascii "/"))] := by simp
  have hurl : httpMapGet (buildRequest [.write (ascii "hello"),
      .start (some (ascii "PUT"), some (ascii "/"))]).dict HTTP_URL = some (ascii "/") := by decide
  obtain ⟨head, front, -, -, hiff⟩ := delimited_of_prepared
    (fun k v hmem => absurd hmem (hnames k v)) (by decide) (by decide) hurl rfl
  have hleft : ¬WrittenLast [.write (ascii "hello"),
      .start (some (ascii "PUT"), some (ascii "/"))] := fun hlast =>
    hlast [.write (ascii "hello")] _ _ [] rfl (by decide) rfl
  rcases (hiff.1 h).2 with ⟨i, sent, -, -, he, -⟩ | ⟨-, hsent, -⟩
  · -- the line of the length alone is longer than what was written
    have hline : (lengthLine (lengthSet (fun _ => none) (buildRequest [.write (ascii "hello"),
        .start (some (ascii "PUT"), some (ascii "/"))]))).length = 19 := by decide
    have hlen := congrArg List.length he
    simp only [List.length_append, hline] at hlen
    have hwritten : (written [.write (ascii "hello"),
        (.start (some (ascii "PUT"), some (ascii "/")) : RequestCall)]).length = 5 := by decide
    omega
  · rcases hsent with ⟨hlast, -⟩ | ⟨-, hnil⟩
    · exact hleft hlast
    · exact absurd hnil (by decide)

end Length

end Http
end Dukserver
