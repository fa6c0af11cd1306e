/-
# The body of a request in the environ

`libhttpd/wsgi_server.c`, `_put_request` (lines 156-189), on what
`http_recv_request` returns.  The branch for the body compares the method with
`"PUT"` and copies the body, and looks at neither pointer.

There are two ways to get there with one of them `NULL`.  A header block that
starts with CRLF is accepted with an empty dictionary, so there is no method, and
what came behind it counts as a body.  A body that went to a temporary file has
a size and no address.  `putSafe_iff` says that there is no other way.
-/

import Dukserver.Wsgi.PutRequest

namespace Dukserver
namespace Wsgi

open Lib (Bytes ascii atoi cstr delivered)
open Http
open Mpm (prepareRequest)

/-- Whatever `http_recv_request` returns, `_put_request` reads no `NULL`. -/
def PutSafe (clock : Clock) (env : RecvEnv) (conn : HttpConnection) : Prop :=
  ∀ r ct, httpRecvRequest env conn = .ok r → r.content = some ct →
    putRequest clock (prepareRequest r.conn ct) ≠ .error .nullPointer

section Put

variable {clock : Clock} {env : RecvEnv} {conn conn' : HttpConnection} {ct req : HttpContent}
variable {dict : HttpMap} {h n : ℕ} {v : Bytes}

/-- A body that is not there has a size. -/
theorem size_pos_of_load {r : HttpReference} (h : ct.load r = .error .nullPointer) :
    0 < r.size := by
  by_contra hle
  rw [HttpContent.load, if_pos (not_lt.1 hle)] at h
  cases h

/-- **What `_put_request` can trip over**: a body without a method, or without
an address. -/
theorem putRequest_null_iff (hports : PortsSet req.dict.values) :
    putRequest clock req = .error .nullPointer ↔
      0 < req.body.size ∧ httpMapGet req.dict HTTP_METHOD = none ∨
        req.load req.body = .error .nullPointer := by
  obtain ⟨environ, hloop⟩ := putHeaders_ok hports []
  rw [putRequest, hloop]
  simp only
  by_cases hform : isForm req.dict = true
  · have hmethod : httpMapGet req.dict HTTP_METHOD ≠ none := fun hnone => by
      rw [isForm, hnone] at hform
      cases hform
    rw [if_pos hform]
    cases hload : req.load req.body with
    | error e => simp [hmethod]
    | ok body => simp [hmethod]
  · rw [if_neg hform]
    by_cases hpos : 0 < req.body.size
    · rw [if_pos hpos]
      cases hmethod : httpMapGet req.dict HTTP_METHOD with
      | none => simp [hpos]
      | some method =>
        cases hload : req.load req.body with
        | error e => simp
        | ok body => simp
    · rw [if_neg hpos]
      have hload : req.load req.body ≠ .error .nullPointer := fun he => hpos (size_pos_of_load he)
      simp [hpos, hload]

/-- The same for a request that is handed over. -/
theorem putRequest_prepared_iff (hct : FromParse dict ct) (hnodup : dict.keys.Nodup) :
    putRequest clock (prepareRequest conn' ct) = .error .nullPointer ↔
      0 < ct.body.size ∧ httpMapGet dict HTTP_METHOD = none ∨
        ct.load ct.body = .error .nullPointer := by
  have hnodup' : (prepareRequest conn' ct).dict.keys.Nodup :=
    hct.prepared (P := fun m => m.keys.Nodup) hnodup fun _ _ _ _ hm => nodup_keys_httpMapSet hm
  rw [putRequest_null_iff (portsSet_prepared hnodup'), httpMapGet, lookup_prepared hct (by decide),
    ← httpMapGet]
  rfl

/-- What was received starts as the stream does.  The first four bytes are those
of the stream in any case, as a header is at least that long. -/
theorem prefix_received_iff (hd : Head .request env conn h dict) {s : Bytes} (hs : s.length ≤ 4) :
    s <+: headerReceived conn h ++ env.uninit ↔ s <+: delivered conn.handle.incoming := by
  have hbounds := hd.bounds
  have hlen := hd.length_received
  have hstream : headerReceived conn h <+: delivered conn.handle.incoming := List.take_prefix ..
  constructor
  · intro hp
    exact (List.prefix_of_prefix_length_le hp (List.prefix_append ..) (by omega)).trans hstream
  · intro hp
    exact (List.prefix_of_prefix_length_le hp hstream (by omega)).trans (List.prefix_append ..)

/-- A header block has an end of line: that of the blank line at its end, if no
other. -/
theorem exists_atCrlf (hd : Head .request env conn h dict) :
    ∃ p < h - 1, atCrlf (headerReceived conn h ++ env.uninit) p = true := by
  have hbounds := hd.bounds
  have hlen := hd.length_received
  obtain ⟨i, rfl, hi⟩ := hd.found
  obtain ⟨hi, -⟩ := (Lib.indexOf_take CRLFCRLF_ne_nil).1 hi
  have hstream := ((Lib.indexOf_eq_some CRLFCRLF_ne_nil).1 hi).1
  have hdrop : (headerReceived conn (i + 4)).drop i <+: (delivered conn.handle.incoming).drop i :=
    (List.take_prefix ..).drop i
  obtain ⟨rest, hrest⟩ : CRLFCRLF <+: (headerReceived conn (i + 4)).drop i := by
    refine List.prefix_of_prefix_length_le hstream hdrop ?_
    rw [List.length_drop, length_CRLFCRLF]
    omega
  have hsplit : (headerReceived conn (i + 4) ++ env.uninit).drop i =
      [] ++ 13 :: 10 :: (13 :: 10 :: (rest ++ env.uninit)) := by
    rw [List.drop_append_of_le_length (by omega), ← hrest]
    rfl
  exact ⟨i, by omega, atCrlf_of_drop hsplit⟩

/-- **There is no method exactly when the first line is empty**: such a block is
accepted unread, and every other one has its first line accepted. -/
theorem method_none_iff (hd : Head .request env conn h dict) :
    httpMapGet dict HTTP_METHOD = none ↔ [13, 10] <+: delivered conn.handle.incoming := by
  rw [← prefix_received_iff hd (by decide), ← atCrlf_zero]
  have hbounds := hd.bounds
  constructor
  · intro hnone
    by_contra hfirst
    rw [Bool.not_eq_true] at hfirst
    obtain ⟨method, url, version, hentries⟩ :=
      httpParseLines_accept hfirst (exists_atCrlf hd) hd.parsed
    have hmem : (HTTP_METHOD, some method) ∈ dict.values :=
      hentries.first.subset (List.mem_cons_self ..)
    have hlookup := (Lib.Assoc.lookup_eq_some hentries.nodup).2 hmem
    rw [httpMapGet, show cstr HTTP_METHOD = HTTP_METHOD by decide, hlookup] at hnone
    cases hnone
  · intro hfirst
    have hempty := hd.parsed
    rw [httpParseLines_empty hfirst (by omega)] at hempty
    rw [← (Prod.mk.inj hempty).2]
    rfl

/-- A request with any entry has a method.  It has none only if its first line
is empty, and then nothing at all is parsed. -/
theorem method_of_get (hd : Head .request env conn h dict) {k : Bytes}
    (hv : httpMapGet dict k = some v) : httpMapGet dict HTTP_METHOD ≠ none := by
  intro hnone
  rw [method_none_iff hd, ← prefix_received_iff hd (by decide), ← atCrlf_zero] at hnone
  have hbounds := hd.bounds
  have hempty := hd.parsed
  rw [httpParseLines_empty hnone (by omega)] at hempty
  rw [← (Prod.mk.inj hempty).2] at hv
  cases hv

/-- What arrives is an empty first line with something behind the header. -/
def EmptyWithRest (conn : HttpConnection) (h : ℕ) : Prop :=
  [13, 10] <+: delivered conn.handle.incoming ∧ h < (headerReceived conn h).length

/-- The body goes to a temporary file. -/
def ToFile (env : RecvEnv) (dict : HttpMap) : Prop :=
  ∃ v, httpMapGet dict (ascii "Content-Length") = some v ∧ HTTP_MAX_BUFFER_SIZE < atoi v ∧
    env.fopenOk = true

/-- The call returns a content that `_put_request` reads `NULL` of, or not. -/
def PutsNull (clock : Clock) (env : RecvEnv) (conn : HttpConnection) (bad : Prop) : Prop :=
  ∃ r ct, httpRecvRequest env conn = .ok r ∧ r.content = some ct ∧
    (putRequest clock (prepareRequest r.conn ct) = .error .nullPointer ↔ bad)

/-- Without `Content-Length` the body is what came with the header, so the
length of the body can be positive for a header block with an empty dictionary. -/
theorem putsNull_of_none (clock : Clock) (hok : FirstChunkOk conn.handle.incoming)
    (hd : Head .request env conn h dict) (hnodup : dict.keys.Nodup)
    (hv : ∀ v, httpMapGet dict (ascii "Content-Length") = some v → atoi v ≤ 0) :
    PutsNull clock env conn (EmptyWithRest conn h) := by
  have hbounds := hd.bounds
  have hlen := hd.length_received
  have hrecv := httpRecvRequest_eq hok hd
  rw [recvBodyOf, httpRecvBody_of_none _ _ hv] at hrecv
  have hct : FromParse dict (Http.parsed (headerReceived conn h) h dict) := .inl rfl
  refine ⟨_, Http.parsed (headerReceived conn h) h dict, hrecv, rfl, ?_⟩
  rw [putRequest_prepared_iff hct hnodup, method_none_iff hd,
    load_body_parsed (by omega), size_body_parsed _ (by omega), List.length_drop, EmptyWithRest]
  constructor
  · rintro (⟨hpos, hempty⟩ | hload)
    · exact ⟨hempty, by omega⟩
    · cases hload
  · rintro ⟨hempty, hlt⟩
    exact .inl ⟨by omega, hempty⟩

/-- A body that is read from the buffers has an address.  And the method is
there, as some header is. -/
theorem not_putsNull {ct : HttpContent} {r : Received} (hd : Head .request env conn h dict)
    (hnodup : dict.keys.Nodup) (hv : httpMapGet dict (ascii "Content-Length") = some v)
    (hct : FromParse dict ct) (hload : ct.load ct.body ≠ .error .nullPointer) :
    putRequest clock (prepareRequest r.conn ct) ≠ .error .nullPointer := by
  intro hput
  rcases (putRequest_prepared_iff hct hnodup).1 hput with ⟨-, hmethod⟩ | hnull
  · exact method_of_get hd hv hmethod
  · exact hload hnull

/-- **A request with a body is put without `NULL`, unless the body goes to a
file.** -/
theorem putsNull_of_pos (clock : Clock) (hok : FirstChunkOk conn.handle.incoming)
    (hd : Head .request env conn h dict) (hnodup : dict.keys.Nodup)
    (hv : httpMapGet dict (ascii "Content-Length") = some v) (hn : atoi v = n) (hpos : 0 < n) :
    PutsNull clock env conn (ToFile env dict) := by
  have hbounds := hd.bounds
  have hlen := hd.length_received
  have hrecv := httpRecvRequest_eq hok hd
  have hfile : ToFile env dict ↔ HTTP_MAX_BUFFER_SIZE < n ∧ env.fopenOk = true := by
    constructor
    · rintro ⟨w, hw, hlt, hopen⟩
      obtain rfl := Option.some.inj (hv.symm.trans hw)
      exact ⟨by omega, hopen⟩
    · rintro ⟨hlt, hopen⟩
      exact ⟨v, hv, by omega, hopen⟩
  rw [hfile]
  by_cases hin : h + n ≤ (headerReceived conn h).length
  · obtain ⟨bytes, hload, -⟩ := load_body_header hpos hin hd
    rw [recvBodyOf, httpRecvBody_of_le _ _ hv hn hpos hin] at hrecv
    refine ⟨_, _, hrecv, rfl, iff_of_false (not_putsNull hd hnodup hv (.inl rfl) ?_) (by omega)⟩
    rw [hload]
    simp
  · by_cases hle : n ≤ HTTP_MAX_BUFFER_SIZE
    · obtain ⟨data, -, hbody⟩ := httpRecvBody_of_lt env
        (expectContinue dict (conn.after (headerReceived conn h).length)) hv hn (by omega)
        (not_le.1 hin) hle
      rw [recvBodyOf, hbody] at hrecv
      refine ⟨_, _, hrecv, rfl, iff_of_false (not_putsNull hd hnodup hv (.inl rfl) ?_) (by omega)⟩
      rw [HttpContent.load_bodybuf rfl hpos]
      split_ifs <;> simp
    · cases hopen : env.fopenOk with
      | true =>
        obtain ⟨data, -, hbody⟩ := httpRecvBody_file env
          (expectContinue dict (conn.after (headerReceived conn h).length)) hv hn (by omega)
          (not_le.1 hin) (not_le.1 hle) hopen
        rw [recvBodyOf, hbody] at hrecv
        refine ⟨_, _, hrecv, rfl, iff_of_true ?_ ⟨not_le.1 hle, rfl⟩⟩
        rw [putRequest_prepared_iff (.inr ⟨_, rfl⟩) hnodup]
        right
        rw [HttpContent.load, if_neg (by simp only; omega)]
      | false =>
        have hbody := httpRecvBody_no_file env
          (expectContinue dict (conn.after (headerReceived conn h).length)) hv hn
          (show h ≤ (headerReceived conn h).length by omega) (not_le.1 hin) (not_le.1 hle) hopen
        rw [recvBodyOf, hbody] at hrecv
        refine ⟨_, _, hrecv, rfl, iff_of_false (not_putsNull hd hnodup hv (.inr ⟨_, rfl⟩) ?_) ?_⟩
        · rw [load_body_parsed (by omega)]
          simp
        · exact fun hfalse => Bool.false_ne_true hfalse.2

/-- **What a received request does to `_put_request`**: it reads from `NULL` for
an empty first line with bytes behind it, and for a body that went to a file. -/
theorem putsNull_of_head (clock : Clock) (hok : FirstChunkOk conn.handle.incoming)
    (hd : Head .request env conn h dict) :
    PutsNull clock env conn (EmptyWithRest conn h ∨ ToFile env dict) := by
  have hnodup : dict.keys.Nodup := by
    rcases httpParseLines_entries hd.parsed with rfl | ⟨_, _, _, hfirst⟩
    · exact List.nodup_nil
    · exact hfirst.nodup
  by_cases hv : ∃ v, httpMapGet dict (ascii "Content-Length") = some v ∧ 0 < atoi v
  · obtain ⟨v, hv, hpos⟩ := hv
    obtain ⟨n, hn⟩ := Int.eq_ofNat_of_zero_le hpos.le
    have hline : ¬EmptyWithRest conn h := fun hempty =>
      method_of_get hd hv ((method_none_iff hd).2 hempty.1)
    obtain ⟨r, ct, hr, hct, hput⟩ := putsNull_of_pos clock hok hd hnodup hv hn (by omega)
    exact ⟨r, ct, hr, hct, hput.trans (or_iff_right hline).symm⟩
  · have hle : ∀ v, httpMapGet dict (ascii "Content-Length") = some v → atoi v ≤ 0 :=
      fun v hget => not_lt.1 fun hpos => hv ⟨v, hget, hpos⟩
    have hfile : ¬ToFile env dict := by
      rintro ⟨v, hget, hlt, -⟩
      have := hle v hget
      omega
    obtain ⟨r, ct, hr, hct, hput⟩ := putsNull_of_none clock hok hd hnodup hle
    exact ⟨r, ct, hr, hct, hput.trans (or_iff_left hfile).symm⟩

/-- **`_put_request` reads no `NULL` exactly when neither happens**, for every
stream, every division into chunks and every end of it: the header block does
not start with CRLF, or nothing came behind it, and the body does not go to a
temporary file. -/
theorem putSafe_iff (clock : Clock) (env : RecvEnv) (conn : HttpConnection) :
    PutSafe clock env conn ↔ ∀ h dict, FirstChunkOk conn.handle.incoming →
      Head .request env conn h dict → ¬EmptyWithRest conn h ∧ ¬ToFile env dict := by
  constructor
  · intro hsafe h dict hok hd
    obtain ⟨r, ct, hr, hct, hput⟩ := putsNull_of_head clock hok hd
    exact not_or.1 fun hbad => hsafe r ct hr hct (hput.2 hbad)
  · intro hall r ct hr hct hnull
    obtain ⟨hok, h, dict, hd⟩ := head_of_httpRecvRequest hr hct
    obtain ⟨r', ct', hr', hct', hput⟩ := putsNull_of_head clock hok hd
    obtain rfl := Except.ok.inj (hr.symm.trans hr')
    obtain rfl := Option.some.inj (hct.symm.trans hct')
    exact (hput.1 hnull).elim (hall h dict hok hd).1 (hall h dict hok hd).2

/-- A byte behind an empty first line. -/
theorem putSafe_empty_line : ¬PutSafe noon plainEnv (connectionOf [ascii "\r\n\r\nX"]) := by
  have hd : Head .request plainEnv (connectionOf [ascii "\r\n\r\nX"]) 4
      (httpMapNew HTTP_DEFAULT_HEADERS_COUNT) := ⟨⟨0, rfl, by decide⟩, by decide⟩
  have hok : FirstChunkOk (connectionOf [ascii "\r\n\r\nX"]).handle.incoming := fun c hc => by
    obtain rfl : ascii "\r\n\r\nX" = c := Option.some.inj hc
    decide
  intro hsafe
  obtain ⟨r, ct, hr, hct, hput⟩ := putsNull_of_head noon hok hd
  exact hsafe r ct hr hct (hput.2 (.inl ⟨by decide, by decide⟩))

end Put

end Wsgi
end Dukserver
