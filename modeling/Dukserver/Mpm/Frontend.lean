/-
# The connection of a frontend

`libhttpd/http_mpm.c`, `_worker_frontend` (lines 149-160 and 197-203): what it
does with the requests of its connection besides the hand-off.  It receives them
one after the other with `http_recv_request`, adds the address of the peer to
the dictionary, and deletes each content after its response was sent.

The dictionary holds the name of the file that `http_content_delete` removes.
No client can write that entry (`internal_protected`): it is what
`http_recv_body` has put there, or it is missing.
-/

import Dukserver.Http.RecvRequest

namespace Dukserver
namespace Mpm

open Lib (Bytes ascii cstr sprintfD)
open Http

/-- The connection information that `_worker_frontend` adds to a request. -/
def prepareRequest (conn : HttpConnection) (req : HttpContent) : HttpContent :=
  { req with
    dict := httpMapSet (httpMapSet req.dict (ascii "REMOTE_ADDR") (some conn.host))
      (ascii "REMOTE_PORT") (some (sprintfD conn.port)) }

/-- It changes no internal entry. -/
theorem prepareRequest_internal (conn : HttpConnection) (req : HttpContent) :
    SameInternal req.dict (prepareRequest conn req).dict :=
  (sameInternal_set (by decide)).trans (sameInternal_set (by decide))

/-- A received content names the file of `http_recv_body`, or none: the parser
stores no internal key, and only `http_recv_body` sets this one. -/
theorem httpContentDelete_received {env : RecvEnv} {conn : HttpConnection} {r : Received}
    {ct : HttpContent} (h : httpRecvRequest env conn = .ok r ∨ httpRecvResponse env conn = .ok r)
    (hct : r.content = some ct) {files : Bytes → Bool} {fn : Bytes}
    (hfn : httpContentDelete files ct = some fn) : fn = cstr env.tmpfilename := by
  obtain ⟨type, mem, buflen, dict, hparse, hdict⟩ := dict_of_received h hct
  have habsent : HTTP_TMPFILE ∉ dict.keys := fun hmem => by
    have hkeys := httpParseLines_keys type mem buflen HTTP_DEFAULT_HEADERS_COUNT
      (show Internal HTTP_TMPFILE by decide) (by rw [hparse]; exact hmem)
    revert hkeys
    cases type <;> decide
  rw [httpContentDelete, Option.filter_eq_some_iff] at hfn
  rcases hdict with hdict | hdict
  · rw [hdict, httpMapGet_of_not_mem (by exact habsent)] at hfn
    cases hfn.1
  · rw [hdict, httpMapGet_set_self rfl] at hfn
    exact (Option.some.inj hfn.1).symm

/-- **The internal entries are out of reach of every client.**

* No header line creates or changes an entry whose key starts with a space.
* After a header block was parsed into an empty dictionary, these entries are
  exactly those the parser of the first line has written, under its three keys;
  `HTTP_TMPFILE` and `HTTP_SENDFILE` are missing.
* The only file that deleting a received message can remove, with the
  connection information added or without, is the temporary one that
  `http_recv_body` has named. -/
theorem internal_protected :
    (∀ mem buf len hdr, SameInternal hdr (httpParseHeader mem buf len hdr).2) ∧
    (∀ type mem buflen c,
      SameInternal (firstLineDict type mem buflen (httpMapNew c))
        (httpParseLines type mem buflen (httpMapNew c)).2 ∧
      (∀ k ∈ (httpParseLines type mem buflen (httpMapNew c)).2.keys, Internal k →
        k ∈ firstLineKeys type) ∧
      HTTP_TMPFILE ∉ (httpParseLines type mem buflen (httpMapNew c)).2.keys ∧
      HTTP_SENDFILE ∉ (httpParseLines type mem buflen (httpMapNew c)).2.keys) ∧
    ∀ env conn r ct files fn,
      (httpRecvRequest env conn = .ok r ∨ httpRecvResponse env conn = .ok r) →
      r.content = some ct →
      (httpContentDelete files ct = some fn ∨
        httpContentDelete files (prepareRequest r.conn ct) = some fn) →
      fn = cstr env.tmpfilename := by
  refine ⟨httpParseHeader_internal, fun type mem buflen c => ⟨?_, ?_, ?_, ?_⟩, ?_⟩
  · exact httpParseLines_internal type mem buflen (httpMapNew c)
  · exact fun k hk hint => httpParseLines_keys type mem buflen c hint hk
  · intro hmem
    have hkeys := httpParseLines_keys type mem buflen c (by decide) hmem
    revert hkeys
    cases type <;> decide
  · intro hmem
    have hkeys := httpParseLines_keys type mem buflen c (by decide) hmem
    revert hkeys
    cases type <;> decide
  · intro env conn r ct files fn h hct hfn
    rcases hfn with hfn | hfn
    · exact httpContentDelete_received h hct hfn
    · rw [httpContentDelete, httpMapGet_of_sameInternal (prepareRequest_internal r.conn ct)
        (by decide)] at hfn
      exact httpContentDelete_received h hct hfn

/-- A client that announces more than the buffer takes, and closes after two
bytes. -/
def uploadConn : HttpConnection :=
  ⟨ascii "10.0.0.2", 40000,
    ⟨[ascii "PUT /a HTTP/1.1\r\nContent-Length: 90000\r\n\r\nab"], [], []⟩⟩

/-- A temporary file is removed with the request it was made for, and it is the
one that `http_recv_body` has named. -/
theorem internal_protected_upload : ∃ r ct fn, httpRecvRequest plainEnv uploadConn = .ok r ∧
    r.content = some ct ∧ httpContentDelete (fun _ => true) (prepareRequest r.conn ct) = some fn ∧
    fn = cstr plainEnv.tmpfilename := by
  have hdeleted : ((httpRecvRequest plainEnv uploadConn).toOption.bind fun r =>
      r.content.bind fun ct => httpContentDelete (fun _ => true) (prepareRequest r.conn ct)) =
        some (ascii "./0000-00000000-00000000.tmp") := by
    decide +kernel
  obtain ⟨r, hr, hcontent⟩ := Option.bind_eq_some_iff.1 hdeleted
  obtain ⟨ct, hct, hfn⟩ := Option.bind_eq_some_iff.1 hcontent
  cases hrecv : httpRecvRequest plainEnv uploadConn with
  | error e =>
    rw [hrecv] at hr
    cases hr
  | ok r' =>
    rw [hrecv] at hr
    obtain rfl : r' = r := Option.some.inj hr
    exact ⟨r', ct, _, rfl, hct, hfn,
      internal_protected.2.2 plainEnv uploadConn r' ct _ _ (.inl hrecv) hct (.inr hfn)⟩

end Mpm
end Dukserver
