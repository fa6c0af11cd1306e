/-
# Building a response

`libhttpd/http_sendrecv.c`, `http_start_response`, `http_header` and `http_write`
(lines 549-625).  The first two fill the dictionary, the third one appends to the
body buffer, which grows as needed, and lets `ct->body` point to it.
-/

import Dukserver.Http.Content

namespace Dukserver
namespace Http

open Lib (Bytes ascii cstr sprintfD)

/-- `http_start_response`, on a content of the given dictionary; `date` is the
current time, printed. -/
def httpStartResponse (date : Bytes) (ct : HttpContent) (status : ℤ) : HttpContent :=
  let dict := httpMapSet ct.dict HTTP_VERSION (some (ascii "HTTP/1.1"))
  let dict := httpMapSet dict HTTP_STATUS (some (sprintfD status))
  let dict := httpMapSet dict (ascii "Date") (some date)
  let dict := httpMapSet dict (ascii "Server") (some HTTP_DEFAULT_SERVER)
  { ct with dict := httpMapSet dict (ascii "Content-Type") (some HTTP_DEFAULT_CONTENT_TYPE) }

/-- `http_header` with a key that is not `NULL`. -/
def httpHeader (ct : HttpContent) (key : Bytes) (value : Option Bytes) : HttpContent :=
  { ct with dict := httpMapSet ct.dict key value }

/-- Overwrite what is written at `offset`. -/
def HttpBuffer.writeAt (b : HttpBuffer) (offset : ℕ) (data : Bytes) : Bytes :=
  b.buf.take offset ++ data ++ b.buf.drop (offset + data.length)

/-- `http_write`. -/
def httpWrite (ct : HttpContent) (buffer : Bytes) (nrBytes : ℤ) : HttpContent :=
  if nrBytes ≤ 0 then ct
  else
    let newSize := ct.bodybuf.size + nrBytes
    { ct with
      bodybuf :=
        { buf := ct.bodybuf.writeAt ct.bodybuf.size.toNat (buffer.take nrBytes.toNat)
          maxsize :=
            if (ct.bodybuf.maxsize : ℤ) < newSize then newSize.toNat else ct.bodybuf.maxsize
          size := newSize }
      body := ⟨.bodybuf 0, newSize⟩ }

/-- Headers, one after the other. -/
def httpHeaders (ct : HttpContent) (headers : List (Bytes × Bytes)) : HttpContent :=
  headers.foldl (fun ct p => httpHeader ct p.1 (some p.2)) ct

section Response

variable {ct : HttpContent} {date name : Bytes} {headers : List (Bytes × Bytes)}

/-- Writing fills the body buffer; the dictionary stays. -/
@[simp] theorem httpWrite_dict (ct : HttpContent) (buffer : Bytes) (n : ℤ) :
    (httpWrite ct buffer n).dict = ct.dict := by
  unfold httpWrite
  split_ifs <;> rfl

end Response

end Http
end Dukserver
