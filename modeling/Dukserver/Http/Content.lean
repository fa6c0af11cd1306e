/-
# Requests and responses in memory

`libhttpd/http_buffer.h` and `http_content.c`.  A content owns a header buffer
and a body buffer and refers into them by pointer and size.  A buffer of the
model is the list of the bytes written to it so far, from its start: what lies
behind them was never written, and to read it is a fault (`HttpContent.load`).
-/

import Dukserver.Http.Map

namespace Dukserver
namespace Http

open Lib (Bytes)

/-- `http_buffer_t`; `buf` is what was written. -/
structure HttpBuffer where
  buf : Bytes
  maxsize : ℕ
  size : ℤ
  deriving DecidableEq, Repr

/-- A pointer into a content. -/
inductive Ptr
  | null
  | headerbuf (offset : ℕ)
  | bodybuf (offset : ℕ)
  deriving DecidableEq, Repr

/-- `http_reference_t`. -/
structure HttpReference where
  ptr : Ptr
  size : ℤ
  deriving DecidableEq, Repr

/-- `http_content_t`. -/
structure HttpContent where
  headerbuf : HttpBuffer
  bodybuf : HttpBuffer
  header : HttpReference
  body : HttpReference
  dict : HttpMap
  deriving DecidableEq, Repr

/-- `http_content_new`. -/
def httpContentNew : HttpContent where
  headerbuf := ⟨[], HTTP_MAX_BUFFER_SIZE, 0⟩
  bodybuf := ⟨[], HTTP_MAX_BUFFER_SIZE, 0⟩
  header := ⟨.null, 0⟩
  body := ⟨.null, 0⟩
  dict := httpMapNew HTTP_DEFAULT_HEADERS_COUNT

/-- `size` bytes of a buffer from `offset` on, all of them written. -/
def HttpBuffer.load (b : HttpBuffer) (offset size : ℕ) : Except Fault Bytes :=
  if offset + size ≤ b.buf.length then .ok ((b.buf.drop offset).take size)
  else .error .uninitialised

/-- The bytes behind a reference. -/
def HttpContent.load (ct : HttpContent) (r : HttpReference) : Except Fault Bytes :=
  if r.size ≤ 0 then .ok []
  else match r.ptr with
    | .null => .error .nullPointer
    | .headerbuf offset => ct.headerbuf.load offset r.size.toNat
    | .bodybuf offset => ct.bodybuf.load offset r.size.toNat

/-- `http_content_delete`: the name of the file it removes.  `files` are the
names that can be opened. -/
def httpContentDelete (files : Bytes → Bool) (ct : HttpContent) : Option Bytes :=
  (httpMapGet ct.dict HTTP_TMPFILE).filter files

/-- What was written to a buffer is read. -/
theorem HttpBuffer.load_of_le {b : HttpBuffer} {offset size : ℕ}
    (h : offset + size ≤ b.buf.length) :
    b.load offset size = .ok ((b.buf.drop offset).take size) := if_pos h

/-- A body in the body buffer is there if it was written whole.  Bytes of the
buffer behind what was written are not initialised. -/
theorem HttpContent.load_bodybuf {ct : HttpContent} {n : ℕ} (hbody : ct.body = ⟨.bodybuf 0, n⟩)
    (hpos : 0 < n) : ct.load ct.body =
      if n ≤ ct.bodybuf.buf.length then .ok (ct.bodybuf.buf.take n)
      else .error .uninitialised := by
  rw [hbody, HttpContent.load]
  simp only [Int.toNat_natCast, HttpBuffer.load, Nat.zero_add, List.drop_zero]
  rw [if_neg (by omega)]

end Http
end Dukserver
