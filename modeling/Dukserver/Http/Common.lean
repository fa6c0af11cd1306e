/-
# Constants and faults

`libhttpd/http_common.h`: the sizes of the buffers and the names under which
`ct->dict` holds what is not a header.  `Fault` is what the model answers where
the C code does something that has no meaning.
-/

import Dukserver.Lib.Bytes

namespace Dukserver
namespace Http

open Lib (Bytes ascii)

def HTTP_DEFAULT_SERVER : Bytes := ascii "libhttpd/1.0.0"
def HTTP_DEFAULT_CONTENT_TYPE : Bytes := ascii "text/plain; charset=UTF-8"
def HTTP_DEFAULT_FORM_ENCODED : Bytes := ascii "application/x-www-form-urlencoded"
def HTTP_DEFAULT_RESPONSE_EXPECT100 : Bytes := ascii "HTTP/1.1 100 Continue\r\n\r\n"

def HTTP_METHOD : Bytes := ascii " METHOD"
def HTTP_URL : Bytes := ascii " URL"
def HTTP_SENDFILE : Bytes := ascii " SENDFILE"
def HTTP_VERSION : Bytes := ascii " VERSION"
def HTTP_TMPFILE : Bytes := ascii " TMPFILE"
def HTTP_STATUS : Bytes := ascii " STATUS"
def HTTP_MESSAGE : Bytes := ascii " MESSAGE"

def HTTP_DEFAULT_HEADERS_COUNT : ℕ := 1000

def K_BUFFER_1KB : ℕ := 0x400
def K_BUFFER_1MB : ℕ := 0x100000

def HTTP_MAX_BUFFER_SIZE : ℕ := 10 * K_BUFFER_1KB
def HTTP_MAX_SEND_BLOCK : ℕ := 2 * K_BUFFER_1MB

/-- Undefined behaviour of the C code, what ends the process, and what stands
for a loop without end. -/
inductive Fault
  /-- `NULL` is read. -/
  | nullPointer
  /-- Memory is read that was not written before. -/
  | uninitialised
  /-- A block of memory is written beyond its end. -/
  | outOfBounds
  /-- A block of memory is used after it was freed. -/
  | useAfterFree
  /-- A block is freed that is not allocated: `http_free` ends the process. -/
  | doubleFree
  /-- The model's bound on a loop is used up; no input leads here. -/
  | outOfFuel
  deriving DecidableEq, Repr

end Http
end Dukserver
