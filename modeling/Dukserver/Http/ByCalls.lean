/-
# The connection's blocks, asked for one call at a time

Each function of a connection, taken with its blocks, is written against the addresses that
the allocator answers with.  It sees the ledger in its calls only, so other threads may
call in between (`Sys.ByCalls`); the instances follow the functions' own shape.
-/
import Dukserver.Http.ConnectionBlocks
import Dukserver.Sys.Interleave

namespace Dukserver
namespace Http
namespace Blocks

open Lib (Bytes ascii)
open Sys (ByCalls)

/-! ### Strings and dictionaries -/

instance byCalls_httpStrdup (s : Bytes) : ByCalls fun A => httpStrdup A s := by
  unfold httpStrdup
  infer_instance

instance byCalls_httpMapNew (n : ℕ) : ByCalls fun A => httpMapNew A n := by
  unfold httpMapNew
  infer_instance

instance byCalls_freeStr (s : Option Str) : ByCalls fun _ => freeStr s := by
  cases s with
  | none => exact Sys.byCalls_pure _
  | some s => exact Sys.byCalls_free _

instance byCalls_freePairs (pairs : List (Str × Option Str)) :
    ByCalls fun _ => freePairs pairs := by
  induction pairs with
  | nil => exact Sys.byCalls_pure _
  | cons q pairs ih =>
    unfold freePairs
    infer_instance

instance byCalls_httpMapDelete (m : MapT) : ByCalls fun _ => httpMapDelete m := by
  unfold httpMapDelete
  infer_instance

instance byCalls_dupValue (v : Option Bytes) : ByCalls fun A => dupValue A v := by
  cases v with
  | none => exact Sys.byCalls_pure _
  | some v =>
    unfold dupValue
    infer_instance

instance byCalls_expand (m : MapT) : ByCalls fun A => expand A m := by
  unfold expand
  infer_instance

instance byCalls_placePair (k : Bytes) (v : Option Bytes) (pairs : List (Str × Option Str)) :
    ByCalls fun A => placePair A k v pairs := by
  induction pairs with
  | nil =>
    unfold placePair
    infer_instance
  | cons q pairs ih =>
    unfold placePair
    infer_instance

instance byCalls_httpMapSet (m : MapT) (k v : Option Bytes) :
    ByCalls fun A => httpMapSet A m k v := by
  cases k with
  | none => exact Sys.byCalls_pure _
  | some k =>
    unfold httpMapSet
    infer_instance

/-! ### Parsing -/

instance byCalls_httpStrndup (s : Bytes) : ByCalls fun A => httpStrndup A s := by
  unfold httpStrndup
  infer_instance

instance byCalls_setCopy (hdr : MapT) (key s : Bytes) : ByCalls fun A => setCopy A hdr key s := by
  unfold setCopy
  infer_instance

instance byCalls_httpParseRequestLine (mem : Bytes) (buf len : ℕ) (hdr : MapT) :
    ByCalls fun A => httpParseRequestLine A mem buf len hdr := by
  unfold httpParseRequestLine
  simp only
  rcases httpFindAlpha mem buf len with _ | s
  · infer_instance
  simp only
  rcases httpFindChar mem s 32 (buf + len - s) with _ | p
  · infer_instance
  simp only
  rcases httpFindChar mem (p + 1) 47 (buf + len - (p + 1)) with _ | s
  · infer_instance
  simp only
  rcases httpFindChar mem s 32 (buf + len - s) with _ | p'
  · infer_instance
  simp only
  rcases strstr mem (p' + 1) (ascii "HTTP/") with _ | p''
  · infer_instance
  · simp only
    infer_instance

instance byCalls_httpParseResponseLine (mem : Bytes) (buf len : ℕ) (hdr : MapT) :
    ByCalls fun A => httpParseResponseLine A mem buf len hdr := by
  unfold httpParseResponseLine
  simp only
  rcases httpFindAlpha mem buf len with _ | s
  · infer_instance
  simp only
  rcases strstr mem s (ascii "HTTP/") with _ | p
  · infer_instance
  simp only
  generalize (if startsWith mem p (ascii "HTTP/1.1") then some (ascii "1.1")
    else if startsWith mem p (ascii "HTTP/1.0") then some (ascii "1.0") else none) = version
  rcases version with _ | version
  · infer_instance
  simp only
  rcases httpFindDigit mem (p + 8) (buf + len - (p + 8)) with _ | s
  · infer_instance
  simp only
  rcases httpFindChar mem s 32 (buf + len - s) with _ | p
  · infer_instance
  · simp only
    infer_instance

instance byCalls_copyValue (v : Option Bytes) : ByCalls fun A => copyValue A v := by
  unfold copyValue
  rcases v with _ | v
  · infer_instance
  · infer_instance

instance byCalls_httpParseHeader (mem : Bytes) (buf len : ℕ) (hdr : MapT) :
    ByCalls fun A => httpParseHeader A mem buf len hdr := by
  unfold httpParseHeader
  simp only
  rcases httpFindAlpha mem buf len with _ | s
  · infer_instance
  simp only
  rcases httpFindChar mem s 58 (buf + len - s) with _ | pcolon
  · infer_instance
  · infer_instance

instance byCalls_httpParseLine (type : HttpParseType) (lineno : ℕ) (mem : Bytes) (buf len : ℕ)
    (hdr : MapT) : ByCalls fun A => httpParseLine A type lineno mem buf len hdr := by
  unfold httpParseLine
  cases type with
  | request => infer_instance
  | response => infer_instance

instance byCalls_parseLinesLoop (type : HttpParseType) (mem : Bytes) (n p linebuf lineno : ℕ)
    (hdr : MapT) : ByCalls fun A => parseLinesLoop A type mem n p linebuf lineno hdr := by
  induction n generalizing p linebuf lineno hdr with
  | zero => exact Sys.byCalls_pure _
  | succ n ih =>
    unfold parseLinesLoop
    infer_instance

instance byCalls_httpParseLines (type : HttpParseType) (mem : Bytes) (buflen : ℕ) (hdr : MapT) :
    ByCalls fun A => httpParseLines A type mem buflen hdr := by
  unfold httpParseLines
  infer_instance

/-! ### Contents -/

instance byCalls_newBuffer : ByCalls newBuffer := by
  unfold newBuffer
  infer_instance

instance byCalls_newReference : ByCalls newReference := by
  unfold newReference
  infer_instance

instance byCalls_httpContentNew : ByCalls httpContentNew := by
  unfold httpContentNew
  infer_instance

set_option synthInstance.maxSize 1000 in
instance byCalls_httpContentDelete (ct : ContentT) : ByCalls fun _ => httpContentDelete ct := by
  unfold httpContentDelete
  infer_instance

instance byCalls_setAll (ct : ContentT) (pairs : List (Bytes × Option Bytes)) :
    ByCalls fun A => setAll A ct pairs := by
  unfold setAll
  infer_instance

instance byCalls_httpStartResponse (date : Bytes) (ct : ContentT) (status : ℤ) :
    ByCalls fun A => httpStartResponse A date ct status := by
  unfold httpStartResponse
  infer_instance

instance byCalls_httpStartRequest (ct : ContentT) (method url : Option Bytes) :
    ByCalls fun A => httpStartRequest A ct method url := by
  unfold httpStartRequest
  rcases method with _ | method <;> rcases url with _ | url <;> infer_instance

instance byCalls_httpHeader (ct : ContentT) (key : Bytes) (value : Option Bytes) :
    ByCalls fun A => httpHeader A ct key value := by
  unfold httpHeader
  infer_instance

instance byCalls_httpWrite (ct : ContentT) (buffer : Bytes) (nrBytes : ℤ) :
    ByCalls fun A => httpWrite A ct buffer nrBytes := by
  unfold httpWrite
  infer_instance

/-! ### Sending -/

instance byCalls_applyCall {σ : Type} (start : Sys.Allocator → ContentT → σ → Sys.Alloc ContentT)
    [∀ ct a, ByCalls fun A => start A ct a] (ct : ContentT) (c : Call σ) :
    ByCalls fun A => applyCall A (start A) ct c := by
  unfold applyCall
  cases c with
  | start a => infer_instance
  | header key value => infer_instance
  | write data => infer_instance

instance byCalls_buildRequest (calls : List RequestCall) :
    ByCalls fun A => buildRequest A calls := by
  unfold buildRequest
  infer_instance

instance byCalls_buildResponse (calls : List ResponseCall) :
    ByCalls fun A => buildResponse A calls := by
  unfold buildResponse
  infer_instance

instance byCalls_defaultBody (statusCode : ℤ) (ct : ContentT) :
    ByCalls fun A => defaultBody A statusCode ct := by
  unfold defaultBody
  infer_instance

instance byCalls_completeResponse (statusCode : ℤ) (ct : ContentT) :
    ByCalls fun A => completeResponse A statusCode ct := by
  unfold completeResponse
  infer_instance

instance byCalls_httpSendResponse (conn : HttpConnection) (ct : ContentT) :
    ByCalls fun A => httpSendResponse A conn ct := by
  unfold httpSendResponse
  rcases httpMapGet ct.toContent.dict HTTP_STATUS with _ | status
  · infer_instance
  rcases httpMapGet ct.toContent.dict HTTP_VERSION with _ | version
  · infer_instance
  refine .seq (byCalls_completeResponse _ _) fun ct => ?_
  simp only
  rcases ct.toContent.load ct.toContent.body with e | body
  · infer_instance
  · simp only
    infer_instance

/-! ### Receiving -/

instance byCalls_httpRecvBody (env : RecvEnv) (conn : HttpConnection) (ct : ContentT) :
    ByCalls fun A => httpRecvBody A env conn ct := by
  unfold httpRecvBody
  simp only
  rcases httpMapGet ct.toContent.dict (ascii "Content-Length") with _ | contentLength
  · infer_instance
  simp only
  rcases ct.toContent.load ct.toContent.body with e | copied
  · infer_instance
  simp only
  rcases httpRecvFile conn.handle _ with e | ⟨data, handle⟩ <;>
    rcases httpRecvBinary conn.handle _ with e' | ⟨data', handle'⟩ <;> simp only <;> infer_instance

instance byCalls_recvBodyOf (env : RecvEnv) (conn : HttpConnection) (ct : ContentT) :
    ByCalls fun A => recvBodyOf A env conn ct := by
  unfold recvBodyOf
  refine .seq (byCalls_httpRecvBody _ _ _) fun r => ?_
  rcases r with e | b
  · infer_instance
  · infer_instance

instance byCalls_noMessage (conn : HttpConnection) (ct : ContentT) :
    ByCalls fun _ => noMessage conn ct := by
  unfold noMessage
  infer_instance

instance byCalls_recvParsed (type : HttpParseType) (env : RecvEnv) (r : RecvHeaders)
    (answer : HttpMap → HttpConnection → HttpConnection) (ct : ContentT) :
    ByCalls fun A => recvParsed A type env r answer ct := by
  unfold recvParsed
  infer_instance

instance byCalls_httpRecvRequest (env : RecvEnv) (conn : HttpConnection) :
    ByCalls fun A => httpRecvRequest A env conn := by
  unfold httpRecvRequest
  refine .seq byCalls_httpContentNew fun ct => ?_
  rcases httpRecvHeaders conn ct.toContent with e | r
  · infer_instance
  · simp only
    infer_instance

instance byCalls_httpRecvResponse (env : RecvEnv) (conn : HttpConnection) :
    ByCalls fun A => httpRecvResponse A env conn := by
  unfold httpRecvResponse
  refine .seq byCalls_httpContentNew fun ct => ?_
  rcases httpRecvHeaders conn ct.toContent with e | r
  · infer_instance
  · simp only
    infer_instance

/-! ### Connections -/

instance byCalls_freeParts (host : Str) (handle p : ℕ) :
    ByCalls fun _ => freeParts host handle p := by
  unfold freeParts
  infer_instance

instance byCalls_httpdAccept (peer : Option Peer) : ByCalls fun A => httpdAccept A peer := by
  unfold httpdAccept
  cases peer with
  | none =>
    simp only
    infer_instance
  | some peer =>
    simp only
    infer_instance

instance byCalls_httpdClose (c : ConnectionT) : ByCalls fun _ => httpdClose c := by
  unfold httpdClose
  infer_instance

instance byCalls_httpdCreate (host ip : Option Bytes) (port : ℤ) (answer : Listening) :
    ByCalls fun A => httpdCreate A host ip port answer := by
  unfold httpdCreate
  cases answer <;> infer_instance

instance byCalls_httpdDestroy (srv : ServerT) : ByCalls fun _ => httpdDestroy srv := by
  unfold httpdDestroy
  infer_instance

end Blocks
end Http
end Dukserver
