/-
# The forms of a request URL

`_preprocess_request` in `libhttpd/http_sendrecv.c` lists the forms of URL it takes:
`/path`, `host/path`, `host:port/path` and `host`.  It tells the second and the third
apart by where the first colon is, and without any colon compares `NULL` with the slash,
so a host without port is found only if there is a colon in the path; and a host without
path is not looked at (`preprocesses_iff`).
-/

import Dukserver.Http.SendRequest

namespace Dukserver
namespace Http

open Lib (Bytes ascii cstr)

/-- A URL of one of the forms. -/
inductive UrlForm
  /-- `/path` -/
  | path (path : Bytes)
  /-- `host/path` -/
  | hostPath (host path : Bytes)
  /-- `host:port/path` -/
  | hostPortPath (host port path : Bytes)
  /-- `host` -/
  | host (host : Bytes)
  deriving DecidableEq, Repr

namespace UrlForm

/-- The URL. -/
def text : UrlForm → Bytes
  | path p => 47 :: p
  | hostPath h p => h ++ 47 :: p
  | hostPortPath h port p => h ++ 58 :: (port ++ 47 :: p)
  | host h => h

/-- The part from the first slash. -/
def fromSlash : UrlForm → Bytes
  | path p => 47 :: p
  | hostPath _ p => 47 :: p
  | hostPortPath _ _ p => 47 :: p
  | host _ => ascii "/"

/-- The host it names. -/
def givenHost : UrlForm → Option Bytes
  | path _ => none
  | hostPath h _ => some h
  | hostPortPath h _ _ => some h
  | host h => some h

/-- The name of a host, or a port: no slash and no colon. -/
def Plain (t : Bytes) : Prop := 47 ∉ t ∧ 58 ∉ t

/-- Host and port are plain and the host is not empty. -/
def WellFormed : UrlForm → Prop
  | path _ => True
  | hostPath h _ => Plain h ∧ h ≠ []
  | hostPortPath h port _ => Plain h ∧ h ≠ [] ∧ Plain port
  | host h => Plain h ∧ h ≠ []

/-- A host without port has a colon in its path, and a host without path is the
connection's. -/
def TakenApart (conn : HttpConnection) : UrlForm → Prop
  | path _ => True
  | hostPath _ p => 58 ∈ p
  | hostPortPath _ _ _ => True
  | host h => cstr h = cstr conn.host

end UrlForm

/-- `_preprocess_request` sets the URL to the part from the first slash and
`Host` to the given host, or to the connection's. -/
def Preprocesses (conn : HttpConnection) (ct : HttpContent) (f : UrlForm) : Prop :=
  ∃ ct₁, preprocessRequest conn f.text ct = .ok ct₁ ∧
    httpMapGet ct₁.dict HTTP_URL = some (cstr f.fromSlash) ∧
    httpMapGet ct₁.dict (ascii "Host") = some (cstr (f.givenHost.getD conn.host))

section

variable {conn : HttpConnection} {ct : HttpContent} {f : UrlForm} {a b h p port : Bytes}
  {ch : UInt8}

/-- The first place of a byte.  It is behind the text that does not hold it. -/
theorem httpFindChar_append (ha : ch ∉ a) :
    httpFindChar (a ++ ch :: b) 0 ch (a ++ ch :: b).length = some a.length := by
  have hdrop : (a ++ ch :: b).drop 0 = a ++ ch :: b := List.drop_zero
  have hlen : a.length < (a ++ ch :: b).length := by
    rw [List.length_append, List.length_cons]
    omega
  have hfind := scan_of_drop (p := (· == ch)) hdrop (beq_of_not_mem ha) (beq_self_eq_true ch) hlen
  rwa [Nat.zero_add] at hfind

/-- What is set follows from how the URL is taken apart: the path goes to the
request line and the host to the header `Host`, copied up to a NUL. -/
theorem preprocesses_iff_splitUrl :
    Preprocesses conn ct f ↔ ∃ host path, splitUrl f.text = .ok (host, path) ∧
      cstr path = cstr f.fromSlash ∧
      cstr (host.getD conn.host) = cstr (f.givenHost.getD conn.host) := by
  have hset : ∀ host path, httpMapGet (httpMapSet (httpMapSet ct.dict HTTP_URL (some path))
        (ascii "Host") (some host)) HTTP_URL = some (cstr path) ∧
      httpMapGet (httpMapSet (httpMapSet ct.dict HTTP_URL (some path))
        (ascii "Host") (some host)) (ascii "Host") = some (cstr host) := fun host path => by
    rw [httpMapGet_set_of_ne (by decide), httpMapGet_set_self rfl, httpMapGet_set_self rfl]
    exact ⟨rfl, rfl⟩
  constructor
  · rintro ⟨ct₁, hpre, hurl, hhost⟩
    obtain ⟨host, path, hsplit, rfl⟩ := preprocessRequest_ok hpre
    obtain ⟨hurl', hhost'⟩ := hset (host.getD conn.host) path
    exact ⟨host, path, hsplit, Option.some.inj (hurl'.symm.trans hurl),
      Option.some.inj (hhost'.symm.trans hhost)⟩
  · rintro ⟨host, path, hsplit, hpath, hhost⟩
    obtain ⟨hurl', hhost'⟩ := hset (host.getD conn.host) path
    refine ⟨_, by rw [preprocessRequest, hsplit], ?_, ?_⟩
    · exact hurl'.trans (congrArg some hpath)
    · exact hhost'.trans (congrArg some hhost)

/-- A host without port is found by a colon behind it: without one, `NULL` is
compared with the slash. -/
theorem splitUrl_hostPath (hh : UrlForm.Plain h) (hne : h ≠ []) :
    splitUrl (h ++ 47 :: p) =
      if 58 ∈ p then .ok (some h, 47 :: p) else .error .nullPointer := by
  have hpos := List.length_pos_iff.2 hne
  rw [splitUrl, httpFindChar_append hh.1]
  simp only
  rw [if_neg (by omega)]
  split_ifs with hcolon
  · obtain ⟨p₁, p₂, rfl, hp₁⟩ := List.eq_append_cons_of_mem hcolon
    have hbefore : 58 ∉ h ++ 47 :: p₁ := by simp [hh.2, hp₁]
    have hfind := httpFindChar_append (b := p₂) hbefore
    rw [List.append_assoc, List.cons_append] at hfind
    rw [hfind]
    simp only [List.length_append]
    rw [if_neg (by omega), List.take_left, List.drop_left]
  · have hnot : 58 ∉ h ++ 47 :: p := by simp [hh.2, hcolon]
    rw [httpFindChar_eq_none.2 hnot]

/-- A host with a port is found by the colon between them, which stands before
the slash. -/
theorem splitUrl_hostPortPath (hh : UrlForm.Plain h) (hport : UrlForm.Plain port) :
    splitUrl (h ++ 58 :: (port ++ 47 :: p)) = .ok (some h, 47 :: p) := by
  have hbefore : 47 ∉ h ++ 58 :: port := by simp [hh.1, hport.1]
  have hslash := httpFindChar_append (b := p) hbefore
  have hassoc : h ++ 58 :: port ++ 47 :: p = h ++ 58 :: (port ++ 47 :: p) := by
    rw [List.append_assoc, List.cons_append]
  have hlen : (h ++ 58 :: port).length = h.length + (port.length + 1) := by
    rw [List.length_append, List.length_cons]
  have hdrop : (h ++ 58 :: (port ++ 47 :: p)).drop (h ++ 58 :: port).length = 47 :: p := by
    rw [← hassoc, List.drop_left]
  rw [hassoc] at hslash
  rw [splitUrl, hslash, httpFindChar_append hh.2]
  simp only
  rw [if_neg (by omega), if_pos (by omega), List.take_left, hdrop]

/-- A host without a path is not looked at: the path is `/` and the host that of
the connection. -/
theorem splitUrl_host (hh : UrlForm.Plain h) : splitUrl h = .ok (none, ascii "/") := by
  rw [splitUrl, httpFindChar_eq_none.2 hh.1]

/-- **A URL of the listed forms is taken apart exactly if it does not have a
host without port, or a colon comes in the path, or the host stands alone and is
the connection's.** -/
theorem preprocesses_iff (hf : f.WellFormed) : Preprocesses conn ct f ↔ f.TakenApart conn := by
  rw [preprocesses_iff_splitUrl]
  cases f with
  | path p =>
    have hsplit : splitUrl (UrlForm.path p).text = .ok (none, 47 :: p) := splitUrl_of_slash rfl
    rw [hsplit]
    exact iff_of_true ⟨none, 47 :: p, rfl, rfl, rfl⟩ trivial
  | hostPath h p =>
    rw [UrlForm.text, splitUrl_hostPath hf.1 hf.2]
    by_cases hcolon : 58 ∈ p
    · rw [if_pos hcolon]
      exact iff_of_true ⟨some h, 47 :: p, rfl, rfl, rfl⟩ hcolon
    · rw [if_neg hcolon]
      refine iff_of_false ?_ hcolon
      rintro ⟨host, path, hsplit, -⟩
      cases hsplit
  | hostPortPath h port p =>
    rw [UrlForm.text, splitUrl_hostPortPath hf.1 hf.2.2]
    exact iff_of_true ⟨some h, 47 :: p, rfl, rfl, rfl⟩ trivial
  | host h =>
    rw [UrlForm.text, splitUrl_host hf.1]
    constructor
    · rintro ⟨host, path, hsplit, -, hhost⟩
      obtain ⟨rfl, -⟩ := Prod.mk.inj (Except.ok.inj hsplit)
      exact hhost.symm
    · exact fun hhost => ⟨none, ascii "/", rfl, rfl, hhost.symm⟩

/-- A host with a port. -/
theorem preprocesses_port :
    Preprocesses ⟨ascii "127.0.0.1", 8080, ⟨[], [], []⟩⟩ httpContentNew
      (.hostPortPath (ascii "localhost") (ascii "8080") (ascii "index.html")) := by
  have hhost : UrlForm.Plain (ascii "localhost") := by simp [UrlForm.Plain, ascii]
  have hport : UrlForm.Plain (ascii "8080") := by simp [UrlForm.Plain, ascii]
  have hne : ascii "localhost" ≠ [] := by simp [ascii]
  exact (preprocesses_iff (f := .hostPortPath _ _ _) ⟨hhost, hne, hport⟩).2 trivial

/-- `127.0.0.1/index.html`, the form in a comment of the code. -/
theorem preprocesses_noPort :
    (UrlForm.hostPath (ascii "127.0.0.1") (ascii "index.html")).WellFormed ∧
      ¬Preprocesses ⟨ascii "127.0.0.1", 80, ⟨[], [], []⟩⟩ httpContentNew
        (.hostPath (ascii "127.0.0.1") (ascii "index.html")) := by
  have hplain : UrlForm.Plain (ascii "127.0.0.1") := by simp [UrlForm.Plain, ascii]
  have hne : ascii "127.0.0.1" ≠ [] := by simp [ascii]
  refine ⟨⟨hplain, hne⟩, ?_⟩
  rw [preprocesses_iff_splitUrl, UrlForm.text, splitUrl_hostPath hplain hne]
  rintro ⟨host, path, hsplit, -⟩
  rw [if_neg (by simp [ascii])] at hsplit
  cases hsplit

end

end Http
end Dukserver
