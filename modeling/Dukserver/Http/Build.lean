/-
# Contents built by calls

A program builds a content by calls of `http_start_request` or
`http_start_response`, `http_header` and `http_write` on a fresh one, in any order
and number (`libhttpd/http_sendrecv.c`, lines 549-625).  The calls of
`http_write` append to the body buffer and the others do not touch it, so it
holds what was written, in call order (`written_build`).
-/

import Dukserver.Http.Response

namespace Dukserver
namespace Http

open Lib (Bytes ascii cstr)

/-- A call on a content; `σ` are the arguments of `http_start_…`.  A call of
`http_write` is given by the bytes it is to append. -/
inductive Call (σ : Type)
  | start (a : σ)
  | header (key : Bytes) (value : Option Bytes)
  | write (data : Bytes)
  deriving DecidableEq, Repr

variable {σ : Type}

/-- What a call does. -/
def Call.apply (start : HttpContent → σ → HttpContent) (ct : HttpContent) : Call σ → HttpContent
  | .start a => start ct a
  | .header key value => httpHeader ct key value
  | .write data => httpWrite ct data data.length

/-- The content after the calls. -/
def build (start : HttpContent → σ → HttpContent) (calls : List (Call σ)) : HttpContent :=
  calls.foldl (Call.apply start) httpContentNew

/-- What a call writes. -/
def Call.data : Call σ → Bytes
  | .start _ => []
  | .header _ _ => []
  | .write data => data

/-- What the calls of `http_write` write, in call order. -/
def written (calls : List (Call σ)) : Bytes := (calls.map Call.data).flatten

/-- The body buffer holds these bytes and no others. -/
structure Written (ct : HttpContent) (data : Bytes) : Prop where
  buf : ct.bodybuf.buf = data
  size : ct.bodybuf.size = data.length

section Build

variable {start : HttpContent → σ → HttpContent} {calls : List (Call σ)} {ct : HttpContent}
  {data : Bytes}

/-- A further call is made on what the others have built. -/
theorem build_append (calls : List (Call σ)) (call : Call σ) :
    build start (calls ++ [call]) = call.apply start (build start calls) := by
  rw [build, List.foldl_append]
  rfl

/-- And what it writes comes behind what they have written. -/
theorem written_append (calls : List (Call σ)) (call : Call σ) :
    written (calls ++ [call]) = written calls ++ call.data := by
  simp [written]

/-- **What holds of a fresh content and is kept by each call holds of every
built content.** -/
theorem build_induction {P : HttpContent → Prop} (hnew : P httpContentNew)
    (hcall : ∀ ct, ∀ call ∈ calls, P ct → P (call.apply start ct)) : P (build start calls) := by
  induction calls using List.reverseRecOn with
  | nil => exact hnew
  | append_singleton calls call ih =>
    rw [build_append]
    exact hcall _ _ (by simp) (ih fun ct c hc => hcall ct c (List.mem_append_left _ hc))

/-- What a call brings about and every call keeps holds of a content built with
it. -/
theorem build_of_mem {P : HttpContent → Prop} {call : Call σ} (hmem : call ∈ calls)
    (hset : ∀ ct, P (call.apply start ct)) (hkeep : ∀ ct c, P ct → P (Call.apply start ct c)) :
    P (build start calls) := by
  induction calls using List.reverseRecOn with
  | nil => exact absurd hmem List.not_mem_nil
  | append_singleton calls c ih =>
    rw [build_append]
    rcases List.mem_append.1 hmem with hmem | hmem
    · exact hkeep _ _ (ih hmem)
    · rw [← List.mem_singleton.1 hmem]
      exact hset _

/-- A call of `http_write` appends.  The length that it is given is that of its
argument, so it takes all of that. -/
theorem Written.write {more : Bytes} (h : Written ct data) :
    Written (httpWrite ct more more.length) (data ++ more) := by
  rw [httpWrite]
  split_ifs with hle
  · obtain rfl : more = [] := List.length_eq_zero_iff.1 (by omega)
    rwa [List.append_nil]
  · constructor
    · simp [HttpBuffer.writeAt, h.buf, h.size]
    · simp [h.size]

/-- The body is all that was written, once something was. -/
theorem body_httpWrite (h : Written ct data) {more : Bytes} (hne : more ≠ []) :
    (httpWrite ct more more.length).body = ⟨.bodybuf 0, (data ++ more).length⟩ := by
  have hpos := List.length_pos_iff.2 hne
  rw [httpWrite, if_neg (by omega)]
  simp [h.size]

/-- **The body buffer of a built content holds what was written**, call by call. -/
theorem written_build (hstart : ∀ ct a, (start ct a).bodybuf = ct.bodybuf)
    (calls : List (Call σ)) : Written (build start calls) (written calls) := by
  induction calls using List.reverseRecOn with
  | nil => exact ⟨rfl, rfl⟩
  | append_singleton calls call ih =>
    rw [build_append, written_append]
    cases call with
    | start a =>
      rw [Call.apply, Call.data, List.append_nil]
      exact ⟨by rw [hstart, ih.buf], by rw [hstart, ih.size]⟩
    | header key value =>
      rw [Call.data, List.append_nil]
      exact ⟨ih.buf, ih.size⟩
    | write data => exact ih.write

/-- The keys of a built content are distinct.  Every call goes through
`http_map_set`, which replaces the value of a key that is there. -/
theorem nodup_keys_build (hstart : ∀ ct a, ct.dict.keys.Nodup → (start ct a).dict.keys.Nodup) :
    (build start calls).dict.keys.Nodup := by
  refine build_induction (P := fun ct => ct.dict.keys.Nodup) List.nodup_nil
    fun ct call _ hct => ?_
  cases call with
  | start a => exact hstart ct a hct
  | header key value => exact nodup_keys_httpMapSet hct
  | write data =>
    rw [Call.apply, httpWrite_dict]
    exact hct

end Build

/-- All that was written is the body. -/
structure BodyWritten (ct : HttpContent) (data : Bytes) : Prop extends Written ct data where
  body : ct.body = ⟨.bodybuf 0, data.length⟩ ∨ ct.body.size = 0 ∧ data = []

section Body

variable {ct : HttpContent} {data : Bytes}

/-- The size of the body is that of what was written. -/
theorem BodyWritten.size_eq (h : BodyWritten ct data) : ct.body.size = data.length := by
  rcases h.body with hbody | ⟨hsize, hdata⟩
  · rw [hbody]
  · rw [hsize, hdata]
    rfl

/-- The body is read without a fault. -/
theorem BodyWritten.load (h : BodyWritten ct data) : ct.load ct.body = .ok data := by
  by_cases hdata : data = []
  · rw [HttpContent.load, if_pos (by rw [h.size_eq, hdata]; rfl), hdata]
  · have hbody := h.body.resolve_right fun hnil => hdata hnil.2
    rw [HttpContent.load_bodybuf hbody (List.length_pos_iff.2 hdata), h.buf, if_pos le_rfl,
      List.take_length]

/-- It stays so when more is written.  A body that was `NULL` refers to the
buffer from the first byte on. -/
theorem BodyWritten.write (h : BodyWritten ct data) (more : Bytes) :
    BodyWritten (httpWrite ct more more.length) (data ++ more) := by
  refine ⟨h.toWritten.write, ?_⟩
  by_cases hmore : more = []
  · subst hmore
    rw [List.append_nil]
    exact h.body
  · exact .inl (body_httpWrite h.toWritten hmore)

end Body

/-- Calls that build a response: `http_start_response` with the time it prints
and its status. -/
abbrev ResponseCall := Call (Bytes × ℤ)

/-- The response that the calls build. -/
def buildResponse (calls : List ResponseCall) : HttpContent :=
  build (fun ct a => httpStartResponse a.1 ct a.2) calls

/-- **The body of a response is what was written**, as its start does not touch
it. -/
theorem bodyWritten_buildResponse (calls : List ResponseCall) :
    BodyWritten (buildResponse calls) (written calls) := by
  induction calls using List.reverseRecOn with
  | nil => exact ⟨⟨rfl, rfl⟩, .inr ⟨rfl, rfl⟩⟩
  | append_singleton calls call ih =>
    rw [buildResponse, build_append, written_append]
    rcases call with ⟨date, status⟩ | ⟨key, value⟩ | data
    · rw [Call.data, List.append_nil]
      exact ⟨⟨ih.buf, ih.size⟩, ih.body⟩
    · rw [Call.data, List.append_nil]
      exact ⟨⟨ih.buf, ih.size⟩, ih.body⟩
    · exact ih.write data

/-- The keys of a built response are distinct. -/
theorem nodup_keys_buildResponse (calls : List ResponseCall) :
    (buildResponse calls).dict.keys.Nodup :=
  nodup_keys_build fun _ _ h => nodup_keys_httpMapSet (nodup_keys_httpMapSet
    (nodup_keys_httpMapSet (nodup_keys_httpMapSet (nodup_keys_httpMapSet h))))

end Http
end Dukserver
