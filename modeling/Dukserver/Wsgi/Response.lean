/-
# The response of a request

`libhttpd/wsgi_server.c`, `_start_response` (lines 74-95), `_get_response` (lines
195-258) and `_wsgi_process` (lines 305-330).  What the script passes to
`start_response` is kept in two properties of the global object until
`_get_response` reads them, and nothing ever removes them.  A request that does
not call `start_response` is therefore answered with the status and the headers
of an earlier one (`serve_stale`).

`_start_response` pushes the global object on its own stack frame and counts it
as an argument.  With a status alone, index 1 is the global object, and its
strings become headers.

`serve_own` says when the responses are right: every request that is answered
calls `start_response` with two arguments, or there is nothing to take by
mistake.
-/

import Dukserver.Http.Response
import Dukserver.Wsgi.Duk
import Mathlib.Data.List.Forall2

namespace Dukserver
namespace Wsgi

open Lib (Bytes ascii toInt32)
open Http

/-- A value on the stack frame of `_start_response`. -/
inductive FrameValue
  | value (v : DukValue)
  | globalObject

/-- `duk_is_object`. -/
def FrameValue.isObject : FrameValue → Bool
  | .value (.object _) => true
  | .value _ => false
  | .globalObject => true

/-- The properties `VARNAME_STATUS` and `VARNAME_HEADERS` of the global object,
`none` being undefined. -/
structure Globals where
  status : Option DukNumber
  headers : Option FrameValue

/-- `_start_response`: whether it returns, or throws; and the global object. -/
def startResponse (args : List DukValue) (g : Globals) : Bool × Globals :=
  let frame := args.map FrameValue.value ++ [.globalObject]
  match frame.head? with
  | some (.value (.number n)) =>
    let g := { g with status := some n }
    if 1 < frame.length then
      if frame.getLast?.any FrameValue.isObject then (true, { g with headers := frame[1]? })
      else (false, g)
    else (true, g)
  | _ => (false, g)

/-- The strings among the properties of an object. -/
def stringProps (props : Props) : List (Bytes × Bytes) :=
  props.filterMap fun p => match p.2 with
    | .string v => some (p.1, v)
    | _ => none

/-- The headers that `_get_response` takes from the second property, `none` if
that is no object.  `strings` are those of the global object itself. -/
def headerPairs (strings : List (Bytes × Bytes)) : Option FrameValue → Option (List (Bytes × Bytes))
  | some .globalObject => some strings
  | some (.value (.object props)) => some (stringProps props)
  | _ => none

/-- What the script does with one request: its calls of `start_response` while
it is included, and whether that returns; the calls of `application`, and what
it returns, `none` being an error; the strings it leaves in the global object;
and the time.  An object among the arguments has the properties that it has in
the end. -/
structure Turn where
  includeCalls : List (List DukValue)
  included : Bool
  calls : List (List DukValue)
  result : Option DukValue
  strings : List (Bytes × Bytes)
  date : Bytes

/-- `_get_response` with the result of `application` on top of the stack. -/
def getResponse (t : Turn) (g : Globals) (top : DukValue) : Option HttpContent :=
  match g.status with
  | none => none
  | some statusCode =>
    let res := httpStartResponse t.date httpContentNew statusCode.toInt
    match headerPairs t.strings g.headers with
    | none => none
    | some headers =>
      let res := httpHeaders res headers
      match top with
      | .string body => some (httpWrite res body (toInt32 body.length))
      | _ => some res

/-- Some calls of `start_response`; a call that throws may be caught. -/
def startResponses (calls : List (List DukValue)) (g : Globals) : Globals :=
  calls.foldl (fun g args => (startResponse args g).2) g

/-- `_wsgi_process`: the response, `none` being `NULL`, and the global object. -/
def wsgiProcess (g : Globals) (t : Turn) : Option HttpContent × Globals :=
  let g := startResponses t.includeCalls g
  if t.included then
    let g := startResponses t.calls g
    match t.result with
    | none => (none, g)
    | some top => (getResponse t g top, g)
  else (none, g)

/-- The responses to a sequence of requests in one context. -/
def serve : Globals → List Turn → List (Option HttpContent)
  | _, [] => []
  | g, t :: ts => (wsgiProcess g t).1 :: serve (wsgiProcess g t).2 ts

/-! ### What was passed -/

/-- The status and the further arguments of a call that is accepted. -/
def acceptedCall : List DukValue → Option (DukNumber × List DukValue)
  | .number n :: args => some (n, args)
  | _ => none

/-- The last accepted one of some calls. -/
def lastAccepted (calls : List (List DukValue)) : Option (DukNumber × List DukValue) :=
  (calls.filterMap acceptedCall).getLast?

/-- What was passed to `start_response` during the request. -/
def Turn.passed (t : Turn) : Option (DukNumber × List DukValue) :=
  lastAccepted (t.includeCalls ++ t.calls)

/-- The headers among the arguments. -/
def passedHeaders : List DukValue → List (Bytes × Bytes)
  | .object props :: _ => stringProps props
  | _ => []

/-- A response has the status and the headers that were passed during the
request. -/
def Own (t : Turn) (res : Option HttpContent) : Prop :=
  ∀ ct, res = some ct → ∃ n args, t.passed = some (n, args) ∧
    ct.dict = (httpHeaders (httpStartResponse t.date httpContentNew n.toInt)
      (passedHeaders args)).dict

/-- The request gets no response, or the headers were passed with the status; or
what is taken instead is empty: with a status alone, the strings of the global
object; without a call, what earlier requests have left. -/
def TurnOk (g : Globals) (t : Turn) : Prop :=
  t.included = true → t.result ≠ none →
    match t.passed with
    | some (_, []) => t.strings = []
    | some (_, _ :: _) => True
    | none => g.status = none ∨ headerPairs t.strings g.headers = none

/-- Every request of the run is like that, in the state that it finds. -/
def RunOk : Globals → List Turn → Prop
  | _, [] => True
  | g, t :: ts => TurnOk g t ∧ RunOk (wsgiProcess g t).2 ts

section Process

variable {g : Globals} {t : Turn} {n : DukNumber} {args : List DukValue}
variable {calls : List (List DukValue)}

/-- What an accepted call leaves: index 1 is its second argument, or the global
object. -/
def recorded (n : DukNumber) (args : List DukValue) : Globals :=
  ⟨some n, some ((args.head?.map FrameValue.value).getD .globalObject)⟩

/-- A call with a number is recorded: behind it there is always an object, the
global one at the least. -/
theorem startResponse_number : startResponse (.number n :: args) g = (true, recorded n args) := by
  have hlast : ((FrameValue.value (.number n) ::
      (args.map FrameValue.value ++ [.globalObject])).getLast?).any FrameValue.isObject = true := by
    rw [← List.cons_append, List.getLast?_append]
    rfl
  have hlen : 1 < (FrameValue.value (.number n) ::
      (args.map FrameValue.value ++ [.globalObject])).length := by
    simp
  unfold startResponse
  simp only [List.map_cons, List.cons_append, List.head?_cons]
  rw [if_pos hlen, if_pos hlast, recorded]
  cases args with
  | nil => rfl
  | cons v args => rfl

/-- Any other call changes nothing.  The script gets `false` and the globals
stay, those of an earlier request as well. -/
theorem startResponse_of_not (h : acceptedCall args = none) :
    startResponse args g = (false, g) := by
  unfold startResponse
  cases args with
  | nil => rfl
  | cons v args =>
    cases v with
    | number n => cases h
    | _ => rfl

/-- Calls are made one after the other. -/
theorem startResponses_append (calls calls' : List (List DukValue)) (g : Globals) :
    startResponses (calls ++ calls') g = startResponses calls' (startResponses calls g) :=
  List.foldl_append

/-- **The last accepted call is what the global object holds**, or else what it
held before. -/
theorem startResponses_eq (calls : List (List DukValue)) (g : Globals) :
    startResponses calls g =
      match lastAccepted calls with
      | some (n, args) => recorded n args
      | none => g := by
  induction calls using List.reverseRecOn with
  | nil => rfl
  | append_singleton calls args ih =>
    unfold lastAccepted at ih ⊢
    rw [startResponses_append, ih, startResponses, List.foldl_cons, List.foldl_nil,
      List.filterMap_append]
    cases hargs : acceptedCall args with
    | none =>
      rw [startResponse_of_not hargs, List.filterMap_cons, hargs]
      simp
    | some p =>
      obtain ⟨n, rest⟩ := p
      obtain rfl : args = .number n :: rest := by
        unfold acceptedCall at hargs
        split at hargs
        · obtain ⟨rfl, rfl⟩ := Prod.mk.inj (Option.some.inj hargs)
          rfl
        · cases hargs
      rw [startResponse_number, List.filterMap_cons, hargs]
      simp

/-- A response is built from the two properties: without a number as the status
or an object as the headers there is none. -/
theorem getResponse_eq_some {top : DukValue} {ct : HttpContent}
    (h : getResponse t g top = some ct) :
    ∃ n headers, g.status = some n ∧ headerPairs t.strings g.headers = some headers ∧
      ct.dict = (httpHeaders (httpStartResponse t.date httpContentNew n.toInt) headers).dict := by
  unfold getResponse at h
  cases hstatus : g.status with
  | none =>
    rw [hstatus] at h
    cases h
  | some n =>
    cases hheaders : headerPairs t.strings g.headers with
    | none =>
      rw [hstatus, hheaders] at h
      cases h
    | some headers =>
      rw [hstatus, hheaders] at h
      refine ⟨n, headers, rfl, rfl, ?_⟩
      simp only at h
      split at h
      · obtain rfl := Option.some.inj h
        exact httpWrite_dict ..
      · obtain rfl := Option.some.inj h
        rfl

/-- There is a response only if the script was run to its end: the `include` and
then the application, whose result is its body. -/
theorem wsgiProcess_eq_some {ct : HttpContent} (h : (wsgiProcess g t).1 = some ct) :
    t.included = true ∧ ∃ top, t.result = some top ∧
      getResponse t (startResponses (t.includeCalls ++ t.calls) g) top = some ct := by
  unfold wsgiProcess at h
  cases hincluded : t.included with
  | false =>
    rw [hincluded] at h
    cases h
  | true =>
    cases hresult : t.result with
    | none =>
      rw [hincluded, hresult] at h
      cases h
    | some top =>
      rw [hincluded, hresult] at h
      refine ⟨rfl, top, rfl, ?_⟩
      rw [startResponses_append]
      exact h

/-- **One request**: its response is made of its own call, or nothing that was
there can be taken by mistake. -/
theorem wsgiProcess_own (h : TurnOk g t) : Own t (wsgiProcess g t).1 := by
  intro ct hct
  obtain ⟨hincluded, top, hresult, hct⟩ := wsgiProcess_eq_some hct
  obtain ⟨n, headers, hstatus, hheaders, hdict⟩ := getResponse_eq_some hct
  have hok := h hincluded (by rw [hresult]; exact Option.some_ne_none top)
  rw [startResponses_eq, ← Turn.passed] at hstatus hheaders
  cases hpassed : t.passed with
  | none =>
    rw [hpassed] at hok hstatus hheaders
    rcases hok with hnone | hnone
    · exact absurd (hnone.symm.trans hstatus) (by simp)
    · exact absurd (hnone.symm.trans hheaders) (by simp)
  | some p =>
    obtain ⟨m, args⟩ := p
    rw [hpassed] at hok hstatus hheaders
    obtain rfl : m = n := Option.some.inj hstatus
    refine ⟨m, args, rfl, ?_⟩
    rw [hdict]
    cases args with
    | nil =>
      obtain rfl : t.strings = headers := Option.some.inj hheaders
      rw [show t.strings = [] from hok]
      rfl
    | cons v args =>
      cases v with
      | object props =>
        obtain rfl : stringProps props = headers := Option.some.inj hheaders
        rfl
      | _ => cases hheaders

/-- **The responses of a run have the status and the headers of their own
request**, whatever came before, if each request that is answered passes both to
`start_response`, or there is nothing to take instead. -/
theorem serve_own {ts : List Turn} (h : RunOk g ts) : List.Forall₂ Own ts (serve g ts) := by
  induction ts generalizing g with
  | nil => exact .nil
  | cons t ts ih => exact .cons (wsgiProcess_own h.1) (ih h.2)

/-- The global object of a new context. -/
def newGlobals : Globals := ⟨none, none⟩

/-- A request that is answered with a redirect and a cookie. -/
def redirectTurn : Turn where
  includeCalls := []
  included := true
  calls := [[pushInt 302, .object [(ascii "Set-Cookie", .string (ascii "id=1"))]]]
  result := some (.string [])
  strings := [(ascii "__file__", ascii "app.js")]
  date := ascii "Fri, 01 Jan 2016 12:00:00 UTC"

/-- A request that is answered without a call of `start_response`. -/
def silentTurn : Turn := { redirectTurn with calls := [], result := some (.string (ascii "hello")) }

/-- The hypothesis is satisfiable: one that fails, one that says nothing, and
one that is answered. -/
theorem serve_own_three :
    List.Forall₂ Own [{ redirectTurn with calls := [[]], result := none }, silentTurn, redirectTurn]
      (serve newGlobals
        [{ redirectTurn with calls := [[]], result := none }, silentTurn, redirectTurn]) :=
  serve_own ⟨fun _ h => absurd rfl h, fun _ _ => .inl rfl, fun _ _ => trivial, trivial⟩

/-- The second response has the status and the cookie of the first request. -/
theorem serve_stale :
    (serve newGlobals [redirectTurn, silentTurn]).map (fun res => res.map fun ct =>
      (httpMapGet ct.dict HTTP_STATUS, httpMapGet ct.dict (ascii "Set-Cookie"))) =
        [some (some (ascii "302"), some (ascii "id=1")),
          some (some (ascii "302"), some (ascii "id=1"))] ∧
      ¬List.Forall₂ Own [redirectTurn, silentTurn]
        (serve newGlobals [redirectTurn, silentTurn]) := by
  refine ⟨by decide, fun h => ?_⟩
  rcases h with _ | ⟨-, _ | ⟨hown, -⟩⟩
  obtain ⟨n, args, hpassed, -⟩ := hown _ rfl
  cases hpassed

end Process

end Wsgi
end Dukserver
