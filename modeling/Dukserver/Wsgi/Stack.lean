/-
# The value stack of a context

`libhttpd/wsgi_server.c`, `_put_request` (lines 97-193), `_get_response` (lines 195-258)
and `_wsgi_process` (lines 305-330), as sequences of calls of the Duktape interface.
`Dukserver.Wsgi.Arrays` and `Dukserver.Wsgi.Response` say what the three compute; here is
what they do to the stack on the way, which one context keeps from request to request.

The functions compute the same on the stack (`wsgiProcess_follows`), but they do not clean
up.  What `include` leaves is popped only where it fails, so every other request leaves a
value behind, and the early ends of `_get_response` leave two more (`leftBehind`).
-/

import Dukserver.Lib.Effects
import Dukserver.Wsgi.Arrays
import Dukserver.Wsgi.Response

namespace Dukserver
namespace Wsgi
namespace Stack

open Lib (Bytes ascii toInt32)
open Lib.Effects
open Http

/-- A value on the stack. -/
inductive StackValue
  | value (v : DukValue)
  | globalObject
  | array (a : DukArray)
  | enumerator

/-- What ends a call of the interface early. -/
inductive StackError
  /-- The stack is not what the call is meant for. -/
  | misuse
  /-- The value cannot be put. -/
  | put (e : PutError)
  deriving DecidableEq, Repr

/-- A context: its stack, the top first, and the properties of the global
object. -/
structure Context where
  stack : List StackValue
  globals : Globals
  environ : Option DukArray

/-- Calls of the interface. -/
abbrev DukProg := Prog StackError Context

/-! ### The interface -/

/-- `duk_push_*`. -/
def dukPush (v : StackValue) : DukProg PUnit := modify fun c => { c with stack := v :: c.stack }

/-- `duk_pop`. -/
def dukPop : DukProg PUnit := do
  let c ← get
  match c.stack with
  | _ :: stack => set { c with stack := stack }
  | [] => throw .misuse

/-- What is on top. -/
def dukTop : DukProg StackValue := do
  let c ← get
  match c.stack with
  | v :: _ => pure v
  | [] => throw .misuse

/-- `duk_get_prop_string` on the global object, for one of the properties that
`_start_response` sets. -/
def dukGetPropString (property : Globals → StackValue) : DukProg PUnit := do
  let c ← get
  match c.stack with
  | .globalObject :: _ => dukPush (property c.globals)
  | _ => throw .misuse

/-- `duk_put_prop_string` of `environ` on the global object. -/
def dukPutEnviron : DukProg PUnit := do
  let c ← get
  match c.stack with
  | .array environ :: .globalObject :: stack =>
    set { c with stack := .globalObject :: stack, environ := some environ }
  | _ => throw .misuse

section

variable (arrayLength : DukValue → Option ℕ)

/-- `duk_put_prop` on an array, with the key and the value on top of it. -/
def dukPutProp : DukProg PUnit := do
  let c ← get
  match c.stack with
  | .value v :: .value (.string k) :: .array a :: stack =>
    match a.put arrayLength k v with
    | .ok a => set { c with stack := .array a :: stack }
    | .error e => throw (.put e)
  | _ => throw .misuse

/-- `duk_put_prop_string` of an array on an array. -/
def dukPutArray (k : Bytes) : DukProg PUnit := do
  let c ← get
  match c.stack with
  | .array b :: .array a :: stack =>
    match a.put arrayLength k (.object b.props) with
    | .ok a => set { c with stack := .array a :: stack }
    | .error e => throw (.put e)
  | _ => throw .misuse

/-! ### `_put_request` -/

/-- A key and a value are pushed and put. -/
def putPair (k : Bytes) (v : DukValue) : DukProg PUnit := do
  dukPush (.value (.string k))
  dukPush (.value v)
  dukPutProp arrayLength

/-- A pass of the loop over the dictionary. -/
def putEntry (p : Bytes × Option Bytes) : DukProg PUnit :=
  match environValue p.1 p.2 with
  | .error e => throw (.put (.fault e))
  | .ok value => putPair arrayLength (environKey p.1) value

/-- The form or the body. -/
def putPayload : Payload → DukProg PUnit
  | .form body => do
    dukPush (.array pushArray)
    (httpUrldecode body).values.foldlM
      (fun _ p => putPair arrayLength p.1 (pushString p.2)) ⟨⟩
    dukPutArray arrayLength (ascii "wsgi.post")
  | .put body => putPair arrayLength (ascii "wsgi.put") (.buffer body)
  | .raw body => putPair arrayLength (ascii "wsgi.raw") (.buffer body)
  | .none => pure ⟨⟩

/-- `_put_request`. -/
def putRequest (clock : Clock) (req : HttpContent) : DukProg PUnit := do
  dukPush .globalObject
  dukPush (.array pushArray)
  req.dict.values.foldlM (fun _ p => putEntry arrayLength p) ⟨⟩
  putPair arrayLength (ascii "wsgi.date") (.string clock.date)
  putPair arrayLength (ascii "wsgi.time") (.string clock.time)
  match requestPayload req with
  | .error e => throw (.put (.fault e))
  | .ok payload => putPayload arrayLength payload
  dukPutEnviron
  dukPop

end

/-! ### `_get_response` -/

/-- The property `VARNAME_STATUS`. -/
def statusValue (g : Globals) : StackValue :=
  .value ((g.status.map DukValue.number).getD .undefined)

/-- The property `VARNAME_HEADERS`. -/
def headersValue (g : Globals) : StackValue :=
  match g.headers with
  | none => .value .undefined
  | some (.value v) => .value v
  | some .globalObject => .globalObject

/-- The properties that `duk_enum` goes through, `none` if the value is no
object. -/
def enumerated (globalProps : Props) : StackValue → Option Props
  | .value (.object props) => some props
  | .globalObject => some globalProps
  | _ => none

/-- A pass of the loop over the headers: `duk_next` has pushed the key, which is
always a string, and the value. -/
def headerPass (res : HttpContent) (p : Bytes × DukValue) : DukProg HttpContent := do
  dukPush (.value (.string p.1))
  dukPush (.value p.2)
  match ← dukTop with
  | .value (.string v) => do
    dukPop
    dukPop
    pure (httpHeader res p.1 (some v))
  | _ => do
    dukPop
    dukPop
    pure res

/-- The headers and the body of a response, with the object of the headers on
top, the global object and what the application has returned. -/
def fillResponse (res : HttpContent) (passes : Props) : DukProg HttpContent := do
  dukPush .enumerator
  let res ← passes.foldlM headerPass res
  dukPop
  dukPop
  dukPop
  let c ← get
  match c.stack with
  | .value (.string body) :: _ =>
    pure (if 0 < body.length then httpWrite res body (toInt32 body.length) else res)
  | _ => pure res

/-- `_get_response`.  `date` is the current time, printed, and `globalProps` are
the properties of the global object. -/
def getResponse (date : Bytes) (globalProps : Props) : DukProg (Option HttpContent) := do
  dukPush .globalObject
  dukGetPropString statusValue
  match ← dukTop with
  | .value (.number statusCode) => do
    dukPop
    let res := httpStartResponse date httpContentNew statusCode.toInt
    dukGetPropString headersValue
    let headers ← dukTop
    match enumerated globalProps headers with
    | none => pure none
    | some passes => do
      let res ← fillResponse res passes
      pure (some res)
  | .value .undefined => pure none
  | _ => throw .misuse

/-! ### `_wsgi_process` -/

/-- A request with what the script does, what its evaluation leaves on the
stack, and the properties of the global object in the end. -/
structure Call where
  clock : Clock
  req : HttpContent
  turn : Turn
  includeValue : DukValue
  errorText : Bytes
  globalProps : Props
  strings_eq : turn.strings = stringProps globalProps

/-- `pylib_eval_string` leaves the result or the text of the error, and reports
which; the script has called `start_response` meanwhile. -/
def evalString (calls : List (List DukValue)) (ok : Bool) (v : DukValue) : DukProg Bool := do
  modify fun c => { c with globals := startResponses calls c.globals }
  dukPush (.value v)
  pure ok

/-- `_wsgi_process`. -/
def wsgiProcess (arrayLength : DukValue → Option ℕ) (call : Call) :
    DukProg (Option HttpContent) := do
  putRequest arrayLength call.clock call.req
  let ok ← evalString call.turn.includeCalls call.turn.included call.includeValue
  if !ok then do
    dukPop
    pure none
  else do
    let ok ← evalString call.turn.calls call.turn.result.isSome
      (call.turn.result.getD (.string call.errorText))
    if !ok then do
      dukPop
      pure none
    else do
      let res ← getResponse call.turn.date call.globalProps
      dukPop
      pure res

/-- The arrays of a request, in the order of the source. -/
def requestArrays (arrayLength : DukValue → Option ℕ) (clock : Clock) (req : HttpContent) :
    Except PutError RequestArrays := do
  let environ ← fillEnviron arrayLength req.dict.values pushArray
  let environ ← environ.put arrayLength (ascii "wsgi.date") (.string clock.date)
  let environ ← environ.put arrayLength (ascii "wsgi.time") (.string clock.time)
  match requestPayload req with
  | .error e => .error (.fault e)
  | .ok payload => Wsgi.putPayload arrayLength environ payload

/-- The call of `_put_request` returns. -/
def Call.returns (arrayLength : DukValue → Option ℕ) (call : Call) : Bool :=
  (requestArrays arrayLength call.clock call.req).isOk

/-- What `_get_response` leaves on the stack: the property that made it end
early and the global object. -/
def unread (g : Globals) (globalProps : Props) : List StackValue :=
  match g.status, enumerated globalProps (headersValue g) with
  | none, _ => [statusValue g, .globalObject]
  | some _, none => [headersValue g, .globalObject]
  | some _, some _ => []

/-- What a call of `_wsgi_process` leaves on the stack. -/
def leftBehind (call : Call) (g : Globals) : List StackValue :=
  if call.turn.included then
    match call.turn.result with
    | none => [.value call.includeValue]
    | some v => List.tail
      (unread (startResponses (call.turn.includeCalls ++ call.turn.calls) g) call.globalProps ++
        [.value v, .value call.includeValue])
  else []

/-! ### What they compute -/

section Follow

variable {arrayLength : DukValue → Option ℕ} {s : List StackValue} {g : Globals}
  {e : Option DukArray}

/-- A push puts its value on top. -/
theorem exec_dukPush (v : StackValue) :
    exec (dukPush v) ⟨s, g, e⟩ = (.ok ⟨⟩, ⟨v :: s, g, e⟩) := rfl

/-- A pop takes the value on top away. -/
theorem exec_dukPop (v : StackValue) :
    exec dukPop ⟨v :: s, g, e⟩ = (.ok ⟨⟩, ⟨s, g, e⟩) := rfl

/-- Looking at the top changes nothing. -/
theorem exec_dukTop (v : StackValue) :
    exec dukTop ⟨v :: s, g, e⟩ = (.ok v, ⟨v :: s, g, e⟩) := rfl

/-- A property of the global object is pushed above it, and the object stays. -/
theorem exec_dukGetPropString (property : Globals → StackValue) :
    exec (dukGetPropString property) ⟨.globalObject :: s, g, e⟩ =
      (.ok ⟨⟩, ⟨property g :: .globalObject :: s, g, e⟩) := rfl

/-- What the interface does with a put. -/
def setPut (put : Except PutError DukArray) (set' : DukArray → Context) : DukProg PUnit :=
  match put with
  | .ok a => set (set' a)
  | .error e => throw (.put e)

/-- A put either is stored or ends the request, as on the array alone. -/
theorem setPut_follows (put : Except PutError DukArray) (set' : DukArray → Context) (c : Context) :
    Follows .put (setPut put set') c put fun a => (⟨⟩, set' a) := by
  cases put with
  | ok a => exact follows_ok rfl
  | error e => exact ⟨_, rfl⟩

/-- Pushing and putting a pair is a put: the value is taken off by it. -/
theorem putPair_follows (k : Bytes) (v : DukValue) (a : DukArray) :
    Follows .put (putPair arrayLength k v) ⟨.array a :: s, g, e⟩ (a.put arrayLength k v)
      fun a' => (⟨⟩, ⟨.array a' :: s, g, e⟩) :=
  Follows.congr rfl (setPut_follows _ _ ⟨.value v :: .value (.string k) :: .array a :: s, g, e⟩)

/-- An entry of the dictionary is put under its name in the environ.  Where its
value cannot be read, the process ends there. -/
theorem putEntry_follows (p : Bytes × Option Bytes) (a : DukArray) :
    Follows .put (putEntry arrayLength p) ⟨.array a :: s, g, e⟩
      (match environValue p.1 p.2 with
        | .error err => .error (.fault err)
        | .ok value => a.put arrayLength (environKey p.1) value)
      fun a' => (⟨⟩, ⟨.array a' :: s, g, e⟩) := by
  unfold putEntry
  cases environValue p.1 p.2 with
  | error err => exact ⟨_, rfl⟩
  | ok value => exact putPair_follows (environKey p.1) value a

/-- An array that is complete is put into the one below it, and taken off. -/
theorem putArray_follows (k : Bytes) (b a : DukArray) :
    Follows .put (dukPutArray arrayLength k) ⟨.array b :: .array a :: s, g, e⟩
      (a.put arrayLength k (.object b.props)) fun a' => (⟨⟩, ⟨.array a' :: s, g, e⟩) :=
  Follows.congr rfl (setPut_follows _ _ ⟨.array b :: .array a :: s, g, e⟩)

/-- **The loop over the dictionary** puts entry by entry, with the array on top
before and behind each. -/
theorem fillEnviron_follows (entries : List (Bytes × Option Bytes)) (a : DukArray) :
    Follows .put (entries.foldlM (fun _ p => putEntry arrayLength p) ⟨⟩)
      ⟨.array a :: s, g, e⟩ (fillEnviron arrayLength entries a)
      fun a' => (⟨⟩, ⟨.array a' :: s, g, e⟩) :=
  Follows.foldlM (fun a : DukArray => (⟨.array a :: s, g, e⟩ : Context)) putEntry_follows entries a

/-- **The loop over the decoded form**, in the same way. -/
theorem fillPost_follows (entries : List (Bytes × Option Bytes)) (a : DukArray) :
    Follows .put (entries.foldlM (fun _ p => putPair arrayLength p.1 (pushString p.2)) ⟨⟩)
      ⟨.array a :: s, g, e⟩ (fillPost arrayLength entries a)
      fun a' => (⟨⟩, ⟨.array a' :: s, g, e⟩) :=
  Follows.foldlM (fun a : DukArray => (⟨.array a :: s, g, e⟩ : Context))
    (fun p post => putPair_follows p.1 (pushString p.2) post) entries a

/-- The form or the body: a second array is filled above the first, or a string
is put. -/
theorem putPayload_follows (payload : Payload) (a : DukArray) :
    Follows .put (putPayload arrayLength payload) ⟨.array a :: s, g, e⟩
      (Wsgi.putPayload arrayLength a payload)
      fun r => (⟨⟩, ⟨.array r.environ :: s, g, e⟩) := by
  cases payload with
  | form body =>
    refine Follows.step rfl ((fillPost_follows _ pushArray).seq fun post _ => ?_)
    exact Follows.map (fun environ : DukArray => (⟨environ, some post⟩ : RequestArrays))
      (putArray_follows _ post a)
  | put body =>
    exact Follows.map (fun environ : DukArray => (⟨environ, none⟩ : RequestArrays))
      (putPair_follows _ (.buffer body) a)
  | raw body =>
    exact Follows.map (fun environ : DukArray => (⟨environ, none⟩ : RequestArrays))
      (putPair_follows _ (.buffer body) a)
  | none => exact follows_ok rfl

/-- **`_put_request` leaves the stack as it was**, and its arrays in the global
object: every push has its pop or its put. -/
theorem putRequest_follows (clock : Clock) (req : HttpContent) :
    Follows .put (putRequest arrayLength clock req) ⟨s, g, e⟩
      (requestArrays arrayLength clock req) fun r => (⟨⟩, ⟨s, g, some r.environ⟩) := by
  refine Follows.step rfl (Follows.step rfl ?_)
  refine (fillEnviron_follows req.dict.values pushArray).seq fun a₁ _ => ?_
  refine (putPair_follows _ _ a₁).seq fun a₂ _ => ?_
  refine (putPair_follows _ _ a₂).seq fun a₃ _ => ?_
  cases requestPayload req with
  | error err => exact ⟨_, rfl⟩
  | ok payload => exact (putPayload_follows payload a₃).finish fun r => rfl

/-- A pass of the loop over the headers: a value that is no string is left out. -/
theorem exec_headerPass (c : Context) (res : HttpContent) (p : Bytes × DukValue) :
    exec (headerPass res p) c = (.ok (match p.2 with
      | .string v => httpHeader res p.1 (some v)
      | _ => res), c) := by
  obtain ⟨k, v⟩ := p
  cases v <;> rfl

/-- The loop sets the headers of the string properties, in their order.  Each
pass pushes a key and a value and pops both. -/
theorem exec_headerLoop (c : Context) (res : HttpContent) (passes : Props) :
    exec (passes.foldlM headerPass res) c = (.ok (httpHeaders res (stringProps passes)), c) := by
  induction passes generalizing res with
  | nil => rfl
  | cons p passes ih =>
    rw [List.foldlM_cons, exec_bind_ok (exec_headerPass c res p), ih]
    obtain ⟨k, v⟩ := p
    cases v <;> rfl

/-- What is enumerated are the properties of the object that the script has
passed as headers, or of the global object if that was passed, or nothing if it
was none. -/
theorem map_stringProps_enumerated (g : Globals) (props : Props) :
    (enumerated props (headersValue g)).map stringProps =
      headerPairs (stringProps props) g.headers := by
  unfold headersValue
  rcases g.headers with _ | ⟨v⟩ | _
  · rfl
  · cases v <;> rfl
  · rfl

/-- A body without a byte is not written, which is as good as writing it.
Writing nothing leaves the buffer and the sizes as they are. -/
theorem httpWrite_of_pos (res : HttpContent) (body : Bytes) :
    (if 0 < body.length then httpWrite res body (toInt32 body.length) else res) =
      httpWrite res body (toInt32 body.length) := by
  split_ifs with hpos
  · rfl
  · rw [Nat.eq_zero_of_not_pos hpos]
    exact (if_pos (by decide)).symm

/-- The rest of `_get_response`, once the headers are found: what was pushed for
them is popped, and the body is what the script has returned. -/
theorem exec_fillResponse (res : HttpContent) (passes : Props) (v : StackValue) (top : DukValue) :
    exec (fillResponse res passes) ⟨v :: .globalObject :: .value top :: s, g, e⟩ =
      (.ok (match top with
        | .string body =>
          httpWrite (httpHeaders res (stringProps passes)) body (toInt32 body.length)
        | _ => httpHeaders res (stringProps passes)), ⟨.value top :: s, g, e⟩) := by
  unfold fillResponse
  rw [exec_bind_ok (exec_dukPush _), exec_bind_ok (exec_headerLoop _ res passes)]
  cases top with
  | string body =>
    simp only
    rw [← httpWrite_of_pos]
    rfl
  | _ => rfl

/-- **`_get_response` on the stack** computes what `Wsgi.getResponse` says.  Its
early ends leave on the stack what they had pushed. -/
theorem exec_getResponse (t : Turn) {props : Props} (hprops : t.strings = stringProps props)
    (top : DukValue) :
    exec (getResponse t.date props) ⟨.value top :: s, g, e⟩ =
      (.ok (Wsgi.getResponse t g top), ⟨unread g props ++ .value top :: s, g, e⟩) := by
  have hpairs := map_stringProps_enumerated g props
  rw [← hprops] at hpairs
  unfold Wsgi.getResponse unread
  rw [← hpairs]
  obtain ⟨_ | n, headers⟩ := g
  · rfl
  · unfold getResponse
    rw [exec_bind_ok (exec_dukPush _), exec_bind_ok (exec_dukGetPropString _),
      exec_bind_ok (exec_dukTop _)]
    simp only [statusValue, Option.map_some, Option.getD_some]
    rw [exec_bind_ok (exec_dukPop _), exec_bind_ok (exec_dukGetPropString _),
      exec_bind_ok (exec_dukTop _)]
    cases enumerated props (headersValue ⟨some n, headers⟩) with
    | none => rfl
    | some passes =>
      simp only
      rw [exec_bind_ok (exec_fillResponse _ _ _ _)]
      cases top <;> rfl

/-- A script leaves its value on the stack and its calls of `start_response` in
the globals. -/
theorem exec_evalString (calls : List (List DukValue)) (ok : Bool) (v : DukValue) :
    exec (evalString calls ok v) ⟨s, g, e⟩ =
      (.ok ok, ⟨.value v :: s, startResponses calls g, e⟩) := rfl

/-- **`_wsgi_process` on the stack** computes what `Wsgi.wsgiProcess` says, if
`_put_request` returns, and leaves something behind. -/
theorem wsgiProcess_follows (arrayLength : DukValue → Option ℕ) (call : Call) (c : Context) :
    Follows .put (wsgiProcess arrayLength call) c
      (requestArrays arrayLength call.clock call.req)
      fun r => ((Wsgi.wsgiProcess c.globals call.turn).1,
        ⟨leftBehind call c.globals ++ c.stack, (Wsgi.wsgiProcess c.globals call.turn).2,
          some r.environ⟩) := by
  refine (putRequest_follows call.clock call.req).finish fun r => ?_
  unfold leftBehind Wsgi.wsgiProcess
  rw [exec_bind_ok (exec_evalString _ _ _)]
  cases call.turn.included with
  | false => rfl
  | true =>
    simp only [Bool.not_true, Bool.false_eq_true, if_false, if_true]
    rw [exec_bind_ok (exec_evalString _ _ _)]
    cases call.turn.result with
    | none => rfl
    | some v =>
      simp only [Option.isSome_some, Bool.not_true, Bool.false_eq_true, if_false,
        Option.getD_some]
      rw [exec_bind_ok (exec_getResponse call.turn call.strings_eq v), startResponses_append]
      rcases unread _ call.globalProps with _ | ⟨x, xs⟩
      · rfl
      · rw [List.cons_append, exec_bind_ok (exec_dukPop x), List.cons_append, List.tail_cons,
          List.append_assoc]
        rfl

/-- Only a request whose `include` fails leaves nothing: it is popped there and
nowhere else. -/
theorem leftBehind_length (call : Call) (g : Globals) :
    (leftBehind call g).length = 0 ↔ call.turn.included = false := by
  unfold leftBehind
  cases call.turn.included with
  | false => exact iff_of_true rfl rfl
  | true =>
    refine iff_of_false ?_ Bool.noConfusion
    cases call.turn.result with
    | none => exact Nat.one_ne_zero
    | some v =>
      simp only [if_true, List.length_tail, List.length_append, List.length_cons,
        List.length_nil]
      omega

end Follow

/-! ### Runs -/

section Run

variable (arrayLength : DukValue → Option ℕ)

/-- Each call of `_wsgi_process` that returns leaves the stack at the height it
had, and none misuses it. -/
def EachBalanced : List Call → Context → Prop
  | [], _ => True
  | call :: calls, c => Post (wsgiProcess arrayLength call) c
      (fun _ c' => c'.stack.length = c.stack.length ∧ EachBalanced calls c')
      fun err _ => err ≠ .misuse

/-- **Every call of a run is balanced exactly if every `include` fails**, up to
the first call that does not return. -/
theorem eachBalanced_iff (calls : List Call) (c : Context) :
    EachBalanced arrayLength calls c ↔
      ∀ call ∈ calls.takeWhile (Call.returns arrayLength), call.turn.included = false := by
  induction calls generalizing c with
  | nil => exact iff_of_true trivial fun call hcall => by cases hcall
  | cons call calls ih =>
    have hcall := wsgiProcess_follows arrayLength call c
    cases hr : requestArrays arrayLength call.clock call.req with
    | error err =>
      have hreturns : ¬call.returns arrayLength = true := by
        rw [Call.returns, hr]
        exact Bool.noConfusion
      rw [hr] at hcall
      obtain ⟨t, ht⟩ := hcall
      rw [List.takeWhile_cons_of_neg hreturns]
      refine iff_of_true (post_of_exec_error ht StackError.noConfusion) fun call hcall => ?_
      cases hcall
    | ok r =>
      have hreturns : call.returns arrayLength = true := by
        rw [Call.returns, hr]
        rfl
      rw [hr] at hcall
      rw [EachBalanced, post_iff_of_exec_ok hcall, ih, List.length_append, Nat.add_eq_right,
        leftBehind_length, List.takeWhile_cons_of_pos hreturns, List.forall_mem_cons]

end Run

/-- A request that is answered with a redirect. -/
def redirectCall : Call where
  clock := noon
  req := { httpContentNew with
    dict := httpMapSet (httpMapSet (httpMapSet (httpMapNew 9) HTTP_METHOD (some (ascii "GET")))
      HTTP_URL (some (ascii "/"))) HTTP_VERSION (some (ascii "HTTP/1.1")) }
  turn := redirectTurn
  includeValue := .undefined
  errorText := []
  globalProps := [(ascii "__file__", .string (ascii "app.js"))]
  strings_eq := rfl

/-- A new context. -/
def newContext : Context := ⟨[], newGlobals, none⟩

/-- The answered request leaves the value of `include` on the stack, which
nothing pops where the script has returned. -/
theorem redirectCall_leaves :
    Ends (wsgiProcess decimalLength redirectCall) newContext
        (fun res c => res.isSome = true ∧ c.stack = [.value .undefined]) ∧
      ¬EachBalanced decimalLength [redirectCall] newContext := by
  have hcall := wsgiProcess_follows decimalLength redirectCall newContext
  have hreturns : redirectCall.returns decimalLength = true := by decide +kernel
  unfold Call.returns at hreturns
  cases hr : requestArrays decimalLength redirectCall.clock redirectCall.req with
  | error err =>
    rw [hr] at hreturns
    cases hreturns
  | ok r =>
    rw [hr] at hcall
    refine ⟨⟨_, _, hcall, rfl, rfl⟩, fun hbalanced => ?_⟩
    rw [EachBalanced, post_iff_of_exec_ok hcall, List.length_append] at hbalanced
    exact absurd (Nat.add_eq_right.1 hbalanced.1) Nat.one_ne_zero

end Stack
end Wsgi
end Dukserver
