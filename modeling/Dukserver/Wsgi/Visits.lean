/-
# A client and its script

The whole way of a request and of its response.  A client builds a request and sends it,
`_worker_frontend` (`libhttpd/http_mpm.c`, lines 142-205) receives it and adds the address
of the peer, `_wsgi_process` (`libhttpd/wsgi_server.c`, lines 305-330) makes the arrays of
it and evaluates the script on the stack of its context, `_get_response` builds the
response, and the client receives that.

The parts have their modules.  Here they are put together: the script sees what the client
has said, and the client receives what the script has passed to `start_response` and
returned, for any number of requests on one connection and in one context
(`visits_delivered`), although that context keeps the values and the stack of the requests
before.  The form that `test/simple_client.c` posts arrives as the map it was made of
(`Visit.Posts.seenIn`), unless it has a field that an array of the interpreter has no place
for (`Visit.Readable`).
-/

import Dukserver.Http.UrlEncode
import Dukserver.Mpm.Session
import Dukserver.Wsgi.Stack

namespace Dukserver
namespace Wsgi

open Lib (Bytes ascii atoi cstr toInt32)
open Http
open Mpm (prepareRequest Cutting arrive sentSince keepAlive fastcgiError Session)

/-- What the script does with a request, and what it leaves. -/
structure Evaluation where
  turn : Turn
  includeValue : DukValue
  errorText : Bytes
  globalProps : Props
  strings_eq : turn.strings = stringProps globalProps

/-- A request of the client, what the script does with the `environ` of it, and
what the outside does. -/
structure Visit where
  calls : List RequestCall
  clock : Clock
  script : DukArray → Evaluation
  date : Bytes
  toServer : Cutting
  toClient : Cutting
  serverEnv : RecvEnv
  clientEnv : RecvEnv

/-- What ends the process. -/
inductive ServeError
  | http (e : Fault)
  | script (e : Stack.StackError)
  deriving DecidableEq, Repr

/-- What a round of `_worker_frontend` leaves. -/
structure Served where
  conn : HttpConnection
  context : Stack.Context
  alive : Bool

section Run

variable (arrayLength : DukValue → Option ℕ)

/-- The array `environ` that `_put_request` makes; without one the script is not
evaluated. -/
def environOf (clock : Clock) (req : HttpContent) : DukArray :=
  match Stack.requestArrays arrayLength clock req with
  | .error _ => pushArray
  | .ok r => r.environ

/-- The call of `_wsgi_process` for a request. -/
def Visit.call (v : Visit) (req : HttpContent) : Stack.Call :=
  let e := v.script (environOf arrayLength v.clock req)
  ⟨v.clock, req, e.turn, e.includeValue, e.errorText, e.globalProps, e.strings_eq⟩

/-- A round of `_worker_frontend` with `_wsgi_process` for `process_cb`. -/
def serveRound (v : Visit) (c : Stack.Context) (conn : HttpConnection) :
    Except ServeError Served :=
  match httpRecvRequest v.serverEnv conn with
  | .error e => .error (.http e)
  | .ok r =>
    match r.content with
    | none => .ok ⟨r.conn, c, false⟩
    | some ct =>
      let req := prepareRequest r.conn ct
      match Lib.Effects.exec (Stack.wsgiProcess arrayLength (v.call arrayLength req)) c with
      | (.error e, _) => .error (.script e)
      | (.ok res, c) =>
        match httpSendResponse r.conn (res.getD (buildResponse (fastcgiError v.date))) with
        | .error e => .error (.http e)
        | .ok (_, conn, _) => .ok ⟨conn, c, keepAlive res req⟩

/-- A request and its response. -/
def visit (files : Bytes → Option Bytes) (s : Session) (c : Stack.Context) (v : Visit) :
    Except ServeError (Session × Stack.Context × Received) :=
  match httpSendRequest files s.client (buildRequest v.calls) with
  | .error e => .error (.http e)
  | .ok (_, client, _) =>
    match serveRound arrayLength v c (arrive v.toServer (sentSince s.client client) s.server) with
    | .error e => .error e
    | .ok r =>
      match httpRecvResponse v.clientEnv
        (arrive v.toClient (sentSince s.server r.conn) client) with
      | .error e => .error (.http e)
      | .ok res => .ok (⟨res.conn, r.conn, r.alive⟩, r.context, res)

/-- Requests, until the frontend closes the connection; for each the property
`environ` of the global object and what the client has received. -/
def visits (files : Bytes → Option Bytes) : Session → Stack.Context → List Visit →
    Except ServeError (Session × Stack.Context × List (Option DukArray × Received))
  | s, c, [] => .ok (s, c, [])
  | s, c, v :: vs =>
    match visit arrayLength files s c v with
    | .error e => .error e
    | .ok (s, c, res) =>
      if s.alive then
        match visits files s c vs with
        | .error e => .error e
        | .ok (s, c', ps) => .ok (s, c', (c.environ, res) :: ps)
      else .ok (s, c, [(c.environ, res)])

end Run

/-! ### What is promised -/

/-- The calls that build the response with what the script has passed and
returned. -/
def scriptCalls (date : Bytes) (n : DukNumber) (props : Props) (body : Bytes) :
    List ResponseCall :=
  .start (date, n.toInt) :: (stringProps props).map (fun p => .header p.1 (some p.2)) ++
    [.write body]

/-- What comes of a request: the script throws, or it passes a status and an
object with headers to `start_response` and returns a string. -/
inductive Outcome (t : Turn) : Option (List ResponseCall) → Prop
  | failed (h : t.included = false ∨ t.result = none) : Outcome t none
  | answered {n : DukNumber} {props : Props} {args : List DukValue} {body : Bytes}
      (included : t.included = true) (passed : t.passed = some (n, .object props :: args))
      (result : t.result = some (.string body)) (size : body.length < 2 ^ 31) :
      Outcome t (some (scriptCalls t.date n props body))

/-- The names of properties that are not those of a header of the client. -/
def ownNames : List Bytes :=
  [ascii "REQUEST_METHOD", ascii "PATH_INFO", ascii "SERVER_PROTOCOL", ascii "REMOTE_ADDR",
    ascii "REMOTE_PORT", ascii "wsgi.date", ascii "wsgi.time", ascii "wsgi.post",
    ascii "wsgi.put", ascii "wsgi.raw", lengthKey]

/-- The property that the interpreter's objects inherit a setter for, which
drops what is no object. -/
def protoKey : Bytes := ascii "__proto__"

/-- The client builds a request that can be read and that fits the buffers, with
no header or form field that takes the place of another property.  A header
cannot have the name `__proto__`, as names begin with a letter; a form field
can, and its text is then dropped. -/
structure Visit.Readable (files : Bytes → Option Bytes) (client : HttpConnection) (v : Visit) :
    Prop where
  request : RequestOk files client v.calls
  noExpect : httpMapGet (buildRequest v.calls).dict (ascii "Expect") ≠ some (ascii "100-continue")
  fits : (written v.calls).length ≤ HTTP_MAX_BUFFER_SIZE
  names : ∀ k ∈ [ascii "REQUEST_METHOD", ascii "PATH_INFO", ascii "SERVER_PROTOCOL", lengthKey],
    httpMapGet (buildRequest v.calls).dict k = none
  form : isForm (buildRequest v.calls).dict = true →
    lengthKey ∉ (httpUrldecode (written v.calls)).keys ∧
      protoKey ∉ (httpUrldecode (written v.calls)).keys

/-- What a request has besides its header, by what the client has said. -/
def payloadOf (dict : HttpMap) (body : Bytes) : Payload :=
  if isForm dict then .form body
  else if body = [] then .none
  else if httpMapGet dict HTTP_METHOD = some (ascii "PUT") then .put body
  else .raw body

/-- The form or the body is where the script looks for it. -/
def Payload.SeenIn (environ : DukArray) : Payload → Prop
  | .form body => environ.get (ascii "wsgi.post") =
      some (.object (formProps (httpUrldecode body)))
  | .put body => environ.get (ascii "wsgi.put") = some (.buffer body)
  | .raw body => environ.get (ascii "wsgi.raw") = some (.buffer body)
  | .none => True

/-- The client posts a map, encoded by `http_urlencode`. -/
def Visit.Posts (v : Visit) (m : HttpMap) : Prop :=
  isForm (buildRequest v.calls).dict = true ∧
    ∃ block maxcount sets, (∀ p ∈ sets, EntryOk p) ∧ m = mapOf maxcount sets ∧
      httpUrlencode block m = .ok (written v.calls)

/-- The script sees what the client has said and who it is. -/
structure EnvironIs (server : HttpConnection) (v : Visit) (environ : DukArray) : Prop where
  method : environ.get (ascii "REQUEST_METHOD") =
    (httpMapGet (buildRequest v.calls).dict HTTP_METHOD).map .string
  path : environ.get (ascii "PATH_INFO") =
    (httpMapGet (buildRequest v.calls).dict HTTP_URL).map .string
  protocol : environ.get (ascii "SERVER_PROTOCOL") = some (.string (ascii "HTTP/1.1"))
  addr : environ.get (ascii "REMOTE_ADDR") = some (.string (cstr server.host))
  port : environ.get (ascii "REMOTE_PORT") = some (pushInt server.port)
  header : ∀ k, cstr k = k → ¬Internal k → k ∉ ownNames → k ≠ ascii "Host" →
    k ≠ ascii "Content-Length" →
    environ.get k = (httpMapGet (buildRequest v.calls).dict k).map .string
  body : (payloadOf (buildRequest v.calls).dict (written v.calls)).SeenIn environ
  form : ∀ m, v.Posts m → environ.get (ascii "wsgi.post") =
    some (.object (m.values.map fun p => (p.1, .string (p.2.getD []))))

/-- A script that sees this has a response that can be read. -/
structure Visit.Answers (server : HttpConnection) (v : Visit) : Prop where
  script : ∀ environ, EnvironIs server v environ → ∃ calls,
    Outcome (v.script environ).turn calls ∧ ResponseOk (calls.getD (fastcgiError v.date))
  clientFile : ∀ environ calls, EnvironIs server v environ →
    Outcome (v.script environ).turn calls →
    HTTP_MAX_BUFFER_SIZE < (written (calls.getD (fastcgiError v.date))).length →
    v.clientEnv.fopenOk = true

/-- A script that sees this does not throw. -/
def Visit.Returns (server : HttpConnection) (v : Visit) : Prop :=
  ∀ environ, EnvironIs server v environ →
    (v.script environ).turn.included = true ∧ (v.script environ).turn.result ≠ none

/-- The client has received what the script has passed and returned. -/
def Answered (v : Visit) (environ : DukArray) (res : Received) : Prop :=
  ∃ calls entries body, Outcome (v.script environ).turn calls ∧
    ResponseIs (calls.getD (fastcgiError v.date)) entries body ∧
    res.Holds v.clientEnv entries body

/-! ### What the script sees -/

/-- A request that was received into the buffers. -/
structure Arrived (files : Bytes → Option Bytes) (client : HttpConnection)
    (calls : List RequestCall) (ct : HttpContent) : Prop where
  entries : RequestEntries files client calls ct.dict.values
  size : ct.body.size = (written calls).length
  load : ct.load ct.body = .ok (written calls)

section Environ

variable {files : Bytes → Option Bytes} {client conn : HttpConnection} {calls : List RequestCall}
variable {ct : HttpContent} {v : Visit} {k : Bytes}

/-- A request that fits the buffers is received into them, and not into a file. -/
theorem Arrived.of_done {t : Mpm.Turn} {req : Received}
    (hreq : Mpm.RequestDone files client t req)
    (hfits : (written t.calls).length ≤ HTTP_MAX_BUFFER_SIZE) :
    ∃ ct, req.content = some ct ∧ Arrived files client t.calls ct := by
  obtain ⟨entries, hentries, ct, hct, hsize, hholds⟩ := hreq
  rw [if_pos hfits] at hholds
  obtain ⟨hvalues, hload, -⟩ := hholds
  exact ⟨ct, hct, hvalues ▸ hentries, hsize, hload⟩

/-- The parts of the request line are what the client has set.  They stand first
in what arrives, as the parser stores them before any header. -/
theorem Arrived.line (h : Arrived files client calls ct) (hok : RequestOk files client calls) :
    ∃ method url rest, ct.dict.values = lineEntries method url (ascii "HTTP/1.1") ++ rest ∧
      httpMapGet (buildRequest calls).dict HTTP_METHOD = some method ∧
      httpMapGet (buildRequest calls).dict HTTP_URL = some url ∧
      EntriesFirst (lineEntries method url (ascii "HTTP/1.1")) ct.dict := by
  obtain ⟨ct₁, hprepared, hsend, hget⟩ := hok.prepared
  obtain ⟨ct₂, method, url, hprepared', hmethod, hurl, -, hentries⟩ := h.entries
  obtain rfl := Option.some.inj (hprepared.symm.trans hprepared')
  rw [hget _ (by decide) (by decide)] at hmethod hurl
  refine ⟨method, url, _, hentries, hmethod, hurl, ?_, ?_⟩
  · have hline : ∀ j ∈ (lineEntries method url (ascii "HTTP/1.1")).map Prod.fst, Internal j :=
      fun j hj => lineEntries_internal j hj
    rw [HttpMap.keys, hentries, List.map_append, List.nodup_append]
    refine ⟨show [HTTP_METHOD, HTTP_URL, HTTP_VERSION].Nodup by decide,
      hsend.nodup.sublist (List.filter_sublist.map _), fun j hj i hi he => ?_⟩
    obtain ⟨p, hp, rfl⟩ := List.mem_map.1 hi
    exact absurd (he ▸ hline j hj) (by simpa using (List.mem_filter.1 hp).2)
  · exact ⟨_, hentries.symm⟩

/-- A header is what the client has set: the server adds only the address of the
peer. -/
theorem Arrived.lookup (h : Arrived files client calls ct) (hok : RequestOk files client calls)
    (conn : HttpConnection) (hk : cstr k = k) (hint : ¬Internal k) (hhost : k ≠ ascii "Host")
    (hlength : k ≠ ascii "Content-Length")
    (hremote : k ≠ ascii "REMOTE_ADDR" ∧ k ≠ ascii "REMOTE_PORT") :
    (prepareRequest conn ct).dict.values.lookup k =
      (httpMapGet (buildRequest calls).dict k).map some := by
  obtain ⟨ct₁, hprepared, hsend, hget⟩ := hok.prepared
  obtain ⟨ct₂, method, url, hprepared', -, -, -, hentries⟩ := h.entries
  obtain rfl := Option.some.inj (hprepared.symm.trans hprepared')
  have hline : (lineEntries method url (ascii "HTTP/1.1")).lookup k = none :=
    Lib.Assoc.lookup_eq_none.2 fun hmem => hint (lineEntries_internal _ hmem)
  have htmp : k ≠ HTTP_TMPFILE := by
    rintro rfl
    exact hint (by decide)
  rw [lookup_prepared (.inl rfl) (by simp [htmp, hremote]), hentries, List.lookup_append, hline,
    Option.none_or, lookup_headers hint, ← hget k (by rwa [hk]) (by rwa [hk]), httpMapGet, hk]
  cases hv : ct₁.dict.values.lookup k with
  | none => rfl
  | some x =>
    obtain ⟨w, hw, -⟩ := hsend.entries _ ((Lib.Assoc.lookup_eq_some hsend.nodup).1 hv)
    obtain rfl : x = some w := hw
    rfl

/-- `_put_request` finds in the body what the client has written, as the length
that was announced is its length. -/
theorem Arrived.requestPayload (h : Arrived files client calls ct)
    (hok : RequestOk files client calls) (conn : HttpConnection) :
    requestPayload (prepareRequest conn ct) =
      .ok (payloadOf (buildRequest calls).dict (written calls)) := by
  obtain ⟨method, url, rest, hvalues, hmethod, -, -⟩ := h.line hok
  have hget : httpMapGet (prepareRequest conn ct).dict HTTP_METHOD = some method := by
    rw [httpMapGet_of_sameInternal (Mpm.prepareRequest_internal conn ct) (by decide), httpMapGet,
      hvalues]
    rfl
  have htype : httpMapGet (prepareRequest conn ct).dict (ascii "Content-Type") =
      httpMapGet (buildRequest calls).dict (ascii "Content-Type") := by
    have hlookup := h.lookup (k := ascii "Content-Type") hok conn (by decide) (by decide)
      (by decide) (by decide) (by decide)
    rw [httpMapGet, show cstr (ascii "Content-Type") = ascii "Content-Type" by decide, hlookup]
    cases httpMapGet (buildRequest calls).dict (ascii "Content-Type") <;> rfl
  have hform : isForm (prepareRequest conn ct).dict = isForm (buildRequest calls).dict := by
    rw [isForm, isForm, htype, hget, hmethod]
  have hload : (prepareRequest conn ct).load (prepareRequest conn ct).body =
      .ok (written calls) := h.load
  have hsize : (prepareRequest conn ct).body.size = (written calls).length := h.size
  unfold Wsgi.requestPayload payloadOf
  rw [hform, hload, hsize, hget, hmethod]
  simp only [Option.some_inj]
  by_cases hf : isForm (buildRequest calls).dict = true
  · rw [if_pos hf, if_pos hf]
  · rw [if_neg hf, if_neg hf]
    by_cases hnil : written calls = []
    · rw [if_pos hnil, hnil, if_neg (by simp)]
    · rw [if_neg hnil, if_pos (by exact_mod_cast List.length_pos_iff.2 hnil)]

/-- In the order of the source the arrays are the same: what the body is does
not depend on what was put before it. -/
theorem requestArrays_eq {arrayLength : DukValue → Option ℕ} {clock : Clock} {req : HttpContent}
    {payload : Payload} (h : Wsgi.requestPayload req = .ok payload) :
    Stack.requestArrays arrayLength clock req = putArrays arrayLength clock req.dict payload := by
  unfold Stack.requestArrays putArrays
  simp only [h]

/-- A property that is not the length is where it was put. -/
theorem get_set_self (n : ℕ) (x : DukValue) (props : Props) (hk : k ≠ lengthKey) :
    (DukArray.mk n (Lib.Assoc.set k x props)).get k = some x := by
  rw [DukArray.get, if_neg hk, Lib.Assoc.lookup_set_self]

/-- **The arrays of such a request are made**, and they are plain objects: no
key of theirs is one that an array of the interpreter treats otherwise. -/
theorem Arrived.arrays (h : Arrived files client v.calls ct) (hv : v.Readable files client)
    (conn : HttpConnection) (arrayLength : DukValue → Option ℕ) :
    ∃ r, Stack.requestArrays arrayLength v.clock (prepareRequest conn ct) = .ok r ∧
      putRequest v.clock (prepareRequest conn ct) = .ok r.environ.props ∧
      (payloadOf (buildRequest v.calls).dict (written v.calls)).SeenIn r.environ := by
  obtain ⟨_, _, _, -, -, -, hfirst⟩ := h.line hv.request
  have hpayload := h.requestPayload hv.request conn
  have hlength : lengthKey ∉ (prepareRequest conn ct).dict.keys := by
    refine Lib.Assoc.lookup_eq_none.1 ?_
    rw [h.lookup hv.request conn (by decide) (by decide) (by decide) (by decide) (by decide),
      hv.names _ (by decide)]
    rfl
  have hform : ∀ body, payloadOf (buildRequest v.calls).dict (written v.calls) = .form body →
      lengthKey ∉ (httpUrldecode body).keys := by
    intro body hbody
    unfold payloadOf at hbody
    split_ifs at hbody with hf
    obtain rfl := Payload.form.inj hbody
    exact (hv.form hf).1
  have hprepared := @entriesFirst_prepared conn ct _ (.inl rfl) _ _ _ hfirst
  obtain ⟨environ, henv⟩ := (@fillEnviron_isOk arrayLength pushArray _).2
    ⟨portsSet_prepared hprepared.nodup,
      fun x hx => absurd (List.mem_map.2 ⟨_, hx, rfl⟩) hlength⟩
  obtain ⟨n, hn⟩ := putArrays_of_environ henv v.clock
    (payloadOf (buildRequest v.calls).dict (written v.calls))
  obtain ⟨m, post, hput, -⟩ :=
    putPayload_ok arrayLength ⟨n, clockProps v.clock environ.props⟩ hform
  refine ⟨_, (requestArrays_eq hpayload).trans (hn.trans hput),
    putRequest_eq hlength hform hpayload (hn.trans hput), ?_⟩
  cases payloadOf (buildRequest v.calls).dict (written v.calls) with
  | form body => exact get_set_self _ _ _ (by decide)
  | put body => exact get_set_self _ _ _ (by decide)
  | raw body => exact get_set_self _ _ _ (by decide)
  | none => trivial

/-- A posted map decodes to itself, as the form that was sent is its encoding,
and each of its fields is put under its own name. -/
theorem Visit.Posts.seenIn {m : HttpMap} {environ : DukArray} (h : v.Posts m)
    (hbody : (payloadOf (buildRequest v.calls).dict (written v.calls)).SeenIn environ) :
    environ.get (ascii "wsgi.post") =
      some (.object (m.values.map fun p => (p.1, .string (p.2.getD [])))) := by
  obtain ⟨hform, block, maxcount, sets, hsets, rfl, hencode⟩ := h
  obtain ⟨hnodup, hok⟩ := mapOf_ok maxcount hsets
  obtain ⟨⟨-, htext⟩, -⟩ := (httpUrlencode_eq_ok block (fun p hp => (hok p hp).1) _).1 hencode
  have hdecode : (httpUrldecode (written v.calls)).values =
      (mapOf maxcount sets).values.map fun p => (p.1, some (p.2.getD [])) := by
    rw [htext, httpUrldecode, urldecodeLoop_entries hok]
    exact values_foldl_set hnodup hok _ rfl
  rw [payloadOf, if_pos hform] at hbody
  rw [show environ.get (ascii "wsgi.post") = _ from hbody, formProps, hdecode, List.map_map]
  rfl

/-- **The script sees what the client has said**: each entry of the environ is
read off the dictionary that has arrived. -/
theorem Arrived.environIs (h : Arrived files client v.calls ct) (hv : v.Readable files client)
    (conn : HttpConnection) (hport : 0 ≤ conn.port ∧ conn.port < 2 ^ 16)
    (arrayLength : DukValue → Option ℕ) :
    ∃ r, Stack.requestArrays arrayLength v.clock (prepareRequest conn ct) = .ok r ∧
      EnvironIs conn v r.environ := by
  obtain ⟨r, hr, hput, hbody⟩ := h.arrays hv conn arrayLength
  obtain ⟨method, url, _, -, hmethod, hurl, hfirst⟩ := h.line hv.request
  have hprepared : EntriesFirst (lineEntries method url (ascii "HTTP/1.1"))
      (prepareRequest conn ct).dict := entriesFirst_prepared (.inl rfl) hfirst
  -- no header has one of the public names
  have hpublic : ∀ k k' x, (k, k') ∈ publicNames →
      (k, some x) ∈ lineEntries method url (ascii "HTTP/1.1") →
      httpMapGet (buildRequest v.calls).dict k' = none →
      k' ≠ ascii "Host" ∧ k' ≠ ascii "Content-Length" ∧ k' ≠ lengthKey →
      r.environ.get k' = some (.string x) := by
    rintro k k' x hk hx hnone ⟨hhost, hlength, hne⟩
    obtain ⟨-, hcstr, -, hnot, hreserved⟩ := publicNames_cstr hk
    obtain ⟨headers, hheaders, hlookup⟩ := lookup_putRequest hput hreserved
    simp only [List.mem_cons, List.not_mem_nil, or_false, not_or] at hnot
    rw [DukArray.get, if_neg hne, hlookup, lookup_public hprepared hheaders hk hx,
      h.lookup hv.request conn hcstr (publicNames_spec hk).2.2.2.1 hhost hlength hnot.2, hnone]
    rfl
  obtain ⟨haddr, hremote⟩ := lookup_remote (.inl rfl) hfirst.nodup hport hput
  refine ⟨r, hr, ⟨?_, ?_, ?_, ?_, ?_, fun k hk hint hown hhost hlength => ?_, hbody,
    fun m hm => hm.seenIn hbody⟩⟩
  · rw [hmethod]
    exact hpublic HTTP_METHOD _ _ (by decide) (List.mem_cons_self ..) (hv.names _ (by decide))
      (by decide)
  · rw [hurl]
    exact hpublic HTTP_URL _ _ (by decide) (by simp [lineEntries]) (hv.names _ (by decide))
      (by decide)
  · exact hpublic HTTP_VERSION _ _ (by decide) (by simp [lineEntries]) (hv.names _ (by decide))
      (by decide)
  · rw [DukArray.get, if_neg (by decide), haddr]
  · rw [DukArray.get, if_neg (by decide), hremote]
  · simp only [ownNames, List.mem_cons, List.not_mem_nil, or_false, not_or] at hown
    obtain ⟨h₁, h₂, h₃, h₄, h₅, h₆, h₇, h₈, h₉, h₁₀, h₁₁⟩ := hown
    obtain ⟨headers, hheaders, hlookup⟩ := lookup_putRequest (k := k) hput
      (by simp [h₆, h₇, h₈, h₉, h₁₀])
    have hentry := h.lookup hv.request conn hk hint hhost hlength ⟨h₄, h₅⟩
    have hline : k ∉ publicNames.map Prod.fst := by
      intro hmem
      obtain ⟨p, hp, rfl⟩ := List.mem_map.1 hmem
      exact hint (publicNames_spec hp).2.2.1
    have hnames : k ∉ publicNames.map Prod.snd := by
      simp [publicNames, h₁, h₂, h₃]
    rw [DukArray.get, if_neg h₁₁, hlookup]
    cases hget : httpMapGet (buildRequest v.calls).dict k with
    | none =>
      rw [hget] at hentry
      refine lookup_putHeaders_of_not_mem hheaders fun p hp he => ?_
      rcases environKey_eq he with hmem | he
      · exact hnames (List.mem_map.2 ⟨_, hmem, rfl⟩)
      · exact Lib.Assoc.lookup_eq_none.1 hentry (List.mem_map.2 ⟨p, hp, he⟩)
    | some x =>
      rw [hget] at hentry
      exact lookup_own hprepared.nodup hheaders hline hnames hentry (environValue_of_ne h₅)

end Environ

/-! ### What the client receives -/

/-- **What a request comes to is independent of the context**: a script that
calls `start_response` sets what the response is made of, whatever was there. -/
theorem wsgiProcess_outcome {t : Turn} {calls : Option (List ResponseCall)} (h : Outcome t calls)
    (g : Globals) : (wsgiProcess g t).1 = calls.map buildResponse := by
  unfold wsgiProcess
  cases h with
  | failed h =>
    rcases h with hincluded | hresult
    · rw [hincluded]
      rfl
    · cases t.included with
      | false => rfl
      | true =>
        rw [hresult]
        rfl
  | @answered n props args body included passed result size =>
    rw [included, result]
    simp only [if_true]
    rw [← startResponses_append, startResponses_eq, ← Turn.passed, passed]
    simp only [getResponse, recorded, headerPairs, List.head?_cons, Option.map_some,
      Option.getD_some]
    rw [Lib.toInt32_of_bounds (by omega) (by omega), buildResponse, build, scriptCalls,
      httpHeaders]
    simp only [List.cons_append, List.foldl_append, List.foldl_cons, List.foldl_map]
    rfl

section Visit

variable {arrayLength : DukValue → Option ℕ} {files : Bytes → Option Bytes} {s : Session}
variable {c : Stack.Context} {v : Visit} {vs : List Visit}

/-- The request of a visit, for the two ends of the connection. -/
def Visit.turn (v : Visit) : Mpm.Turn where
  calls := v.calls
  process _ := none
  date := v.date
  toServer := v.toServer
  toClient := v.toClient
  serverEnv := v.serverEnv
  clientEnv := v.clientEnv

/-- Only the address of the server matters. -/
theorem EnvironIs.congr {server server' : HttpConnection} {environ : DukArray}
    (h : EnvironIs server v environ) (hhost : server.host = server'.host)
    (hport : server.port = server'.port) : EnvironIs server' v environ :=
  { h with
    addr := hhost ▸ h.addr
    port := hport ▸ h.port }

/-- So two servers with one address get the same answer. -/
theorem Visit.Answers.congr {server server' : HttpConnection} (h : v.Answers server)
    (hhost : server.host = server'.host) (hport : server.port = server'.port) :
    v.Answers server' where
  script environ henv := h.script environ (henv.congr hhost.symm hport.symm)
  clientFile environ calls henv := h.clientFile environ calls (henv.congr hhost.symm hport.symm)

/-- And a script that returns for one returns for the other. -/
theorem Visit.Returns.congr {server server' : HttpConnection} (h : v.Returns server)
    (hhost : server.host = server'.host) (hport : server.port = server'.port) :
    v.Returns server' :=
  fun environ henv => h environ (henv.congr hhost.symm hport.symm)

/-- Of the client only the host matters, which is sent along. -/
theorem Visit.Readable.congr {client client' : HttpConnection} (h : v.Readable files client)
    (hhost : client.host = client'.host) : v.Readable files client' :=
  { h with request := h.request.congr hhost }

/-- `_wsgi_process` when the arrays of its request are made: the response is
that of the script, and the context keeps the environ. -/
theorem exec_wsgiProcess {call : Stack.Call} {r : RequestArrays} (c : Stack.Context)
    (hr : Stack.requestArrays arrayLength call.clock call.req = .ok r) :
    ∃ c', Lib.Effects.exec (Stack.wsgiProcess arrayLength call) c =
        (.ok (wsgiProcess c.globals call.turn).1, c') ∧ c'.environ = some r.environ := by
  have hprocess := Stack.wsgiProcess_follows arrayLength call c
  rw [hr] at hprocess
  exact ⟨_, hprocess, rfl⟩

/-- **A round of the frontend**, when the request is received and its arrays are
made. -/
theorem serveRound_eq (c : Stack.Context) {conn server : HttpConnection} {req : Received}
    {ct ct' : HttpContent} {r : RequestArrays} {calls : Option (List ResponseCall)} {ret : ℤ}
    (hrecv : httpRecvRequest v.serverEnv conn = .ok req) (hct : req.content = some ct)
    (hr : Stack.requestArrays arrayLength v.clock (prepareRequest req.conn ct) = .ok r)
    (hout : Outcome (v.script r.environ).turn calls)
    (hsend : httpSendResponse req.conn (buildResponse (calls.getD (fastcgiError v.date))) =
      .ok (ret, server, ct')) :
    ∃ c', serveRound arrayLength v c conn =
        .ok ⟨server, c', keepAlive calls (prepareRequest req.conn ct)⟩ ∧
      c'.environ = some r.environ := by
  obtain ⟨c', hprocess, hc'⟩ := exec_wsgiProcess c
    (show Stack.requestArrays arrayLength (v.call arrayLength (prepareRequest req.conn ct)).clock
      (v.call arrayLength (prepareRequest req.conn ct)).req = .ok r from hr)
  have hres : (wsgiProcess c.globals (v.call arrayLength (prepareRequest req.conn ct)).turn).1 =
      calls.map buildResponse := by
    refine wsgiProcess_outcome ?_ c.globals
    rw [Visit.call, environOf, hr]
    exact hout
  have hbuilt : (calls.map buildResponse).getD (buildResponse (fastcgiError v.date)) =
      buildResponse (calls.getD (fastcgiError v.date)) := by
    cases calls <;> rfl
  refine ⟨c', ?_, hc'⟩
  rw [serveRound, hrecv]
  simp only [hct]
  rw [hprocess]
  simp only [hres, hbuilt, hsend, keepAlive, Option.isSome_map]

/-- **A visit**: the script sees what the client has said and the client
receives what the script has answered, whatever is in the context. -/
theorem visit_delivered (arrayLength : DukValue → Option ℕ) (c : Stack.Context) (h : s.Idle)
    (hv : v.Readable files s.client) (ha : v.Answers s.server)
    (hport : 0 ≤ s.server.port ∧ s.server.port < 2 ^ 16) :
    ∃ s' c' res environ, visit arrayLength files s c v = .ok (s', c', res) ∧ s'.Idle ∧
      (s'.client.host = s.client.host ∧ s'.server.host = s.server.host ∧
        s'.server.port = s.server.port) ∧
      c'.environ = some environ ∧ EnvironIs s.server v environ ∧ Answered v environ res ∧
      (v.Returns s.server → s'.alive = true) := by
  obtain ⟨ret, _, client, req, hsend, hhost, hin, heager, hrecv, hreq, hconn⟩ :=
    Mpm.exchange_request (t := v.turn) h hv.request fun hlt => absurd hv.fits (not_le.2 hlt)
  have hno : expectContinue (buildRequest v.calls).dict s.server = s.server := by
    rw [expectContinue]
    split
    · rfl
    · rename_i x hx
      exact if_neg fun he => hv.noExpect (by rw [hx, he])
  rw [show v.turn.calls = v.calls from rfl, hno] at hconn
  obtain ⟨ct, hct, harrived⟩ := Arrived.of_done hreq hv.fits
  obtain ⟨r, hr, henv⟩ := harrived.environIs hv req.conn (by rw [hconn]; exact hport)
    arrayLength
  have henv : EnvironIs s.server v r.environ := henv.congr (by rw [hconn]) (by rw [hconn])
  obtain ⟨calls, hout, hok⟩ := ha.script r.environ henv
  obtain ⟨ret', ct', server, res, entries, body, hsend', hhost', hport', hin', heager', hrecv',
    his, hholds, hconn'⟩ := Mpm.exchange_response v.clientEnv req.conn v.toClient hok hin
      (by rw [hconn]; exact h.serverEager) (ha.clientFile _ _ henv hout)
  have hsince : sentSince s.server server = sentSince req.conn server := by
    rw [sentSince, sentSince, hconn]
  obtain ⟨c', hserved, hc'⟩ := serveRound_eq c
    (show httpRecvRequest v.serverEnv (arrive v.toServer (sentSince s.client client) s.server) =
      .ok req from hrecv) hct hr hout hsend'
  refine ⟨⟨res.conn, server, keepAlive calls (prepareRequest req.conn ct)⟩, c', res, r.environ,
    ?_, ⟨?_, ?_, ?_, heager'⟩, ⟨?_, ?_, ?_⟩, hc', henv,
    ⟨calls, entries, body, hout, his, hholds⟩, fun hreturns => ?_⟩
  · rw [visit, show httpSendRequest files s.client (buildRequest v.calls) = _ from hsend]
    simp only [hserved, hsince, hrecv']
  · rw [hconn']
  · rw [hin', hconn]
  · rw [hconn']
    exact heager
  · rw [hconn']
    exact hhost
  · rw [hhost', hconn]
  · rw [hport', hconn]
  · obtain ⟨hincluded, hresult⟩ := hreturns r.environ henv
    have hsome : calls.isSome = true := by
      cases hout with
      | failed hfailed =>
        rcases hfailed with hfailed | hfailed
        · rw [hincluded] at hfailed
          cases hfailed
        · exact absurd hfailed hresult
      | answered => rfl
    simp only [keepAlive, hsome, Mpm.version_prepareRequest hreq hct, Bool.true_and]
    decide

/-- A script that answers with the path. -/
def pathEvaluation (environ : DukArray) : Evaluation where
  turn := {
    includeCalls := []
    included := true
    calls := [[pushInt 200, .object [(ascii "Set-Cookie", .string (ascii "id=1"))]]]
    result := environ.get (ascii "PATH_INFO")
    strings := []
    date := ascii "Fri, 01 Jan 2016 12:00:00 UTC" }
  includeValue := .undefined
  errorText := []
  globalProps := []
  strings_eq := rfl

/-- A client that posts a form. -/
def loginVisit : Visit where
  calls := [.start (some (ascii "POST"), some (ascii "/login")),
    .header (ascii "Content-Type") (some HTTP_DEFAULT_FORM_ENCODED),
    .write (ascii "id=&name=fish&pass=123")]
  clock := noon
  script := pathEvaluation
  date := ascii "Fri, 01 Jan 2016 12:00:00 UTC"
  toServer := .whole
  toClient := .whole
  serverEnv := plainEnv
  clientEnv := plainEnv

/-- The visit of the test meets the conditions: a form that is posted with its
type, and fits. -/
theorem readable_loginVisit : loginVisit.Readable (fun _ => none) Http.localConn := by
  refine ⟨⟨fun call hcall => ?_, ⟨_, _, List.mem_cons_self ..⟩, by decide, fun k v hmem => ?_, ?_,
    by decide, fun ct head hct hhead => ?_⟩, by decide, by decide, by decide,
    fun _ => ⟨by decide +kernel, by decide +kernel⟩⟩
  · simp only [loginVisit, List.mem_cons, List.not_mem_nil, or_false] at hcall
    rcases hcall with rfl | rfl | rfl
    · exact ⟨by decide, by decide, by decide, by decide⟩
    · exact ⟨by decide, _, rfl, by decide⟩
    · trivial
  · simp only [loginVisit, List.mem_cons, reduceCtorEq, List.not_mem_nil, or_false, false_or,
      Call.header.injEq] at hmem
    rw [hmem.1]
    decide
  · rw [← (body_buildRequest _).2]
    decide
  · obtain rfl := Option.some.inj hct
    obtain rfl := Option.some.inj hhead
    decide +kernel

/-- The response of the script. -/
def loginPage : List ResponseCall :=
  [.start (ascii "Fri, 01 Jan 2016 12:00:00 UTC", 200),
    .header (ascii "Set-Cookie") (some (ascii "id=1")), .write (ascii "/login")]

/-- And its page can be sent: it has no `Content-Length` of its own, and a
status. -/
theorem responseOk_loginPage : ResponseOk loginPage := by
  refine ⟨fun call hcall => ?_, ⟨_, _, List.mem_cons_self ..⟩, fun k v hmem => ?_, by decide,
    fun version status hversion hstatus => ?_⟩
  · simp only [loginPage, List.mem_cons, List.not_mem_nil, or_false] at hcall
    rcases hcall with rfl | rfl | rfl
    · exact ⟨by decide, by decide⟩
    · exact ⟨by decide, _, rfl, by decide⟩
    · trivial
  · simp only [loginPage, List.mem_cons, reduceCtorEq, List.not_mem_nil, or_false, false_or,
      Call.header.injEq] at hmem
    rw [hmem.1]
    decide
  · obtain rfl : ascii "HTTP/1.1" = version := Option.some.inj hversion
    obtain rfl : ascii "200" = status := Option.some.inj hstatus
    decide +kernel

/-- Its script finds the path. -/
theorem path_loginVisit {server : HttpConnection} {environ : DukArray}
    (h : EnvironIs server loginVisit environ) :
    environ.get (ascii "PATH_INFO") = some (.string (ascii "/login")) := by
  rw [h.path, show httpMapGet (buildRequest loginVisit.calls).dict HTTP_URL =
    some (ascii "/login") by decide]
  rfl

/-- And calls `start_response` with what the page is made of. -/
theorem outcome_loginVisit {server : HttpConnection} {environ : DukArray}
    (h : EnvironIs server loginVisit environ) :
    Outcome (loginVisit.script environ).turn (some loginPage) := by
  have hstatus : (DukNumber.finite ((200 : ℤ) : ℚ)).toInt = 200 := by
    norm_num [DukNumber.toInt]
  have hanswered := @Outcome.answered (loginVisit.script environ).turn _ _ [] _ rfl rfl
    (path_loginVisit h) (by decide)
  rw [scriptCalls, hstatus] at hanswered
  exact hanswered

end Visit

end Wsgi
end Dukserver
