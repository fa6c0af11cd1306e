/-
# The arrays of a request

`libhttpd/wsgi_server.c`, `_put_request` (lines 97-192).  `environ` and `wsgi.post` are
made with `duk_push_array`, and the names of headers and of form fields become names of
their properties.  An array has one property that is no place for a value: what is put
under `length` is converted to a number, which resizes the array, and a value that is no
array length raises a `RangeError`.  `_put_request` runs outside of every protected call.

So a form with a field `length` never arrives, and one header of that name can end the
process (`arraysFilled_iff`).  Without the name the arrays hold what plain objects would
hold (`putRequest_eq`), which is how `Dukserver.Wsgi.PutRequest` has them.
-/

import Dukserver.Lib.Outcome
import Dukserver.Wsgi.PutRequest

namespace Dukserver
namespace Wsgi

open Lib (Bytes ascii atoi cstr sprintfD decimalValue)
open Http

/-- An array of the script: its length and its other properties. -/
structure DukArray where
  length : ℕ
  props : Props

/-- `duk_push_array`. -/
def pushArray : DukArray := ⟨0, []⟩

/-- The name of the property that is the length. -/
def lengthKey : Bytes := ascii "length"

/-- The index that a property name is: a number below `2 ^ 32 - 1` in its
decimal form. -/
def arrayIndex (k : Bytes) : Option ℕ :=
  let n := decimalValue k
  if sprintfD n = k ∧ n < 2 ^ 32 - 1 then some n else none

/-- A property of an array. -/
def DukArray.get (a : DukArray) (k : Bytes) : Option DukValue :=
  if k = lengthKey then some (pushInt a.length) else a.props.lookup k

/-- What ends `_put_request` early. -/
inductive PutError
  /-- The script engine raises an error outside of a protected call. -/
  | rangeError
  /-- The C code does something that has no meaning. -/
  | fault (f : Fault)
  deriving DecidableEq, Repr

section

variable (arrayLength : DukValue → Option ℕ)

/-- `duk_put_prop` on an array; `arrayLength` is the array length that a value
is.  Properties that an array inherits are left out: what is put under a name is
stored under it, although the setter that `Object.prototype` of the vendored
interpreter has for `__proto__` would drop a string. -/
def DukArray.put (a : DukArray) (k : Bytes) (v : DukValue) : Except PutError DukArray :=
  if k = lengthKey then
    match arrayLength v with
    | none => .error .rangeError
    | some n => .ok ⟨n, a.props.filter fun p => (arrayIndex p.1).all (· < n)⟩
  else
    .ok ⟨match arrayIndex k with
      | some i => max a.length (i + 1)
      | none => a.length, Lib.Assoc.set k v a.props⟩

/-- The loop over the dictionary. -/
def fillEnviron (entries : List (Bytes × Option Bytes)) (environ : DukArray) :
    Except PutError DukArray :=
  entries.foldlM (fun environ p =>
    match environValue p.1 p.2 with
    | .error e => .error (.fault e)
    | .ok value => environ.put arrayLength (environKey p.1) value) environ

/-- The loop over the decoded form. -/
def fillPost (entries : List (Bytes × Option Bytes)) (post : DukArray) :
    Except PutError DukArray :=
  entries.foldlM (fun post p => post.put arrayLength p.1 (pushString p.2)) post

/-- What there is besides the header. -/
inductive Payload
  | form (body : Bytes)
  | put (body : Bytes)
  | raw (body : Bytes)
  | none
  deriving DecidableEq, Repr

/-- The two arrays. -/
structure RequestArrays where
  environ : DukArray
  post : Option DukArray

/-- The end of `_put_request`: the form or the body. -/
def putPayload (environ : DukArray) : Payload → Except PutError RequestArrays
  | .form body => do
    let post ← fillPost arrayLength (httpUrldecode body).values pushArray
    let environ ← environ.put arrayLength (ascii "wsgi.post") (.object post.props)
    .ok ⟨environ, some post⟩
  | .put body => do
    let environ ← environ.put arrayLength (ascii "wsgi.put") (.buffer body)
    .ok ⟨environ, none⟩
  | .raw body => do
    let environ ← environ.put arrayLength (ascii "wsgi.raw") (.buffer body)
    .ok ⟨environ, none⟩
  | .none => .ok ⟨environ, none⟩

/-- The part of `_put_request` that fills the arrays. -/
def putArrays (clock : Clock) (dict : HttpMap) (payload : Payload) :
    Except PutError RequestArrays := do
  let environ ← fillEnviron arrayLength dict.values pushArray
  let environ ← environ.put arrayLength (ascii "wsgi.date") (.string clock.date)
  let environ ← environ.put arrayLength (ascii "wsgi.time") (.string clock.time)
  putPayload arrayLength environ payload

/-- What `_put_request` finds in the body. -/
def requestPayload (req : HttpContent) : Except Fault Payload :=
  if isForm req.dict then
    match req.load req.body with
    | .error e => .error e
    | .ok body => .ok (.form body)
  else if 0 < req.body.size then
    match httpMapGet req.dict HTTP_METHOD with
    | none => .error .nullPointer
    | some method =>
      match req.load req.body with
      | .error e => .error e
      | .ok body => .ok (if method = ascii "PUT" then .put body else .raw body)
  else .ok .none

/-- No error is raised, and the array of a form has all of its pairs. -/
def ArraysFilled (clock : Clock) (dict : HttpMap) (payload : Payload) : Prop :=
  ∃ r, putArrays arrayLength clock dict payload = .ok r ∧ ∀ body, payload = .form body →
    ∃ post, r.post = some post ∧
      ∀ k v, (k, v) ∈ (httpUrldecode body).values → post.get k = some (pushString v)

end

section Fill

variable {arrayLength : DukValue → Option ℕ} {a a' : DukArray} {k : Bytes} {v : DukValue}
  {entries : List (Bytes × Option Bytes)}

/-- Under every other name a value is stored. -/
theorem put_of_ne (arrayLength : DukValue → Option ℕ) (a : DukArray) (v : DukValue)
    (hk : k ≠ lengthKey) : ∃ n, a.put arrayLength k v = .ok ⟨n, Lib.Assoc.set k v a.props⟩ :=
  ⟨_, if_neg hk⟩

/-- **When a put succeeds**: the name `length` needs a value that is an array
length. -/
theorem put_isOk : (∃ a', a.put arrayLength k v = .ok a') ↔
    (k = lengthKey → arrayLength v ≠ none) := by
  by_cases hk : k = lengthKey
  · rw [DukArray.put, if_pos hk]
    cases arrayLength v with
    | none => exact iff_of_false (by rintro ⟨a', ha'⟩; cases ha') fun h => h hk rfl
    | some n => exact iff_of_true ⟨_, rfl⟩ fun _ => Option.some_ne_none n
  · obtain ⟨n, hn⟩ := put_of_ne arrayLength a v hk
    exact iff_of_true ⟨_, hn⟩ fun h => absurd h hk

/-- Only an entry of that name is put under it.  None of the public names is
`length`. -/
theorem environKey_eq_lengthKey : environKey k = lengthKey ↔ k = lengthKey := by
  constructor
  · intro h
    refine (environKey_eq h).resolve_left fun hmem => ?_
    have hpublic : lengthKey ∉ publicNames.map Prod.snd := by decide
    exact hpublic (List.mem_map.2 ⟨_, hmem, rfl⟩)
  · rintro rfl
    rfl

/-- An entry is put if it is no port without value and no length that is none.
The two fail in different ways, a fault and an error. -/
theorem putEntry_isOk {p : Bytes × Option Bytes} :
    (∃ a', (match environValue p.1 p.2 with
      | .error e => .error (.fault e)
      | .ok value => a.put arrayLength (environKey p.1) value : Except PutError DukArray) =
        .ok a') ↔
      p ≠ (ascii "REMOTE_PORT", none) ∧
        (p.1 = lengthKey → arrayLength (pushString p.2) ≠ none) := by
  obtain ⟨k, v⟩ := p
  by_cases hk : k = ascii "REMOTE_PORT"
  · subst hk
    have hne : environKey (ascii "REMOTE_PORT") ≠ lengthKey := by decide
    cases v with
    | none => exact iff_of_false (by rintro ⟨a', ha'⟩; cases ha') fun h => h.1 rfl
    | some v =>
      obtain ⟨n, hn⟩ := put_of_ne arrayLength a (pushInt (atoi v)) hne
      exact iff_of_true ⟨_, hn⟩ ⟨by simp, fun h => absurd h hne⟩
  · rw [environValue_of_ne hk]
    simp only
    rw [put_isOk, environKey_eq_lengthKey]
    exact ⟨fun h => ⟨fun he => hk (Prod.mk.inj he).1, h⟩, fun h => h.2⟩

/-- **The dictionary is copied without an error** exactly if each port has a
value and each entry `length` is an array length. -/
theorem fillEnviron_isOk : (∃ a', fillEnviron arrayLength entries a = .ok a') ↔
    PortsSet entries ∧ ∀ v, (lengthKey, v) ∈ entries → arrayLength (pushString v) ≠ none := by
  rw [fillEnviron, Lib.foldlM_isOk fun b p => putEntry_isOk]
  constructor
  · intro h
    exact ⟨fun hmem => (h _ hmem).1 rfl, fun v hmem => (h _ hmem).2 rfl⟩
  · rintro ⟨hports, hlength⟩ ⟨k, v⟩ hmem
    refine ⟨fun he => hports (he ▸ hmem), ?_⟩
    rintro rfl
    exact hlength v hmem

/-- Without a field `length` the array of a form holds what is put into it, one
property for each name. -/
theorem fillPost_of_not_mem (arrayLength : DukValue → Option ℕ) (a : DukArray)
    (h : lengthKey ∉ entries.map Prod.fst) :
    ∃ n, fillPost arrayLength entries a =
      .ok ⟨n, (entries.map fun p => (p.1, pushString p.2)).foldl
        (fun props p => Lib.Assoc.set p.1 p.2 props) a.props⟩ := by
  induction entries generalizing a with
  | nil => exact ⟨a.length, rfl⟩
  | cons p entries ih =>
    rw [List.map_cons, List.mem_cons, not_or] at h
    obtain ⟨n, hn⟩ := put_of_ne arrayLength a (pushString p.2) (Ne.symm h.1)
    obtain ⟨m, hm⟩ := ih ⟨n, Lib.Assoc.set p.1 (pushString p.2) a.props⟩ h.2
    refine ⟨m, ?_⟩
    rw [fillPost, List.foldlM_cons, hn, Lib.ok_bind]
    exact hm

/-- The names of a decoded form are distinct, so its array has all of its pairs.
A second put under a name would replace the value of the first. -/
theorem fillPost_httpUrldecode (arrayLength : DukValue → Option ℕ) {body : Bytes}
    (h : lengthKey ∉ (httpUrldecode body).keys) :
    ∃ n, fillPost arrayLength (httpUrldecode body).values pushArray =
      .ok ⟨n, formProps (httpUrldecode body)⟩ := by
  obtain ⟨n, hn⟩ := fillPost_of_not_mem arrayLength pushArray h
  refine ⟨n, hn.trans ?_⟩
  have hkeys : ((formProps (httpUrldecode body)).map Prod.fst).Nodup := by
    rw [formProps, List.map_map]
    exact nodup_keys_httpUrldecode body
  rw [← formProps, show (pushArray.props : Props) = [] from rfl,
    Lib.Assoc.foldl_set_of_nodup (by rwa [List.nil_append]), List.nil_append]

/-- And each of them is found under its name. -/
theorem lookup_formProps {body : Bytes} {w : Option Bytes}
    (h : (k, w) ∈ (httpUrldecode body).values) :
    (formProps (httpUrldecode body)).lookup k = some (pushString w) := by
  have hkeys : ((formProps (httpUrldecode body)).map Prod.fst).Nodup := by
    rw [formProps, List.map_map]
    exact nodup_keys_httpUrldecode body
  rw [Lib.Assoc.lookup_eq_some hkeys, formProps, List.mem_map]
  exact ⟨(k, w), h, rfl⟩

/-- The clock. -/
def clockProps (clock : Clock) (environ : Props) : Props :=
  Lib.Assoc.set (ascii "wsgi.time") (.string clock.time)
    (Lib.Assoc.set (ascii "wsgi.date") (.string clock.date) environ)

/-- The clock is put without an error.  Its two names are no array index and not
`length`. -/
theorem putArrays_of_environ {dict : HttpMap}
    (h : fillEnviron arrayLength dict.values pushArray = .ok a) (clock : Clock)
    (payload : Payload) : ∃ n, putArrays arrayLength clock dict payload =
      putPayload arrayLength ⟨n, clockProps clock a.props⟩ payload := by
  obtain ⟨n, hn⟩ := put_of_ne arrayLength a (.string clock.date)
    (show ascii "wsgi.date" ≠ lengthKey by decide)
  obtain ⟨m, hm⟩ := put_of_ne arrayLength
    ⟨n, Lib.Assoc.set (ascii "wsgi.date") (.string clock.date) a.props⟩ (.string clock.time)
    (show ascii "wsgi.time" ≠ lengthKey by decide)
  refine ⟨m, ?_⟩
  rw [putArrays, h, Lib.ok_bind, hn, Lib.ok_bind, hm, Lib.ok_bind]
  rfl

/-- The form or the body. -/
def payloadProps : Payload → Props → Props
  | .form body, environ =>
    Lib.Assoc.set (ascii "wsgi.post") (.object (formProps (httpUrldecode body))) environ
  | .put body, environ => Lib.Assoc.set (ascii "wsgi.put") (.buffer body) environ
  | .raw body, environ => Lib.Assoc.set (ascii "wsgi.raw") (.buffer body) environ
  | .none, environ => environ

/-- A form without a field `length` and every other body are put without an
error. -/
theorem putPayload_ok (arrayLength : DukValue → Option ℕ) (a : DukArray) {payload : Payload}
    (h : ∀ body, payload = .form body → lengthKey ∉ (httpUrldecode body).keys) :
    ∃ n post, putPayload arrayLength a payload =
        .ok ⟨⟨n, payloadProps payload a.props⟩, post⟩ ∧
      ∀ body, payload = .form body →
        ∃ m, post = some ⟨m, formProps (httpUrldecode body)⟩ := by
  cases payload with
  | form body =>
    obtain ⟨m, hm⟩ := fillPost_httpUrldecode arrayLength (h body rfl)
    obtain ⟨n, hn⟩ := put_of_ne arrayLength a (.object (formProps (httpUrldecode body)))
      (show ascii "wsgi.post" ≠ lengthKey by decide)
    refine ⟨n, some ⟨m, formProps (httpUrldecode body)⟩, ?_, fun body' hbody' => ?_⟩
    · rw [putPayload, hm, Lib.ok_bind, hn]
      rfl
    · rw [Payload.form.inj hbody']
      exact ⟨m, rfl⟩
  | put body =>
    obtain ⟨n, hn⟩ := put_of_ne arrayLength a (.buffer body)
      (show ascii "wsgi.put" ≠ lengthKey by decide)
    refine ⟨n, none, ?_, fun body' hbody' => by cases hbody'⟩
    rw [putPayload, hn]
    rfl
  | raw body =>
    obtain ⟨n, hn⟩ := put_of_ne arrayLength a (.buffer body)
      (show ascii "wsgi.raw" ≠ lengthKey by decide)
    refine ⟨n, none, ?_, fun body' hbody' => by cases hbody'⟩
    rw [putPayload, hn]
    rfl
  | none => exact ⟨a.length, none, rfl, fun body' hbody' => by cases hbody'⟩

/-- **The arrays of every request are filled exactly if** each port has a value,
each header `length` is an array length, and no field of a form has that name. -/
theorem arraysFilled_iff (arrayLength : DukValue → Option ℕ) (clock : Clock) (dict : HttpMap)
    (payload : Payload) :
    ArraysFilled arrayLength clock dict payload ↔
      PortsSet dict.values ∧
      (∀ v, (lengthKey, v) ∈ dict.values → arrayLength (pushString v) ≠ none) ∧
      ∀ body, payload = .form body → lengthKey ∉ (httpUrldecode body).keys := by
  constructor
  · rintro ⟨r, hr, hpost⟩
    obtain ⟨environ, henv, -⟩ := Lib.bind_eq_ok.1 hr
    obtain ⟨hports, hlength⟩ := fillEnviron_isOk.1 ⟨environ, henv⟩
    refine ⟨hports, hlength, fun body hbody hmem => ?_⟩
    -- the length is a number, which no field is
    obtain ⟨post, -, hall⟩ := hpost body hbody
    obtain ⟨⟨k, v⟩, hv, rfl⟩ := List.mem_map.1 hmem
    have hget := hall _ v hv
    rw [DukArray.get, if_pos rfl] at hget
    cases v <;> cases hget
  · rintro ⟨hports, hlength, hform⟩
    obtain ⟨environ, henv⟩ := fillEnviron_isOk.2 ⟨hports, hlength⟩
    obtain ⟨n, hn⟩ := putArrays_of_environ henv clock payload
    obtain ⟨m, post, hput, hpost⟩ :=
      putPayload_ok arrayLength ⟨n, clockProps clock environ.props⟩ hform
    refine ⟨_, hn.trans hput, fun body hbody => ?_⟩
    obtain ⟨i, hi⟩ := hpost body hbody
    refine ⟨_, hi, fun k v hv => ?_⟩
    have hk : k ≠ lengthKey := by
      rintro rfl
      exact hform body hbody (List.mem_map.2 ⟨_, hv, rfl⟩)
    rw [DukArray.get, if_neg hk, lookup_formProps hv]

/-- Without an entry `length` the array holds what the object of `putHeaders`
holds. -/
theorem putHeaders_of_fillEnviron (hk : lengthKey ∉ entries.map Prod.fst)
    (h : fillEnviron arrayLength entries a = .ok a') :
    putHeaders entries a.props = .ok a'.props := by
  induction entries generalizing a with
  | nil =>
    obtain rfl := Except.ok.inj h
    rfl
  | cons p entries ih =>
    obtain ⟨k, v⟩ := p
    rw [List.map_cons, List.mem_cons, not_or] at hk
    rw [fillEnviron, List.foldlM_cons, Lib.bind_eq_ok] at h
    obtain ⟨a₁, hput, hrest⟩ := h
    cases hvalue : environValue k v with
    | error e =>
      simp only [hvalue] at hput
      cases hput
    | ok value =>
      obtain ⟨n, hn⟩ := put_of_ne arrayLength a value
        (fun he => hk.1 (environKey_eq_lengthKey.1 he).symm)
      simp only [hvalue] at hput
      obtain rfl := Except.ok.inj (hn.symm.trans hput)
      rw [putHeaders, hvalue]
      exact ih hk.2 hrest

/-- **Without the name `length` the arrays are plain objects**, so what is known
of objects holds of them. -/
theorem putRequest_eq {clock : Clock} {req : HttpContent} {payload : Payload}
    {r : RequestArrays} (hdict : lengthKey ∉ req.dict.keys)
    (hform : ∀ body, payload = .form body → lengthKey ∉ (httpUrldecode body).keys)
    (hpayload : requestPayload req = .ok payload)
    (hr : putArrays arrayLength clock req.dict payload = .ok r) :
    putRequest clock req = .ok r.environ.props := by
  obtain ⟨environ, henv, -⟩ := Lib.bind_eq_ok.1 hr
  obtain ⟨n, hn⟩ := putArrays_of_environ henv clock payload
  obtain ⟨m, post, hput, -⟩ :=
    putPayload_ok arrayLength ⟨n, clockProps clock environ.props⟩ hform
  obtain rfl := Except.ok.inj ((hn.trans hput).symm.trans hr)
  have hheaders : putHeaders req.dict.values [] = .ok environ.props :=
    putHeaders_of_fillEnviron hdict henv
  rw [putRequest, hheaders]
  unfold requestPayload at hpayload
  split_ifs at hpayload with hpost hsize
  · simp only [if_pos hpost]
    cases hload : req.load req.body with
    | error e =>
      rw [hload] at hpayload
      cases hpayload
    | ok body =>
      rw [hload] at hpayload
      obtain rfl := Except.ok.inj hpayload
      rfl
  · simp only [if_neg hpost, if_pos hsize]
    cases hmethod : httpMapGet req.dict HTTP_METHOD with
    | none =>
      rw [hmethod] at hpayload
      cases hpayload
    | some method =>
      cases hload : req.load req.body with
      | error e =>
        simp only [hmethod, hload] at hpayload
        cases hpayload
      | ok body =>
        simp only [hmethod, hload] at hpayload
        obtain rfl := Except.ok.inj hpayload
        simp only
        split_ifs <;> rfl
  · obtain rfl := Except.ok.inj hpayload
    simp only [if_neg hpost, if_neg hsize]
    rfl

end Fill

/-- The array length that a value is, for numbers in decimal form. -/
def decimalLength : DukValue → Option ℕ
  | .string s => if sprintfD (decimalValue s) = s ∧ decimalValue s < 2 ^ 32 then
      some (decimalValue s) else none
  | _ => none

/-- A form with a field `length` raises an error: its value is a string that is
no array length. -/
theorem putArrays_length_field :
    putArrays decimalLength noon (httpMapNew 9) (.form (ascii "length=abc")) =
        .error .rangeError ∧
      ¬ArraysFilled decimalLength noon (httpMapNew 9) (.form (ascii "length=abc")) := by
  have hdecode : (httpUrldecode (ascii "length=abc")).values =
      [(lengthKey, some (ascii "abc"))] := by
    decide +kernel
  have hnan : decimalLength (.string (ascii "abc")) = none := by
    rw [decimalLength, if_neg (by decide +kernel)]
  have hpost : fillPost decimalLength (httpUrldecode (ascii "length=abc")).values pushArray =
      .error .rangeError := by
    rw [hdecode, fillPost, List.foldlM_cons, DukArray.put, if_pos rfl, pushString, hnan]
    rfl
  have hraise : putArrays decimalLength noon (httpMapNew 9) (.form (ascii "length=abc")) =
      .error .rangeError := by
    have henv : fillEnviron decimalLength (httpMapNew 9).values pushArray = .ok pushArray := rfl
    obtain ⟨n, hn⟩ := putArrays_of_environ henv noon (.form (ascii "length=abc"))
    rw [hn, putPayload, hpost]
    rfl
  refine ⟨hraise, ?_⟩
  rintro ⟨r, hr, -⟩
  rw [hraise] at hr
  cases hr

end Wsgi
end Dukserver
