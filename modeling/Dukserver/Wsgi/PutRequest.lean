/-
# The environ of a request

`libhttpd/wsgi_server.c`, `_put_request` (lines 97-193), with the request that
`_worker_frontend` hands over.  The dictionary is copied entry by entry, the
three internal entries of the request line under public names, and a property
that is set again loses its first value.

The header fields come after the request line in the dictionary, so one with a
public name takes the place of what the line says (`environOk_iff`).  The two
entries of the peer's address are written after parsing, under their own names.
-/

import Dukserver.Http.UrlDecode
import Dukserver.Mpm.Frontend
import Dukserver.Wsgi.Duk

namespace Dukserver
namespace Wsgi

open Lib (Bytes ascii atoi cstr sprintfD)
open Http
open Mpm (prepareRequest)

/-- The property for an entry of the dictionary. -/
def environKey (k : Bytes) : Bytes :=
  if k = HTTP_METHOD then ascii "REQUEST_METHOD"
  else if k = HTTP_URL then ascii "PATH_INFO"
  else if k = HTTP_VERSION then ascii "SERVER_PROTOCOL"
  else k

/-- Its value; `atoi` reads its argument. -/
def environValue (k : Bytes) (v : Option Bytes) : Except Fault DukValue :=
  if k = ascii "REMOTE_PORT" then
    match v with
    | none => .error .nullPointer
    | some v => .ok (pushInt (atoi v))
  else .ok (pushString v)

/-- The loop over the dictionary. -/
def putHeaders : List (Bytes × Option Bytes) → Props → Except Fault Props
  | [], environ => .ok environ
  | (k, v) :: entries, environ =>
    match environValue k v with
    | .error e => .error e
    | .ok value => putHeaders entries (Lib.Assoc.set (environKey k) value environ)

/-- A form as an object. -/
def formProps (m : HttpMap) : Props := m.values.map fun p => (p.1, pushString p.2)

/-- Whether the body is decoded as a form. -/
def isForm (dict : HttpMap) : Bool :=
  match httpMapGet dict HTTP_METHOD, httpMapGet dict (ascii "Content-Type") with
  | some method, some contentType =>
    method == ascii "POST" && contentType == HTTP_DEFAULT_FORM_ENCODED
  | _, _ => false

/-- The clock of `_put_request`, printed. -/
structure Clock where
  date : Bytes
  time : Bytes

/-- `_put_request`: the object `environ`.  `http_urldecode` never returns
`NULL`. -/
def putRequest (clock : Clock) (req : HttpContent) : Except Fault Props :=
  match putHeaders req.dict.values [] with
  | .error e => .error e
  | .ok environ =>
    let environ := Lib.Assoc.set (ascii "wsgi.date") (.string clock.date) environ
    let environ := Lib.Assoc.set (ascii "wsgi.time") (.string clock.time) environ
    if isForm req.dict then
      match req.load req.body with
      | .error e => .error e
      | .ok body =>
        .ok (Lib.Assoc.set (ascii "wsgi.post") (.object (formProps (httpUrldecode body))) environ)
    else if 0 < req.body.size then
      match httpMapGet req.dict HTTP_METHOD with
      | none => .error .nullPointer
      | some method =>
        let key := if method = ascii "PUT" then ascii "wsgi.put" else ascii "wsgi.raw"
        match req.load req.body with
        | .error e => .error e
        | .ok body => .ok (Lib.Assoc.set key (.buffer body) environ)
    else .ok environ

/-! ### The loop -/

section Loop

variable {entries : List (Bytes × Option Bytes)} {environ environ' : Props} {k : Bytes}

/-- No port is missing its value. -/
def PortsSet (entries : List (Bytes × Option Bytes)) : Prop :=
  (ascii "REMOTE_PORT", none) ∉ entries

/-- Every value but a port is put as a string. -/
theorem environValue_of_ne {v : Option Bytes} (hk : k ≠ ascii "REMOTE_PORT") :
    environValue k v = .ok (pushString v) := if_neg hk

/-- The loop is defined if each port has a value, as `atoi` reads it and every
other entry may be `NULL`. -/
theorem putHeaders_ok (h : PortsSet entries) (environ : Props) :
    ∃ environ', putHeaders entries environ = .ok environ' := by
  induction entries generalizing environ with
  | nil => exact ⟨environ, rfl⟩
  | cons p entries ih =>
    obtain ⟨k, v⟩ := p
    rw [PortsSet, List.mem_cons, not_or] at h
    have hvalue : ∃ value, environValue k v = .ok value := by
      unfold environValue
      split_ifs with hk
      · cases v with
        | none => exact absurd (by rw [hk]) h.1
        | some v => exact ⟨_, rfl⟩
      · exact ⟨_, rfl⟩
    obtain ⟨value, hvalue⟩ := hvalue
    rw [putHeaders, hvalue]
    exact ih h.2 _

/-- A property keeps its value through entries that have another one.  So the
value of an entry is safe from those before and behind it. -/
theorem lookup_putHeaders_of_not_mem (h : putHeaders entries environ = .ok environ')
    (hk : ∀ p ∈ entries, environKey p.1 ≠ k) : environ'.lookup k = environ.lookup k := by
  induction entries generalizing environ with
  | nil =>
    obtain rfl := Except.ok.inj h
    rfl
  | cons p entries ih =>
    obtain ⟨j, v⟩ := p
    rw [putHeaders] at h
    split at h
    · cases h
    · rw [ih h fun q hq => hk q (List.mem_cons_of_mem _ hq),
        Lib.Assoc.lookup_set_of_ne (hk _ (List.mem_cons_self ..)).symm]

/-- **The last entry of a property gives its value**, whatever was put before: a
property that is put again gets the new value. -/
theorem lookup_putHeaders_append {k' : Bytes} {v : Option Bytes} {value : DukValue}
    {before after : List (Bytes × Option Bytes)}
    (h : putHeaders (before ++ (k', v) :: after) environ = .ok environ')
    (hk : environKey k' = k) (hv : environValue k' v = .ok value)
    (hafter : ∀ p ∈ after, environKey p.1 ≠ k) : environ'.lookup k = some value := by
  induction before generalizing environ with
  | nil =>
    rw [List.nil_append, putHeaders, hv] at h
    rw [lookup_putHeaders_of_not_mem h hafter, hk, Lib.Assoc.lookup_set_self]
  | cons p before ih =>
    rw [List.cons_append, putHeaders] at h
    split at h
    · cases h
    · exact ih h

/-- What comes after the loop touches no header: the clock and the body have
names of their own. -/
theorem lookup_putRequest {clock : Clock} {req : HttpContent}
    (h : putRequest clock req = .ok environ')
    (hk : k ∉ [ascii "wsgi.date", ascii "wsgi.time", ascii "wsgi.post", ascii "wsgi.put",
      ascii "wsgi.raw"]) :
    ∃ environ, putHeaders req.dict.values [] = .ok environ ∧
      environ'.lookup k = environ.lookup k := by
  simp only [List.mem_cons, List.not_mem_nil, or_false, not_or] at hk
  obtain ⟨hdate, htime, hpost, hput, hraw⟩ := hk
  rw [putRequest] at h
  split at h
  · cases h
  · rename_i environ henv
    refine ⟨environ, henv, ?_⟩
    simp only at h
    have hclock : (Lib.Assoc.set (ascii "wsgi.time") (.string clock.time)
        (Lib.Assoc.set (ascii "wsgi.date") (.string clock.date) environ)).lookup k =
        environ.lookup k := by
      rw [Lib.Assoc.lookup_set_of_ne htime, Lib.Assoc.lookup_set_of_ne hdate]
    split at h
    · split at h
      · cases h
      · obtain rfl := Except.ok.inj h
        rw [Lib.Assoc.lookup_set_of_ne hpost, hclock]
    · split at h
      · split at h
        · cases h
        · split at h
          · cases h
          · obtain rfl := Except.ok.inj h
            rw [Lib.Assoc.lookup_set_of_ne (by split_ifs; exacts [hput, hraw]), hclock]
      · obtain rfl := Except.ok.inj h
        exact hclock

end Loop

/-! ### The handed over request -/

/-- The dictionary is a parsed one, with the name of a temporary file or
without. -/
def FromParse (dict : HttpMap) (ct : HttpContent) : Prop :=
  ct.dict = dict ∨ ∃ fn, ct.dict = httpMapSet dict HTTP_TMPFILE fn

section Prepared

variable {conn : HttpConnection} {ct : HttpContent} {dict : HttpMap}

/-- What holds of the parsed dictionary and survives three more entries holds of
the one that is handed over. -/
theorem FromParse.prepared {P : HttpMap → Prop} (hct : FromParse dict ct) (h : P dict)
    (hset : ∀ m k v, k ∈ [HTTP_TMPFILE, ascii "REMOTE_ADDR", ascii "REMOTE_PORT"] → P m →
      P (httpMapSet m k v)) : P (prepareRequest conn ct).dict := by
  have hdict : P ct.dict := by
    rcases hct with hct | ⟨fn, hct⟩
    · rwa [hct]
    · rw [hct]
      exact hset _ _ _ (by decide) h
  exact hset _ _ _ (by decide) (hset _ _ _ (by decide) hdict)

/-- The other entries keep their values when the address of the peer is set.
The file of the body is left out, as `http_recv_body` may have set it. -/
theorem lookup_prepared (hct : FromParse dict ct) {k : Bytes}
    (hk : k ∉ [HTTP_TMPFILE, ascii "REMOTE_ADDR", ascii "REMOTE_PORT"]) :
    (prepareRequest conn ct).dict.values.lookup k = dict.values.lookup k := by
  refine hct.prepared (P := fun m => m.values.lookup k = dict.values.lookup k) rfl
    fun m j v hj hm => ?_
  have hcstr : ∀ i ∈ [HTTP_TMPFILE, ascii "REMOTE_ADDR", ascii "REMOTE_PORT"], cstr i = i := by
    decide
  have hne : k ≠ j := by
    rintro rfl
    exact hk hj
  rw [values_httpMapSet, hcstr j hj, Lib.Assoc.lookup_set_of_ne hne, hm]

/-- The entries of the request line come first, also then. -/
theorem entriesFirst_prepared (hct : FromParse dict ct) {method url version : Bytes}
    (h : EntriesFirst (lineEntries method url version) dict) :
    EntriesFirst (lineEntries method url version) (prepareRequest conn ct).dict := by
  refine hct.prepared (P := EntriesFirst (lineEntries method url version)) h
    fun m k v hk hm => hm.set ?_
  have hother : ∀ k ∈ [HTTP_TMPFILE, ascii "REMOTE_ADDR", ascii "REMOTE_PORT"],
      cstr k ∉ [HTTP_METHOD, HTTP_URL, HTTP_VERSION] := by decide
  exact hother k hk

/-- Every port has a value: there is one, and the frontend has set it.  An entry
of that name from the request would have been replaced. -/
theorem portsSet_prepared (h : (prepareRequest conn ct).dict.keys.Nodup) :
    PortsSet (prepareRequest conn ct).dict.values := by
  intro hmem
  have hnone := (Lib.Assoc.lookup_eq_some h).2 hmem
  rw [prepareRequest, values_httpMapSet, show cstr (ascii "REMOTE_PORT") = ascii "REMOTE_PORT" by
    decide, Lib.Assoc.lookup_set_self] at hnone
  cases hnone

end Prepared

/-- The entries of the request line and their properties. -/
def publicNames : List (Bytes × Bytes) :=
  [(HTTP_METHOD, ascii "REQUEST_METHOD"), (HTTP_URL, ascii "PATH_INFO"),
    (HTTP_VERSION, ascii "SERVER_PROTOCOL")]

/-- A property has the name of its entry, or the public name of an internal one. -/
theorem environKey_eq {k k' : Bytes} (h : environKey k = k') : (k, k') ∈ publicNames ∨ k = k' := by
  unfold environKey at h
  split_ifs at h with h₁ h₂ h₃
  · exact .inl (by rw [← h, h₁]; decide)
  · exact .inl (by rw [← h, h₂]; decide)
  · exact .inl (by rw [← h, h₃]; decide)
  · exact .inr h

/-- The public names are names of headers, each of one entry. -/
theorem publicNames_spec {k k' : Bytes} (h : (k, k') ∈ publicNames) :
    environKey k = k' ∧ environKey k' = k' ∧ Internal k ∧ ¬Internal k' ∧
      k ≠ ascii "REMOTE_PORT" ∧ k' ≠ ascii "REMOTE_PORT" ∧
      ∀ j, (j, k') ∈ publicNames → j = k := by
  have hall : ∀ p ∈ publicNames, environKey p.1 = p.2 ∧ environKey p.2 = p.2 ∧ Internal p.1 ∧
      ¬Internal p.2 ∧ p.1 ≠ ascii "REMOTE_PORT" ∧ p.2 ≠ ascii "REMOTE_PORT" ∧
      ∀ q ∈ publicNames, q.2 = p.2 → q.1 = p.1 := by
    decide
  obtain ⟨h₁, h₂, h₃, h₄, h₅, h₆, h₇⟩ := hall _ h
  exact ⟨h₁, h₂, h₃, h₄, h₅, h₆, fun j hj => h₇ _ hj rfl⟩

section Public

variable {dict : HttpMap} {environ : Props} {method url version k k' x : Bytes}

/-- **A public property is what its header field says, if there is one**, and
what the request line says otherwise. -/
theorem lookup_public (hfirst : EntriesFirst (lineEntries method url version) dict)
    (h : putHeaders dict.values [] = .ok environ) (hk : (k, k') ∈ publicNames)
    (hx : (k, some x) ∈ lineEntries method url version) :
    environ.lookup k' = some (pushString ((dict.values.lookup k').getD (some x))) := by
  obtain ⟨hkey, hkey', -, hint, hport, hport', hinj⟩ := publicNames_spec hk
  -- no other entry than these two has the property
  have hother : ∀ p : Bytes × Option Bytes, p.1 ≠ k → p.1 ≠ k' → environKey p.1 ≠ k' :=
    fun p hpk hpk' he => (environKey_eq he).elim (fun hmem => hpk (hinj _ hmem)) hpk'
  cases hlookup : dict.values.lookup k' with
  | some v =>
    -- the header field comes after the request line
    obtain ⟨rest, hrest⟩ := hfirst.first
    have hnodup := hfirst.nodup
    rw [HttpMap.keys, ← hrest, List.map_append, List.nodup_append] at hnodup
    obtain ⟨-, hnodup, hdisjoint⟩ := hnodup
    have hkline : k ∈ (lineEntries method url version).map Prod.fst :=
      List.mem_map.2 ⟨_, hx, rfl⟩
    have hlineno : (lineEntries method url version).lookup k' = none :=
      Lib.Assoc.lookup_eq_none.2 fun hmem => hint (lineEntries_internal _ hmem)
    rw [← hrest] at h hlookup
    rw [List.lookup_append, hlineno, Option.none_or] at hlookup
    obtain ⟨before, after, rfl, hafter⟩ := Lib.Assoc.exists_split hnodup hlookup
    rw [← List.append_assoc] at h
    refine lookup_putHeaders_append h hkey' (environValue_of_ne hport') fun p hp => ?_
    refine hother p (fun hpk => ?_) (hafter p hp)
    have hmem : p ∈ before ++ (k', v) :: after :=
      List.mem_append_right _ (List.mem_cons_of_mem _ hp)
    exact hdisjoint _ hkline _ (List.mem_map.2 ⟨p, hmem, rfl⟩) hpk.symm
  | none =>
    have hline : dict.values.lookup k = some (some x) :=
      (Lib.Assoc.lookup_eq_some hfirst.nodup).2 (hfirst.first.subset hx)
    rw [Lib.Assoc.lookup_eq_none] at hlookup
    obtain ⟨before, after, hsplit, hafter⟩ := Lib.Assoc.exists_split hfirst.nodup hline
    rw [hsplit] at h hlookup
    refine lookup_putHeaders_append h hkey (environValue_of_ne hport) fun p hp => ?_
    refine hother p (hafter p hp) (fun hpk => hlookup (List.mem_map.2 ⟨p, ?_, hpk⟩))
    exact List.mem_append_right _ (List.mem_cons_of_mem _ hp)

/-- A property under its own name is what its entry says, as no internal entry
has that name in public and its key is there once. -/
theorem lookup_own {v : Option Bytes} {value : DukValue} (hnodup : dict.keys.Nodup)
    (h : putHeaders dict.values [] = .ok environ) (hk : k ∉ publicNames.map Prod.fst)
    (hk' : k ∉ publicNames.map Prod.snd) (hlookup : dict.values.lookup k = some v)
    (hv : environValue k v = .ok value) : environ.lookup k = some value := by
  have hkey : environKey k = k := by
    by_contra hne
    rcases environKey_eq rfl with hmem | he
    · exact hk (List.mem_map.2 ⟨_, hmem, rfl⟩)
    · exact hne he.symm
  obtain ⟨before, after, hsplit, hafter⟩ := Lib.Assoc.exists_split hnodup hlookup
  rw [hsplit] at h
  refine lookup_putHeaders_append h hkey hv fun p hp he => ?_
  rcases environKey_eq he with hmem | he
  · exact hk' (List.mem_map.2 ⟨_, hmem, rfl⟩)
  · exact hafter p hp he

end Public

/-- The five properties are those of the request line and of the connection. -/
structure EnvironOk (conn : HttpConnection) (dict : HttpMap) (environ : Props) : Prop where
  method : environ.lookup (ascii "REQUEST_METHOD") = (httpMapGet dict HTTP_METHOD).map .string
  path : environ.lookup (ascii "PATH_INFO") = (httpMapGet dict HTTP_URL).map .string
  protocol : environ.lookup (ascii "SERVER_PROTOCOL") = (httpMapGet dict HTTP_VERSION).map .string
  addr : environ.lookup (ascii "REMOTE_ADDR") = some (.string (cstr conn.host))
  port : environ.lookup (ascii "REMOTE_PORT") = some (pushInt conn.port)

/-- No header has the public name of an entry of the request line, unless it
says the same. -/
def NoOverride (dict : HttpMap) : Prop :=
  ∀ p ∈ publicNames, p.2 ∈ dict.keys → httpMapGet dict p.2 = httpMapGet dict p.1

instance (dict : HttpMap) : Decidable (NoOverride dict) :=
  inferInstanceAs (Decidable (∀ p ∈ publicNames, p.2 ∈ dict.keys → _ = _))

section Environ

variable {clock : Clock} {conn : HttpConnection} {ct : HttpContent} {dict : HttpMap}
variable {environ : Props} {mem : Bytes} {buflen c : ℕ}

/-- **The address of the peer is what the connection says**, whatever the
headers: a header of that name has its value replaced. -/
theorem lookup_remote (hct : FromParse dict ct) (hnodup : dict.keys.Nodup)
    (hport : 0 ≤ conn.port ∧ conn.port < 2 ^ 16)
    (h : putRequest clock (prepareRequest conn ct) = .ok environ) :
    environ.lookup (ascii "REMOTE_ADDR") = some (.string (cstr conn.host)) ∧
      environ.lookup (ascii "REMOTE_PORT") = some (pushInt conn.port) := by
  have hnodup' : (prepareRequest conn ct).dict.keys.Nodup :=
    hct.prepared (P := fun m => m.keys.Nodup) hnodup fun _ _ _ _ hm => nodup_keys_httpMapSet hm
  obtain ⟨headers, hheaders, haddr⟩ := lookup_putRequest h (k := ascii "REMOTE_ADDR") (by decide)
  obtain ⟨headers', hheaders', hremote⟩ :=
    lookup_putRequest h (k := ascii "REMOTE_PORT") (by decide)
  obtain rfl := Except.ok.inj (hheaders.symm.trans hheaders')
  rw [haddr, hremote]
  constructor
  · have hvalue : environValue (ascii "REMOTE_ADDR") (some (cstr conn.host)) =
        .ok (.string (cstr conn.host)) := environValue_of_ne (by decide)
    refine lookup_own hnodup' hheaders (by decide) (by decide) ?_ hvalue
    rw [prepareRequest, values_httpMapSet, Lib.Assoc.lookup_set_of_ne (by decide),
      values_httpMapSet]
    exact Lib.Assoc.lookup_set_self
  · obtain ⟨n, hn⟩ := Int.eq_ofNat_of_zero_le hport.1
    have hvalue : environValue (ascii "REMOTE_PORT") (some (sprintfD conn.port)) =
        .ok (pushInt conn.port) := by
      unfold environValue
      rw [if_pos rfl, hn]
      show Except.ok (pushInt (atoi (sprintfD n))) = _
      rw [Lib.atoi_sprintfD (by omega)]
    refine lookup_own hnodup' hheaders (by decide) (by decide) ?_ hvalue
    have hcstr : cstr (sprintfD conn.port) = sprintfD conn.port := by
      rw [hn]
      exact Lib.cstr_of_numeral (Lib.numeral_sprintfD n)
    rw [prepareRequest, values_httpMapSet, Option.map_some, hcstr]
    exact Lib.Assoc.lookup_set_self

/-- The names as C strings, and the names that are none of them. -/
theorem publicNames_cstr {k k' : Bytes} (h : (k, k') ∈ publicNames) :
    cstr k = k ∧ cstr k' = k' ∧
      k ∉ [HTTP_TMPFILE, ascii "REMOTE_ADDR", ascii "REMOTE_PORT"] ∧
      k' ∉ [HTTP_TMPFILE, ascii "REMOTE_ADDR", ascii "REMOTE_PORT"] ∧
      k' ∉ [ascii "wsgi.date", ascii "wsgi.time", ascii "wsgi.post", ascii "wsgi.put",
        ascii "wsgi.raw"] := by
  have hall : ∀ p ∈ publicNames, cstr p.1 = p.1 ∧ cstr p.2 = p.2 ∧
      p.1 ∉ [HTTP_TMPFILE, ascii "REMOTE_ADDR", ascii "REMOTE_PORT"] ∧
      p.2 ∉ [HTTP_TMPFILE, ascii "REMOTE_ADDR", ascii "REMOTE_PORT"] ∧
      p.2 ∉ [ascii "wsgi.date", ascii "wsgi.time", ascii "wsgi.post", ascii "wsgi.put",
        ascii "wsgi.raw"] := by
    decide
  exact hall _ h

/-- Every public name belongs to an entry of the request line.  So a header of
such a name competes with what the line has set. -/
theorem lineEntries_of_public {k k' method url version : Bytes} (h : (k, k') ∈ publicNames) :
    ∃ x, (k, some x) ∈ lineEntries method url version := by
  have hkeys : ∀ p ∈ publicNames, p.1 = HTTP_METHOD ∨ p.1 = HTTP_URL ∨ p.1 = HTTP_VERSION := by
    decide
  rcases hkeys _ h with he | he | he <;> simp only at he <;> subst he
  · exact ⟨method, List.mem_cons_self ..⟩
  · exact ⟨url, List.mem_cons_of_mem _ (List.mem_cons_self ..)⟩
  · exact ⟨version, List.mem_cons_of_mem _ (List.mem_cons_of_mem _ (List.mem_cons_self ..))⟩

/-- **A public property is right exactly when no header field has its name**, or
one that says the same as the request line. -/
theorem lookup_public_iff
    (hparse : httpParseRequestHeaders mem buflen (httpMapNew c) = (true, dict))
    (hct : FromParse dict ct) (h : putRequest clock (prepareRequest conn ct) = .ok environ)
    {k k' : Bytes} (hk : (k, k') ∈ publicNames) :
    environ.lookup k' = (httpMapGet dict k).map .string ↔
      (k' ∈ dict.keys → httpMapGet dict k' = httpMapGet dict k) := by
  obtain ⟨hcstr, hcstr', hnot, hnot', hreserved⟩ := publicNames_cstr hk
  obtain ⟨headers, hheaders, hlookup⟩ := lookup_putRequest h hreserved
  have hget : ∀ j, cstr j = j → httpMapGet dict j = (dict.values.lookup j).join := fun j hj => by
    rw [httpMapGet, hj]
  have hprep : (prepareRequest conn ct).dict.values.lookup k' = dict.values.lookup k' :=
    lookup_prepared hct hnot'
  rw [hlookup, hget k hcstr, hget k' hcstr']
  rcases httpParseLines_entries hparse with rfl | ⟨method, url, version, hfirst⟩
  · have hother : ∀ p ∈ (prepareRequest conn ct).dict.values, environKey p.1 ≠ k' := by
      intro p hp he
      have hempty : ∀ j, j ∉ [HTTP_TMPFILE, ascii "REMOTE_ADDR", ascii "REMOTE_PORT"] →
          j ∉ (prepareRequest conn ct).dict.keys := fun j hj =>
        Lib.Assoc.lookup_eq_none.1 (lookup_prepared hct hj)
      have hmem : p.1 ∈ (prepareRequest conn ct).dict.keys := List.mem_map.2 ⟨p, hp, rfl⟩
      rcases environKey_eq he with hpublic | he
      · exact hempty _ (publicNames_cstr hpublic).2.2.1 hmem
      · exact hempty _ (he ▸ hnot') hmem
    rw [lookup_putHeaders_of_not_mem hheaders hother]
    exact ⟨fun _ hmem => absurd hmem List.not_mem_nil, fun _ => rfl⟩
  · obtain ⟨x, hx⟩ : ∃ x, (k, some x) ∈ lineEntries method url version :=
      lineEntries_of_public hk
    have hline : dict.values.lookup k = some (some x) :=
      (Lib.Assoc.lookup_eq_some hfirst.nodup).2 (hfirst.first.subset hx)
    rw [lookup_public (entriesFirst_prepared hct hfirst) hheaders hk hx, hprep, hline,
      Option.join_some, Option.map_some, Option.some_inj,
      show DukValue.string x = pushString (some x) from rfl, pushString_inj]
    cases hv : dict.values.lookup k' with
    | none =>
      rw [Lib.Assoc.lookup_eq_none] at hv
      exact ⟨fun _ hmem => absurd hmem hv, fun _ => rfl⟩
    | some v =>
      have hmem : k' ∈ dict.keys := by
        by_contra hno
        rw [Lib.Assoc.lookup_eq_none.2 hno] at hv
        cases hv
      exact ⟨fun hvx _ => hvx, fun hvx => hvx hmem⟩

/-- **The environ is right exactly when no header field has a public name** (or
says the same as the request line), for every request that is accepted. -/
theorem environOk_iff (hparse : httpParseRequestHeaders mem buflen (httpMapNew c) = (true, dict))
    (hct : FromParse dict ct) (hport : 0 ≤ conn.port ∧ conn.port < 2 ^ 16)
    (h : putRequest clock (prepareRequest conn ct) = .ok environ) :
    EnvironOk conn dict environ ↔ NoOverride dict := by
  have hmethod : (HTTP_METHOD, ascii "REQUEST_METHOD") ∈ publicNames := by decide
  have hpath : (HTTP_URL, ascii "PATH_INFO") ∈ publicNames := by decide
  have hprotocol : (HTTP_VERSION, ascii "SERVER_PROTOCOL") ∈ publicNames := by decide
  constructor
  · intro hok p hp
    simp only [publicNames, List.mem_cons, List.not_mem_nil, or_false] at hp
    rcases hp with rfl | rfl | rfl
    · exact (lookup_public_iff hparse hct h hmethod).1 hok.method
    · exact (lookup_public_iff hparse hct h hpath).1 hok.path
    · exact (lookup_public_iff hparse hct h hprotocol).1 hok.protocol
  · intro hno
    have hnodup : dict.keys.Nodup := by
      rcases httpParseLines_entries hparse with rfl | ⟨_, _, _, hfirst⟩
      · exact List.nodup_nil
      · exact hfirst.nodup
    obtain ⟨haddr, hremote⟩ := lookup_remote hct hnodup hport h
    exact ⟨(lookup_public_iff hparse hct h hmethod).2 (hno _ hmethod),
      (lookup_public_iff hparse hct h hpath).2 (hno _ hpath),
      (lookup_public_iff hparse hct h hprotocol).2 (hno _ hprotocol), haddr, hremote⟩

/-- The time of the examples. -/
def noon : Clock := ⟨ascii "01 Jan 2016", ascii "12:00:00"⟩

/-- A peer of the examples. -/
def peer : HttpConnection := ⟨ascii "10.0.0.7", 40000, ⟨[], [], []⟩⟩

/-- The content of a request without a body. -/
def contentOf (head : Bytes) : HttpContent := Http.parsed head head.length (dictOf .request head)

/-- A request whose headers have none of the names. -/
def plainHead : Bytes := ascii "GET / HTTP/1.1\r\nREMOTE_ADDR: 1.2.3.4\r\n\r\n"

/-- A request with a header that has the name of the path. -/
def pathHead : Bytes := ascii "GET /admin HTTP/1.1\r\nPATH_INFO: /public\r\n\r\n"

/-- The request of the first example is accepted. -/
theorem parse_plainHead : httpParseRequestHeaders plainHead plainHead.length
    (httpMapNew HTTP_DEFAULT_HEADERS_COUNT) = (true, dictOf .request plainHead) := by decide

/-- And that of the second. -/
theorem parse_pathHead : httpParseRequestHeaders pathHead pathHead.length
    (httpMapNew HTTP_DEFAULT_HEADERS_COUNT) = (true, dictOf .request pathHead) := by decide

/-- The hypotheses are satisfiable: a header that names the peer changes
nothing. -/
theorem environOk_plain : ∃ environ,
    putRequest noon (prepareRequest peer (contentOf plainHead)) = .ok environ ∧
      EnvironOk peer (dictOf .request plainHead) environ := by
  obtain ⟨environ, henv⟩ : ∃ environ,
      putRequest noon (prepareRequest peer (contentOf plainHead)) = .ok environ := ⟨_, rfl⟩
  exact ⟨environ, henv, (environOk_iff parse_plainHead (.inl rfl) (by decide) henv).2 (by decide)⟩

/-- A header takes the place of the path: `PATH_INFO` is a field name like any
other, and is put behind the URL. -/
theorem environ_path_header : ∃ environ,
    httpParseRequestHeaders pathHead pathHead.length (httpMapNew HTTP_DEFAULT_HEADERS_COUNT) =
        (true, dictOf .request pathHead) ∧
      putRequest noon (prepareRequest peer (contentOf pathHead)) = .ok environ ∧
      httpMapGet (dictOf .request pathHead) HTTP_URL = some (ascii "/admin") ∧
      environ.lookup (ascii "PATH_INFO") ≠ some (.string (ascii "/admin")) := by
  obtain ⟨environ, henv⟩ : ∃ environ,
      putRequest noon (prepareRequest peer (contentOf pathHead)) = .ok environ := ⟨_, rfl⟩
  have hurl : httpMapGet (dictOf .request pathHead) HTTP_URL = some (ascii "/admin") := by decide
  refine ⟨environ, parse_pathHead, henv, hurl, fun hpath => ?_⟩
  have hpublic : (HTTP_URL, ascii "PATH_INFO") ∈ publicNames := by decide
  have hsame := (lookup_public_iff parse_pathHead (.inl rfl) henv hpublic).1
    (by rw [hpath, hurl]; rfl) (by decide)
  exact absurd hsame (by decide)

end Environ

end Wsgi
end Dukserver
