/-
# What is sent is read back

The header block that `http_send_request` or `http_send_response` writes
(`libhttpd/http_sendrecv.c`, lines 632-902) against the parser of the other side
(`libhttpd/http_parse.c`).  An entry `k: v` of the sender is a field of the wire
format with one blank before its value, so the parser stores it under `k` again if
`k` is a name and `v` a value that it does not trim (`NameOk`, `ValueOk`).  As the
keys of a dictionary are distinct, the receiver's headers are the sender's, in their
order (`values_storeFields_fieldsOf`).

A request comes back whole if the host of the connection is such a value.  A
response comes back with another version: its parser stores `1.1` where
`http_start_response` stores `HTTP/1.1`.
-/

import Dukserver.Http.RequestLength
import Dukserver.Http.ResponseLength
import Dukserver.Http.Wire

namespace Dukserver
namespace Http

open Lib (Bytes ascii atoi byteAt cstr slice isalpha isdigit isspace sprintfD)

/-- A header name: it starts with a letter, contains no colon and does not end
in a space. -/
structure NameOk (k : Bytes) : Prop where
  letter : k.head?.any isalpha = true
  text : k.all (fun c => isText c && c != 58) = true
  lastNotSpace : k.getLast? ≠ some 32

/-- A header value: it is not empty and neither starts nor ends with a blank. -/
structure ValueOk (v : Bytes) : Prop where
  nonempty : v ≠ []
  text : v.all isText = true
  first : v.head?.all (fun c => !isspace c) = true
  last : v.getLast?.all (fun c => !isspace c) = true

instance (k : Bytes) : Decidable (NameOk k) :=
  decidable_of_iff (k.head?.any isalpha = true ∧ k.all (fun c => isText c && c != 58) = true ∧
    k.getLast? ≠ some 32) ⟨fun h => ⟨h.1, h.2.1, h.2.2⟩, fun h => ⟨h.1, h.2, h.3⟩⟩

instance (v : Bytes) : Decidable (ValueOk v) :=
  decidable_of_iff (v ≠ [] ∧ v.all isText = true ∧ v.head?.all (fun c => !isspace c) = true ∧
    v.getLast?.all (fun c => !isspace c) = true)
    ⟨fun h => ⟨h.1, h.2.1, h.2.2.1, h.2.2.2⟩, fun h => ⟨h.1, h.2, h.3, h.4⟩⟩

/-- The field of a header. -/
def headerField (k v : Bytes) : Field := ⟨k, [32], v, []⟩

/-- The fields that are sent for a dictionary. -/
def fieldsOf (m : HttpMap) : List Field :=
  m.values.filterMap fun p => if Internal p.1 then none else p.2.map (headerField p.1)

/-- The headers of a dictionary: its entries without the internal ones. -/
def headers (m : HttpMap) : List (Bytes × Option Bytes) :=
  m.values.filter fun p => !decide (Internal p.1)

/-- A dictionary whose headers are read back; `P` is what is known of the
internal entries. -/
structure Sendable (P : Bytes → Bytes → Prop) (m : HttpMap) : Prop where
  nodup : m.keys.Nodup
  entries : ∀ p ∈ m.values, ∃ v, p.2 = some v ∧
    (Internal p.1 ∧ P p.1 v ∨ NameOk p.1 ∧ ValueOk v)

section Headers

variable {P : Bytes → Bytes → Prop} {m hdr : HttpMap} {k v : Bytes}

/-- A text without control bytes has no NUL, so a copy of it is the text. -/
theorem cstr_of_all {d : UInt8} {t : Bytes} (h : t.all (fun c => isText c && c != d) = true) :
    cstr t = t :=
  cstr_of_isText fun c hc => by
    have hboth := List.all_eq_true.1 h c hc
    rw [Bool.and_eq_true] at hboth
    exact hboth.1

/-- A name is copied whole. -/
theorem NameOk.cstr_eq (h : NameOk k) : cstr k = k := cstr_of_all h.text

/-- So is a value. -/
theorem ValueOk.cstr_eq (h : ValueOk v) : cstr v = v := cstr_of_isText (List.all_eq_true.1 h.text)

/-- A name is no internal key: it begins with a letter, and an internal key with
a blank. -/
theorem NameOk.not_internal (h : NameOk k) : ¬Internal k := by
  intro hint
  have hletter := h.letter
  rw [hint] at hletter
  exact absurd hletter (by decide)

/-- The field of a header is one that the parser reads: its value begins behind
one blank and ends where the parser stops trimming. -/
theorem headerField_wellFormed (hk : NameOk k) (hv : ValueOk v) : (headerField k v).WellFormed where
  letter := hk.letter
  name := hk.text
  nameEnd := hk.lastNotSpace
  blanks := rfl
  value := hv.text
  valueStart := hv.first
  valueEnd := hv.last

/-- **The header lines are those of the fields**: the loop that sends them
leaves out the internal entries and those without a value, as `fieldsOf` does. -/
theorem headerLines_eq_block (m : HttpMap) :
    headerLines m ++ [13, 10] = block ((fieldsOf m).map Field.line) := by
  obtain ⟨c, l⟩ := m
  induction l with
  | nil => rfl
  | cons p l ih =>
    obtain ⟨k, v⟩ := p
    cases v with
    | none =>
      rw [headerLines_skip (.inl rfl), ih]
      simp [fieldsOf]
    | some v =>
      by_cases hk : Internal k
      · rw [headerLines_skip (.inr hk), ih]
        simp [fieldsOf, hk]
      · have hline : (headerField k v).line = k ++ ascii ": " ++ v := by
          rw [headerField, Field.line, List.append_nil, List.append_assoc]
          rfl
        have hfields : fieldsOf ⟨c, (k, some v) :: l⟩ = headerField k v :: fieldsOf ⟨c, l⟩ := by
          simp [fieldsOf, hk]
        rw [headerLines_line hk, hfields, List.map_cons, block_cons, ← ih, hline,
          List.append_assoc, List.cons_append, List.cons_append]

/-- What can be sent has fields that can be read.  A name begins with a letter,
and a value is not empty and has no space at its ends. -/
theorem Sendable.wellFormed (h : Sendable P m) : ∀ f ∈ fieldsOf m, f.WellFormed := by
  intro f hf
  obtain ⟨p, hp, hfield⟩ := List.mem_filterMap.1 hf
  obtain ⟨v, hv, hok⟩ := h.entries p hp
  split_ifs at hfield with hint
  rw [hv, Option.map_some] at hfield
  obtain rfl := Option.some.inj hfield
  rcases hok with ⟨hint', -⟩ | ⟨hk, hv⟩
  · exact absurd hint' hint
  · exact headerField_wellFormed hk hv

/-- **The fields are stored as the headers they come from**, behind what is
there.  The keys of the sender are distinct and none is internal, so each field
is a new key. -/
theorem values_storeFields_fieldsOf (h : Sendable P m) (hhdr : hdr.keys.Nodup)
    (hint : ∀ k ∈ hdr.keys, Internal k) :
    (storeFields (fieldsOf m) hdr).values = hdr.values ++ headers m := by
  have hmap : ∀ l : List (Bytes × Option Bytes), (∀ p ∈ l, ∃ v, p.2 = some v ∧
      (Internal p.1 ∧ P p.1 v ∨ NameOk p.1 ∧ ValueOk v)) →
      ((l.filterMap fun p => if Internal p.1 then none else p.2.map (headerField p.1)).map
        fun f => (cstr f.name, f.stored.map cstr)) = l.filter fun p => !decide (Internal p.1) := by
    intro l hl
    induction l with
    | nil => rfl
    | cons p l ih =>
      obtain ⟨k, v⟩ := p
      obtain ⟨w, rfl, hok⟩ := hl _ (List.mem_cons_self ..)
      have ih := ih fun q hq => hl q (List.mem_cons_of_mem _ hq)
      rcases hok with ⟨hk, -⟩ | ⟨hk, hw⟩
      · rw [List.filterMap_cons_none (by simp [hk]),
          List.filter_cons_of_neg (by simpa using hk), ih]
      · have hnot := hk.not_internal
        have hstored : (headerField k w).stored.map cstr = some w := by
          have hvalue : (headerField k w).value ≠ [] := hw.nonempty
          rw [Field.stored, if_neg hvalue, Option.map_some]
          exact congrArg some hw.cstr_eq
        rw [List.filterMap_cons_some (by simp [hnot]; rfl),
          List.filter_cons_of_pos (by simpa using hnot), List.map_cons, ih, hstored]
        exact congrArg (fun k' => (k', some w) :: _) hk.cstr_eq
  have hnodup : ((hdr.values ++ headers m).map Prod.fst).Nodup := by
    rw [List.map_append, List.nodup_append]
    refine ⟨hhdr, (List.filter_sublist.map Prod.fst).nodup h.nodup, ?_⟩
    rintro k hk k' hk' rfl
    obtain ⟨p, hp, rfl⟩ := List.mem_map.1 hk'
    have hnot := (List.mem_filter.1 hp).2
    rw [Bool.not_eq_true', decide_eq_false_iff_not] at hnot
    exact hnot (hint _ hk)
  rw [values_storeFields, ← Lib.Assoc.foldl_set_of_nodup hnodup, headers, ← hmap _ h.entries,
    List.foldl_map]
  rfl

end Headers

/-! ### Building what can be read back -/

section Set

variable {P : Bytes → Bytes → Prop} {m : HttpMap} {k v : Bytes}

/-- Setting an entry of the right kind leaves a dictionary that can be sent.
The other entries keep their values, and keys stay distinct. -/
theorem Sendable.set (h : Sendable P m) (hk : cstr k = k) (hv : cstr v = v)
    (hok : Internal k ∧ P k v ∨ NameOk k ∧ ValueOk v) :
    Sendable P (httpMapSet m k (some v)) := by
  refine ⟨nodup_keys_httpMapSet h.nodup, fun p hp => ?_⟩
  rw [values_httpMapSet, hk, Option.map_some, hv] at hp
  rcases Lib.Assoc.mem_set hp with rfl | hp
  · exact ⟨v, rfl, hok⟩
  · exact h.entries p hp

/-- Setting a header does. -/
theorem Sendable.header (h : Sendable P m) (hk : NameOk k) (hv : ValueOk v) :
    Sendable P (httpMapSet m k (some v)) :=
  h.set hk.cstr_eq hv.cstr_eq (.inr ⟨hk, hv⟩)

/-- What is found under an internal key is of the kind that was stored there. -/
theorem Sendable.get (h : Sendable P m) (hk : cstr k = k) (hint : Internal k) (hmem : k ∈ m.keys) :
    ∃ v, httpMapGet m k = some v ∧ P k v := by
  obtain ⟨p, hp, rfl⟩ := List.mem_map.1 hmem
  obtain ⟨v, hv, hok⟩ := h.entries p hp
  have hlookup : m.values.lookup p.1 = some (some v) := by
    rw [Lib.Assoc.lookup_eq_some h.nodup, ← hv]
    exact hp
  refine ⟨v, by rw [httpMapGet, hk, hlookup]; rfl, ?_⟩
  rcases hok with ⟨-, hP⟩ | ⟨hname, -⟩
  · exact hP
  · exact absurd hint hname.not_internal

/-- A number can be sent as a value: it has digits only, and at least one.  So
it holds no CRLF and no space that the parser would trim. -/
theorem valueOk_sprintfD (n : ℕ) : ValueOk (sprintfD n) := by
  obtain ⟨hne, hdigits, -⟩ := Lib.numeral_sprintfD n
  have hspace : ∀ c ∈ sprintfD n, (!isspace c) = true := fun c hc => by
    have hd := Lib.isdigit_iff.1 (hdigits c hc)
    rw [Bool.not_eq_true', isspace]
    simp only [Bool.or_eq_false_iff, Bool.and_eq_false_iff, decide_eq_false_iff_not,
      beq_eq_false_iff_ne, UInt8.le_iff_toNat_le]
    refine ⟨.inr (by simp; omega), ?_⟩
    rintro rfl
    exact absurd hd.1 (by decide)
  refine ⟨hne, List.all_eq_true.2 fun c hc => ?_, ?_, ?_⟩
  · rw [isText_iff]
    have hd := Lib.isdigit_iff.1 (hdigits c hc)
    refine ⟨?_, ?_, ?_⟩ <;> rintro rfl <;> exact absurd hd.1 (by decide)
  · rw [Option.all_eq_true]
    exact fun c hc => hspace c (List.mem_of_mem_head? hc)
  · rw [Option.all_eq_true]
    exact fun c hc => hspace c (List.mem_of_mem_getLast? hc)

end Set

/-! ### Requests -/

/-- The arguments of `http_start_request` and `http_header` that the parser
reads back: a method that starts with a letter, a URL that starts with a slash,
neither with a space, and headers as above. -/
def RequestCallOk : RequestCall → Prop
  | .start (some method, some url) =>
    method.head?.any isalpha = true ∧ method.all (fun c => isText c && c != 32) = true ∧
      url.head? = some 47 ∧ url.all (fun c => isText c && c != 32) = true
  | .start _ => True
  | .header k v => NameOk k ∧ ∃ w, v = some w ∧ ValueOk w
  | .write _ => True

/-- The internal entries of such a request. -/
def RequestEntry (k v : Bytes) : Prop :=
  (k = HTTP_METHOD ∧ v.head?.any isalpha = true ∧ v.all (fun c => isText c && c != 32) = true) ∨
    (k = HTTP_URL ∧ v.head? = some 47 ∧ v.all (fun c => isText c && c != 32) = true) ∨
    (k = HTTP_VERSION ∧ v = ascii "HTTP/1.1")

/-- The content from which `http_send_request` builds the header block. -/
def preparedRequest (files : Bytes → Option Bytes) (conn : HttpConnection) (ct : HttpContent) :
    Option HttpContent :=
  match httpMapGet ct.dict HTTP_URL with
  | none => none
  | some url =>
    match preprocessRequest conn url ct with
    | .error _ => none
    | .ok ct₁ => some (announceLength files ct₁)

/-- The header block that is sent parses to the method, the URL, the version and
the headers of the dictionary it was built from, in their order, and to nothing
else, whatever follows it in the buffer. -/
def RequestReadsBack (files : Bytes → Option Bytes) (conn : HttpConnection) (ct : HttpContent) :
    Prop :=
  ∃ ct' head method url version, preparedRequest files conn ct = some ct' ∧
    requestHead ct' = some head ∧
    (head.length ≤ HTTP_MAX_SEND_BLOCK → ∃ body, SentAs files conn ct ct' head body) ∧
    httpMapGet ct'.dict HTTP_METHOD = some method ∧ httpMapGet ct'.dict HTTP_URL = some url ∧
    httpMapGet ct'.dict HTTP_VERSION = some version ∧
    ∀ rest c, ∃ dict, httpParseRequestHeaders (head ++ rest) head.length (httpMapNew c) =
      (true, dict) ∧ dict.values = lineEntries method url version ++ headers ct'.dict

section Request

variable {files : Bytes → Option Bytes} {conn : HttpConnection} {calls : List RequestCall}

/-- **What the calls build can be read back**, call by call: a start sets the
entries of the first line and three headers, the others one entry or none. -/
theorem sendable_buildRequest (hcalls : ∀ call ∈ calls, RequestCallOk call) :
    Sendable RequestEntry (buildRequest calls).dict := by
  refine build_induction (P := fun ct => Sendable RequestEntry ct.dict)
    ⟨List.nodup_nil, fun p hp => absurd hp List.not_mem_nil⟩ fun ct call hcall hct => ?_
  have hok := hcalls call hcall
  rcases call with ⟨_ | method, _ | url⟩ | ⟨k, v⟩ | data
  · exact hct
  · exact hct
  · exact hct
  · obtain ⟨hletter, hmethod, hslash, hurl⟩ := hok
    have h₁ := hct.set (k := HTTP_METHOD) rfl (cstr_of_all hmethod)
      (.inl ⟨by decide, .inl ⟨rfl, hletter, hmethod⟩⟩)
    have h₂ := h₁.set (k := HTTP_URL) rfl (cstr_of_all hurl)
      (.inl ⟨by decide, .inr (.inl ⟨rfl, hslash, hurl⟩)⟩)
    have h₃ := h₂.set (k := HTTP_VERSION) (v := ascii "HTTP/1.1") rfl rfl
      (.inl ⟨by decide, .inr (.inr ⟨rfl, rfl⟩)⟩)
    have h₄ := h₃.header (k := ascii "User-Agent") (v := ascii "libhttp/1.0.0") (by decide)
      (by decide)
    have h₅ := h₄.header (k := ascii "Accept") (v := ascii "*/*") (by decide) (by decide)
    exact h₅.header (by decide) (by decide)
  · obtain ⟨hk, w, rfl, hw⟩ := hok
    exact hct.header hk hw
  · rw [Call.apply, httpWrite_dict]
    exact hct

/-- The three internal entries are there once a request was started, as no call
takes a key away. -/
theorem mem_keys_buildRequest (hstart : ∃ method url, .start (some method, some url) ∈ calls) :
    ∀ k ∈ firstLineKeys .request, k ∈ (buildRequest calls).dict.keys := by
  obtain ⟨method, url, hmem⟩ := hstart
  refine build_of_mem (P := fun ct => ∀ k ∈ firstLineKeys .request, k ∈ ct.dict.keys) hmem
    (fun ct k hk => ?_) fun ct call hct k hk => ?_
  · simp only [firstLineKeys, List.mem_cons, List.not_mem_nil, or_false] at hk
    simp only [Call.apply, httpStartRequest, mem_keys_httpMapSet]
    rcases hk with rfl | rfl | rfl
    · exact .inr (.inr (.inr (.inr (.inr (.inl rfl)))))
    · exact .inr (.inr (.inr (.inr (.inl rfl))))
    · exact .inr (.inr (.inr (.inl rfl)))
  · rcases call with ⟨_ | method, _ | url⟩ | ⟨key, value⟩ | data
    · exact hct k hk
    · exact hct k hk
    · exact hct k hk
    · simp only [Call.apply, httpStartRequest, mem_keys_httpMapSet]
      exact .inr (.inr (.inr (.inr (.inr (.inr (hct k hk))))))
    · exact mem_keys_httpMapSet.2 (.inr (hct k hk))
    · rw [Call.apply, httpWrite_dict]
      exact hct k hk

/-- No file is bound to such a request: its key is internal and none of the
first line. -/
theorem Sendable.no_sendfile {m : HttpMap} (h : Sendable RequestEntry m) :
    httpMapGet m HTTP_SENDFILE = none := by
  refine httpMapGet_of_not_mem fun hmem => ?_
  obtain ⟨v, -, hentry⟩ := h.get (by decide) (by decide) hmem
  rcases hentry with ⟨hk, -⟩ | ⟨hk, -⟩ | ⟨hk, -⟩ <;> exact absurd hk (by decide)

/-- The host comes from the connection and the path is the URL, as it begins
with a slash. -/
theorem sendable_preprocessRequest {ct : HttpContent} {url : Bytes}
    (h : Sendable RequestEntry ct.dict) (hslash : url.head? = some 47)
    (hurl : url.all (fun c => isText c && c != 32) = true) (hhost : ValueOk conn.host) :
    ∃ ct₁, preprocessRequest conn url ct = .ok ct₁ ∧ Sendable RequestEntry ct₁.dict ∧
      ∀ k ∈ ct.dict.keys, k ∈ ct₁.dict.keys := by
  rw [preprocessRequest, splitUrl_of_slash hslash]
  refine ⟨_, rfl, ?_, fun k hk => ?_⟩
  · have hset := h.set (k := HTTP_URL) rfl (cstr_of_all hurl)
      (.inl ⟨by decide, .inr (.inl ⟨rfl, hslash, hurl⟩)⟩)
    exact hset.header (by decide) hhost
  · exact mem_keys_httpMapSet.2 (.inr (mem_keys_httpMapSet.2 (.inr hk)))

/-- With its length announced, a request can be read back all the same: the
length is a number. -/
theorem sendable_announceLength {ct : HttpContent} {data : Bytes}
    (h : Sendable RequestEntry ct.dict) (hw : Written ct data) :
    Sendable RequestEntry (announceLength files ct).dict := by
  rw [announceLength, h.no_sendfile]
  simp only
  split_ifs
  · rw [hw.size]
    exact h.header (by decide) (valueOk_sprintfD _)
  · exact h

/-- Announcing the length takes no key away.  It sets one that is there, or adds
one. -/
theorem mem_keys_announceLength {ct : HttpContent} {k : Bytes} (hk : k ∈ ct.dict.keys) :
    k ∈ (announceLength files ct).dict.keys := by
  rw [announceLength]
  split
  · exact mem_keys_httpMapSet.2 (.inr hk)
  · split_ifs
    · exact mem_keys_httpMapSet.2 (.inr hk)
    · exact hk

/-- The header block of what can be read back is that of a well-formed request.
Its first line is put together from the three internal entries. -/
theorem requestHead_of_sendable {ct : HttpContent} (h : Sendable RequestEntry ct.dict)
    (hkeys : ∀ k ∈ firstLineKeys .request, k ∈ ct.dict.keys) :
    ∃ method url version, httpMapGet ct.dict HTTP_METHOD = some method ∧
      httpMapGet ct.dict HTTP_URL = some url ∧ httpMapGet ct.dict HTTP_VERSION = some version ∧
      (Request.mk method url version (fieldsOf ct.dict) []).WellFormed ∧
      requestHead ct = some (Request.mk method url version (fieldsOf ct.dict) []).head := by
  obtain ⟨method, hmethod, hm⟩ := h.get (k := HTTP_METHOD) rfl (by decide) (hkeys _ (by decide))
  obtain ⟨url, hurl, hu⟩ := h.get (k := HTTP_URL) rfl (by decide) (hkeys _ (by decide))
  obtain ⟨version, hversion, hv⟩ :=
    h.get (k := HTTP_VERSION) rfl (by decide) (hkeys _ (by decide))
  have hm := (hm.resolve_right fun h => h.elim (fun h => absurd h.1 (by decide))
    fun h => absurd h.1 (by decide)).2
  have hu := ((hu.resolve_left fun h => absurd h.1 (by decide)).resolve_right
    fun h => absurd h.1 (by decide)).2
  have hv := ((hv.resolve_left fun h => absurd h.1 (by decide)).resolve_left
    fun h => absurd h.1 (by decide)).2
  refine ⟨method, url, version, hmethod, hurl, hversion,
    ⟨hm.1, hm.2, hu.1, hu.2, by rw [hv]; exact List.mem_cons_self .., h.wellFormed⟩, ?_⟩
  rw [requestHead, hmethod, hurl, hversion]
  simp only
  rw [requestBlock, Request.head, Request.lines, block_cons, ← headerLines_eq_block, Request.line]
  simp [ascii]

/-- The dictionary it parses to has these three entries, and then the headers,
whose keys are none of the three. -/
theorem values_dict_of_sendable {m : HttpMap} {method url version : Bytes} {c : ℕ}
    (h : Sendable RequestEntry m)
    (hwf : (Request.mk method url version (fieldsOf m) []).WellFormed) :
    ((Request.mk method url version (fieldsOf m) []).dict c).values =
      lineEntries method url version ++ headers m := by
  have hversion : cstr version = version := by
    have hall : ∀ v ∈ versions, cstr v = v := by decide
    exact hall _ hwf.version
  have hline : (httpMapSet (httpMapSet (httpMapSet (httpMapNew c) HTTP_METHOD (some method))
      HTTP_URL (some url)) HTTP_VERSION (some version)).values =
      lineEntries (cstr method) (cstr url) (cstr version) := rfl
  rw [cstr_of_all hwf.method, cstr_of_all hwf.url, hversion] at hline
  rw [Request.dict, values_storeFields_fieldsOf h, hline]
  · rw [HttpMap.keys, hline]
    exact (by decide : [HTTP_METHOD, HTTP_URL, HTTP_VERSION].Nodup)
  · rw [HttpMap.keys, hline]
    exact lineEntries_internal

/-- **A request is read back as it was sent**, for all calls with arguments that
the parser reads, over a connection whose host is a value. -/
theorem request_roundTrip (hcalls : ∀ call ∈ calls, RequestCallOk call)
    (hstart : ∃ method url, .start (some method, some url) ∈ calls) (hhost : ValueOk conn.host) :
    RequestReadsBack files conn (buildRequest calls) := by
  have hct := sendable_buildRequest hcalls
  have hkeys := mem_keys_buildRequest hstart
  have hw := written_buildRequest calls
  obtain ⟨method, url, version, hmethod, hurl, hversion, hwf, -⟩ :=
    requestHead_of_sendable hct hkeys
  obtain ⟨ct₁, hpre, hset, hsub⟩ := sendable_preprocessRequest hct hwf.slash hwf.url hhost
  obtain ⟨hbody₁, hbuf₁⟩ := preprocessRequest_buffers hpre
  have hw₁ : Written ct₁ (written calls) := ⟨by rw [hbuf₁, hw.buf], by rw [hbuf₁, hw.size]⟩
  have hkeys₁ : ∀ k ∈ firstLineKeys .request, k ∈ (announceLength files ct₁).dict.keys :=
    fun k hk => mem_keys_announceLength (hsub k (hkeys k hk))
  have hsend : Sendable RequestEntry (announceLength files ct₁).dict :=
    sendable_announceLength hset hw₁
  obtain ⟨method', url', version', hmethod', hurl', hversion', hwf', hhead⟩ :=
    requestHead_of_sendable hsend hkeys₁
  refine ⟨_, _, method', url', version', by rw [preparedRequest, hurl]; simp only [hpre], hhead,
    fun hlong => ?_, hmethod', hurl', hversion', fun rest c => ?_⟩
  · have hbuffers : (announceLength files ct₁).body = ct₁.body ∧
        (announceLength files ct₁).bodybuf = ct₁.bodybuf ∧ _ := announceLength_buffers _ _
    obtain ⟨body, hload, -⟩ := load_buildRequest (hbuffers.1.trans hbody₁)
      (hbuffers.2.1.trans hbuf₁)
    have hbody : requestBody files (announceLength files ct₁) = .ok body := by
      rw [requestBody, hsend.no_sendfile]
      exact hload
    have hne : ∀ {k : Bytes} {v}, httpMapGet (buildRequest calls).dict k = some v →
        httpMapGet (buildRequest calls).dict k ≠ none := fun h he => by
      rw [h] at he
      cases he
    exact ⟨body, (sentAs_iff (hne hmethod) hurl (hne hversion) hpre hhead hbody).2
      ⟨hlong, rfl, rfl, rfl⟩⟩
  · exact ⟨_, httpParseLines_wire hwf' c, values_dict_of_sendable hsend hwf'⟩

/-- The calls of the test meet the conditions. -/
theorem requestCallOk_greeting : ∀ call ∈ greeting, RequestCallOk call := by
  intro call hcall
  simp only [greeting, List.mem_cons, List.not_mem_nil, or_false] at hcall
  rcases hcall with rfl | rfl | rfl
  · exact ⟨by decide, by decide, by decide, by decide⟩
  · exact ⟨by decide, _, rfl, by decide⟩
  · trivial

/-- The hypotheses are satisfiable. -/
theorem request_roundTrip_greeting :
    RequestReadsBack (fun _ => none) localConn (buildRequest greeting) :=
  request_roundTrip requestCallOk_greeting ⟨_, _, List.mem_cons_self ..⟩ (by decide)

/-- A connection without a name for its host, as `http_connect` makes it of an
empty one. -/
def namelessConn : HttpConnection := ⟨[], 8080, ⟨[], [], []⟩⟩

/-- Its empty host comes back as `NULL`, as the parser finds no value behind the
colon. -/
theorem request_roundTrip_nameless : (∀ call ∈ greeting, RequestCallOk call) ∧
    ¬RequestReadsBack (fun _ => none) namelessConn (buildRequest greeting) := by
  constructor
  · exact requestCallOk_greeting
  · rintro ⟨ct', head, method, url, version, hct', hhead, -, -, -, -, hparse⟩
    obtain ⟨dict, hdict, hvalues⟩ := hparse [] 1000
    have hhost : ∀ ct' ∈ preparedRequest (fun _ => none) namelessConn (buildRequest greeting),
        ∀ head ∈ requestHead ct', (httpParseRequestHeaders (head ++ []) head.length
          (httpMapNew 1000)).2.values.lookup (ascii "Host") = some none ∧
            (headers ct'.dict).lookup (ascii "Host") = some (some []) := by decide +kernel
    obtain ⟨hreceived, hsent⟩ := hhost ct' hct' head hhead
    have hline : (lineEntries method url version ++ headers ct'.dict).lookup (ascii "Host") =
        (headers ct'.dict).lookup (ascii "Host") := rfl
    rw [hdict, hvalues, hline, hsent] at hreceived
    cases hreceived

end Request

/-! ### Responses -/

/-- The arguments of `http_start_response` and `http_header`: a positive status,
a time that `strftime` has printed, and headers as above. -/
def ResponseCallOk : ResponseCall → Prop
  | .start (date, status) => ValueOk date ∧ 0 < status
  | .header k v => NameOk k ∧ ∃ w, v = some w ∧ ValueOk w
  | .write _ => True

/-- The internal entries of such a response. -/
def ResponseEntry (k v : Bytes) : Prop :=
  (k = HTTP_VERSION ∧ v = ascii "HTTP/1.1") ∨ (k = HTTP_STATUS ∧ ∃ n : ℕ, v = sprintfD n)

/-- The header block that is sent parses to the version `seen`, the status, its
message and the headers of the dictionary it was built from, in their order, and
to nothing else, whatever follows it in the buffer. -/
def ResponseReadAs (seen : Bytes) (ct : HttpContent) : Prop :=
  ∃ ct' head version status, httpMapGet ct.dict HTTP_VERSION = some version ∧
    httpMapGet ct.dict HTTP_STATUS = some status ∧ ct' = completeResponse (atoi status) ct ∧
    head = headerBlock version status ct'.dict ∧
    (head.length ≤ HTTP_MAX_SEND_BLOCK → ∃ body, ResponseSentAs ct ct' head body) ∧
    ∀ rest c, ∃ dict, httpParseResponseHeaders (head ++ rest) head.length (httpMapNew c) =
      (true, dict) ∧
      dict.values = [(HTTP_VERSION, some seen), (HTTP_STATUS, some status),
        (HTTP_MESSAGE, some (httpGetStatusMessage (atoi status)))] ++ headers ct'.dict

/-- It parses to the version it was sent with, too. -/
def ResponseReadsBack (ct : HttpContent) : Prop :=
  ∃ version, httpMapGet ct.dict HTTP_VERSION = some version ∧ ResponseReadAs version ct

section StatusLine

variable {mem status message rest : Bytes} {s : ℕ} {hdr : HttpMap}

/-- The messages are texts, those of the table as well as the one for all other
numbers. -/
theorem httpGetStatusMessage_text (n : ℤ) :
    httpGetStatusMessage n ≠ [] ∧ ∀ c ∈ httpGetStatusMessage n, isText c = true := by
  -- the test is a Boolean one, so that nothing runs through all bytes
  have hall : statusMsgMap.all (fun p => !p.2.isEmpty && p.2.all isText) = true := by
    decide +kernel
  have hnodup : (statusMsgMap.map Prod.fst).Nodup := by decide +kernel
  rw [httpGetStatusMessage]
  cases hn : statusMsgMap.lookup n with
  | some m =>
    have hm := List.all_eq_true.1 hall _ ((Lib.Assoc.lookup_eq_some hnodup).1 hn)
    rw [Bool.and_eq_true, Bool.not_eq_true', List.isEmpty_eq_false_iff] at hm
    exact ⟨hm.1, List.all_eq_true.1 hm.2⟩
  | none => exact ⟨by decide, List.all_eq_true.1 (by decide)⟩

/-- **A status line is stored under its three keys**, the version without its
name: the parser looks for it behind `HTTP/`. -/
theorem httpParseResponseLine_wire (hne : status ≠ []) (hdigits : ∀ c ∈ status, isdigit c = true)
    (hmsg : message ≠ [])
    (h : mem.drop s = ascii "HTTP/1.1" ++ 32 :: (status ++ 32 :: (message ++ rest))) :
    httpParseResponseLine mem s (8 + 1 + (status.length + 1 + message.length)) hdr =
      (true, httpMapSet (httpMapSet (httpMapSet hdr HTTP_VERSION (some (ascii "1.1")))
        HTTP_STATUS (some status)) HTTP_MESSAGE (some message)) := by
  obtain ⟨d, ds, rfl⟩ := List.exists_cons_of_ne_nil hne
  have hpos := List.length_pos_iff.2 hmsg
  have h₁ : mem.drop (s + 8) = [32] ++ d :: (ds ++ 32 :: (message ++ rest)) := drop_of_drop h
  have h₂ : mem.drop (s + 8 + 1) = (d :: ds) ++ 32 :: (message ++ rest) := drop_of_drop h₁
  have h₃ : mem.drop (s + 8 + 1 + (d :: ds).length + 1) = message ++ rest := drop_cons_of_drop h₂
  have halpha : httpFindAlpha mem s (8 + 1 + ((d :: ds).length + 1 + message.length)) = some s :=
    httpFindAlpha_of_letter h (by decide) (by omega)
  have hversion : strstr mem s (ascii "HTTP/") = some s := strstr_version (by decide) h
  have hstarts : startsWith mem s (ascii "HTTP/1.1") = true := by
    rw [startsWith_version rfl h]
    rfl
  have hdigit : httpFindDigit mem (s + 8)
      (s + (8 + 1 + ((d :: ds).length + 1 + message.length)) - (s + 8)) = some (s + 8 + 1) := by
    refine scan_of_drop h₁ (fun x hx => ?_) (hdigits d (List.mem_cons_self ..)) ?_
    · rw [List.mem_singleton.1 hx]
      rfl
    · rw [List.length_singleton]
      omega
  have hspace : httpFindChar mem (s + 8 + 1) 32
      (s + (8 + 1 + ((d :: ds).length + 1 + message.length)) - (s + 8 + 1)) =
        some (s + 8 + 1 + (d :: ds).length) := by
    refine scan_of_drop h₂ (fun x hx => ?_) rfl (by omega)
    rw [beq_eq_false_iff_ne]
    rintro rfl
    exact absurd (hdigits 32 hx) (by decide)
  have hend : s + (8 + 1 + ((d :: ds).length + 1 + message.length)) =
      s + 8 + 1 + (d :: ds).length + 1 + message.length := by omega
  rw [httpParseResponseLine, halpha]
  simp only [hversion, hstarts, if_true, hdigit, hspace, slice_of_drop h₂]
  rw [if_neg (by omega), hend, slice_of_drop h₃]

end StatusLine

section Response

variable {calls : List ResponseCall}

/-- **What the calls build can be read back**, call by call, as for a request: a
start sets the version, the status and three headers. -/
theorem sendable_buildResponse (hcalls : ∀ call ∈ calls, ResponseCallOk call) :
    Sendable ResponseEntry (buildResponse calls).dict := by
  refine build_induction (P := fun ct => Sendable ResponseEntry ct.dict)
    ⟨List.nodup_nil, fun p hp => absurd hp List.not_mem_nil⟩ fun ct call hcall hct => ?_
  have hok := hcalls call hcall
  rcases call with ⟨date, status⟩ | ⟨k, v⟩ | data
  · obtain ⟨hdate, hstatus⟩ := hok
    obtain ⟨n, rfl⟩ := Int.eq_ofNat_of_zero_le hstatus.le
    have h₁ := hct.set (k := HTTP_VERSION) (v := ascii "HTTP/1.1") rfl rfl
      (.inl ⟨by decide, .inl ⟨rfl, rfl⟩⟩)
    have h₂ := h₁.set (k := HTTP_STATUS) rfl (valueOk_sprintfD n).cstr_eq
      (.inl ⟨by decide, .inr ⟨rfl, n, rfl⟩⟩)
    have h₃ := h₂.header (k := ascii "Date") (by decide) hdate
    have h₄ := h₃.header (k := ascii "Server") (v := HTTP_DEFAULT_SERVER) (by decide) (by decide)
    exact h₄.header (by decide) (by decide)
  · obtain ⟨hk, w, rfl, hw⟩ := hok
    exact hct.header hk hw
  · rw [Call.apply, httpWrite_dict]
    exact hct

/-- Version and status are there once a response was started, as no call takes a
key away. -/
theorem mem_keys_buildResponse (hstart : ∃ date status, .start (date, status) ∈ calls) :
    HTTP_VERSION ∈ (buildResponse calls).dict.keys ∧
      HTTP_STATUS ∈ (buildResponse calls).dict.keys := by
  obtain ⟨date, status, hmem⟩ := hstart
  refine build_of_mem (P := fun ct => HTTP_VERSION ∈ ct.dict.keys ∧ HTTP_STATUS ∈ ct.dict.keys)
    hmem (fun ct => ?_) fun ct call hct => ?_
  · simp only [Call.apply, httpStartResponse, mem_keys_httpMapSet]
    exact ⟨.inr (.inr (.inr (.inr (.inl rfl)))), .inr (.inr (.inr (.inl rfl)))⟩
  · rcases call with ⟨date, status⟩ | ⟨key, value⟩ | data
    · simp only [Call.apply, httpStartResponse, mem_keys_httpMapSet]
      exact ⟨.inr (.inr (.inr (.inr (.inr hct.1)))), .inr (.inr (.inr (.inr (.inr hct.2))))⟩
    · exact ⟨mem_keys_httpMapSet.2 (.inr hct.1), mem_keys_httpMapSet.2 (.inr hct.2)⟩
    · rw [Call.apply, httpWrite_dict]
      exact hct

/-- With its length, a response can be read back all the same.  The length is a
number, and its name that of a header. -/
theorem sendable_completeResponse {ct : HttpContent} {data : Bytes} {statusCode : ℤ}
    (h : Sendable ResponseEntry ct.dict) (hdata : BodyWritten ct data) :
    Sendable ResponseEntry (completeResponse statusCode ct).dict := by
  rw [(completeResponse_eq hdata).2]
  split_ifs
  · exact h
  · exact h.header (by decide) (valueOk_sprintfD _)

/-- The header block of what can be read back is stored under the version `1.1`,
with the message that belongs to the number. -/
theorem httpParseResponse_of_sendable {m : HttpMap} {n : ℕ} (h : Sendable ResponseEntry m)
    (rest : Bytes) (c : ℕ) :
    ∃ dict, httpParseResponseHeaders (headerBlock (ascii "HTTP/1.1") (sprintfD n) m ++ rest)
      (headerBlock (ascii "HTTP/1.1") (sprintfD n) m).length (httpMapNew c) = (true, dict) ∧
      dict.values = [(HTTP_VERSION, some (ascii "1.1")), (HTTP_STATUS, some (sprintfD n)),
        (HTTP_MESSAGE, some (httpGetStatusMessage (atoi (sprintfD n))))] ++ headers m := by
  obtain ⟨hne, hdigits, -⟩ := Lib.numeral_sprintfD n
  obtain ⟨hmsg, htext⟩ := httpGetStatusMessage_text (atoi (sprintfD n))
  generalize hmessage : httpGetStatusMessage (atoi (sprintfD n)) = message at hmsg htext
  have hline : statusLine (ascii "HTTP/1.1") (sprintfD n) =
      ascii "HTTP/1.1" ++ 32 :: (sprintfD n ++ 32 :: message) := by
    rw [statusLine, hmessage]
    simp [ascii]
  have hblock : headerBlock (ascii "HTTP/1.1") (sprintfD n) m =
      block (statusLine (ascii "HTTP/1.1") (sprintfD n) :: (fieldsOf m).map Field.line) := by
    rw [block_cons, ← headerLines_eq_block]
    simp [headerBlock, statusLine]
  have hlinene : statusLine (ascii "HTTP/1.1") (sprintfD n) ≠ [] := by
    rw [hline]
    exact List.cons_ne_nil _ _
  have hcr : 13 ∉ statusLine (ascii "HTTP/1.1") (sprintfD n) := by
    have hversion : 13 ∉ ascii "HTTP/1.1" := by decide
    have hstatus : 13 ∉ sprintfD n := Lib.cr_notMem_sprintfD n
    have hmes : 13 ∉ message := fun hmem => absurd (htext 13 hmem) (by decide)
    rw [hline]
    simp [hversion, hstatus, hmes]
  have hfirst : ∀ mem rest', mem.drop 0 = statusLine (ascii "HTTP/1.1") (sprintfD n) ++
      13 :: rest' → httpParseFirstLine .response mem 0
        (statusLine (ascii "HTTP/1.1") (sprintfD n)).length (httpMapNew c) =
      (true, httpMapSet (httpMapSet (httpMapSet (httpMapNew c) HTTP_VERSION
        (some (ascii "1.1"))) HTTP_STATUS (some (sprintfD n))) HTTP_MESSAGE (some message)) := by
    intro mem rest' hmem
    have hlen : (statusLine (ascii "HTTP/1.1") (sprintfD n)).length =
        8 + 1 + ((sprintfD n).length + 1 + message.length) := by
      rw [hline]
      simp only [List.length_append, List.length_cons]
      rw [show (ascii "HTTP/1.1").length = 8 by decide]
      omega
    have hsplit : mem.drop 0 = ascii "HTTP/1.1" ++
        32 :: (sprintfD n ++ 32 :: (message ++ 13 :: rest')) := by
      rw [hmem, hline]
      simp
    rw [hlen]
    exact httpParseResponseLine_wire hne hdigits hmsg hsplit
  rw [hblock]
  refine ⟨_, httpParseLines_block hlinene hcr h.wellFormed hfirst, ?_⟩
  have hvalues : (httpMapSet (httpMapSet (httpMapSet (httpMapNew c) HTTP_VERSION
      (some (ascii "1.1"))) HTTP_STATUS (some (sprintfD n))) HTTP_MESSAGE (some message)).values =
      [(HTTP_VERSION, some (ascii "1.1")), (HTTP_STATUS, some (cstr (sprintfD n))),
        (HTTP_MESSAGE, some (cstr message))] := rfl
  rw [(valueOk_sprintfD n).cstr_eq, cstr_of_isText htext] at hvalues
  have hkeys : [HTTP_VERSION, HTTP_STATUS, HTTP_MESSAGE].Nodup ∧
      ∀ k ∈ [HTTP_VERSION, HTTP_STATUS, HTTP_MESSAGE], Internal k := by decide
  rw [values_storeFields_fieldsOf h, hvalues]
  · rw [HttpMap.keys, hvalues]
    exact hkeys.1
  · rw [HttpMap.keys, hvalues]
    exact hkeys.2

/-- A started response has the version `HTTP/1.1` and a number as its status: no
other call sets these keys. -/
theorem started_buildResponse (hcalls : ∀ call ∈ calls, ResponseCallOk call)
    (hstart : ∃ date status, .start (date, status) ∈ calls) :
    httpMapGet (buildResponse calls).dict HTTP_VERSION = some (ascii "HTTP/1.1") ∧
      ∃ n : ℕ, httpMapGet (buildResponse calls).dict HTTP_STATUS = some (sprintfD n) := by
  have hct := sendable_buildResponse hcalls
  obtain ⟨hkversion, hkstatus⟩ := mem_keys_buildResponse hstart
  obtain ⟨version, hversion, hv⟩ := hct.get (k := HTTP_VERSION) rfl (by decide) hkversion
  obtain ⟨status, hstatus, hs⟩ := hct.get (k := HTTP_STATUS) rfl (by decide) hkstatus
  obtain ⟨-, rfl⟩ := hv.resolve_right fun h => absurd h.1 (by decide)
  obtain ⟨-, n, rfl⟩ := hs.resolve_left fun h => absurd h.1 (by decide)
  exact ⟨hversion, n, hstatus⟩

/-- It is read as a response of the version `1.1`.  `http_start_response` stores
the version with `HTTP/` before it, which the parser of responses leaves out. -/
theorem responseReadAs_buildResponse (hcalls : ∀ call ∈ calls, ResponseCallOk call)
    (hstart : ∃ date status, .start (date, status) ∈ calls) :
    ResponseReadAs (ascii "1.1") (buildResponse calls) := by
  have hdata := bodyWritten_buildResponse calls
  obtain ⟨hversion, n, hstatus⟩ := started_buildResponse hcalls hstart
  have hsend : Sendable ResponseEntry
      (completeResponse (atoi (sprintfD n)) (buildResponse calls)).dict :=
    sendable_completeResponse (sendable_buildResponse hcalls) hdata
  refine ⟨_, _, _, _, hversion, hstatus, rfl, rfl, fun hlong => ?_,
    httpParseResponse_of_sendable hsend⟩
  exact ⟨_, (responseSentAs_iff hstatus hversion hdata).2 ⟨rfl, rfl, rfl, hlong⟩⟩

/-- What is read with one version is not read with another.  Both are what the
client finds under `HTTP_VERSION`, in one dictionary. -/
theorem ResponseReadAs.version_unique {ct : HttpContent} {v w : Bytes} (hv : ResponseReadAs v ct)
    (hw : ResponseReadAs w ct) : v = w := by
  obtain ⟨_, _, version, status, hversion, hstatus, rfl, rfl, -, hparse⟩ := hv
  obtain ⟨_, _, version', status', hversion', hstatus', rfl, rfl, -, hparse'⟩ := hw
  obtain rfl := Option.some.inj (hversion.symm.trans hversion')
  obtain rfl := Option.some.inj (hstatus.symm.trans hstatus')
  obtain ⟨dict, hdict, hvalues⟩ := hparse [] HTTP_DEFAULT_HEADERS_COUNT
  obtain ⟨dict', hdict', hvalues'⟩ := hparse' [] HTTP_DEFAULT_HEADERS_COUNT
  obtain rfl := (Prod.mk.inj (hdict.symm.trans hdict')).2
  rw [hvalues, List.cons_append, List.cons_append] at hvalues'
  exact Option.some.inj (Prod.mk.inj (List.cons.inj hvalues').1).2

/-- So a response that has the version `HTTP/1.1` does not come back with it. -/
theorem not_responseReadsBack {ct : HttpContent} (h : ResponseReadAs (ascii "1.1") ct)
    (hversion : httpMapGet ct.dict HTTP_VERSION = some (ascii "HTTP/1.1")) :
    ¬ResponseReadsBack ct := by
  rintro ⟨version, hversion', hread⟩
  obtain rfl := Option.some.inj (hversion.symm.trans hversion')
  exact absurd (h.version_unique hread) (by decide)

/-- **A response is read back with the version `1.1`**, and otherwise as it was
sent, for all calls with arguments that the parser reads: its version is never
the one it was sent with. -/
theorem response_roundTrip (hcalls : ∀ call ∈ calls, ResponseCallOk call)
    (hstart : ∃ date status, .start (date, status) ∈ calls) :
    ResponseReadAs (ascii "1.1") (buildResponse calls) ∧
      ¬ResponseReadsBack (buildResponse calls) := by
  have hread := responseReadAs_buildResponse hcalls hstart
  exact ⟨hread, not_responseReadsBack hread (started_buildResponse hcalls hstart).1⟩

/-- A page with a header. -/
def cookiePage : List ResponseCall :=
  [.start (ascii "Fri, 01 Jan 2016 12:00:00 UTC", 200),
    .header (ascii "Set-Cookie") (some (ascii "id=1")), .write (ascii "hello")]

/-- The calls of the test meet the conditions. -/
theorem responseCallOk_cookiePage : ∀ call ∈ cookiePage, ResponseCallOk call := by
  intro call hcall
  simp only [cookiePage, List.mem_cons, List.not_mem_nil, or_false] at hcall
  rcases hcall with rfl | rfl | rfl
  · exact ⟨by decide +kernel, by decide⟩
  · exact ⟨by decide, _, rfl, by decide⟩
  · trivial

/-- The hypotheses are satisfiable. -/
theorem response_roundTrip_cookiePage :
    ResponseReadAs (ascii "1.1") (buildResponse cookiePage) ∧
      ¬ResponseReadsBack (buildResponse cookiePage) :=
  response_roundTrip responseCallOk_cookiePage ⟨_, _, List.mem_cons_self ..⟩

/-- The page comes back with another version than it was sent with. -/
theorem response_version_cookiePage : ¬ResponseReadsBack (buildResponse cookiePage) :=
  not_responseReadsBack
    (responseReadAs_buildResponse responseCallOk_cookiePage ⟨_, _, List.mem_cons_self ..⟩)
    (started_buildResponse responseCallOk_cookiePage ⟨_, _, List.mem_cons_self ..⟩).1

end Response

end Http
end Dukserver
