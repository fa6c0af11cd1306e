/-
# Parsing the header block in blocks of memory

`libhttpd/http_parse.c` once more, now with the copies that it makes of the buffer by
`http_strndup`, stores in the dictionary and frees.  Every parser has ways out behind a
copy, so whether a copy is left over is a question about all of them: `httpParseLines_ends`
says that none is, for every buffer, that the dictionary owns what was added, and that it
is the dictionary of `Http/Parse.lean`.
-/

import Dukserver.Http.Blocks
import Dukserver.Http.Parse

namespace Dukserver
namespace Http
namespace Blocks

open Lib (Bytes ascii cstr slice)
open Lib.Effects (Ends ends_pure)
open Sys (Alloc Allocator Heap Owns httpMalloc httpFree MEMORY_LEN)

/-- `http_strndup` of the bytes `s`. -/
def httpStrndup (A : Allocator) (s : Bytes) : Alloc Str := do
  let n : ℤ := s.length
  let p ← httpMalloc A (n + 1)
  return ⟨p, n + 1, cstr s⟩

/-- A copy of the bytes `s` is made, stored and freed. -/
def setCopy (A : Allocator) (hdr : MapT) (key s : Bytes) : Alloc MapT := do
  let v ← httpStrndup A s
  let hdr ← httpMapSet A hdr (some key) (some v.bytes)
  httpFree v.p
  return hdr

/-- `_http_parse_request_line`. -/
def httpParseRequestLine (A : Allocator) (mem : Bytes) (buf len : ℕ) (hdr : MapT) :
    Alloc (Bool × MapT) :=
  let pend := buf + len
  match httpFindAlpha mem buf len with
  | none => return (false, hdr)
  | some s =>
  -- find 'method' end
  match httpFindChar mem s 32 (pend - s) with
  | none => return (false, hdr)
  | some p => do
  let hdr ← setCopy A hdr HTTP_METHOD (slice mem s p)
  let s := p + 1
  if pend ≤ s then return (false, hdr) else
  -- find '/'
  match httpFindChar mem s 47 (pend - s) with
  | none => return (false, hdr)
  | some s =>
  -- find 'url' end
  match httpFindChar mem s 32 (pend - s) with
  | none => return (false, hdr)
  | some p => do
  let hdr ← setCopy A hdr HTTP_URL (slice mem s p)
  let s := p + 1
  if pend ≤ s then return (false, hdr) else
  -- find 'HTTP/..'
  match strstr mem s (ascii "HTTP/") with
  | none => return (false, hdr)
  | some p =>
  if startsWith mem p (ascii "HTTP/1.1") then do
    let hdr ← httpMapSet A hdr (some HTTP_VERSION) (some (ascii "HTTP/1.1"))
    return (true, hdr)
  else if startsWith mem p (ascii "HTTP/1.0") then do
    let hdr ← httpMapSet A hdr (some HTTP_VERSION) (some (ascii "HTTP/1.0"))
    return (true, hdr)
  else return (false, hdr)

/-- `_http_parse_response_line`. -/
def httpParseResponseLine (A : Allocator) (mem : Bytes) (buf len : ℕ) (hdr : MapT) :
    Alloc (Bool × MapT) :=
  let pend := buf + len
  match httpFindAlpha mem buf len with
  | none => return (false, hdr)
  | some s =>
  -- find 'HTTP/..'
  match strstr mem s (ascii "HTTP/") with
  | none => return (false, hdr)
  | some p =>
  let version :=
    if startsWith mem p (ascii "HTTP/1.1") then some (ascii "1.1")
    else if startsWith mem p (ascii "HTTP/1.0") then some (ascii "1.0")
    else none
  match version with
  | none => return (false, hdr)
  | some version => do
  let hdr ← httpMapSet A hdr (some HTTP_VERSION) (some version)
  let s := p + 8
  -- find 'digit'
  match httpFindDigit mem s (pend - s) with
  | none => return (false, hdr)
  | some s =>
  match httpFindChar mem s 32 (pend - s) with
  | none => return (false, hdr)
  | some p => do
  let hdr ← setCopy A hdr HTTP_STATUS (slice mem s p)
  let s := p + 1
  if pend ≤ s then return (false, hdr) else do
  let hdr ← setCopy A hdr HTTP_MESSAGE (slice mem s pend)
  return (true, hdr)

/-- The copy of a header's value, or `NULL`. -/
def copyValue (A : Allocator) : Option Bytes → Alloc (Option Str)
  | none => return none
  | some s => do return some (← httpStrndup A s)

/-- `_http_parse_header`. -/
def httpParseHeader (A : Allocator) (mem : Bytes) (buf len : ℕ) (hdr : MapT) :
    Alloc (Bool × MapT) :=
  let pend := buf + len
  match httpFindAlpha mem buf len with
  | none => return (false, hdr)
  | some s =>
  match httpFindChar mem s 58 (pend - s) with
  | none => return (false, hdr)
  | some pcolon => do
  let k ← httpStrndup A (slice mem s (skipSpacesBack mem pcolon))
  let v ← copyValue A (headerValue mem pcolon pend)
  let hdr ← httpMapSet A hdr (some k.bytes) (v.map Str.bytes)
  httpFree k.p
  freeStr v
  return (true, hdr)

/-- The parser of line number `lineno`. -/
def httpParseLine (A : Allocator) (type : HttpParseType) (lineno : ℕ) (mem : Bytes)
    (buf len : ℕ) (hdr : MapT) : Alloc (Bool × MapT) :=
  if lineno = 0 then
    match type with
    | .request => httpParseRequestLine A mem buf len hdr
    | .response => httpParseResponseLine A mem buf len hdr
  else httpParseHeader A mem buf len hdr

/-- The loop of `_http_parse_lines`, for the `n` positions from `p` on. -/
def parseLinesLoop (A : Allocator) (type : HttpParseType) (mem : Bytes) :
    ℕ → ℕ → ℕ → ℕ → MapT → Alloc (Bool × MapT)
  | 0, _, _, _, hdr => return (true, hdr)
  | n + 1, p, linebuf, lineno, hdr =>
    if atCrlf mem p then
      if p ≤ linebuf then return (true, hdr)
      else do
        let r ← httpParseLine A type lineno mem linebuf (p - linebuf) hdr
        if r.1 then parseLinesLoop A type mem n (p + 1) (p + 2) (lineno + 1) r.2
        else return (false, r.2)
    else parseLinesLoop A type mem n (p + 1) linebuf lineno hdr

/-- `_http_parse_lines`. -/
def httpParseLines (A : Allocator) (type : HttpParseType) (mem : Bytes) (buflen : ℕ)
    (hdr : MapT) : Alloc (Bool × MapT) :=
  parseLinesLoop A type mem (buflen - 1) 0 0 0 hdr

/-! ### What the parsers leave -/

/-- The dictionary `m` has become `dict`, it owns at most `n` blocks more, and
no other blocks are left. -/
structure Sets (M : Sys.Blocks) (n : ℕ) (m : MapT) (dict : HttpMap) (m' : MapT) (t : Heap) :
    Prop where
  owns : Owns t (m'.blocks + M)
  card : m'.blocks.card ≤ m.blocks.card + n
  toMap : m'.toMap = dict

/-- The same of a parser with the result `r`. -/
structure Parses (M : Sys.Blocks) (n : ℕ) (m : MapT) (r : Bool × HttpMap) (r' : Bool × MapT)
    (t : Heap) : Prop where
  ret : r'.1 = r.1
  sets : Sets M n m r.2 r'.2 t

section Parts

variable {A : Allocator} {h t : Heap} {M : Sys.Blocks} {m m₁ m₂ : MapT} {n n₁ n₂ : ℕ}
  {dict d₁ d₂ : HttpMap} {r : Bool × HttpMap} {r' : Bool × MapT} {key s mem : Bytes}

/-- Nothing is stored. -/
theorem Sets.refl (ho : Owns h (m.blocks + M)) : Sets M 0 m m.toMap m h := ⟨ho, le_rfl, rfl⟩

/-- One thing is stored and then another: the blocks add up, and the dictionary
is the one behind both. -/
theorem Sets.trans {t' : Heap} (h₁ : Sets M n₁ m d₁ m₁ t) (h₂ : Sets M n₂ m₁ d₂ m₂ t') :
    Sets M (n₁ + n₂) m d₂ m₂ t' :=
  ⟨h₂.owns, by have := h₁.card; have := h₂.card; omega, h₂.toMap⟩

/-- A bound for the blocks may be made larger. -/
theorem Sets.mono (hs : Sets M n₁ m dict m₁ t) (hn : n₁ ≤ n) : Sets M n m dict m₁ t :=
  ⟨hs.owns, by have := hs.card; omega, hs.toMap⟩

/-- The dictionary is the one there is, so what follows may be said of it. -/
theorem Sets.self (hs : Sets M n m dict m₁ t) : Sets M n m m₁.toMap m₁ t := ⟨hs.owns, hs.card, rfl⟩

/-- A way out behind what was stored: the parser returns with the dictionary as
it is. -/
theorem Sets.ret (hs : Sets M n₁ m dict m₁ t) (hn : n₁ ≤ n) (b : Bool) :
    Ends (return (b, m₁) : Alloc (Bool × MapT)) t (Parses M n m (b, dict)) :=
  ends_pure ⟨rfl, hs.mono hn⟩

/-- A string that ends at its first NUL ends there once more. -/
theorem cstr_cstr (s : Bytes) : cstr (cstr s) = cstr s :=
  Lib.cstr_of_not_mem fun h => absurd (List.mem_takeWhile_imp h) (by simp)

/-- A key is set, and two blocks are taken at most: a key that is there keeps
its copy. -/
theorem mapSet_ends (ho : Owns h (m.blocks + M)) (hroom : (m.blocks + M).card + 2 ≤ MEMORY_LEN)
    (v : Option Bytes) :
    Ends (httpMapSet A m (some key) v) h (Sets M 2 m (Http.httpMapSet m.toMap key v)) :=
  (httpMapSet_ends ho hroom key v).mono fun _ _ ht => ⟨ht.1, ht.2.1, ht.2.2⟩

/-- A copy of a piece of the buffer is one block, and reads up to the first NUL. -/
theorem httpStrndup_ends (ho : Owns h M) (hroom : M.card < MEMORY_LEN) (s : Bytes) :
    Ends (httpStrndup A s) h fun v t => Owns t (v.block + M) ∧ v.bytes = cstr s :=
  (Sys.httpMalloc_ends ho hroom _).seq fun _ _ ht => ends_pure ⟨ht, rfl⟩

/-- A value is stored as what is before its first NUL, so a copy that was cut
there is stored as the value itself would be. -/
theorem httpMapSet_cstr (d : HttpMap) (k : Bytes) (v : Option Bytes) :
    Http.httpMapSet d (cstr k) (v.map cstr) = Http.httpMapSet d k v := by
  cases v <;> simp [Http.httpMapSet, cstr_cstr]

/-- A piece is copied, stored and the copy freed: what stays are the blocks of
the entry. -/
theorem setCopy_ends (ho : Owns h (m.blocks + M)) (hroom : (m.blocks + M).card + 3 ≤ MEMORY_LEN)
    (key s : Bytes) :
    Ends (setCopy A m key s) h (Sets M 2 m (Http.httpMapSet m.toMap key (some s))) := by
  refine (httpStrndup_ends ho (by omega) s).seq ?_
  rintro v t ⟨hv, hbytes⟩
  rw [show v.block + (m.blocks + M) = m.blocks + (v.block + M) by abel] at hv
  have hroom' : (m.blocks + (v.block + M)).card + 2 ≤ MEMORY_LEN := by
    simp only [Multiset.card_add, Str.block, Sys.card_block] at hroom ⊢
    omega
  refine (httpMapSet_ends hv hroom' key (some v.bytes)).seq ?_
  rintro m' t ⟨hm, hcard, hmap⟩
  rw [show m'.blocks + (v.block + M) = v.block + (m'.blocks + M) by abel] at hm
  refine (Sys.httpFree_ends hm).seq fun _ t ht => ends_pure ⟨ht, hcard, ?_⟩
  rw [hmap, hbytes]
  simp [Http.httpMapSet, cstr_cstr]

/-- A part of a parser that stores something, and then the rest. -/
theorem Sets.seq {x : Alloc MapT} {f : MapT → Alloc (Bool × MapT)}
    (hx : Ends x h (Sets M n₁ m d₁))
    (hf : ∀ m₁ t, Sets M n₁ m d₁ m₁ t → Ends (f m₁) t (Parses M n m r)) :
    Ends (x >>= f) h (Parses M n m r) := Ends.seq hx hf

/-- The room that is left behind what was stored. -/
theorem Sets.room (hs : Sets M n₁ m dict m₁ t) {k : ℕ}
    (hroom : (m.blocks + M).card + (n₁ + k) ≤ MEMORY_LEN) :
    (m₁.blocks + M).card + k ≤ MEMORY_LEN := by
  have hcard := hs.card
  simp only [Multiset.card_add] at hroom ⊢
  omega

end Parts

section Lines

variable {A : Allocator} {h : Heap} {M : Sys.Blocks} {m : MapT} {mem : Bytes} {buf len : ℕ}

/-- **The request line is parsed as in `Http/Parse.lean`.**  Each of its ways
out is behind some of the three entries, and no copy is live at any of them. -/
theorem httpParseRequestLine_ends (ho : Owns h (m.blocks + M))
    (hroom : (m.blocks + M).card + 7 ≤ MEMORY_LEN) :
    Ends (httpParseRequestLine A mem buf len m) h
      (Parses M 6 m (Http.httpParseRequestLine mem buf len m.toMap)) := by
  rw [httpParseRequestLine, Http.httpParseRequestLine]
  have hnone : ∀ b, Ends (return (b, m) : Alloc (Bool × MapT)) h (Parses M 6 m (b, m.toMap)) :=
    (Sets.refl ho).ret (by omega)
  cases httpFindAlpha mem buf len with
  | none => exact hnone false
  | some s =>
  simp only
  cases httpFindChar mem s 32 (buf + len - s) with
  | none => exact hnone false
  | some p =>
  refine Sets.seq (setCopy_ends ho (by omega) HTTP_METHOD (slice mem s p)) fun m₁ t h₁ => ?_
  have hroom₁ := h₁.room (k := 5) hroom
  simp only [← h₁.toMap]
  replace h₁ := h₁.self
  split_ifs
  · exact h₁.ret (by omega) false
  cases httpFindChar mem (p + 1) 47 (buf + len - (p + 1)) with
  | none => exact h₁.ret (by omega) false
  | some s =>
  simp only
  cases httpFindChar mem s 32 (buf + len - s) with
  | none => exact h₁.ret (by omega) false
  | some p =>
  refine Sets.seq ((setCopy_ends h₁.owns (by omega) HTTP_URL (slice mem s p)).mono
    fun _ _ h₂ => h₁.trans h₂) fun m₂ t h₂ => ?_
  have hroom₂ := h₂.room (k := 3) hroom
  simp only [← h₂.toMap]
  replace h₂ := h₂.self
  split_ifs
  · exact h₂.ret (by omega) false
  cases strstr mem (p + 1) (ascii "HTTP/") with
  | none => exact h₂.ret (by omega) false
  | some p =>
  have hset : ∀ v : Bytes, Ends (httpMapSet A m₂ (some HTTP_VERSION) (some v) >>= fun hdr =>
      return (true, hdr)) t (Parses M 6 m (true, Http.httpMapSet m₂.toMap HTTP_VERSION (some v))) :=
    fun v => Sets.seq ((mapSet_ends h₂.owns (by omega) (some v)).mono fun _ _ h₃ => h₂.trans h₃)
      fun _ _ h₃ => h₃.ret (by omega) true
  simp only
  split_ifs
  · exact hset _
  · exact hset _
  · exact h₂.ret (by omega) false

/-- **The response line is parsed as in `Http/Parse.lean`**, with its own ways
out. -/
theorem httpParseResponseLine_ends (ho : Owns h (m.blocks + M))
    (hroom : (m.blocks + M).card + 7 ≤ MEMORY_LEN) :
    Ends (httpParseResponseLine A mem buf len m) h
      (Parses M 6 m (Http.httpParseResponseLine mem buf len m.toMap)) := by
  rw [httpParseResponseLine, Http.httpParseResponseLine]
  have hnone : ∀ b, Ends (return (b, m) : Alloc (Bool × MapT)) h (Parses M 6 m (b, m.toMap)) :=
    (Sets.refl ho).ret (by omega)
  cases httpFindAlpha mem buf len with
  | none => exact hnone false
  | some s =>
  simp only
  cases strstr mem s (ascii "HTTP/") with
  | none => exact hnone false
  | some p =>
  simp only
  generalize (if startsWith mem p (ascii "HTTP/1.1") then some (ascii "1.1")
    else if startsWith mem p (ascii "HTTP/1.0") then some (ascii "1.0") else none) = version
  cases version with
  | none => exact hnone false
  | some version =>
  refine Sets.seq (mapSet_ends ho (by omega) (some version)) fun m₁ t h₁ => ?_
  have hroom₁ := h₁.room (k := 5) hroom
  simp only [← h₁.toMap]
  replace h₁ := h₁.self
  cases httpFindDigit mem (p + 8) (buf + len - (p + 8)) with
  | none => exact h₁.ret (by omega) false
  | some s =>
  simp only
  cases httpFindChar mem s 32 (buf + len - s) with
  | none => exact h₁.ret (by omega) false
  | some p =>
  refine Sets.seq ((setCopy_ends h₁.owns (by omega) HTTP_STATUS (slice mem s p)).mono
    fun _ _ h₂ => h₁.trans h₂) fun m₂ t h₂ => ?_
  have hroom₂ := h₂.room (k := 3) hroom
  simp only [← h₂.toMap]
  replace h₂ := h₂.self
  split_ifs
  · exact h₂.ret (by omega) false
  · exact Sets.seq ((setCopy_ends h₂.owns (by omega) HTTP_MESSAGE (slice mem (p + 1)
      (buf + len))).mono fun _ _ h₃ => h₂.trans h₃) fun _ _ h₃ => h₃.ret (by omega) true

/-- The value of a header is copied, if it has one.  A line with blanks only
behind the colon has none, and is stored with `NULL`. -/
theorem copyValue_ends (ho : Owns h M) (hroom : M.card < MEMORY_LEN) (v : Option Bytes) :
    Ends (copyValue A v) h fun o t => Owns t (optBlock o + M) ∧ o.map Str.bytes = v.map cstr := by
  cases v with
  | none => exact ends_pure ⟨by rwa [optBlock, zero_add], rfl⟩
  | some s =>
    refine (httpStrndup_ends ho hroom s).seq fun o t ht => ends_pure ⟨ht.1, ?_⟩
    rw [Option.map_some, Option.map_some, ht.2]

/-- **A header line is parsed as in `Http/Parse.lean`**: the copies of the key
and the value are freed behind `http_map_set`, which makes its own. -/
theorem httpParseHeader_ends (ho : Owns h (m.blocks + M))
    (hroom : (m.blocks + M).card + 4 ≤ MEMORY_LEN) :
    Ends (httpParseHeader A mem buf len m) h
      (Parses M 2 m (Http.httpParseHeader mem buf len m.toMap)) := by
  rw [httpParseHeader, Http.httpParseHeader]
  have hnone : ∀ b, Ends (return (b, m) : Alloc (Bool × MapT)) h (Parses M 2 m (b, m.toMap)) :=
    (Sets.refl ho).ret (by omega)
  cases httpFindAlpha mem buf len with
  | none => exact hnone false
  | some s =>
  simp only
  cases httpFindChar mem s 58 (buf + len - s) with
  | none => exact hnone false
  | some pcolon =>
  simp only
  generalize slice mem s (skipSpacesBack mem pcolon) = name
  generalize headerValue mem pcolon (buf + len) = value
  refine (httpStrndup_ends ho (by omega) name).seq ?_
  rintro k t ⟨hk, hname⟩
  refine (copyValue_ends hk (by
    rw [Multiset.card_add, Str.block, Sys.card_block]; omega) value).seq ?_
  rintro v t ⟨hv, hvalue⟩
  rw [show optBlock v + (k.block + (m.blocks + M)) = m.blocks + (k.block + (optBlock v + M)) by
    abel] at hv
  have hcard := card_optBlock_le v
  have hroom' : (m.blocks + (k.block + (optBlock v + M))).card + 2 ≤ MEMORY_LEN := by
    simp only [Multiset.card_add, Str.block, Sys.card_block] at hroom ⊢
    omega
  refine (httpMapSet_ends hv hroom' k.bytes (v.map Str.bytes)).seq ?_
  rintro m' t ⟨hm, hcard', hmap⟩
  rw [show m'.blocks + (k.block + (optBlock v + M)) = k.block + (optBlock v + (m'.blocks + M)) by
    abel] at hm
  refine (Sys.httpFree_ends hm).seq fun _ t ht => ?_
  refine (freeStr_ends ht).seq fun _ t ht => ends_pure ⟨rfl, ht, hcard', ?_⟩
  rw [hmap, hname, hvalue, httpMapSet_cstr]

/-- **Every line is parsed as in `Http/Parse.lean`**, and none leaves a copy
behind.  The first one stores three entries at most and each other line one. -/
theorem httpParseLine_ends (type : HttpParseType) (lineno : ℕ) (ho : Owns h (m.blocks + M))
    (hroom : (m.blocks + M).card + (if lineno = 0 then 7 else 4) ≤ MEMORY_LEN) :
    Ends (httpParseLine A type lineno mem buf len m) h
      (Parses M (if lineno = 0 then 6 else 2) m
        (Http.httpParseLine type lineno mem buf len m.toMap)) := by
  unfold httpParseLine
  rw [Http.httpParseLine]
  split_ifs at hroom ⊢
  · cases type with
    | request => exact httpParseRequestLine_ends ho hroom
    | response => exact httpParseResponseLine_ends ho hroom
  · exact httpParseHeader_ends ho hroom

/-- The blocks that are added in the loop: six for the first line and two for
each later one, of which each takes three bytes. -/
theorem parseLinesLoop_ends (type : HttpParseType) {n p linebuf lineno b : ℕ}
    (ho : Owns h (m.blocks + M)) (hb : p + n + 1 ≤ linebuf + 3 * b)
    (hroom : (m.blocks + M).card + (2 * b + if lineno = 0 then 8 else 4) ≤ MEMORY_LEN) :
    Ends (parseLinesLoop A type mem n p linebuf lineno m) h
      (Parses M (2 * b + if lineno = 0 then 4 else 0) m
        (Http.parseLinesLoop type mem n p linebuf lineno m.toMap)) := by
  induction n generalizing p linebuf lineno b m h with
  | zero => exact (Sets.refl ho).ret (Nat.zero_le _) true
  | succ n ih =>
    rw [parseLinesLoop, Http.parseLinesLoop]
    by_cases hcrlf : atCrlf mem p = true
    · rw [if_pos hcrlf, if_pos hcrlf]
      by_cases hempty : p ≤ linebuf
      · rw [if_pos hempty, if_pos hempty]
        exact (Sets.refl ho).ret (Nat.zero_le _) true
      · rw [if_neg hempty, if_neg hempty]
        have hadd : (if lineno = 0 then 6 else 2) + 2 * (b - 1) =
            2 * b + if lineno = 0 then 4 else 0 := by
          split_ifs <;> omega
        refine (httpParseLine_ends type lineno ho (by split_ifs at hroom ⊢ <;> omega)).seq ?_
        rintro ⟨ok, m'⟩ t ⟨hret, hsets⟩
        generalize Http.httpParseLine type lineno mem linebuf (p - linebuf) m.toMap = r
          at hret hsets
        obtain ⟨ok', dict⟩ := r
        obtain rfl : ok = ok' := hret
        obtain rfl : m'.toMap = dict := hsets.toMap
        cases ok with
        | false => exact hsets.ret (by split_ifs <;> omega) false
        | true =>
          have hroom' : (m.blocks + M).card + ((if lineno = 0 then 6 else 2) +
              (2 * (b - 1) + 4)) ≤ MEMORY_LEN := by
            split_ifs at hroom ⊢ <;> omega
          have hrest := @ih t m' (p + 1) (p + 2) (lineno + 1) (b - 1) hsets.owns (by omega)
            (by simpa using hsets.room hroom')
          rw [if_neg (Nat.succ_ne_zero lineno)] at hrest
          rw [← hadd]
          exact hrest.mono fun r' u hr => ⟨hr.ret, hsets.trans hr.sets⟩
    · rw [if_neg hcrlf, if_neg hcrlf]
      exact ih ho (by omega) hroom

/-- **`http_parse_request_headers` and `http_parse_response_headers` leave no
copy behind**, for every buffer and wherever they end: the ledger has what the
dictionary owns. -/
theorem httpParseLines_ends (type : HttpParseType) (mem : Bytes) (buflen : ℕ) {b : ℕ}
    (ho : Owns h (m.blocks + M)) (hb : buflen ≤ 3 * b)
    (hroom : (m.blocks + M).card + (2 * b + 8) ≤ MEMORY_LEN) :
    Ends (httpParseLines A type mem buflen m) h
      (Parses M (2 * b + 4) m (Http.httpParseLines type mem buflen m.toMap)) := by
  cases b with
  | zero =>
    obtain rfl : buflen = 0 := by omega
    exact (Sets.refl ho).ret (Nat.zero_le _) true
  | succ b => exact parseLinesLoop_ends type ho (by omega) (by simpa using hroom)

end Lines

end Blocks
end Http
end Dukserver
