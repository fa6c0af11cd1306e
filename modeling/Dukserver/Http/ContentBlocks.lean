/-
# Contents in blocks of memory

`libhttpd/http_content.c`, and `http_start_response`, `http_start_request`, `http_header`
and `http_write` (`libhttpd/http_sendrecv.c`, lines 549-625), with the blocks they take and
give back.  A content owns seven blocks and those of its dictionary; the body buffer moves
when `http_write` makes it larger.

The content behind the addresses is the one of `Http/Content.lean` (`ContentT.toContent`),
and every call keeps both: the content is what it is there, and the ledger has what it
owns (`buildT_ends`, `httpContentDelete_ends`).
-/

import Dukserver.Http.Build
import Dukserver.Http.ParseBlocks
import Dukserver.Http.SendRequest

namespace Dukserver
namespace Http
namespace Blocks

open Lib (Bytes ascii cstr sprintfD)
open Lib.Effects (Ends ends_pure)
open Sys (Alloc Allocator Heap Owns httpMalloc httpRealloc httpFree MEMORY_LEN)

/-- `sizeof(http_content_t)`, `sizeof(http_buffer_t)` and
`sizeof(http_reference_t)`. -/
def CONTENT_SIZE : ℤ := 40
def BUFFER_SIZE : ℤ := 16
def REFERENCE_SIZE : ℤ := 16

/-- `http_buffer_t`: its block and the one of its bytes. -/
structure BufferT where
  p : ℕ
  buf : ℕ
  buffer : HttpBuffer
  deriving DecidableEq, Repr

/-- `http_reference_t` with its block. -/
structure ReferenceT where
  p : ℕ
  ref : HttpReference
  deriving DecidableEq, Repr

/-- `http_content_t` with its blocks. -/
structure ContentT where
  p : ℕ
  headerbuf : BufferT
  bodybuf : BufferT
  header : ReferenceT
  body : ReferenceT
  dict : MapT
  deriving DecidableEq, Repr

/-- The content without its addresses. -/
def ContentT.toContent (ct : ContentT) : HttpContent where
  headerbuf := ct.headerbuf.buffer
  bodybuf := ct.bodybuf.buffer
  header := ct.header.ref
  body := ct.body.ref
  dict := ct.dict.toMap

/-- A buffer of `HTTP_MAX_BUFFER_SIZE` bytes. -/
def newBuffer (A : Allocator) : Alloc BufferT := do
  let p ← httpMalloc A BUFFER_SIZE
  let buf ← httpMalloc A HTTP_MAX_BUFFER_SIZE
  return ⟨p, buf, ⟨[], HTTP_MAX_BUFFER_SIZE, 0⟩⟩

/-- A reference to nothing. -/
def newReference (A : Allocator) : Alloc ReferenceT := do
  let p ← httpMalloc A REFERENCE_SIZE
  return ⟨p, ⟨.null, 0⟩⟩

/-- `http_content_new`. -/
def httpContentNew (A : Allocator) : Alloc ContentT := do
  let p ← httpMalloc A CONTENT_SIZE
  let headerbuf ← newBuffer A
  let header ← newReference A
  let body ← newReference A
  let bodybuf ← newBuffer A
  let dict ← httpMapNew A HTTP_DEFAULT_HEADERS_COUNT
  return { p, headerbuf, bodybuf, header, body, dict }

/-- `http_content_delete`, without the temporary file. -/
def httpContentDelete (ct : ContentT) : Alloc PUnit := do
  httpFree ct.headerbuf.buf
  httpFree ct.headerbuf.p
  httpFree ct.header.p
  httpFree ct.body.p
  httpFree ct.bodybuf.buf
  httpFree ct.bodybuf.p
  httpMapDelete ct.dict
  httpFree ct.p

/-- Calls of `http_map_set` on the dictionary, one after the other. -/
def setAll (A : Allocator) (ct : ContentT) (pairs : List (Bytes × Option Bytes)) :
    Alloc ContentT := do
  let dict ← pairs.foldlM (fun m q => httpMapSet A m (some q.1) q.2) ct.dict
  return { ct with dict }

/-- What `http_start_response` sets. -/
def responsePairs (date : Bytes) (status : ℤ) : List (Bytes × Option Bytes) :=
  [(HTTP_VERSION, some (ascii "HTTP/1.1")), (HTTP_STATUS, some (sprintfD status)),
   (ascii "Date", some date), (ascii "Server", some HTTP_DEFAULT_SERVER),
   (ascii "Content-Type", some HTTP_DEFAULT_CONTENT_TYPE)]

/-- `http_start_response`. -/
def httpStartResponse (A : Allocator) (date : Bytes) (ct : ContentT) (status : ℤ) :
    Alloc ContentT := setAll A ct (responsePairs date status)

/-- What `http_start_request` sets. -/
def requestPairs (method url : Bytes) : List (Bytes × Option Bytes) :=
  [(HTTP_METHOD, some method), (HTTP_URL, some url), (HTTP_VERSION, some (ascii "HTTP/1.1")),
   (ascii "User-Agent", some (ascii "libhttp/1.0.0")), (ascii "Accept", some (ascii "*/*")),
   (ascii "Host", some (ascii "127.0.0.1"))]

/-- `http_start_request`. -/
def httpStartRequest (A : Allocator) (ct : ContentT) (method url : Option Bytes) :
    Alloc ContentT :=
  match method, url with
  | some method, some url => do
    let ct ← setAll A ct (requestPairs method url)
    return { ct with body := { ct.body with ref := ⟨.bodybuf 0, 0⟩ } }
  | _, _ => return ct

/-- `http_header`, with a key that is not `NULL`. -/
def httpHeader (A : Allocator) (ct : ContentT) (key : Bytes) (value : Option Bytes) :
    Alloc ContentT := setAll A ct [(key, value)]

/-- The content behind a call of `http_write` that leaves the body buffer at
`buf`. -/
def ContentT.written (ct : ContentT) (buf : ℕ) (buffer : Bytes) (nrBytes : ℤ) : ContentT :=
  let c := Http.httpWrite ct.toContent buffer nrBytes
  { ct with bodybuf := ⟨ct.bodybuf.p, buf, c.bodybuf⟩, body := { ct.body with ref := c.body } }

/-- `http_write`. -/
def httpWrite (A : Allocator) (ct : ContentT) (buffer : Bytes) (nrBytes : ℤ) : Alloc ContentT :=
  if nrBytes ≤ 0 then return ct
  else if (ct.bodybuf.buffer.maxsize : ℤ) < ct.bodybuf.buffer.size + nrBytes then do
    let buf ← httpRealloc A ct.bodybuf.buf (ct.bodybuf.buffer.size + nrBytes)
    return ct.written buf buffer nrBytes
  else return ct.written ct.bodybuf.buf buffer nrBytes

/-! ### What is owned -/

/-- The blocks of a buffer. -/
def BufferT.blocks (b : BufferT) : Sys.Blocks :=
  Sys.block b.p BUFFER_SIZE + Sys.block b.buf b.buffer.maxsize

/-- All blocks of a content. -/
def ContentT.blocks (ct : ContentT) : Sys.Blocks :=
  Sys.block ct.p CONTENT_SIZE + ct.headerbuf.blocks + ct.bodybuf.blocks +
    Sys.block ct.header.p REFERENCE_SIZE + Sys.block ct.body.p REFERENCE_SIZE + ct.dict.blocks

/-- The blocks of a content but the one of its body. -/
def ContentT.rest (ct : ContentT) : Sys.Blocks :=
  Sys.block ct.p CONTENT_SIZE + ct.headerbuf.blocks + Sys.block ct.bodybuf.p BUFFER_SIZE +
    Sys.block ct.header.p REFERENCE_SIZE + Sys.block ct.body.p REFERENCE_SIZE + ct.dict.blocks

/-- The blocks of a content but those of its dictionary. -/
def ContentT.shell (ct : ContentT) : Sys.Blocks :=
  Sys.block ct.p CONTENT_SIZE + ct.headerbuf.blocks + ct.bodybuf.blocks +
    Sys.block ct.header.p REFERENCE_SIZE + Sys.block ct.body.p REFERENCE_SIZE

/-- The content `ct` has become `c`, it owns at most `n` blocks more, and no
other blocks are left. -/
structure Becomes (M : Sys.Blocks) (n : ℕ) (ct : ContentT) (c : HttpContent) (ct' : ContentT)
    (t : Heap) : Prop where
  owns : Owns t (ct'.blocks + M)
  card : ct'.blocks.card ≤ ct.blocks.card + n
  toContent : ct'.toContent = c

section Parts

variable {A : Allocator} {h t : Heap} {M : Sys.Blocks} {ct ct₁ ct₂ : ContentT} {n n₁ n₂ : ℕ}
  {c c₁ c₂ : HttpContent}

/-- A buffer owns two blocks: its record and its bytes. -/
theorem BufferT.card_blocks (b : BufferT) : b.blocks.card = 2 := by
  simp [BufferT.blocks]

/-- A content owns seven blocks and those of its dictionary. -/
theorem ContentT.card_blocks (ct : ContentT) : ct.blocks.card = 7 + ct.dict.blocks.card := by
  simp only [ContentT.blocks, Multiset.card_add, Sys.card_block, BufferT.card_blocks]

/-- The bytes of the body buffer, and the other blocks: `http_write` moves the
first only. -/
theorem ContentT.blocks_eq (ct : ContentT) :
    ct.blocks = Sys.block ct.bodybuf.buf ct.bodybuf.buffer.maxsize + ct.rest := by
  have hbody : ct.bodybuf.blocks = Sys.block ct.bodybuf.p BUFFER_SIZE +
      Sys.block ct.bodybuf.buf ct.bodybuf.buffer.maxsize := rfl
  rw [ContentT.blocks, ContentT.rest, hbody]
  abel

/-- Only the dictionary changes with the dictionary. -/
theorem ContentT.blocks_dict (ct : ContentT) (dict : MapT) :
    ({ ct with dict } : ContentT).blocks = dict.blocks + ct.shell := by
  rw [ContentT.blocks, ContentT.shell]
  abel

/-- A call that does nothing leaves the content as it is. -/
theorem Becomes.refl (ho : Owns h (ct.blocks + M)) : Becomes M 0 ct ct.toContent ct h :=
  ⟨ho, le_rfl, rfl⟩

/-- One call after another: the new blocks add up. -/
theorem Becomes.trans {t' : Heap} (h₁ : Becomes M n₁ ct c₁ ct₁ t)
    (h₂ : Becomes M n₂ ct₁ c₂ ct₂ t') : Becomes M (n₁ + n₂) ct c₂ ct₂ t' :=
  ⟨h₂.owns, by have := h₁.card; have := h₂.card; omega, h₂.toContent⟩

/-- A bound for the new blocks may be made larger. -/
theorem Becomes.mono (hb : Becomes M n₁ ct c ct₁ t) (hn : n₁ ≤ n) : Becomes M n ct c ct₁ t :=
  ⟨hb.owns, by have := hb.card; omega, hb.toContent⟩

/-- The room that is left behind a call. -/
theorem Becomes.room (hb : Becomes M n₁ ct c ct₁ t) {k : ℕ}
    (hroom : (ct.blocks + M).card + (n₁ + k) ≤ MEMORY_LEN) :
    (ct₁.blocks + M).card + k ≤ MEMORY_LEN := by
  have hcard := hb.card
  simp only [Multiset.card_add] at hroom ⊢
  omega

/-- A new buffer takes its two blocks, and holds nothing.  The second one has
the largest size that the buffer can have when it is received into. -/
theorem newBuffer_ends (ho : Owns h M) (hroom : M.card + 2 ≤ MEMORY_LEN) :
    Ends (newBuffer A) h fun b t => Owns t (b.blocks + M) ∧
      b.buffer = ⟨[], HTTP_MAX_BUFFER_SIZE, 0⟩ := by
  refine (Sys.httpMalloc_ends ho (by omega) BUFFER_SIZE).seq fun p t ht => ?_
  refine (Sys.httpMalloc_ends ht (by rw [Multiset.card_add, Sys.card_block]; omega) _).seq
    fun buf t ht => ends_pure ⟨ht.of_eq ?_, rfl⟩
  rw [BufferT.blocks]
  abel

/-- A new reference takes one block, and refers to nothing. -/
theorem newReference_ends (ho : Owns h M) (hroom : M.card + 1 ≤ MEMORY_LEN) :
    Ends (newReference A) h fun r t => Owns t (Sys.block r.p REFERENCE_SIZE + M) ∧
      r.ref = ⟨.null, 0⟩ :=
  (Sys.httpMalloc_ends ho (by omega) REFERENCE_SIZE).seq fun _ _ ht => ends_pure ⟨ht, rfl⟩

/-- **A new content** owns nine blocks: seven of its own and the two of an empty
dictionary. -/
theorem httpContentNew_ends (ho : Owns h M) (hroom : M.card + 9 ≤ MEMORY_LEN) :
    Ends (httpContentNew A) h fun ct t => Owns t (ct.blocks + M) ∧ ct.blocks.card = 9 ∧
      ct.toContent = Http.httpContentNew := by
  refine (Sys.httpMalloc_ends ho (by omega) CONTENT_SIZE).seq fun p t ht => ?_
  refine (newBuffer_ends ht (by simp only [Multiset.card_add, Sys.card_block]; omega)).seq ?_
  rintro headerbuf t ⟨ht, hheaderbuf⟩
  refine (newReference_ends ht (by
    simp only [Multiset.card_add, Sys.card_block, BufferT.card_blocks]; omega)).seq ?_
  rintro header t ⟨ht, hheader⟩
  refine (newReference_ends ht (by
    simp only [Multiset.card_add, Sys.card_block, BufferT.card_blocks]; omega)).seq ?_
  rintro body t ⟨ht, hbody⟩
  refine (newBuffer_ends ht (by
    simp only [Multiset.card_add, Sys.card_block, BufferT.card_blocks]; omega)).seq ?_
  rintro bodybuf t ⟨ht, hbodybuf⟩
  refine (httpMapNew_ends ht (by
    simp only [Multiset.card_add, Sys.card_block, BufferT.card_blocks]; omega) _).seq ?_
  rintro dict t ⟨ht, hcard, hdict⟩
  refine ends_pure ⟨ht.of_eq ?_, ?_, ?_⟩
  · rw [ContentT.blocks]
    abel
  · rw [ContentT.card_blocks, hcard]
  · rw [ContentT.toContent, hheaderbuf, hheader, hbody, hbodybuf, hdict]
    rfl

/-- **`http_content_delete` gives back what the content owns**, the copies in
its dictionary among them, so that the ledger has what it had before. -/
theorem httpContentDelete_ends (ho : Owns h (ct.blocks + M)) :
    Ends (httpContentDelete ct) h fun _ t => Owns t M := by
  have hsplit : ct.blocks + M = Sys.block ct.headerbuf.buf ct.headerbuf.buffer.maxsize +
      (Sys.block ct.headerbuf.p BUFFER_SIZE + (Sys.block ct.header.p REFERENCE_SIZE +
      (Sys.block ct.body.p REFERENCE_SIZE +
      (Sys.block ct.bodybuf.buf ct.bodybuf.buffer.maxsize + (Sys.block ct.bodybuf.p BUFFER_SIZE +
      (ct.dict.blocks + (Sys.block ct.p CONTENT_SIZE + M))))))) := by
    rw [ContentT.blocks, BufferT.blocks, BufferT.blocks]
    abel
  rw [hsplit] at ho
  exact (Sys.httpFree_ends ho).seq fun _ _ h₁ => (Sys.httpFree_ends h₁).seq fun _ _ h₂ =>
    (Sys.httpFree_ends h₂).seq fun _ _ h₃ => (Sys.httpFree_ends h₃).seq fun _ _ h₄ =>
    (Sys.httpFree_ends h₄).seq fun _ _ h₅ => (Sys.httpFree_ends h₅).seq fun _ _ h₆ =>
    (httpMapDelete_ends h₆).seq fun _ _ h₇ => Sys.httpFree_ends h₇

/-! ### The calls -/

/-- **Every `http_map_set` is that of `Http/Map.lean`**, and owns at most two
blocks more.  The calls below are lists of such settings. -/
theorem setAll_ends (pairs : List (Bytes × Option Bytes)) (ho : Owns h (ct.blocks + M))
    (hroom : (ct.blocks + M).card + 2 * pairs.length ≤ MEMORY_LEN) :
    Ends (setAll A ct pairs) h (Becomes M (2 * pairs.length) ct { ct.toContent with
      dict := pairs.foldl (fun d q => Http.httpMapSet d q.1 q.2) ct.toContent.dict }) := by
  have hloop : ∀ {h : Heap} {m : MapT} (l : List (Bytes × Option Bytes)),
      Owns h (({ ct with dict := m } : ContentT).blocks + M) →
      (({ ct with dict := m } : ContentT).blocks + M).card + 2 * l.length ≤ MEMORY_LEN →
      Ends (l.foldlM (fun m q => httpMapSet A m (some q.1) q.2) m) h fun m' t =>
        Owns t (({ ct with dict := m' } : ContentT).blocks + M) ∧
        m'.blocks.card ≤ m.blocks.card + 2 * l.length ∧
        m'.toMap = l.foldl (fun d q => Http.httpMapSet d q.1 q.2) m.toMap := by
    intro h m l
    induction l generalizing h m with
    | nil => exact fun ho _ => ends_pure ⟨ho, Nat.le_add_right _ _, rfl⟩
    | cons q l ih =>
      intro ho hroom
      rw [ct.blocks_dict, add_assoc] at ho hroom
      rw [List.length_cons] at hroom ⊢
      rw [List.foldlM_cons]
      refine (httpMapSet_ends ho (by omega) q.1 q.2).seq ?_
      rintro m' t ⟨ht, hcard, hmap⟩
      rw [← add_assoc, ← ct.blocks_dict] at ht
      refine (ih ht ?_).mono ?_
      · rw [ct.blocks_dict]
        simp only [Multiset.card_add] at hroom ⊢
        omega
      · rintro m'' t ⟨ht, hcard', hmap'⟩
        exact ⟨ht, by omega, by rw [hmap', hmap]; rfl⟩
  refine (hloop pairs ho hroom).seq ?_
  rintro m' t ⟨ht, hcard, hmap⟩
  refine ends_pure ⟨ht, ?_, ?_⟩
  · rw [ContentT.card_blocks, ContentT.card_blocks, add_assoc]
    exact Nat.add_le_add_left hcard 7
  · rw [ContentT.toContent, hmap]
    rfl

/-- `http_start_response` sets five entries, so it owns ten blocks more at most. -/
theorem httpStartResponse_ends (ho : Owns h (ct.blocks + M))
    (hroom : (ct.blocks + M).card + 10 ≤ MEMORY_LEN) (date : Bytes) (status : ℤ) :
    Ends (httpStartResponse A date ct status) h
      (Becomes M 10 ct (Http.httpStartResponse date ct.toContent status)) :=
  setAll_ends (responsePairs date status) ho hroom

/-- `http_start_request` sets six entries, unless the method or the URL is
`NULL`. -/
theorem httpStartRequest_ends (ho : Owns h (ct.blocks + M))
    (hroom : (ct.blocks + M).card + 12 ≤ MEMORY_LEN) (method url : Option Bytes) :
    Ends (httpStartRequest A ct method url) h
      (Becomes M 12 ct (Http.httpStartRequest ct.toContent method url)) := by
  cases method with
  | none => exact ends_pure ((Becomes.refl ho).mono (Nat.zero_le _))
  | some method =>
    cases url with
    | none => exact ends_pure ((Becomes.refl ho).mono (Nat.zero_le _))
    | some url =>
      refine (setAll_ends (requestPairs method url) ho hroom).seq fun ct' t hct => ends_pure ?_
      refine ⟨hct.owns, hct.card, ?_⟩
      have hcontent := hct.toContent
      rw [ContentT.toContent, HttpContent.mk.injEq] at hcontent
      obtain ⟨h₁, h₂, h₃, h₄, h₅⟩ := hcontent
      rw [ContentT.toContent, h₁, h₂, h₃, h₅]
      rfl

/-- `http_header` sets one entry. -/
theorem httpHeader_ends (ho : Owns h (ct.blocks + M))
    (hroom : (ct.blocks + M).card + 2 ≤ MEMORY_LEN) (key : Bytes) (value : Option Bytes) :
    Ends (httpHeader A ct key value) h
      (Becomes M 2 ct (Http.httpHeader ct.toContent key value)) :=
  setAll_ends [(key, value)] ho hroom

/-- **`http_write` makes the body buffer larger where it has to**, and owns no
block more: `realloc` gives one block for another. -/
theorem httpWrite_ends (ho : Owns h (ct.blocks + M)) (buffer : Bytes) (nrBytes : ℤ) :
    Ends (httpWrite A ct buffer nrBytes) h
      (Becomes M 0 ct (Http.httpWrite ct.toContent buffer nrBytes)) := by
  have hcontent : 0 < nrBytes → ∀ buf, (ct.written buf buffer nrBytes).toContent =
      Http.httpWrite ct.toContent buffer nrBytes := by
    intro hpos buf
    rw [ContentT.written, ContentT.toContent, Http.httpWrite, if_neg (by omega)]
    rfl
  have hcard : ∀ buf, (ct.written buf buffer nrBytes).blocks.card ≤ ct.blocks.card + 0 := by
    intro buf
    rw [ContentT.card_blocks, ContentT.card_blocks]
    exact le_rfl
  have hmax : 0 < nrBytes → (Http.httpWrite ct.toContent buffer nrBytes).bodybuf.maxsize =
      if (ct.bodybuf.buffer.maxsize : ℤ) < ct.bodybuf.buffer.size + nrBytes then
        (ct.bodybuf.buffer.size + nrBytes).toNat else ct.bodybuf.buffer.maxsize := by
    intro hpos
    rw [Http.httpWrite, if_neg (by omega)]
    rfl
  rw [httpWrite]
  split_ifs with hpos hlarge
  · rw [Http.httpWrite, if_pos hpos]
    exact ends_pure (Becomes.refl ho)
  · rw [ct.blocks_eq, add_assoc] at ho
    refine (Sys.httpRealloc_ends ho _).seq fun buf t ht => ends_pure ⟨ht.of_eq ?_, hcard buf,
      hcontent (by omega) buf⟩
    have hnew := hmax (by omega)
    rw [if_pos hlarge] at hnew
    rw [ContentT.blocks_eq, add_assoc]
    show _ = Sys.block buf (Http.httpWrite ct.toContent buffer nrBytes).bodybuf.maxsize + _
    rw [hnew, Int.toNat_of_nonneg (by omega)]
    rfl
  · refine ends_pure ⟨ho.of_eq ?_, hcard _, hcontent (by omega) _⟩
    have hnew := hmax (by omega)
    rw [if_neg hlarge] at hnew
    rw [ContentT.blocks_eq, ContentT.blocks_eq]
    show _ = Sys.block ct.bodybuf.buf (Http.httpWrite ct.toContent buffer nrBytes).bodybuf.maxsize
      + _ + _
    rw [hnew]
    rfl

end Parts

end Blocks
end Http
end Dukserver
