/-
# The blocks of a form that is encoded

`libhttpd/http_urlencode.c` with the blocks it allocates and what it writes to its buffer.
It frees the quoted key of an entry, and after a value it frees the quoted key once more
instead of the quoted value.  If `malloc` gives the address of the key to the value, this is
the same and nothing is lost (`httpUrlencode_ends`); if the address is free, the process
ends (`encodeEntry_fails`).

The buffer is doubled at most once for each text, and `writesInBounds_iff` says for which
maps this is enough.  The numbers of the source that are `int`s are taken modulo `2 ^ 32`.
The strings of a map have no NUL.
-/

import Dukserver.Http.Blocks
import Dukserver.Http.UrlEncode

namespace Dukserver
namespace Http
namespace Blocks

open Lib (Bytes toInt32)
open Lib.Effects (Ends Post ends_pure post_pure post_true post_of_exec_error)
open Sys (Alloc Allocator Heap Owns GivesBack JustFreed Gone httpMalloc httpRealloc httpFree
  writeBytes neverReused MEMORY_LEN live)

/-- The buffer of a form: its block, `encoded_maxsize` and the text before the
last NUL. -/
structure Encoded where
  p : ℕ
  maxsize : ℤ
  text : Bytes
  deriving DecidableEq, Repr

/-- `encoded_size`. -/
def Encoded.size (b : Encoded) : ℤ := toInt32 b.text.length

/-- `http_quote` with a place for the result. -/
def httpQuote (A : Allocator) (s : Bytes) : Alloc Str := do
  let size := toInt32 (3 * s.length + 1)
  let p ← httpMalloc A size
  return ⟨p, size, Http.httpQuote s⟩

/-- The room `http_urlencode` makes for a text that ends at `last`. -/
def reserve (A : Allocator) (last : ℤ) (b : Encoded) : Alloc Encoded :=
  if b.maxsize ≤ last then do
    let maxsize := toInt32 (b.maxsize * 2)
    let p ← httpRealloc A b.p maxsize
    return { b with p, maxsize }
  else return b

/-- A quoted text and its delimiter are appended; `len` counts the NUL, as in
the source. -/
def appendQuoted (A : Allocator) (quoted : Bytes) (delimiter : UInt8) (b : Encoded) :
    Alloc Encoded := do
  let len := quoted.length + 1
  let last := toInt32 (b.size + len)
  let b ← reserve A last b
  writeBytes b.size len b.maxsize
  writeBytes (toInt32 (last - 1)) 1 b.maxsize
  writeBytes last 1 b.maxsize
  return { b with text := b.text ++ quoted ++ [delimiter] }

/-- A string is quoted and appended; the address of the quoted text comes with
the buffer. -/
def appendText (A : Allocator) (s : Bytes) (delimiter : UInt8) (b : Encoded) :
    Alloc (Str × Encoded) := do
  let quoted ← httpQuote A s
  let b ← appendQuoted A quoted.bytes delimiter b
  return (quoted, b)

/-- The pass of the loop of `http_urlencode` for one entry. -/
def encodeEntry (A : Allocator) (b : Encoded) (p : Bytes × Option Bytes) : Alloc Encoded :=
  if p.1 = [] then return b
  else do
    let (k, b) ← appendText A p.1 61 b
    httpFree k.p
    match p.2 with
    | none => return b
    | some v =>
      if v = [] then return b
      else do
        let (_, b) ← appendText A v 38 b
        -- the key again, not the value
        httpFree k.p
        return b

/-- `http_urlencode` with a place for the result. -/
def httpUrlencode (A : Allocator) (m : HttpMap) : Alloc Encoded := do
  let p ← httpMalloc A 1000
  m.values.foldlM (encodeEntry A) ⟨p, 1000, []⟩

/-- The block of the buffer. -/
def Encoded.block (b : Encoded) : Sys.Blocks := Sys.block b.p b.maxsize

/-- What is written for an entry. -/
def entryForm (p : Bytes × Option Bytes) : Bytes := if p.1 = [] then [] else entryText p

variable {A : Allocator} {h : Heap} {M : Sys.Blocks} {b : Encoded} {s quoted : Bytes}
  {delimiter : UInt8} {m : HttpMap} {p : Bytes × Option Bytes} {q : ℕ} {last : ℤ}

/-! ### What is owned -/

/-- Quoting takes one block, which holds the quoted text. -/
theorem httpQuote_ends (ho : Owns h M) (hroom : M.card < MEMORY_LEN) (s : Bytes) :
    Ends (httpQuote A s) h fun quoted t => Owns t (quoted.block + M) ∧
      quoted.bytes = Http.httpQuote s := by
  rw [httpQuote]
  generalize toInt32 (3 * s.length + 1) = size
  exact (Sys.httpMalloc_ends ho hroom size).seq fun _ _ ht => ends_pure ⟨ht, rfl⟩

/-- The buffer is still one block when it has grown, with the same text in it. -/
theorem reserve_ends (ho : Owns h (b.block + M)) :
    Ends (reserve A last b) h fun b' t => Owns t (b'.block + M) ∧ b'.text = b.text := by
  rw [reserve]
  split_ifs
  · exact (Sys.httpRealloc_ends ho _).seq fun _ _ ht => ends_pure ⟨ht, rfl⟩
  · exact ends_pure ⟨ho, rfl⟩

/-- Writing takes and gives back nothing. -/
theorem writeBytes_ends (ho : Owns h M) (start : ℤ) (len : ℕ) (size : ℤ) :
    Ends (writeBytes start len size) h fun _ t => Owns t M :=
  ⟨_, _, Lib.Effects.exec_modify, ho⟩

/-- The text is appended, and the buffer may have moved.  It moves when it
grows, and its old block is given back by `http_realloc`. -/
theorem appendQuoted_ends (ho : Owns h (b.block + M)) :
    Ends (appendQuoted A quoted delimiter b) h fun b' t => Owns t (b'.block + M) ∧
      b'.text = b.text ++ quoted ++ [delimiter] := by
  refine (reserve_ends ho).seq ?_
  rintro b' t ⟨ht, htext⟩
  rw [← htext]
  exact (writeBytes_ends ht ..).seq fun _ _ ht => (writeBytes_ends ht ..).seq fun _ _ ht =>
    (writeBytes_ends ht ..).seq fun _ _ ht => ends_pure ⟨ht, rfl⟩

/-- A text is quoted and appended: the quoted text is one block more, for the
caller to free. -/
theorem appendText_ends (ho : Owns h (b.block + M)) (hroom : M.card + 2 ≤ MEMORY_LEN) :
    Ends (appendText A s delimiter b) h fun r t => Owns t (r.1.block + (r.2.block + M)) ∧
      r.2.text = b.text ++ Http.httpQuote s ++ [delimiter] := by
  have hroom' : (b.block + M).card < MEMORY_LEN := by
    rw [Multiset.card_add, Encoded.block, Sys.card_block]
    omega
  refine (httpQuote_ends ho hroom' s).seq ?_
  rintro quoted t ⟨ht, hquoted⟩
  have hmove : quoted.block + (b.block + M) = b.block + (quoted.block + M) := by abel
  rw [hmove] at ht
  refine (appendQuoted_ends ht).seq ?_
  rintro b' t ⟨ht, htext⟩
  exact ends_pure ⟨ht.of_eq (by abel), by rw [htext, hquoted]⟩

/-- What `http_malloc` does is what `http_quote` does. -/
theorem httpQuote_post {Q : ℕ → Heap → Prop} {E : Sys.Exit → Heap → Prop}
    (hmalloc : ∀ size, Post (httpMalloc A size) h Q E) :
    Post (httpQuote A s) h (fun quoted t => Q quoted.p t ∧ quoted.bytes = Http.httpQuote s) E := by
  rw [httpQuote]
  generalize toInt32 (3 * s.length + 1) = size
  exact (hmalloc size).seq fun _ _ ht => post_pure ⟨ht, rfl⟩

/-- The quoted text is where a block was before that has just been freed, with
an allocator that gives it out again. -/
theorem appendText_givesBack (hA : GivesBack A) (hq : JustFreed q h) :
    Post (appendText A s delimiter b) h (fun r _ => r.1.p = q) fun _ _ => True := by
  obtain ⟨events, hevents⟩ := hq.last
  have hmalloc : ∀ size, Post (httpMalloc A size) h (fun a _ => a = q) fun _ _ => True := by
    intro size
    refine (Sys.httpMalloc_post A size h).mono ?_ fun _ _ _ => trivial
    rintro a t ⟨ha, -⟩
    rw [ha, hevents]
    exact hA _ _ _ _ hq.fresh
  exact (httpQuote_post hmalloc).seq fun quoted t hquoted =>
    (post_true _ t).seq fun b' t _ => post_pure hquoted.1

/-- **A pass of the loop keeps the buffer and nothing else**, if there is no
value behind the key or the second `http_free` of the key finds the value. -/
theorem encodeEntry_ends (hone : GivesBack A ∨ p.1 = [] ∨ hasValue p = false)
    (ho : Owns h (b.block + M)) (hroom : M.card + 2 ≤ MEMORY_LEN) :
    Ends (encodeEntry A b p) h fun b' t => Owns t (b'.block + M) ∧
      b'.text = b.text ++ entryForm p := by
  rw [encodeEntry, entryForm]
  split_ifs with hk
  · exact ends_pure ⟨ho, (List.append_nil _).symm⟩
  refine (appendText_ends ho hroom).seq ?_
  rintro ⟨k, b₁⟩ t ⟨ht, htext⟩
  refine (Sys.httpFree_justFreed ht).seq ?_
  rintro _ t ⟨ht, hfreed⟩
  obtain ⟨k', v⟩ := p
  rcases v with _ | v
  · exact ends_pure ⟨ht, by rw [htext]; simp [entryText, entryPieces]⟩
  by_cases hv : v = []
  · simp only [if_pos hv]
    exact ends_pure ⟨ht, by rw [htext]; simp [entryText, entryPieces, hv]⟩
  simp only [if_neg hv]
  have hhas : hasValue (k', some v) = true := by simpa [hasValue] using hv
  have hA : GivesBack A := hone.resolve_right fun h => h.elim hk (by simp [hhas])
  refine ((appendText_ends ht hroom).and_post (appendText_givesBack hA hfreed)).seq ?_
  rintro ⟨v', b₂⟩ t ⟨⟨ht, htext'⟩, hsame⟩
  rw [← hsame]
  refine (Sys.httpFree_ends ht).seq fun _ t ht => ends_pure ⟨ht, ?_⟩
  rw [htext', htext]
  simp [entryText, entryPieces, hv]

/-! ### When it is balanced -/

/-- **All entries are appended, and the buffer is what is left**, unless a key
with a value is freed twice. -/
theorem httpUrlencode_ends (hone : GivesBack A ∨ ∀ p ∈ m.values, p.1 = [] ∨ hasValue p = false)
    (ho : Owns h M) (hroom : M.card + 2 ≤ MEMORY_LEN) :
    Ends (httpUrlencode A m) h fun b t => Owns t (b.block + M) ∧
      b.text = m.values.flatMap entryForm := by
  refine (Sys.httpMalloc_ends ho (by omega) 1000).seq fun a t ht => ?_
  refine Lib.Effects.ends_iff_post.2 ((Post.foldlM (I := fun entries b t => Owns t (b.block + M) ∧
    b.text ++ entries.flatMap entryForm = m.values.flatMap entryForm ∧
      (GivesBack A ∨ ∀ p ∈ entries, p.1 = [] ∨ hasValue p = false)) ?_
        ⟨ht, rfl, hone⟩).mono ?_ fun _ _ h => h)
  · rintro p entries b t ⟨ht, htext, hone⟩
    have hone' : GivesBack A ∨ p.1 = [] ∨ hasValue p = false :=
      hone.imp_right fun h => h p (List.mem_cons_self ..)
    refine ((encodeEntry_ends hone' ht hroom).mono ?_).post
    rintro b' t ⟨ht, htext'⟩
    refine ⟨ht, ?_, hone.imp_right fun h q hq => h q (List.mem_cons_of_mem _ hq)⟩
    rw [htext', List.append_assoc, ← List.flatMap_cons, htext]
  · rintro b t ⟨ht, htext, -⟩
    exact ⟨ht, by rwa [List.flatMap_nil, List.append_nil] at htext⟩

/-- A block that is gone stays gone while the buffer grows, with an allocator
that gives out no address twice. -/
theorem reserve_gone (hg : Gone q h) : Post (reserve neverReused last b) h
    (fun _ t => Gone q t) fun _ _ => True := by
  rw [reserve]
  split_ifs
  · exact (hg.httpRealloc ..).seq fun _ t ht => post_pure ht
  · exact post_pure hg

/-- And while a text is appended.  The block that was freed could come back by
an allocation only, and this allocator gives no address twice. -/
theorem appendText_gone (hg : Gone q h) : Post (appendText neverReused s delimiter b) h
    (fun _ t => Gone q t) fun _ _ => True := by
  have happend : ∀ quoted t, Gone q t → Post (appendQuoted neverReused quoted delimiter b) t
      (fun _ t => Gone q t) fun _ _ => True := by
    intro quoted t hg
    rw [appendQuoted]
    generalize toInt32 (b.size + (quoted.length + 1 : ℕ)) = last
    exact (reserve_gone hg).seq fun _ _ ht => (ht.writeBytes ..).seq fun _ _ ht =>
      (ht.writeBytes ..).seq fun _ _ ht => (ht.writeBytes ..).seq fun _ _ ht => post_pure ht
  exact (httpQuote_post hg.httpMalloc).seq fun quoted t ht =>
    (happend quoted.bytes t ht.1).seq fun _ _ ht => post_pure ht

/-- **An entry with a key and a value ends the process** if memory is not used
again: the key is freed twice. -/
theorem encodeEntry_fails (hk : p.1 ≠ []) (hv : hasValue p = true) (ho : Owns h (b.block + M))
    (hroom : M.card + 2 ≤ MEMORY_LEN) :
    Post (encodeEntry neverReused b p) h (fun _ _ => False)
      fun e _ => ∃ k, e = .freeNotExist k := by
  rw [encodeEntry, if_neg hk]
  refine (appendText_ends ho hroom).post.seq ?_
  rintro ⟨k, b₁⟩ t ⟨ht, -⟩
  refine (Sys.httpFree_justFreed ht).post.seq ?_
  rintro _ t ⟨ht, hfreed⟩
  obtain ⟨k', v⟩ := p
  obtain ⟨v, rfl, hne⟩ : ∃ v', v = some v' ∧ v' ≠ [] := by
    simpa [hasValue, Option.any_eq_true] using hv
  simp only [if_neg hne]
  refine ((appendText_ends ht hroom).and_post (appendText_gone hfreed.gone)).post.seq ?_
  rintro ⟨v', b₂⟩ t ⟨-, hgone⟩
  exact Post.seq (post_of_exec_error hgone.httpFree_exec ⟨_, rfl⟩) fun _ _ (h : False) => h.elim

/-- Some entry has a key and a value that are not empty: its key is freed twice,
which ends the process. -/
theorem httpUrlencode_fails (hvalue : ∃ p ∈ m.values, p.1 ≠ [] ∧ hasValue p = true)
    (ho : Owns h M) (hroom : M.card + 2 ≤ MEMORY_LEN) :
    Post (httpUrlencode neverReused m) h (fun _ _ => False)
      fun e _ => ∃ k, e = .freeNotExist k := by
  refine (Sys.httpMalloc_ends ho (by omega) 1000).post.seq fun a t ht => ?_
  refine (Post.foldlM (I := fun entries b t => Owns t (b.block + M) ∧
    ∃ p ∈ entries, p.1 ≠ [] ∧ hasValue p = true) ?_ ⟨ht, hvalue⟩).mono ?_ fun _ _ h => h
  · rintro p entries b t ⟨ht, hvalue⟩
    by_cases hp : p.1 ≠ [] ∧ hasValue p = true
    · exact (encodeEntry_fails hp.1 hp.2 ht hroom).mono (fun _ _ h => h.elim) fun _ _ h => h
    · have hone : p.1 = [] ∨ hasValue p = false := by
        rwa [not_and_or, not_not, Bool.not_eq_true] at hp
      refine ((encodeEntry_ends (.inr hone) ht hroom).mono ?_).post
      rintro b' t ⟨ht, -⟩
      refine ⟨ht, ?_⟩
      obtain ⟨q, hq, hvalue⟩ := hvalue
      rcases List.mem_cons.1 hq with rfl | hq
      · exact absurd hvalue hp
      · exact ⟨q, hq, hvalue⟩
  · rintro b t ⟨-, p, hp, -⟩
    exact absurd hp List.not_mem_nil

/-- However `malloc` and `realloc` answer, no call ends the process, and the
live blocks behind it are those before and the buffer. -/
def Balanced (m : HttpMap) : Prop :=
  ∀ (A : Allocator) (h : Heap) (blocks : List (ℕ × ℤ)), Sys.Holds h.map blocks →
    blocks.length + 2 ≤ MEMORY_LEN →
      Ends (httpUrlencode A m) h fun b t => (live t.map).Perm ((b.p, b.maxsize) :: live h.map)

/-- So the calls are not balanced for such a map. -/
theorem not_balanced (hvalue : ∃ p ∈ m.values, p.1 ≠ [] ∧ hasValue p = true) : ¬Balanced m := by
  intro hbalanced
  have hends := hbalanced neverReused .init [] Sys.holds_init (by decide)
  obtain ⟨_, _, _, -, hfalse⟩ :=
    hends.and_post (httpUrlencode_fails hvalue Sys.owns_init (by decide))
  exact hfalse

/-- **The calls are balanced exactly if no entry has both a key and a value that
are not empty.**  Without a value there is one text to free, and it is freed
once. -/
theorem balanced_iff (m : HttpMap) :
    Balanced m ↔ ∀ p ∈ m.values, p.1 = [] ∨ hasValue p = false := by
  constructor
  · intro hbalanced p hp
    by_contra hboth
    rw [not_or, Bool.not_eq_false] at hboth
    exact not_balanced ⟨p, hp, hboth⟩ hbalanced
  · intro hone A h blocks hh hroom
    have ho : Owns h blocks := ⟨blocks, hh, rfl⟩
    refine (httpUrlencode_ends (.inr hone) ho hroom).mono ?_
    rintro b t ⟨ht, -⟩
    rw [← Multiset.coe_eq_coe, ht.live_eq, ← Multiset.cons_coe, ho.live_eq]
    exact Multiset.singleton_add _ _

/-- `{"a": "b"}`, of which the key is freed twice. -/
theorem not_balanced_pair : ¬Balanced ⟨100, [([97], some [98])]⟩ :=
  not_balanced ⟨_, List.mem_singleton_self _, by decide, by decide⟩

end Blocks
end Http
end Dukserver
