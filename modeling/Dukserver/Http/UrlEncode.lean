/-
# Encoding a form

`libhttpd/http_urlencode.c`.  `http_urlencode` writes `key=` for each entry and
`value&` behind it if there is a value, quoted by `http_quote`, into a buffer that
is doubled once when it is about to be full.

After a value it frees the quoted key, which it has freed before, instead of the
quoted value.  `http_free` looks the address up in the table of allocated blocks
and ends the process if it is not there; it is there if the allocator has given it
out again in the meantime, for the quoted value or for the buffer that was moved.
The model takes this as a parameter.  Sizes are natural numbers, and memory is
never used up.
-/

import Dukserver.Http.Forms
import Dukserver.Lib.Outcome

namespace Dukserver
namespace Http

open Lib (Bytes ascii cstr bind_eq_ok)

/-- `always_safe_buf`. -/
def alwaysSafeBuf : Bytes :=
  ascii "ABCDEFGHIJKLMNOPQRSTUVWXYZ" ++ ascii "abcdefghijklmnopqrstuvwxyz" ++
    ascii "0123456789_.-"

/-- `_to_hex`, of a `char`. -/
def toHex (c : ℤ) : UInt8 := if 0 ≤ c ∧ c ≤ 9 then .ofInt (c + 48) else .ofInt (c - 10 + 65)

/-- A `char`, which is signed. -/
def signedChar (c : UInt8) : ℤ := if c < 128 then c.toNat else c.toNat - 256

/-- What `http_quote` writes for a character. -/
def quoteChar (c : UInt8) : Bytes :=
  if c ∈ alwaysSafeBuf then [c] else [37, toHex (signedChar c / 16), toHex (c.toNat % 16)]

/-- `http_quote`, without the final NUL, which counts in what it returns. -/
def httpQuote (s : Bytes) : Bytes := s.flatMap quoteChar

/-- What is at the address of the quoted key when it is freed again. -/
inductive KeyBlock
  /-- The quoted value. -/
  | value
  /-- Another one: the buffer of the form, which `http_realloc` has moved, or a
  block of another thread. -/
  | other
  /-- No block. -/
  | unused
  deriving DecidableEq, Repr

/-- Append a quoted text and a delimiter to the buffer; `b` is its size and what
is in it. -/
def appendQuoted (quoted : Bytes) (delimiter : UInt8) (b : ℕ × Bytes) : Except Fault (ℕ × Bytes) :=
  let len := quoted.length + 1
  let maxsize := if b.1 ≤ b.2.length + len then b.1 * 2 else b.1
  -- the delimiter replaces the NUL of the text, and another NUL follows
  if maxsize ≤ b.2.length + len then .error .outOfBounds
  else .ok (maxsize, b.2 ++ quoted ++ [delimiter])

/-- The pass of the loop of `http_urlencode` for one entry. -/
def encodeEntry (block : Bytes → KeyBlock) (b : ℕ × Bytes) (p : Bytes × Option Bytes) :
    Except Fault (ℕ × Bytes) :=
  if p.1 = [] then .ok b
  else do
    let b ← appendQuoted (httpQuote p.1) 61 b
    match p.2 with
    | none => .ok b
    | some v =>
      if v = [] then .ok b
      else do
        let b ← appendQuoted (httpQuote v) 38 b
        match block p.1 with
        | .value => .ok b
        | .other => .error .useAfterFree
        | .unused => .error .doubleFree

/-- `http_urlencode`; `block` says for each key what is at its address in the
end. -/
def httpUrlencode (block : Bytes → KeyBlock) (m : HttpMap) : Except Fault Bytes :=
  (m.values.foldlM (encodeEntry block) (1000, [])).map Prod.snd

/-- A byte from `0x01` to `0x7F`. -/
def isAscii (c : UInt8) : Bool := c != 0 && c < 128

/-! ### When it can be encoded -/

/-- The texts that are quoted for an entry, each with its delimiter. -/
def entryPieces (p : Bytes × Option Bytes) : List (Bytes × UInt8) :=
  (httpQuote p.1, 61) :: match p.2 with
    | none => []
    | some v => if v = [] then [] else [(httpQuote v, 38)]

/-- The form of an entry. -/
def entryText (p : Bytes × Option Bytes) : Bytes :=
  (entryPieces p).flatMap fun q => q.1 ++ [q.2]

/-- Append quoted texts, one after the other. -/
def appendAll (pieces : List (Bytes × UInt8)) (b : ℕ × Bytes) : Except Fault (ℕ × Bytes) :=
  pieces.foldlM (fun b q => appendQuoted q.1 q.2 b) b

/-- Texts of these lengths, each with a delimiter, fit the buffer behind `size`
bytes if it is doubled once for each of them at most. -/
def Fits : ℕ → ℕ → List ℕ → Prop
  | _, _, [] => True
  | maxsize, size, n :: ns =>
    if maxsize ≤ size + (n + 1) then
      size + (n + 1) < maxsize * 2 ∧ Fits (maxsize * 2) (size + (n + 1)) ns
    else Fits maxsize (size + (n + 1)) ns

instance Fits.instDecidable : ∀ maxsize size ns, Decidable (Fits maxsize size ns)
  | _, _, [] => inferInstanceAs (Decidable True)
  | maxsize, size, n :: ns =>
    have := Fits.instDecidable (maxsize * 2) (size + (n + 1)) ns
    have := Fits.instDecidable maxsize (size + (n + 1)) ns
    inferInstanceAs (Decidable (if maxsize ≤ size + (n + 1) then
      size + (n + 1) < maxsize * 2 ∧ Fits (maxsize * 2) (size + (n + 1)) ns
    else Fits maxsize (size + (n + 1)) ns))

/-- An entry whose value is not empty. -/
def hasValue (p : Bytes × Option Bytes) : Bool := p.2.any (· != [])

section Encode

variable {block : Bytes → KeyBlock} {quoted text : Bytes} {delimiter : UInt8} {b b' : ℕ × Bytes}
  {p : Bytes × Option Bytes} {entries : List (Bytes × Option Bytes)}
  {pieces pieces' : List (Bytes × UInt8)}

/-- Texts are appended one part after the other, and the second finds the buffer
as the first leaves it. -/
theorem appendAll_append : appendAll (pieces ++ pieces') b = .ok b' ↔
    ∃ b₁, appendAll pieces b = .ok b₁ ∧ appendAll pieces' b₁ = .ok b' := by
  rw [appendAll, List.foldlM_append, bind_eq_ok]
  rfl

/-- **The texts are appended if they fit.**  The buffer is doubled once for each
of them, and is large enough then or not. -/
theorem appendAll_iff : (∃ maxsize, appendAll pieces b = .ok (maxsize, text)) ↔
    Fits b.1 b.2.length (pieces.map fun q => q.1.length) ∧
      text = b.2 ++ pieces.flatMap fun q => q.1 ++ [q.2] := by
  induction pieces generalizing b with
  | nil =>
    rw [List.flatMap_nil, List.append_nil]
    constructor
    · rintro ⟨maxsize, h⟩
      rw [Except.ok.inj h]
      exact ⟨trivial, rfl⟩
    · rintro ⟨-, rfl⟩
      exact ⟨b.1, rfl⟩
  | cons q pieces ih =>
    have hstep : appendAll (q :: pieces) b = appendQuoted q.1 q.2 b >>= appendAll pieces := rfl
    have hlen : (b.2 ++ q.1 ++ [q.2]).length = b.2.length + (q.1.length + 1) := by
      rw [List.length_append, List.length_append, List.length_singleton, Nat.add_assoc]
    have htext : b.2 ++ (q :: pieces).flatMap (fun q => q.1 ++ [q.2]) =
        b.2 ++ q.1 ++ [q.2] ++ pieces.flatMap fun q => q.1 ++ [q.2] := by
      rw [List.flatMap_cons]
      simp only [List.append_assoc]
    rw [hstep, List.map_cons, Fits, htext, appendQuoted]
    by_cases hgrow : b.1 ≤ b.2.length + (q.1.length + 1)
    · simp only [if_pos hgrow]
      by_cases hlong : b.1 * 2 ≤ b.2.length + (q.1.length + 1)
      · rw [if_pos hlong]
        exact iff_of_false (fun ⟨_, h⟩ => by cases h) fun h => absurd h.1.1 (not_lt.2 hlong)
      · have hrest := ih (b := (b.1 * 2, b.2 ++ q.1 ++ [q.2]))
        rw [hlen] at hrest
        rw [if_neg hlong]
        exact hrest.trans (by simp only [not_le.1 hlong, true_and])
    · have hrest := ih (b := (b.1, b.2 ++ q.1 ++ [q.2]))
      rw [hlen] at hrest
      simp only [if_neg hgrow]
      exact hrest

/-- A pass of the loop appends the texts of its entry, and then the second
`http_free` has to find the value. -/
theorem encodeEntry_iff (hkey : p.1 ≠ []) : encodeEntry block b p = .ok b' ↔
    appendAll (entryPieces p) b = .ok b' ∧ (hasValue p = true → block p.1 = .value) := by
  obtain ⟨k, v⟩ := p
  rw [encodeEntry, if_neg hkey, bind_eq_ok]
  rcases v with _ | v
  · have hpieces : appendAll (entryPieces (k, none)) b = appendQuoted (httpQuote k) 61 b >>= pure :=
      rfl
    rw [hpieces, bind_eq_ok]
    exact (and_iff_left fun h => by cases h).symm
  · by_cases hv : v = []
    · subst hv
      have hpieces : appendAll (entryPieces (k, some [])) b =
          appendQuoted (httpQuote k) 61 b >>= pure := rfl
      rw [hpieces, bind_eq_ok]
      exact (and_iff_left fun h => by cases h).symm
    · have hpieces : appendAll (entryPieces (k, some v)) b =
          appendQuoted (httpQuote k) 61 b >>= fun b => appendQuoted (httpQuote v) 38 b := by
        rw [appendAll, entryPieces]
        simp only [if_neg hv, List.foldlM_cons, List.foldlM_nil, bind_pure]
      have hhas : hasValue (k, some v) = true := by simpa [hasValue] using hv
      rw [hpieces, bind_eq_ok]
      simp only [if_neg hv, bind_eq_ok, hhas, true_imp_iff]
      cases block k <;> simp

/-- **The loop appends the texts of all entries, if each second `http_free`
finds the value.** -/
theorem encodeEntries_iff (hkeys : ∀ p ∈ entries, p.1 ≠ []) :
    entries.foldlM (encodeEntry block) b = .ok b' ↔
      appendAll (entries.flatMap entryPieces) b = .ok b' ∧
        ∀ p ∈ entries, hasValue p = true → block p.1 = .value := by
  induction entries generalizing b with
  | nil => exact (and_iff_left fun p hp => absurd hp List.not_mem_nil).symm
  | cons p entries ih =>
    have hrest := fun b₁ => ih (b := b₁) fun q hq => hkeys q (List.mem_cons_of_mem _ hq)
    rw [List.foldlM_cons, bind_eq_ok, List.flatMap_cons, appendAll_append]
    simp only [encodeEntry_iff (hkeys p (List.mem_cons_self ..)), hrest, List.forall_mem_cons]
    constructor
    · rintro ⟨b₁, ⟨h₁, hp⟩, h₂, hall⟩
      exact ⟨⟨b₁, h₁, h₂⟩, hp, hall⟩
    · rintro ⟨⟨b₁, h₁, h₂⟩, hp, hall⟩
      exact ⟨b₁, ⟨h₁, hp⟩, h₂, hall⟩

end Encode

/-! ### Quoted text is a name or a value -/

section Quote

variable {s : Bytes} {c : UInt8}

/-- The digits that `_to_hex` writes are read as what they stand for. -/
theorem hexDigit_toHex : ∀ d < 16, hexDigit (toHex (d : ℕ)) = some d := by decide

/-- The first digit of a byte below `0x80`, where a `char` is not negative.
From `0x80` on it is, and its quotient is not that of the byte. -/
theorem hexDigit_high (hc : c < 128) :
    hexDigit (toHex (signedChar c / 16)) = some (c.toNat / 16) := by
  have hlt : c.toNat < 128 := UInt8.lt_iff_toNat_lt.1 hc
  have hsigned : signedChar c / 16 = (c.toNat / 16 : ℕ) := by
    rw [signedChar, if_pos hc]
    push_cast
    rfl
  rw [hsigned, hexDigit_toHex (c.toNat / 16) (by omega)]

/-- The second digit of a byte. -/
theorem hexDigit_low (c : UInt8) : hexDigit (toHex ((c.toNat : ℤ) % 16)) = some (c.toNat % 16) :=
  hexDigit_toHex (c.toNat % 16) (Nat.mod_lt _ (by decide))

/-- **What `http_quote` writes for a character is a token for it**: the byte
itself, a `+` or an escape. -/
theorem exists_token (hc : isAscii c = true) :
    ∃ t : Token, t.bytes = quoteChar c ∧ t.value = c := by
  rw [isAscii, Bool.and_eq_true, bne_iff_ne, decide_eq_true_eq] at hc
  rw [quoteChar]
  split_ifs with hsafe
  · have hall : alwaysSafeBuf.all
        (fun c => decide (c ≠ 0 ∧ c ≠ 37 ∧ c ≠ 38 ∧ c ≠ 43 ∧ c ≠ 61)) = true := by
      decide
    exact ⟨.literal c (of_decide_eq_true (List.all_eq_true.1 hall c hsafe)), rfl, rfl⟩
  · have hlt : c.toNat < 128 := UInt8.lt_iff_toNat_lt.1 hc.2
    have hpos : c.toNat ≠ 0 := fun h => hc.1 (UInt8.toNat_inj.1 h)
    refine ⟨.escape _ _ _ _ (hexDigit_high hc.2) (hexDigit_low c) (by omega), rfl, ?_⟩
    rw [Token.value, Nat.div_add_mod]
    exact UInt8.ofNat_toNat

/-- So a quoted text is a list of tokens.  Every byte gives one of them: itself
or an escape. -/
theorem exists_tokens (hs : s.all isAscii = true) :
    ∃ ts, tokenBytes ts = httpQuote s ∧ tokenValues ts = s := by
  induction s with
  | nil => exact ⟨[], rfl, rfl⟩
  | cons c s ih =>
    rw [List.all_cons, Bool.and_eq_true] at hs
    obtain ⟨t, htb, htv⟩ := exists_token hs.1
    obtain ⟨ts, hb, hv⟩ := ih hs.2
    refine ⟨t :: ts, ?_, ?_⟩
    · rw [tokenBytes, List.flatMap_cons, ← tokenBytes, htb, hb, httpQuote, httpQuote,
        List.flatMap_cons]
    · rw [tokenValues, List.map_cons, ← tokenValues, htv, hv]

/-- **Quoted text is read back**, as its tokens are. -/
theorem httpUnquote_httpQuote (hs : s.all isAscii = true) : httpUnquote (httpQuote s) = some s := by
  obtain ⟨ts, hb, hv⟩ := exists_tokens hs
  rw [← hb, httpUnquote_tokens, hv]

/-- It holds no delimiter, so the decoder cuts the form where the encoder has
joined it. -/
theorem httpQuote_ne (hs : s.all isAscii = true) : ∀ c ∈ httpQuote s, c ≠ 38 ∧ c ≠ 61 := by
  obtain ⟨ts, hb, -⟩ := exists_tokens hs
  rw [← hb]
  exact tokenBytes_ne ts

/-- A text that is not empty is not quoted to nothing. -/
theorem httpQuote_ne_nil (hs : s ≠ []) : httpQuote s ≠ [] := by
  obtain ⟨c, s, rfl⟩ := List.exists_cons_of_ne_nil hs
  rw [httpQuote, List.flatMap_cons, quoteChar]
  split_ifs <;> exact List.cons_ne_nil _ _

/-- A text without NUL is copied whole. -/
theorem cstr_of_isAscii (hs : s.all isAscii = true) : cstr s = s :=
  Lib.cstr_of_not_mem fun hmem => absurd (List.all_eq_true.1 hs 0 hmem) (by decide)

end Quote

/-! ### The round trip -/

/-- A map as `http_map_set` builds it. -/
def mapOf (maxcount : ℕ) (sets : List (Bytes × Option Bytes)) : HttpMap :=
  sets.foldl (fun m p => httpMapSet m p.1 p.2) (httpMapNew maxcount)

/-- A key that is not empty and a value, both of bytes from `0x01` to `0x7F`, or
`NULL`. -/
def EntryOk (p : Bytes × Option Bytes) : Prop :=
  p.1 ≠ [] ∧ p.1.all isAscii = true ∧ ∀ v, p.2 = some v → v.all isAscii = true

/-- The form of the map decodes to its keys in their order, with their values,
`NULL` as the empty string. -/
def FormReadsBack (block : Bytes → KeyBlock) (m : HttpMap) : Prop :=
  ∃ text, httpUrlencode block m = .ok text ∧
    (httpUrldecode text).values = m.values.map fun p => (p.1, some (p.2.getD []))

section RoundTrip

variable {block : Bytes → KeyBlock} {m : HttpMap} {maxcount : ℕ}
  {sets entries : List (Bytes × Option Bytes)}

/-- **The decoder stores the entries one after the other**, and flushes a key
that is pending when the next entry begins: the invariant is that what is
pending is the last entry, if it has no value. -/
theorem urldecodeLoop_entries (hok : ∀ p ∈ entries, EntryOk p) (key : Option Bytes) (m : HttpMap) :
    urldecodeLoop (entries.flatMap entryText) [] key m =
      entries.foldl (fun m p => httpMapSet m p.1 (some (p.2.getD []))) (flushKey key m) := by
  induction entries generalizing key m with
  | nil => exact storeSegment_nil
  | cons p entries ih =>
    obtain ⟨k, v⟩ := p
    obtain ⟨-, hk, hv⟩ := hok _ (List.mem_cons_self ..)
    have ih := ih fun q hq => hok q (List.mem_cons_of_mem _ hq)
    have hkey : ∀ rest, urldecodeLoop (httpQuote k ++ 61 :: rest) [] key m =
        urldecodeLoop rest [] (some k) (flushKey key m) := fun rest => by
      rw [urldecodeLoop_text (httpQuote_ne hk), urldecodeLoop_equals, List.nil_append,
        httpUnquote_httpQuote hk]
    have hpending : (v = none ∨ v = some []) →
        urldecodeLoop (((k, v) :: entries).flatMap entryText) [] key m =
          ((k, v) :: entries).foldl (fun m p => httpMapSet m p.1 (some (p.2.getD [])))
            (flushKey key m) := fun hnone => by
      have htext : entryText (k, v) = httpQuote k ++ [61] := by
        rcases hnone with rfl | rfl <;> exact List.append_nil _
      have hget : v.getD [] = [] := by rcases hnone with rfl | rfl <;> rfl
      rw [List.flatMap_cons, htext, List.append_assoc, List.singleton_append, hkey, ih,
        List.foldl_cons, hget]
      rfl
    rcases v with _ | v
    · exact hpending (.inl rfl)
    · by_cases hnil : v = []
      · exact hpending (.inr (congrArg some hnil))
      · have htext : entryText (k, some v) = httpQuote k ++ 61 :: (httpQuote v ++ [38]) := by
          rw [entryText, entryPieces]
          simp [hnil]
        have hvalue := hv v rfl
        rw [List.flatMap_cons, htext, List.append_assoc, List.cons_append, hkey, List.append_assoc,
          urldecodeLoop_text (httpQuote_ne hvalue), List.singleton_append, urldecodeLoop_amp, ih,
          List.nil_append, storeSegment, if_pos (httpQuote_ne_nil hnil),
          httpUnquote_httpQuote hvalue]
        rfl

/-- The entries of a built map: its keys are distinct, and its texts are those
of the calls. -/
theorem mapOf_ok (maxcount : ℕ) (hsets : ∀ p ∈ sets, EntryOk p) : (mapOf maxcount sets).keys.Nodup ∧
    ∀ p ∈ (mapOf maxcount sets).values, EntryOk p := by
  induction sets using List.reverseRecOn with
  | nil => exact ⟨List.nodup_nil, fun p hp => absurd hp List.not_mem_nil⟩
  | append_singleton sets q ih =>
    obtain ⟨hnodup, hok⟩ := ih fun p hp => hsets p (List.mem_append_left _ hp)
    have hq := hsets q (List.mem_append_right _ (List.mem_singleton_self q))
    have hmap : mapOf maxcount (sets ++ [q]) = httpMapSet (mapOf maxcount sets) q.1 q.2 := by
      rw [mapOf, List.foldl_append]
      rfl
    have hvalue : q.2.map cstr = q.2 := by
      cases hv : q.2 with
      | none => rfl
      | some v => exact congrArg some (cstr_of_isAscii (hq.2.2 v hv))
    rw [hmap]
    refine ⟨nodup_keys_httpMapSet hnodup, fun p hp => ?_⟩
    rw [values_httpMapSet, cstr_of_isAscii hq.2.1, hvalue] at hp
    rcases Lib.Assoc.mem_set hp with rfl | hp
    · exact hq
    · exact hok p hp

/-- Distinct keys are stored as they come.  Each is set for the first time, so
it goes behind the others. -/
theorem values_foldl_set (hnodup : (entries.map Prod.fst).Nodup) (hok : ∀ p ∈ entries, EntryOk p)
    (m : HttpMap) (hm : m.values = []) :
    (entries.foldl (fun m p => httpMapSet m p.1 (some (p.2.getD []))) m).values =
      entries.map fun p => (p.1, some (p.2.getD [])) := by
  have hstored : ∀ m : HttpMap,
      (entries.foldl (fun m p => httpMapSet m p.1 (some (p.2.getD []))) m).values =
        (entries.map fun p => (p.1, some (p.2.getD []))).foldl
          (fun e p => Lib.Assoc.set p.1 p.2 e) m.values := by
    clear hnodup hm
    induction entries with
    | nil => exact fun m => rfl
    | cons p entries ih =>
      intro m
      obtain ⟨-, hk, hv⟩ := hok p (List.mem_cons_self ..)
      have hvalue : cstr (p.2.getD []) = p.2.getD [] := by
        cases h : p.2 with
        | none => rfl
        | some v => exact cstr_of_isAscii (hv v h)
      rw [List.foldl_cons, ih fun q hq => hok q (List.mem_cons_of_mem _ hq), values_httpMapSet,
        cstr_of_isAscii hk, Option.map_some, hvalue, List.map_cons, List.foldl_cons]
  rw [hstored, hm, Lib.Assoc.foldl_set_of_nodup (e := []), List.nil_append]
  rw [List.nil_append, List.map_map]
  exact hnodup

/-- What the encoder returns: the entries one after the other, if they fit the
buffer and each quoted value takes the block that was freed before. -/
theorem httpUrlencode_eq_ok (block : Bytes → KeyBlock) (hkeys : ∀ p ∈ m.values, p.1 ≠ [])
    (text : Bytes) : httpUrlencode block m = .ok text ↔
      (Fits 1000 0 ((m.values.flatMap entryPieces).map fun q => q.1.length) ∧
        text = m.values.flatMap entryText) ∧
      ∀ p ∈ m.values, hasValue p = true → block p.1 = .value := by
  have hret : httpUrlencode block m = .ok text ↔
      ∃ maxsize, m.values.foldlM (encodeEntry block) (1000, []) = .ok (maxsize, text) := by
    rw [httpUrlencode]
    cases m.values.foldlM (encodeEntry block) (1000, []) with
    | error e => exact iff_of_false (fun h => by cases h) fun ⟨_, h⟩ => by cases h
    | ok b =>
      constructor
      · intro h
        exact ⟨b.1, by rw [← Except.ok.inj h]⟩
      · rintro ⟨maxsize, h⟩
        rw [Except.ok.inj h]
        rfl
  have htext : ((m.values.flatMap entryPieces).flatMap fun q => q.1 ++ [q.2]) =
      m.values.flatMap entryText := List.flatMap_assoc
  rw [hret, ← htext]
  simp only [encodeEntries_iff hkeys, exists_and_right]
  rw [appendAll_iff, List.nil_append]
  rfl

/-- **The form of a map decodes to the map exactly if its quoted texts fit the
buffer and, for each entry with a value, the allocator has put the quoted value
where the quoted key was.** -/
theorem formReadsBack_iff (hsets : ∀ p ∈ sets, EntryOk p) :
    FormReadsBack block (mapOf maxcount sets) ↔
      Fits 1000 0 (((mapOf maxcount sets).values.flatMap entryPieces).map fun q => q.1.length) ∧
        ∀ p ∈ (mapOf maxcount sets).values, hasValue p = true → block p.1 = .value := by
  obtain ⟨hnodup, hok⟩ := mapOf_ok maxcount hsets
  have hencode := httpUrlencode_eq_ok block fun p hp => (hok p hp).1
  constructor
  · rintro ⟨text, henc, -⟩
    obtain ⟨⟨hfits, -⟩, hblock⟩ := (hencode text).1 henc
    exact ⟨hfits, hblock⟩
  · rintro ⟨hfits, hblock⟩
    refine ⟨_, (hencode _).2 ⟨⟨hfits, rfl⟩, hblock⟩, ?_⟩
    rw [httpUrldecode, urldecodeLoop_entries hok]
    exact values_foldl_set hnodup hok _ rfl

/-- Satisfiability, with the allocator that gives out last what was freed last. -/
theorem formReadsBack_page : FormReadsBack (fun _ => .value)
    (mapOf 100 [(ascii "title", some (ascii "a+b & c")), (ascii "tag", none),
      (ascii "page", some (ascii "1"))]) := by
  refine (formReadsBack_iff ?_).2 ⟨by decide, fun p _ _ => rfl⟩
  simp only [List.forall_mem_cons, EntryOk]
  refine ⟨⟨by decide, by decide, ?_⟩, ⟨by decide, by decide, ?_⟩, ⟨by decide, by decide, ?_⟩,
    fun p hp => absurd hp List.not_mem_nil⟩
  · rintro v ⟨⟩
    decide
  · rintro v ⟨⟩
  · rintro v ⟨⟩
    decide

/-- A value of 100 letters is not put where the quoted key was, so the second
`http_free` ends the process; 2000 letters are written behind the end of the
buffer. -/
theorem formReadsBack_long :
    ¬FormReadsBack (fun _ => .unused) (mapOf 100 [(ascii "a", some (.replicate 100 98))]) ∧
      ¬FormReadsBack (fun _ => .value) (mapOf 100 [(ascii "a", some (.replicate 2000 98))]) := by
  have hruns : httpUrlencode (fun _ => .unused)
        (mapOf 100 [(ascii "a", some (.replicate 100 98))]) = .error .doubleFree ∧
      httpUrlencode (fun _ => .value)
        (mapOf 100 [(ascii "a", some (.replicate 2000 98))]) = .error .outOfBounds := by
    decide +kernel
  constructor
  · rintro ⟨text, henc, -⟩
    rw [hruns.1] at henc
    cases henc
  · rintro ⟨text, henc, -⟩
    rw [hruns.2] at henc
    cases henc

end RoundTrip

end Http
end Dukserver
