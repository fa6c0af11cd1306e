/-
# What a form means

The forms that a browser sends: segments joined by `&`, each a name or `name=value`,
where a name and a value are made of `+`, of `%` escapes and of bytes that stand for
themselves.  `http_urldecode` (`libhttpd/http_urldecode.c`) stores the segments one
after the other (`httpUrldecode_formBytes`): at each `&` and at the end, what is
pending in its key and its value is exactly the last segment (`Segment.pending`).

A token carries what makes it one, so an escape for NUL or a stray delimiter cannot be
written down.
-/

import Dukserver.Http.UrlDecode

namespace Dukserver
namespace Http

open Lib (Bytes)

/-- A character of a name or of a value. -/
inductive Token
  /-- `+`, a space. -/
  | plus
  /-- `%` and two digits of either case, not both zero. -/
  | escape (a b : UInt8) (x y : ℕ) (ha : hexDigit a = some x) (hb : hexDigit b = some y)
    (hne : ¬(x = 0 ∧ y = 0))
  /-- A byte that stands for itself. -/
  | literal (c : UInt8) (h : c ≠ 0 ∧ c ≠ 37 ∧ c ≠ 38 ∧ c ≠ 43 ∧ c ≠ 61)

/-- How it is written. -/
def Token.bytes : Token → Bytes
  | .plus => [43]
  | .escape a b _ _ _ _ _ => [37, a, b]
  | .literal c _ => [c]

/-- What it means. -/
def Token.value : Token → UInt8
  | .plus => 32
  | .escape _ _ x y _ _ _ => (16 * x + y).toUInt8
  | .literal c _ => c

/-- A name or a value, as it is written. -/
def tokenBytes (ts : List Token) : Bytes := ts.flatMap Token.bytes

/-- What it decodes to. -/
def tokenValues (ts : List Token) : Bytes := ts.map Token.value

/-- A segment of a form. -/
inductive Segment
  | empty
  | name (n : List Token) (hn : n ≠ [])
  | pair (n : List Token) (hn : n ≠ []) (v : List Token)

def Segment.bytes : Segment → Bytes
  | .empty => []
  | .name n _ => tokenBytes n
  | .pair n _ v => tokenBytes n ++ 61 :: tokenBytes v

/-- What a segment does to the map. -/
def Segment.store (m : HttpMap) : Segment → HttpMap
  | .empty => m
  | .name n _ => httpMapSet m (tokenValues n) (some [])
  | .pair n _ v => httpMapSet m (tokenValues n) (some (tokenValues v))

/-- A form, with or without an `&` at its end. -/
def formBytes (segments : List Segment) (trailing : Bool) : Bytes :=
  [38].intercalate (segments.map Segment.bytes) ++ if trailing then [38] else []

section Tokens

variable {t : Token} {ts : List Token} {rest : Bytes}

/-- A digit is no delimiter. -/
theorem hexDigit_ne {c : UInt8} {x : ℕ} (h : hexDigit c = some x) : c ≠ 38 ∧ c ≠ 61 := by
  constructor
  · rintro rfl
    cases (show none = some x from h)
  · rintro rfl
    cases (show none = some x from h)

/-- A token is not mistaken for a delimiter: its literals and its digits are
none. -/
theorem Token.bytes_ne (t : Token) : ∀ c ∈ t.bytes, c ≠ 38 ∧ c ≠ 61 := by
  intro c hc
  cases t with
  | plus =>
    rw [List.mem_singleton.1 hc]
    decide
  | escape a b x y ha hb _ =>
    simp only [Token.bytes, List.mem_cons, List.not_mem_nil, or_false] at hc
    rcases hc with rfl | rfl | rfl
    · decide
    · exact hexDigit_ne ha
    · exact hexDigit_ne hb
  | literal d h =>
    rw [List.mem_singleton.1 hc]
    exact ⟨h.2.2.1, h.2.2.2.2⟩

/-- Neither is a name or a value. -/
theorem tokenBytes_ne (ts : List Token) : ∀ c ∈ tokenBytes ts, c ≠ 38 ∧ c ≠ 61 := by
  intro c hc
  obtain ⟨t, -, hct⟩ := List.mem_flatMap.1 hc
  exact t.bytes_ne c hct

/-- A token has a byte. -/
theorem tokenBytes_ne_nil (h : ts ≠ []) : tokenBytes ts ≠ [] := by
  obtain ⟨t, ts, rfl⟩ := List.exists_cons_of_ne_nil h
  rw [tokenBytes, List.flatMap_cons]
  refine List.append_ne_nil_of_left_ne_nil ?_ _
  cases t <;> exact List.cons_ne_nil _ _

/-- A token is decoded to its value, whatever follows. -/
theorem httpUnquote_token (t : Token) (rest : Bytes) :
    httpUnquote (t.bytes ++ rest) = (httpUnquote rest).map (t.value :: ·) := by
  cases t with
  | plus =>
    rw [Token.bytes, List.singleton_append, httpUnquote.eq_def]
    rfl
  | escape a b x y ha hb _ =>
    have hhex : parseHex [a, b] = 16 * x + y := by
      simp [parseHex, ha, hb, Nat.mul_comm]
    show httpUnquote (37 :: a :: b :: rest) = _
    rw [httpUnquote, if_neg (by decide), if_pos rfl, hhex]
    rfl
  | literal c h =>
    rw [Token.bytes, List.singleton_append, httpUnquote.eq_def]
    simp only [if_neg h.2.2.2.1, if_neg h.2.1]
    rfl

/-- **A name or a value is decoded to its values**, token by token. -/
theorem httpUnquote_tokens (ts : List Token) :
    httpUnquote (tokenBytes ts) = some (tokenValues ts) := by
  induction ts with
  | nil => rfl
  | cons t ts ih =>
    rw [tokenBytes, List.flatMap_cons, ← tokenBytes, httpUnquote_token, ih]
    rfl

end Tokens

section Loop

variable {s t rest : Bytes} {key : Option Bytes} {m : HttpMap}

/-- The loop passes over what is no delimiter, and keeps where the text began.
It does not decode yet: escapes are resolved when the segment ends. -/
theorem urldecodeLoop_text (h : ∀ c ∈ t, c ≠ 38 ∧ c ≠ 61) :
    urldecodeLoop (t ++ rest) s key m = urldecodeLoop rest (s ++ t) key m := by
  induction t generalizing s with
  | nil => rw [List.nil_append, List.append_nil]
  | cons c t ih =>
    have hc := h c (List.mem_cons_self ..)
    rw [List.cons_append, urldecodeLoop.eq_def]
    simp only [if_neg hc.2, if_neg hc.1]
    rw [ih fun d hd => h d (List.mem_cons_of_mem _ hd), List.append_assoc, List.singleton_append]

/-- A pending key without a value. -/
def flushKey (key : Option Bytes) (m : HttpMap) : HttpMap :=
  match key with
  | some key => httpMapSet m key (some [])
  | none => m

/-- With nothing pending as a value, the key is stored without one. -/
theorem storeSegment_nil : storeSegment [] key m = flushKey key m := by
  cases key <;> rfl

/-- At `=`, what is pending is the key. -/
theorem urldecodeLoop_equals :
    urldecodeLoop (61 :: rest) s key m =
      urldecodeLoop rest [] (httpUnquote s) (flushKey key m) := by
  rw [urldecodeLoop.eq_def]
  cases key <;> rfl

/-- At `&`, what is pending is stored, and nothing is pending behind it. -/
theorem urldecodeLoop_amp :
    urldecodeLoop (38 :: rest) s key m = urldecodeLoop rest [] none (storeSegment s key m) := by
  rw [urldecodeLoop.eq_def]
  rfl

/-- **What is pending behind a segment is this segment**, so `&` or the end
stores it. -/
theorem Segment.pending (seg : Segment) (m : HttpMap) :
    ∃ s key, (∀ rest, urldecodeLoop (seg.bytes ++ rest) [] none m = urldecodeLoop rest s key m) ∧
      storeSegment s key m = seg.store m := by
  cases seg with
  | empty => exact ⟨[], none, fun _ => rfl, rfl⟩
  | name n hn =>
    refine ⟨tokenBytes n, none, fun rest => ?_, ?_⟩
    · exact urldecodeLoop_text (tokenBytes_ne n)
    · rw [storeSegment, if_pos (tokenBytes_ne_nil hn), httpUnquote_tokens]
      rfl
  | pair n hn v =>
    refine ⟨tokenBytes v, some (tokenValues n), fun rest => ?_, ?_⟩
    · rw [Segment.bytes, List.append_assoc, urldecodeLoop_text (tokenBytes_ne n), List.cons_append,
        urldecodeLoop_equals, urldecodeLoop_text (tokenBytes_ne v), List.nil_append,
        List.nil_append, httpUnquote_tokens]
      rfl
    · by_cases hv : v = []
      · subst hv
        exact storeSegment_nil
      · rw [storeSegment, if_pos (tokenBytes_ne_nil hv), httpUnquote_tokens]
        rfl

/-- **A form is decoded by storing its segments from left to right**, for every
list of segments. -/
theorem httpUrldecode_formBytes (segments : List Segment) (trailing : Bool) :
    httpUrldecode (formBytes segments trailing) =
      segments.foldl Segment.store (httpMapNew HTTP_DEFAULT_HEADERS_COUNT) := by
  suffices h : ∀ m, urldecodeLoop (formBytes segments trailing) [] none m =
      segments.foldl Segment.store m from h _
  induction segments with
  | nil => cases trailing <;> exact fun _ => rfl
  | cons seg segments ih =>
    intro m
    obtain ⟨s, key, hloop, hstore⟩ := seg.pending m
    rw [List.foldl_cons, ← hstore]
    cases segments with
    | nil =>
      have hbytes : formBytes [seg] trailing =
          seg.bytes ++ if trailing then [38] else [] := by
        simp [formBytes, List.intercalate]
      rw [hbytes, hloop]
      cases trailing with
      | false => rfl
      | true => exact urldecodeLoop_amp
    | cons seg' segments =>
      have hbytes : formBytes (seg :: seg' :: segments) trailing =
          seg.bytes ++ 38 :: formBytes (seg' :: segments) trailing := by
        simp [formBytes, List.intercalate]
      rw [hbytes, hloop, urldecodeLoop_amp, ih]

end Loop

end Http
end Dukserver
