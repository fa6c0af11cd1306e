/-
# Forms

`libhttpd/http_urldecode.c`.  `http_urldecode` walks once through the form and
cuts it at each `=` and `&`; `http_unquote` decodes what is between two cuts.  A
segment that ends inside an escape makes `http_unquote` return `-1`, and the
pointer it was to set stays `NULL`: a name is then dropped and a value `NULL`.
-/

import Dukserver.Http.Map

namespace Dukserver
namespace Http

open Lib (Bytes)

/-- `tolower`. -/
def tolower (c : UInt8) : UInt8 := if 65 ≤ c && c ≤ 90 then c + 32 else c

/-- The value of a hexadecimal digit. -/
def hexDigit (c : UInt8) : Option ℕ :=
  let c := tolower c
  if 48 ≤ c && c ≤ 57 then some (c.toNat - 48)
  else if 97 ≤ c && c ≤ 102 then some (c.toNat - 97 + 10)
  else none

/-- `_parse_hex`: `0` if there is another character. -/
def parseHex (s : Bytes) : ℕ :=
  match s.mapM hexDigit with
  | none => 0
  | some ds => ds.foldl (fun v c => v * 16 + c) 0

/-- `http_unquote`: what it writes before the final NUL, `none` being `-1`. -/
def httpUnquote : Bytes → Option Bytes
  | [] => some []
  | p :: t =>
    if p = 43 then (httpUnquote t).map (32 :: ·)
    else if p = 37 then
      match t with
      | a :: b :: t => (httpUnquote t).map ((parseHex [a, b]).toUInt8 :: ·)
      | _ => none
    else (httpUnquote t).map (p :: ·)

/-- What `http_urldecode` does with the segment `s` at an `&` and at the end.
Only the key of the map is `NULL`-checked by `http_map_set`. -/
def storeSegment (s : Bytes) (key : Option Bytes) (m : HttpMap) : HttpMap :=
  if s ≠ [] then
    match key with
    | some key => httpMapSet m key (httpUnquote s)
    | none =>
      match httpUnquote s with
      | some key => httpMapSet m key (some [])
      | none => m
  else
    match key with
    | some key => httpMapSet m key (some [])
    | none => m

/-- The loop of `http_urldecode`; `s` is the segment up to `p`. -/
def urldecodeLoop : Bytes → Bytes → Option Bytes → HttpMap → HttpMap
  | [], s, key, m => storeSegment s key m
  | p :: t, s, key, m =>
    if p = 61 then
      let m := match key with
        | some key => httpMapSet m key (some [])
        | none => m
      urldecodeLoop t [] (httpUnquote s) m
    else if p = 38 then urldecodeLoop t [] none (storeSegment s key m)
    else urldecodeLoop t (s ++ [p]) key m

/-- `http_urldecode`. -/
def httpUrldecode (buffer : Bytes) : HttpMap :=
  urldecodeLoop buffer [] none (httpMapNew HTTP_DEFAULT_HEADERS_COUNT)

/-- The names of a decoded form are distinct.  A segment is stored by
`http_map_set`, which overwrites the value of a name that comes again. -/
theorem nodup_keys_storeSegment {s : Bytes} {key : Option Bytes} {m : HttpMap}
    (h : m.keys.Nodup) : (storeSegment s key m).keys.Nodup := by
  unfold storeSegment
  split_ifs
  · cases key with
    | some key => exact nodup_keys_httpMapSet h
    | none =>
      cases httpUnquote s with
      | some key => exact nodup_keys_httpMapSet h
      | none => exact h
  · cases key with
    | some key => exact nodup_keys_httpMapSet h
    | none => exact h

/-- So they are behind the loop, which stores segment by segment. -/
theorem nodup_keys_urldecodeLoop {t s : Bytes} {key : Option Bytes} {m : HttpMap}
    (h : m.keys.Nodup) : (urldecodeLoop t s key m).keys.Nodup := by
  induction t generalizing s key m with
  | nil => exact nodup_keys_storeSegment h
  | cons p t ih =>
    unfold urldecodeLoop
    split_ifs
    · refine ih ?_
      cases key with
      | some key => exact nodup_keys_httpMapSet h
      | none => exact h
    · exact ih (nodup_keys_storeSegment h)
    · exact ih h

/-- And in the form that is returned. -/
theorem nodup_keys_httpUrldecode (buffer : Bytes) : (httpUrldecode buffer).keys.Nodup :=
  nodup_keys_urldecodeLoop List.nodup_nil

example : (httpUrldecode (Lib.ascii "a=1+2&b&c=%41%")).values =
    [(Lib.ascii "a", some (Lib.ascii "1 2")), (Lib.ascii "b", some []), (Lib.ascii "c", none)] := by
  decide +kernel

end Http
end Dukserver
