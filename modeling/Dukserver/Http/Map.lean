/-
# The dictionary of a content

`libhttpd/http_map.c`.  An array of pairs of C strings in the order of their
insertion, where a value can be `NULL`; a key is looked for from the start, and
the array is doubled when it is about to be full.  `httpMapGet` does not tell a
missing key from a `NULL` value.
-/

import Dukserver.Http.Common
import Dukserver.Lib.Assoc

namespace Dukserver
namespace Http

open Lib (Bytes cstr)

/-- `http_map_t`; `count` is the length of `values`. -/
structure HttpMap where
  maxCount : ℕ
  values : List (Bytes × Option Bytes)
  deriving DecidableEq, Repr

/-- `http_map_new`. -/
def httpMapNew (maxcount : ℕ) : HttpMap := ⟨maxcount, []⟩

/-- `http_map_set` with a key that is not `NULL`. -/
def httpMapSet (m : HttpMap) (k : Bytes) (v : Option Bytes) : HttpMap where
  maxCount := if m.maxCount ≤ m.values.length + 1 then m.maxCount * 2 else m.maxCount
  values := Lib.Assoc.set (cstr k) (v.map cstr) m.values

/-- `http_map_get`, `none` being `NULL`. -/
def httpMapGet (m : HttpMap) (k : Bytes) : Option Bytes := (m.values.lookup (cstr k)).join

/-- `http_map_erase`. -/
def httpMapErase (m : HttpMap) (k : Bytes) : HttpMap :=
  { m with values := Lib.Assoc.erase (cstr k) m.values }

/-- The keys in their order. -/
def HttpMap.keys (m : HttpMap) : List Bytes := m.values.map Prod.fst

/-- A key is set in the list of pairs, copied up to its first NUL like its
value. -/
@[simp] theorem values_httpMapSet (m : HttpMap) (k : Bytes) (v : Option Bytes) :
    (httpMapSet m k v).values = Lib.Assoc.set (cstr k) (v.map cstr) m.values := rfl

/-- A new dictionary has no keys. -/
@[simp] theorem keys_httpMapNew (n : ℕ) : (httpMapNew n).keys = [] := rfl

/-- A key that was set is there, and so are those that were. -/
theorem mem_keys_httpMapSet {m : HttpMap} {k k' : Bytes} {v : Option Bytes} :
    k' ∈ (httpMapSet m k v).keys ↔ k' = cstr k ∨ k' ∈ m.keys :=
  Lib.Assoc.mem_keys_set

/-- The keys stay distinct. -/
theorem nodup_keys_httpMapSet {m : HttpMap} {k : Bytes} {v : Option Bytes} (h : m.keys.Nodup) :
    (httpMapSet m k v).keys.Nodup :=
  Lib.Assoc.nodup_keys_set h

/-- What was set last is found. -/
theorem httpMapGet_set_self {m : HttpMap} {k k' : Bytes} {v : Option Bytes}
    (hk : cstr k' = cstr k) : httpMapGet (httpMapSet m k v) k' = v.map cstr := by
  rw [httpMapGet, values_httpMapSet, hk, Lib.Assoc.lookup_set_self, Option.join_some]

/-- The other keys keep their values. -/
theorem httpMapGet_set_of_ne {m : HttpMap} {k k' : Bytes} {v : Option Bytes}
    (hk : cstr k' ≠ cstr k) : httpMapGet (httpMapSet m k v) k' = httpMapGet m k' := by
  rw [httpMapGet, httpMapGet, values_httpMapSet, Lib.Assoc.lookup_set_of_ne hk]

/-- A key that is not there has no value. -/
theorem httpMapGet_of_not_mem {m : HttpMap} {k : Bytes} (h : cstr k ∉ m.keys) :
    httpMapGet m k = none := by
  rw [httpMapGet, Lib.Assoc.lookup_eq_none.2 h, Option.join_none]

end Http
end Dukserver
