/-
# What a history of calls leaves in a map

A map in insertion order is used by calls that set a key and calls that erase one.
What it must hold afterwards is said by the history alone: `latest` is the value of the
last `set` of a key, if no `erase` of it came later, and `insertedAt` is the place of the
first `set` since the last `erase`, which is where the key was put in.  `replay` makes
the calls on an association list, and the three theorems about it say that this list has
each key once, at its latest value, in the order of `insertedAt`.

A table that divides its keys by a hash holds in each `bucket` what the calls about the keys
of that hash leave, and all buckets together hold what the calls leave.
-/

import Dukserver.Lib.Assoc
import Mathlib.Data.List.Nodup

namespace Dukserver
namespace Lib
namespace History

/-- A call that changes a map. -/
inductive Op (κ ν : Type*)
  | set (k : κ) (v : ν)
  | erase (k : κ)
  deriving DecidableEq, Repr

variable {κ ν : Type*}

/-- The key a call is about. -/
def Op.key : Op κ ν → κ
  | .set k _ => k
  | .erase k => k

/-- The value a call leaves at its key. -/
def Op.value : Op κ ν → Option ν
  | .set _ v => some v
  | .erase _ => none

/-- The call with its key and its value translated. -/
def Op.map {κ' ν' : Type*} (f : κ → κ') (g : ν → ν') : Op κ ν → Op κ' ν'
  | .set k v => .set (f k) (g v)
  | .erase k => .erase (f k)

variable [BEq κ]

/-- The value of the last call about `k`: `none` if there is none, or if it is
an `erase`. -/
def latest (k : κ) (ops : List (Op κ ν)) : Option ν :=
  (ops.reverse.find? fun o => o.key == k).bind Op.value

/-- The calls up to the last `erase` of `k`. -/
def erasedAt (k : κ) (ops : List (Op κ ν)) : ℕ :=
  (ops.reverse.dropWhile fun o => !(o.key == k && o.value.isNone)).length

/-- The index of the first call about `k` after the last `erase` of it. -/
def insertedAt (k : κ) (ops : List (Op κ ν)) : ℕ :=
  erasedAt k ops + (ops.drop (erasedAt k ops)).findIdx fun o => o.key == k

/-- One call on an association list. -/
def Op.apply (l : List (κ × ν)) : Op κ ν → List (κ × ν)
  | .set k v => Assoc.set k v l
  | .erase k => Assoc.erase k l

/-- All calls, from the empty list on. -/
def replay (ops : List (Op κ ν)) : List (κ × ν) := ops.foldl Op.apply []

variable {k j : κ} {o : Op κ ν} {ops : List (Op κ ν)}

/-- The last call is made on what the others leave. -/
theorem replay_concat : replay (ops ++ [o]) = Op.apply (replay ops) o := by
  rw [replay, List.foldl_append]
  rfl

/-- The place behind the last `erase` is a place of the history. -/
theorem erasedAt_le : erasedAt k ops ≤ ops.length := by
  have hle : erasedAt k ops ≤ ops.reverse.length := (List.dropWhile_sublist _).length_le
  rwa [List.length_reverse] at hle

/-- The last call decides about its own key. -/
theorem latest_concat :
    latest k (ops ++ [o]) = if o.key == k then o.value else latest k ops := by
  rw [latest, List.reverse_append, List.reverse_singleton, List.singleton_append, List.find?_cons]
  cases o.key == k <;> rfl

/-- Only an `erase` of the key moves its place. -/
theorem erasedAt_concat : erasedAt k (ops ++ [o]) =
    if o.key == k && o.value.isNone then ops.length + 1 else erasedAt k ops := by
  rw [erasedAt, List.reverse_append, List.reverse_singleton, List.singleton_append,
    List.dropWhile_cons]
  cases o.key == k && o.value.isNone <;> simp [erasedAt]

variable [LawfulBEq κ]

/-- A key with a value is the key of a call. -/
theorem exists_of_latest (h : (latest k ops).isSome) : ∃ o ∈ ops, o.key = k := by
  obtain ⟨v, hv⟩ := Option.isSome_iff_exists.1 h
  obtain ⟨o, ho, -⟩ := Option.bind_eq_some_iff.1 hv
  have hk := List.find?_some ho
  exact ⟨o, List.mem_reverse.1 (List.mem_of_find?_eq_some ho), eq_of_beq hk⟩

/-- Nothing about `k` comes after the last `erase` exactly if it has no value: a
later call would have been a `set`. -/
theorem latest_eq_none :
    latest k ops = none ↔ ∀ o ∈ ops.drop (erasedAt k ops), (o.key == k) = false := by
  induction ops using List.reverseRecOn with
  | nil => simp [latest]
  | append_singleton ops o ih =>
    rw [latest_concat, erasedAt_concat]
    cases hk : o.key == k with
    | false =>
      rw [Bool.false_and, if_neg Bool.false_ne_true, if_neg Bool.false_ne_true, ih,
        List.drop_append_of_le_length erasedAt_le, List.forall_mem_append,
        List.forall_mem_singleton]
      exact (and_iff_left hk).symm
    | true =>
      rw [Bool.true_and, if_pos rfl]
      cases hv : o.value with
      | none => simp
      | some v =>
        rw [Option.isNone_some, if_neg Bool.false_ne_true,
          List.drop_append_of_le_length erasedAt_le, List.forall_mem_append,
          List.forall_mem_singleton, hk]
        simp

/-- A key with a value was put in by one of the calls. -/
theorem insertedAt_lt (h : (latest k ops).isSome) : insertedAt k ops < ops.length := by
  have hfound : ∃ o ∈ ops.drop (erasedAt k ops), (o.key == k) = true := by
    by_contra hno
    have hnone := latest_eq_none.2 fun o ho => Bool.eq_false_iff.2 fun hk => hno ⟨o, ho, hk⟩
    rw [hnone] at h
    cases h
  have hlt := List.findIdx_lt_length.2 hfound
  have hle : erasedAt k ops ≤ ops.length := erasedAt_le
  rw [List.length_drop] at hlt
  rw [insertedAt]
  omega

/-- A further call that does not erase the key leaves the place where it was put
in. -/
theorem insertedAt_concat (h : (latest k ops).isSome)
    (ho : (o.key == k && o.value.isNone) = false) :
    insertedAt k (ops ++ [o]) = insertedAt k ops := by
  have hlt := insertedAt_lt h
  rw [insertedAt] at hlt
  rw [insertedAt, insertedAt, erasedAt_concat, ho, if_neg Bool.false_ne_true,
    List.drop_append_of_le_length erasedAt_le, List.findIdx_append,
    if_pos (by rw [List.length_drop]; omega)]

/-- A key without a value is put in by the next `set`.  Its place in the order
is the number of calls before that one. -/
theorem insertedAt_concat_set {v : ν} (h : latest k ops = none) :
    insertedAt k (ops ++ [.set k v]) = ops.length := by
  have hnot := List.findIdx_eq_length.2 (latest_eq_none.1 h)
  have hle : erasedAt k ops ≤ ops.length := erasedAt_le
  rw [insertedAt, erasedAt_concat, Op.value, Option.isNone_some, Bool.and_false,
    if_neg Bool.false_ne_true, List.drop_append_of_le_length hle, List.findIdx_append, hnot,
    if_neg (Nat.lt_irrefl _), List.length_drop]
  simp [Op.key]
  omega

/-- **Each key is there once**: a `set` replaces the value of a key that is
there. -/
theorem nodup_keys_replay : ((replay ops).map Prod.fst).Nodup := by
  induction ops using List.reverseRecOn with
  | nil => exact List.nodup_nil
  | append_singleton ops o ih =>
    rw [replay_concat]
    cases o with
    | set k v => exact Assoc.nodup_keys_set ih
    | erase k => exact ih.sublist Assoc.keys_erase_sublist

/-- **Each key has its latest value**, by induction from the last call, which
changes its own key only. -/
theorem lookup_replay : (replay ops).lookup k = latest k ops := by
  induction ops using List.reverseRecOn with
  | nil => rfl
  | append_singleton ops o ih =>
    rw [replay_concat, latest_concat]
    by_cases hk : o.key = k
    · rw [if_pos (beq_iff_eq.2 hk), ← hk]
      cases o with
      | set k v => exact Assoc.lookup_set_self
      | erase k => exact Assoc.lookup_erase_self nodup_keys_replay
    · rw [if_neg (by simpa using hk), ← ih]
      cases o with
      | set j v => exact Assoc.lookup_set_of_ne fun h => hk h.symm
      | erase j => exact Assoc.lookup_erase_of_ne fun h => hk h.symm

/-- A key is there if it has a value. -/
theorem mem_keys_replay : k ∈ (replay ops).map Prod.fst ↔ (latest k ops).isSome := by
  rw [← lookup_replay, ← Option.ne_none_iff_isSome, Ne, Assoc.lookup_eq_none, not_not]

/-- **The keys stand in the order in which they were put in**: a new one goes to
the end, and its place in the history is the last. -/
theorem pairwise_replay :
    ((replay ops).map Prod.fst).Pairwise fun j k => insertedAt j ops < insertedAt k ops := by
  induction ops using List.reverseRecOn with
  | nil => exact List.Pairwise.nil
  | append_singleton ops o ih =>
    rw [replay_concat]
    cases o with
    | set k v =>
      have hkeep : ∀ j ∈ (replay ops).map Prod.fst,
          insertedAt j (ops ++ [.set k v]) = insertedAt j ops := fun j hj =>
        insertedAt_concat (mem_keys_replay.1 hj) (by simp [Op.value])
      have hold : ((replay ops).map Prod.fst).Pairwise fun i j =>
          insertedAt i (ops ++ [.set k v]) < insertedAt j (ops ++ [.set k v]) :=
        ih.imp_of_mem fun hi hj hij => by rwa [hkeep _ hi, hkeep _ hj]
      rw [Op.apply, Assoc.keys_set]
      split_ifs with hk
      · exact hold
      · refine List.pairwise_append.2 ⟨hold, List.pairwise_singleton _ _, fun j hj i hi => ?_⟩
        obtain rfl := List.mem_singleton.1 hi
        rw [mem_keys_replay, Option.not_isSome_iff_eq_none] at hk
        rw [hkeep j hj, insertedAt_concat_set hk]
        exact insertedAt_lt (mem_keys_replay.1 hj)
    | erase k =>
      have hnot : ∀ j ∈ (Assoc.erase k (replay ops)).map Prod.fst, j ≠ k := by
        rintro j hj rfl
        exact Assoc.lookup_eq_none.1 (Assoc.lookup_erase_self nodup_keys_replay) hj
      have hkeep : ∀ j ∈ (Assoc.erase k (replay ops)).map Prod.fst,
          insertedAt j (ops ++ [.erase k]) = insertedAt j ops := fun j hj =>
        insertedAt_concat (mem_keys_replay.1 (Assoc.keys_erase_sublist.subset hj))
          (by simp [Op.key, (hnot j hj).symm])
      exact (ih.sublist Assoc.keys_erase_sublist).imp_of_mem fun hi hj hij => by
        rwa [hkeep _ hi, hkeep _ hj]

/-! ### Buckets -/

/-- What the calls about the keys with hash `i` leave. -/
def bucket (hash : κ → ℕ) (ops : List (Op κ ν)) (i : ℕ) : List (κ × ν) :=
  replay (ops.filter fun o => hash o.key == i)

variable {hash : κ → ℕ} {i n : ℕ}

/-- Replacing one list changes the common length by the difference, stated
without a subtraction. -/
theorem length_flatMap_update {β : Type*} {b : ℕ → List β} {x : List β} {i n : ℕ} (hi : i < n) :
    ((List.range n).flatMap (Function.update b i x)).length + (b i).length =
      ((List.range n).flatMap b).length + x.length := by
  induction n with
  | zero => omega
  | succ n ih =>
    rw [List.range_succ, List.flatMap_append, List.flatMap_append, List.length_append,
      List.length_append, List.flatMap_singleton, List.flatMap_singleton]
    by_cases hin : i = n
    · subst hin
      have hsame : (List.range i).flatMap (Function.update b i x) = (List.range i).flatMap b :=
        List.flatMap_congr fun j hj => Function.update_of_ne (Nat.ne_of_lt (List.mem_range.1 hj)) ..
      rw [hsame, Function.update_self]
      omega
    · have hn := ih (by omega)
      rw [Function.update_of_ne (Ne.symm hin)]
      omega

omit [LawfulBEq κ] in
/-- A call changes one bucket, that of its key.  So an implementation has to be
looked at for that bucket only. -/
theorem bucket_concat : bucket hash (ops ++ [o]) = Function.update (bucket hash ops)
    (hash o.key) (Op.apply (bucket hash ops (hash o.key)) o) := by
  funext i
  rw [bucket, List.filter_append]
  by_cases hi : i = hash o.key
  · subst hi
    rw [Function.update_self, List.filter_singleton, beq_self_eq_true, cond_true, replay_concat]
    rfl
  · rw [Function.update_of_ne hi, List.filter_singleton, beq_eq_false_iff_ne.2 (Ne.symm hi),
      cond_false, List.append_nil]
    rfl

/-- Calls about other keys can be left out. -/
theorem latest_filter {p : Op κ ν → Bool} (hp : ∀ o : Op κ ν, o.key = k → p o = true) :
    latest k (ops.filter p) = latest k ops := by
  have hboth : (fun o : Op κ ν => decide (p o = true ∧ (o.key == k) = true)) =
      fun o => o.key == k := by
    funext o
    by_cases hk : o.key = k
    · simp [hk, hp o hk]
    · simp [hk]
  rw [latest, ← List.filter_reverse, List.find?_filter, hboth, latest]

/-- So a bucket has the values of its keys. -/
theorem lookup_bucket : (bucket hash ops (hash k)).lookup k = latest k ops := by
  rw [bucket, lookup_replay]
  exact latest_filter fun o ho => by rw [ho, beq_self_eq_true]

/-- A key stands in the bucket of its hash only. -/
theorem hash_of_mem_bucket (hk : k ∈ (bucket hash ops i).map Prod.fst) : hash k = i := by
  obtain ⟨o, ho, rfl⟩ := exists_of_latest (mem_keys_replay.1 hk)
  exact eq_of_beq (List.mem_filter.1 ho).2

/-- **The buckets together hold each key once**, as no two of them share one. -/
theorem nodup_keys_buckets : (((List.range n).flatMap (bucket hash ops)).map Prod.fst).Nodup := by
  rw [List.map_flatMap, List.nodup_flatMap]
  refine ⟨fun i _ => nodup_keys_replay, List.nodup_range.imp fun hij k hi hj => hij ?_⟩
  rw [← hash_of_mem_bucket hi, ← hash_of_mem_bucket hj]

/-- **They hold each key at its latest value**, in the bucket of its hash.
There is no other bucket in which it could be, and none holds a key twice. -/
theorem mem_buckets (hn : ∀ k, hash k < n) {v : ν} :
    (k, v) ∈ (List.range n).flatMap (bucket hash ops) ↔ latest k ops = some v := by
  have hlookup : (bucket hash ops (hash k)).lookup k = latest k ops := lookup_bucket
  rw [List.mem_flatMap, ← hlookup]
  constructor
  · rintro ⟨i, -, hi⟩
    obtain rfl := hash_of_mem_bucket (List.mem_map.2 ⟨_, hi, rfl⟩)
    exact (Assoc.lookup_eq_some nodup_keys_replay).2 hi
  · intro hk
    exact ⟨hash k, List.mem_range.2 (hn k), (Assoc.lookup_eq_some nodup_keys_replay).1 hk⟩

end History

end Lib
end Dukserver
