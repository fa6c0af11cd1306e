/-
# Streams that arrive in chunks

A stream is what a peer sends, cut into the pieces that successive receives will
deliver.  A receive of at most `n` elements takes the first piece, and leaves
what did not fit for the next one (`pull`); an empty piece is a receive that gets
nothing, because the peer closed or because it timed out.

`delivered` is what arrives before that happens, and `after n` the state of the
stream once `n` elements of it were taken.  A reader that stops at the first
receive that gets it to `h` elements has taken `reach h`, which is all a scan for
a delimiter can depend on besides the elements themselves.
-/

import Mathlib.Data.List.Basic
import Mathlib.Tactic.Linarith

namespace Dukserver
namespace Lib

variable {α : Type*}

/-- One receive of at most `n` elements, and the stream after it. -/
def pull (n : ℕ) : List (List α) → List α × List (List α)
  | [] => ([], [])
  | c :: cs => (c.take n, if c.length ≤ n then cs else c.drop n :: cs)

/-- What arrives before the first receive that gets nothing. -/
def delivered : List (List α) → List α
  | [] => []
  | [] :: _ => []
  | (x :: c) :: cs => x :: c ++ delivered cs

/-- The stream once `n` elements were taken, or the peer closed. -/
def after : ℕ → List (List α) → List (List α)
  | _, [] => []
  | 0, c :: cs => c :: cs
  | _ + 1, [] :: cs => cs
  | n + 1, (_ :: c) :: cs =>
    if c.length ≤ n then after (n - c.length) cs else c.drop n :: cs

/-- How much has arrived when the first receive is over that reaches `h`. -/
def reach (h : ℕ) : List (List α) → ℕ
  | [] => 0
  | c :: cs => if h ≤ c.length then c.length else c.length + reach (h - c.length) cs

/-- A stream without chunks delivers nothing. -/
@[simp] theorem delivered_nil : delivered ([] : List (List α)) = [] := rfl

/-- An empty chunk ends what is delivered. -/
@[simp] theorem delivered_closed {cs : List (List α)} : delivered ([] :: cs) = [] := rfl

/-- Any other chunk is delivered, and then the rest. -/
theorem delivered_cons {c : List α} {cs : List (List α)} (hc : c ≠ []) :
    delivered (c :: cs) = c ++ delivered cs := by
  obtain ⟨x, c, rfl⟩ := List.exists_cons_of_ne_nil hc
  rfl

/-- Taking nothing leaves the stream as it is. -/
@[simp] theorem after_zero {cs : List (List α)} : after 0 cs = cs := by
  cases cs <;> rfl

/-- A chunk that is taken whole is gone. -/
theorem after_cons_of_le {c : List α} {cs : List (List α)} {n : ℕ} (hc : c ≠ [])
    (hn : c.length ≤ n) : after n (c :: cs) = after (n - c.length) cs := by
  obtain ⟨x, c, rfl⟩ := List.exists_cons_of_ne_nil hc
  obtain ⟨n, rfl⟩ : ∃ m, n = m + 1 := ⟨n - 1, by simp at hn; omega⟩
  rw [List.length_cons] at hn
  rw [after, if_pos (by omega), List.length_cons, Nat.add_sub_add_right]

/-- Of a longer one the rest is left. -/
theorem after_cons_of_lt {c : List α} {cs : List (List α)} {n : ℕ}
    (hn : n < c.length) : after n (c :: cs) = c.drop n :: cs := by
  cases n with
  | zero => rfl
  | succ n =>
    obtain ⟨x, c, rfl⟩ := List.exists_cons_of_length_pos (Nat.zero_lt_of_lt hn)
    rw [List.length_cons] at hn
    rw [after, if_neg (by omega), List.drop_succ_cons]

/-- A stream without a break is delivered whole, and then what comes behind it. -/
theorem delivered_append {as bs : List (List α)} (h : ∀ c ∈ as, c ≠ []) :
    delivered (as ++ bs) = as.flatten ++ delivered bs := by
  induction as with
  | nil => rfl
  | cons c as ih =>
    rw [List.cons_append, delivered_cons (h c (List.mem_cons_self ..)),
      ih fun c hc => h c (List.mem_cons_of_mem _ hc), List.flatten_cons, List.append_assoc]

/-- **What is left arrives later**: taking elements from the chunks takes them
from what is delivered. -/
theorem delivered_after {cs : List (List α)} {n : ℕ} (hn : n ≤ (delivered cs).length) :
    delivered (after n cs) = (delivered cs).drop n := by
  induction cs generalizing n with
  | nil => simp [after]
  | cons c cs ih =>
    by_cases hc : c = []
    · subst hc
      obtain rfl : n = 0 := by simpa using hn
      rfl
    · rw [delivered_cons hc] at hn ⊢
      rw [List.length_append] at hn
      by_cases hle : c.length ≤ n
      · rw [after_cons_of_le hc hle, ih (by omega), List.drop_append,
          List.drop_eq_nil_of_le hle, List.nil_append]
      · have hne : c.drop n ≠ [] := by rw [Ne, List.drop_eq_nil_iff]; omega
        rw [after_cons_of_lt (by omega), delivered_cons hne,
          List.drop_append_of_le_length (by omega)]

/-- **Nothing is lost**: what was taken and what is left are the stream, also
what stands behind a break. -/
theorem take_append_flatten_after {cs : List (List α)} {n : ℕ} (hn : n ≤ (delivered cs).length) :
    (delivered cs).take n ++ (after n cs).flatten = cs.flatten := by
  induction cs generalizing n with
  | nil => simp [after]
  | cons c cs ih =>
    by_cases hc : c = []
    · subst hc
      obtain rfl : n = 0 := by simpa using hn
      rfl
    · rw [delivered_cons hc] at hn ⊢
      rw [List.length_append] at hn
      rw [List.flatten_cons]
      by_cases hle : c.length ≤ n
      · rw [after_cons_of_le hc hle, List.take_append, List.take_of_length_le hle,
          List.append_assoc, ih (by omega)]
      · rw [after_cons_of_lt (by omega), List.take_append_of_le_length (by omega),
          List.flatten_cons, ← List.append_assoc, List.take_append_drop]

/-- **What is left in the chunks**, also when less was delivered than asked for:
a break stays where it is. -/
theorem flatten_after (n : ℕ) (cs : List (List α)) :
    (after n cs).flatten = cs.flatten.drop (min n (delivered cs).length) := by
  induction cs generalizing n with
  | nil => simp [after]
  | cons c cs ih =>
    by_cases hc : c = []
    · subst hc
      cases n with
      | zero => rfl
      | succ n => simp [after]
    · rw [delivered_cons hc, List.length_append, List.flatten_cons]
      by_cases hle : c.length ≤ n
      · have hmin : min n (c.length + (delivered cs).length) =
            c.length + min (n - c.length) (delivered cs).length := by omega
        rw [after_cons_of_le hc hle, ih, hmin, List.drop_length_add_append]
      · rw [after_cons_of_lt (by omega), List.flatten_cons, min_eq_left (by omega),
          List.drop_append_of_le_length (by omega)]

/-- A stream of non-empty chunks is delivered whole. -/
theorem delivered_eq_flatten {cs : List (List α)} (h : ∀ c ∈ cs, c ≠ []) :
    delivered cs = cs.flatten := by
  have happend := @delivered_append _ cs [] h
  simpa using happend

/-- **Taking `m` and then `n` is taking `m + n`**, wherever the cuts are: what
is left of a chunk is taken on from where it was cut. -/
theorem after_after {cs : List (List α)} {m n : ℕ} (hm : m ≤ (delivered cs).length) :
    after n (after m cs) = after (m + n) cs := by
  induction cs generalizing m with
  | nil => simp [after]
  | cons c cs ih =>
    by_cases hc : c = []
    · subst hc
      obtain rfl : m = 0 := by simpa using hm
      rw [after_zero, Nat.zero_add]
    · rw [delivered_cons hc, List.length_append] at hm
      by_cases hle : c.length ≤ m
      · rw [after_cons_of_le hc hle, ih (by omega), after_cons_of_le hc (by omega)]
        congr 1
        omega
      · rw [after_cons_of_lt (by omega)]
        by_cases hle' : c.length ≤ m + n
        · have hne : c.drop m ≠ [] := by rw [Ne, List.drop_eq_nil_iff]; omega
          rw [after_cons_of_le hne (by rw [List.length_drop]; omega), List.length_drop,
            after_cons_of_le hc hle']
          congr 1
          omega
        · rw [after_cons_of_lt (by rw [List.length_drop]; omega), after_cons_of_lt (by omega),
            List.drop_drop]

/-- Once all of the first chunks were taken, the others are left. -/
theorem after_append {as bs : List (List α)} (h : ∀ c ∈ as, c ≠ []) :
    after as.flatten.length (as ++ bs) = bs := by
  induction as with
  | nil => exact after_zero
  | cons c as ih =>
    rw [List.flatten_cons, List.length_append, List.cons_append,
      after_cons_of_le (h c (List.mem_cons_self ..)) (Nat.le_add_right ..), Nat.add_sub_cancel_left,
      ih fun c hc => h c (List.mem_cons_of_mem _ hc)]

/-- What a receive takes and what it leaves are what there was.  So a stream
loses nothing and doubles nothing, however it is cut. -/
theorem append_flatten_pull (n : ℕ) (cs : List (List α)) :
    (pull n cs).1 ++ (pull n cs).2.flatten = cs.flatten := by
  cases cs with
  | nil => rfl
  | cons c cs =>
    rw [pull, List.flatten_cons]
    split_ifs with hle
    · rw [List.take_of_length_le hle]
    · rw [List.flatten_cons, ← List.append_assoc, List.take_append_drop]

/-- A receive delivers the next elements and leaves the rest. -/
theorem pull_eq {n : ℕ} {c : List α} {cs : List (List α)} (hc : c ≠ []) :
    pull n (c :: cs) = (c.take n, after (c.take n).length (c :: cs)) := by
  rw [pull, List.length_take]
  by_cases hle : c.length ≤ n
  · rw [if_pos hle, min_eq_right hle, after_cons_of_le hc le_rfl, Nat.sub_self, after_zero]
  · rw [if_neg hle, min_eq_left (by omega), after_cons_of_lt (by omega)]

/-- **What a receive gets**, as long as the stream goes on: at least one
element, and no more than were asked for. -/
theorem exists_pull_eq {n : ℕ} {cs : List (List α)} (hn : 0 < n) (hd : delivered cs ≠ []) :
    ∃ k, 0 < k ∧ k ≤ n ∧ k ≤ (delivered cs).length ∧
      pull n cs = ((delivered cs).take k, after k cs) := by
  cases cs with
  | nil => exact absurd rfl hd
  | cons c cs =>
    have hc : c ≠ [] := by rintro rfl; exact hd rfl
    have hpos := List.length_pos_iff.2 hc
    have hlen : (c.take n).length = min n c.length := List.length_take
    refine ⟨(c.take n).length, by omega, by omega, ?_, ?_⟩
    · rw [delivered_cons hc, List.length_append]
      omega
    · rw [pull_eq hc, delivered_cons hc, List.take_append_of_le_length (by omega), hlen,
        List.take_eq_take_min]

/-- A receive on a stream that is over gets nothing.  Either there is no chunk
any more, or an empty one is next. -/
theorem pull_of_delivered_eq_nil {n m : ℕ} {cs : List (List α)} (hm : 0 < m)
    (hd : delivered cs = []) : pull n cs = ([], after m cs) := by
  cases cs with
  | nil => simp [pull, after]
  | cons c cs =>
    have hc : c = [] := by
      by_contra hc
      rw [delivered_cons hc] at hd
      exact hc (List.append_eq_nil_iff.1 hd).1
    obtain ⟨m, rfl⟩ : ∃ k, m = k + 1 := ⟨m - 1, by omega⟩
    subst hc
    simp [pull, after]

/-- A reader that has enough with the first chunk takes that one. -/
theorem reach_cons_of_le {h : ℕ} {c : List α} {cs : List (List α)} (hle : h ≤ c.length) :
    reach h (c :: cs) = c.length := if_pos hle

/-- Otherwise it takes it and goes on for the rest. -/
theorem reach_cons_of_lt {h : ℕ} {c : List α} {cs : List (List α)} (hlt : c.length < h) :
    reach h (c :: cs) = c.length + reach (h - c.length) cs := if_neg (by omega)

/-- A reader that wants `h` elements gets them, if they arrive at all.  It goes
on receiving as long as it has fewer. -/
theorem le_reach {h : ℕ} {cs : List (List α)} (hh : h ≤ (delivered cs).length) :
    h ≤ reach h cs := by
  induction cs generalizing h with
  | nil => simp at hh; omega
  | cons c cs ih =>
    by_cases hle : h ≤ c.length
    · rwa [reach_cons_of_le hle]
    · rw [reach_cons_of_lt (by omega)]
      have hc : c ≠ [] := by rintro rfl; simp at hh; omega
      rw [delivered_cons hc, List.length_append] at hh
      have := ih (h := h - c.length) (by omega)
      omega

/-- It takes nothing that does not arrive. -/
theorem reach_le {h : ℕ} {cs : List (List α)} (h₀ : 0 < h) (hh : h ≤ (delivered cs).length) :
    reach h cs ≤ (delivered cs).length := by
  induction cs generalizing h with
  | nil => simp at hh; omega
  | cons c cs ih =>
    have hc : c ≠ [] := by rintro rfl; simp at hh; omega
    rw [delivered_cons hc, List.length_append] at hh ⊢
    by_cases hle : h ≤ c.length
    · rw [reach_cons_of_le hle]
      omega
    · rw [reach_cons_of_lt (by omega)]
      have := ih (h := h - c.length) (by omega) (by omega)
      omega

/-- It takes no chunk it does not need.  So the chunks of the next message are
still there if each message has its own. -/
theorem reach_append_le {h : ℕ} {as bs : List (List α)} (hh : h ≤ as.flatten.length) (h₀ : 0 < h) :
    reach h (as ++ bs) ≤ as.flatten.length := by
  induction as generalizing h with
  | nil => simp at hh; omega
  | cons c as ih =>
    rw [List.flatten_cons, List.length_append] at hh ⊢
    rw [List.cons_append]
    by_cases hle : h ≤ c.length
    · rw [reach_cons_of_le hle]
      omega
    · rw [reach_cons_of_lt (by omega)]
      have := ih (h := h - c.length) (by omega) (by omega)
      omega

end Lib
end Dukserver
