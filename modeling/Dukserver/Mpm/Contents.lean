/-
# What becomes of the requests and of the responses

`libhttpd/http_mpm.c`, `_worker_frontend` (lines 142-205).  Each content that
`http_recv_request` returns belongs to one frontend until that deletes it, and it does so
once, in every interleaving and whatever fails: a content that was received is held by a
frontend or deleted, and never both (`requests_deleted`).  If no wait for the response
fails, `process_cb` never runs on a deleted one.

The frontends are served in the order in which they publish, and each response is read
once (`served_inOrder`).
-/

import Dukserver.Mpm.Handoff
import Mathlib.Data.List.Perm.Basic

namespace Dukserver
namespace Mpm

open Lib (Slot)

variable {ι ρ : Type}

/-- The requests deleted in a run, in order. -/
def deletes (tr : List (Label ι ρ)) : List (Option ℕ) :=
  tr.filterMap fun l => match l with
    | .delete _ r _ => some r
    | _ => none

/-- A step that deletes nothing adds nothing to what was deleted. -/
theorem deletes_concat_of_ne {tr : List (Label ι ρ)} {l : Label ι ρ}
    (hne : ∀ i r http10, l ≠ .delete i r http10) : deletes (tr ++ [l]) = deletes tr := by
  rw [deletes, List.filterMap_append]
  cases l with
  | delete i r http10 => exact absurd rfl (hne i r http10)
  | _ => exact List.append_nil _

/-- A content was received and no frontend holds it. -/
def State.Gone (s : State ι ρ) (n : ℕ) : Prop :=
  n < s.contents ∧ ∀ i, (s.frontend i).req ≠ some n

/-- What was received and is not held any more was deleted, and nothing else; a
frontend without a request has none. -/
structure Accounted (ds : List (Option ℕ)) (s : State ι ρ) : Prop where
  nodup : ds.Nodup
  mem : ∀ r, r ∈ ds ↔ ∃ n, r = some n ∧ s.Gone n
  rest : ∀ i, (s.frontend i).pc.holding = false → (s.frontend i).req = none

/-- At the start there is no content. -/
theorem init_accounted : Accounted [] (init ι ρ) where
  nodup := List.nodup_nil
  mem r := iff_of_false List.not_mem_nil (by
    rintro ⟨n, -, hn, -⟩
    exact Nat.not_lt_zero n hn)
  rest _ _ := rfl

variable [DecidableEq ι]

section Step

variable {s : State ι ρ} {l : Label ι ρ} {ds ps : List (Option ℕ)} {i : ι}

/-- A frontend that is not on a request after a step has none then: it has
deleted it or received none, and the others are where they were. -/
theorem rest_next (h : ∀ i, (s.frontend i).pc.holding = false → (s.frontend i).req = none)
    (hl : Enabled s l) (hi : ((next s l).frontend i).pc.holding = false) :
    ((next s l).frontend i).req = none := by
  by_cases hli : l.frontend = some i
  · have hstep := frontend_step hl hli
    have hbefore := h i
    revert hi hstep hbefore
    generalize (s.frontend i).pc = p
    generalize ((next s l).frontend i).pc = p'
    intro hi hstep hbefore
    cases hstep with
    | accept | recvNull | deleteLast r http10 | delete r http10 => simp [next]
    | close => simpa [next] using hbefore rfl
    | _ => cases hi
  · rw [next_frontend_of_ne hli] at hi ⊢
    exact h i hi

/-- Only `http_recv_request` and `http_content_delete` change what a frontend
holds. -/
theorem req_next (h : ∀ i, (s.frontend i).pc.holding = false → (s.frontend i).req = none)
    (hl : Enabled s l) (hrecv : ∀ i, l ≠ .recv i true)
    (hdelete : ∀ i r http10, l ≠ .delete i r http10) (i : ι) :
    ((next s l).frontend i).req = (s.frontend i).req := by
  by_cases hli : l.frontend = some i
  · have hstep := frontend_step hl hli
    have hbefore := h i
    revert hstep hbefore
    generalize (s.frontend i).pc = p
    generalize ((next s l).frontend i).pc = p'
    intro hstep hbefore
    cases hstep with
    | accept | recvNull => simpa [next] using (hbefore rfl).symm
    | recv => exact absurd rfl (hrecv i)
    | deleteLast r http10 | delete r http10 => exact absurd rfl (hdelete i r http10)
    | _ => simp [next]
  · rw [next_frontend_of_ne hli]

omit [DecidableEq ι] in
/-- What was gone or held is so with the same frontends and as many contents. -/
theorem Gone.congr {t : State ι ρ} (hc : t.contents = s.contents)
    (hreq : ∀ i, (t.frontend i).req = (s.frontend i).req) (n : ℕ) : t.Gone n ↔ s.Gone n := by
  simp only [State.Gone, hc, hreq]

/-- No other step makes a content.  So the number that the next one gets is the
count of successful receives. -/
theorem contents_next (hrecv : ∀ i, l ≠ .recv i true) :
    (next s l).contents = s.contents := by
  cases l with
  | pollAccepter | testBreak | pollFastcgi =>
    simp only [next]
    split <;> (try split) <;> rfl
  | accept conn => cases conn <;> rfl
  | recv i got =>
    cases got with
    | true => exact absurd rfl (hrecv i)
    | false => rfl
  | _ => rfl

/-- A frontend receives a new content, which is held by it and by nobody else,
as its number is the next one. -/
theorem Accounted.recv (h : Accounted ds s) (i : ι)
    (hl : Enabled s (.recv i true)) : Accounted ds (next s (.recv i true)) where
  nodup := h.nodup
  mem r := by
    rw [h.mem]
    refine exists_congr fun n => and_congr_right fun _ => ?_
    have hi : (s.frontend i).req = none :=
      h.rest i (by rw [show (s.frontend i).pc = _ from hl]; rfl)
    constructor
    · rintro ⟨hn, hreq⟩
      refine ⟨Nat.lt_succ_of_lt hn, fun j => ?_⟩
      by_cases hj : j = i
      · subst hj
        simp [next]
        omega
      · simpa [next, State.setFrontend, hj] using hreq j
    · rintro ⟨hn, hreq⟩
      have hne : s.contents ≠ n := fun he => hreq i (by simp [next, he])
      refine ⟨Nat.lt_of_le_of_ne (Nat.le_of_lt_succ hn) (Ne.symm hne), fun j => ?_⟩
      by_cases hj : j = i
      · simp [hj, hi]
      · simpa [next, State.setFrontend, hj] using hreq j
  rest _ := rest_next h.rest hl

omit [DecidableEq ι] in
/-- A frontend deletes the content it holds, and holds none afterwards; no other
frontend holds that one. -/
theorem Accounted.delete {t : State ι ρ} {n : ℕ} (h : Accounted ds s) (hfresh : Fresh ps s)
    (hn : (s.frontend i).req = some n) (hc : t.contents = s.contents)
    (hself : (t.frontend i).req = none)
    (hother : ∀ j, j ≠ i → (t.frontend j).req = (s.frontend j).req)
    (hrest : ∀ j, (t.frontend j).pc.holding = false → (t.frontend j).req = none) :
    Accounted (ds ++ [some n]) t := by
  have hnot : some n ∉ ds := by
    intro hmem
    obtain ⟨m, hm, -, hreq⟩ := (h.mem _).1 hmem
    exact hreq i (hn.trans hm)
  have hgone : ∀ m, t.Gone m ↔ s.Gone m ∨ m = n := by
    intro m
    rw [State.Gone, State.Gone, hc]
    constructor
    · rintro ⟨hm, hreq⟩
      by_cases hmn : m = n
      · exact .inr hmn
      refine .inl ⟨hm, fun j => ?_⟩
      by_cases hj : j = i
      · rw [hj, hn]
        exact fun he => hmn (Option.some.inj he).symm
      · rw [← hother j hj]
        exact hreq j
    · rintro (⟨hm, hreq⟩ | rfl)
      · refine ⟨hm, fun j => ?_⟩
        by_cases hj : j = i
        · simp [hj, hself]
        · rw [hother j hj]
          exact hreq j
      · refine ⟨hfresh.lt i m hn, fun j => ?_⟩
        by_cases hj : j = i
        · simp [hj, hself]
        · rw [hother j hj]
          exact fun hreq => hj (hfresh.inj j i m hreq hn)
  refine ⟨?_, fun r => ?_, hrest⟩
  · rw [List.nodup_append]
    refine ⟨h.nodup, List.nodup_singleton _, fun a ha b hb hab => hnot ?_⟩
    rwa [← List.mem_singleton.1 hb, ← hab]
  · rw [List.mem_append, h.mem, List.mem_singleton]
    constructor
    · rintro (⟨m, rfl, hm⟩ | rfl)
      · exact ⟨m, rfl, (hgone m).2 (.inl hm)⟩
      · exact ⟨n, rfl, (hgone n).2 (.inr rfl)⟩
    · rintro ⟨m, rfl, hm⟩
      rcases (hgone m).1 hm with hm | rfl
      · exact .inl ⟨m, rfl, hm⟩
      · exact .inr rfl

/-- Every step keeps the account: a receive adds a content that is held, a
deletion moves one to those that are gone, and nothing else changes who holds
what. -/
theorem step_accounted {tr : List (Label ι ρ)} (h : Accounted (deletes tr) s)
    (hfresh : Fresh ps s) (hl : Enabled s l) : Accounted (deletes (tr ++ [l])) (next s l) := by
  by_cases hdelete : ∃ i r http10, l = .delete i r http10
  · obtain ⟨i, r, http10, rfl⟩ := hdelete
    obtain rfl : r = (s.frontend i).req := hl.2
    obtain ⟨n, hn⟩ := hfresh.held i (by rw [hl.1]; rfl)
    rw [show deletes (tr ++ [.delete i (s.frontend i).req http10]) =
      deletes tr ++ [some n] by simp [deletes, hn]]
    refine h.delete hfresh hn rfl (by simp [next]) (fun j hj => ?_) fun _ => rest_next h.rest hl
    have hother : (Label.delete i (s.frontend i).req http10 : Label ι ρ).frontend ≠ some j :=
      fun he => hj (Option.some.inj he).symm
    rw [next_frontend_of_ne hother]
  · have hne : ∀ i r http10, l ≠ .delete i r http10 :=
      fun i r http10 he => hdelete ⟨i, r, http10, he⟩
    rw [deletes_concat_of_ne hne]
    by_cases hrecv : ∃ i, l = .recv i true
    · obtain ⟨i, rfl⟩ := hrecv
      exact h.recv i hl
    · have hno : ∀ i, l ≠ .recv i true := fun i he => hrecv ⟨i, he⟩
      refine ⟨h.nodup, fun r => ?_, fun _ => rest_next h.rest hl⟩
      rw [h.mem]
      exact exists_congr fun n => and_congr_right fun _ =>
        (Gone.congr (contents_next hno) (req_next h.rest hl hno hne) n).symm

end Step

/-! ### Runs -/

section Runs

variable {tr : List (Label ι ρ)} {s : State ι ρ}

/-- So it is kept in every run, whatever fails. -/
theorem run_accounted (h : (mpm ι ρ).Run (init ι ρ) tr s) : Accounted (deletes tr) s :=
  Lib.Machine.run_induction (P := fun tr s => Accounted (deletes tr) s) init_accounted
    (fun _ _ _ hrun ih hl => step_accounted ih (run_fresh hrun) hl) h

/-- The worker is on a request: it has read it or `process_cb` runs on it. -/
def State.OnRequest (s : State ι ρ) : Prop := s.fastcgi.pc = .call ∨ s.fastcgi.pc = .process

/-- While the worker is on a request, a frontend holds that.  It has published
the request and waits for its answer, so it cannot have deleted it. -/
theorem run_onRequest (h : (mpm ι ρ).Run (init ι ρ) tr s) (hr : ∀ i, .doneFail i ∉ tr)
    (hw : s.OnRequest) : ∃ i, (s.frontend i).pc.holding = true ∧
      (s.frontend i).req = s.fastcgi.req := by
  obtain ⟨c, -, hsim⟩ := run_sim h hr
  rcases hw with hw | hw
  · obtain ⟨i, -, hq, hp, -, -, -, hwq⟩ := hsim.loading (.inr hw)
    exact ⟨i, by rw [hp]; rfl, hq.trans (hwq hw).symm⟩
  · obtain ⟨i, -, hq, hp, -, -⟩ := hsim.processing hw
    exact ⟨i, by rw [hp]; rfl, hq⟩

/-- **Every request is deleted once**, in every interleaving, whatever fails and
for any number of frontends: those that were deleted are those that were
received and that no frontend holds, each is held by one frontend at most, and
once every frontend has ended they are all that were received.  If no wait for
the response fails, `process_cb` never runs on one that was deleted. -/
theorem requests_deleted (h : (mpm ι ρ).Run (init ι ρ) tr s) :
    (deletes tr).Nodup ∧
      (∀ r, r ∈ deletes tr ↔ ∃ n < s.contents, r = some n ∧ ∀ i, (s.frontend i).req ≠ some n) ∧
      (∀ i j n, (s.frontend i).req = some n → (s.frontend j).req = some n → i = j) ∧
      ((∀ i, (s.frontend i).pc.holding = false) →
        (deletes tr).Perm ((List.range s.contents).map some)) ∧
      ((∀ i, .doneFail i ∉ tr) → s.OnRequest → s.fastcgi.req ∉ deletes tr) := by
  have hacc := run_accounted h
  have hfresh := run_fresh h
  have hmem : ∀ r, r ∈ deletes tr ↔
      ∃ n < s.contents, r = some n ∧ ∀ i, (s.frontend i).req ≠ some n := by
    intro r
    rw [hacc.mem]
    exact exists_congr fun n => ⟨fun ⟨hr, hn, hreq⟩ => ⟨hn, hr, hreq⟩,
      fun ⟨hn, hr, hreq⟩ => ⟨hr, hn, hreq⟩⟩
  refine ⟨hacc.nodup, hmem, hfresh.inj, fun hall => ?_, fun hr hw => ?_⟩
  · have hrange : ((List.range s.contents).map (some : ℕ → Option ℕ)).Nodup :=
      List.nodup_range.map fun _ _ => Option.some.inj
    rw [List.perm_ext_iff_of_nodup hacc.nodup hrange]
    intro r
    rw [hmem, List.mem_map]
    refine exists_congr fun n => ?_
    rw [List.mem_range]
    refine and_congr_right fun _ => ⟨fun hn => hn.1.symm, fun hn => ⟨hn.symm, fun i => ?_⟩⟩
    rw [hacc.rest i (hall i)]
    simp
  · obtain ⟨i, hi, hq⟩ := run_onRequest h hr hw
    obtain ⟨n, hn⟩ := hfresh.held i hi
    rw [← hq, hn, hmem]
    rintro ⟨m, -, hm, hreq⟩
    exact hreq i (hn.trans hm)

/-- The hypothesis is satisfiable: two requests. -/
theorem requests_deleted_twoFrontends :
    (deletes twoFrontends).Nodup ∧ (some 0 : Option ℕ) ∈ deletes twoFrontends := by
  have hrun : (mpm Bool ℕ).Run (init Bool ℕ) twoFrontends
      ((mpm Bool ℕ).exec (init Bool ℕ) twoFrontends) :=
    Lib.Machine.run_iff_exec.2 ⟨by decide, rfl⟩
  obtain ⟨hnodup, hmem, -⟩ := requests_deleted hrun
  exact ⟨hnodup, (hmem _).2 ⟨0, by decide, rfl, by decide⟩⟩

/-- The frontends and the requests they have published, in order. -/
def requests (tr : List (Label ι ρ)) : List (ι × Option ℕ) := Slot.requests (tr.map slotLabel)

/-- The responses that were read, with the frontend and its request. -/
def reads (tr : List (Label ι ρ)) : List (ι × Option ℕ × Option ρ) := Slot.reads (tr.map slotLabel)

/-- What `process_cb` has returned, with its requests. -/
def returns (tr : List (Label ι ρ)) : List (Option ℕ × Option ρ) :=
  Slot.returns (tr.map slotLabel)

/-- **The frontends are served in the order in which they publish**, in every
run in which no wait for the response fails: what they read, they read in that
order and each of them what `process_cb` has returned for it, and but for the
one that is being served nothing that was published stays unanswered and nothing
that was returned unread. -/
theorem served_inOrder (h : (mpm ι ρ).Run (init ι ρ) tr s) (hr : ∀ i, .doneFail i ∉ tr) :
    ∃ waiting unread, requests tr = (reads tr).map (fun p => (p.1, p.2.1)) ++ waiting ∧
      returns tr = (reads tr).map Prod.snd ++ unread ∧
      waiting.length ≤ 1 ∧ unread.length ≤ 1 ∧ unread.map Prod.fst <+: waiting.map Prod.snd ∧
      (s.mutexFastcgi = none → waiting = []) := by
  obtain ⟨c, hrun, hsim⟩ := run_sim h hr
  refine ⟨c.request.toList, c.unread, Slot.requests_eq hrun, Slot.returns_eq hrun, ?_, ?_, ?_,
    fun hnone => ?_⟩
  · cases c <;> simp [Slot.request]
  · cases c <;> simp [Slot.unread]
  · cases c <;> simp [Slot.request, Slot.unread]
  · rw [hsim.mutex] at hnone
    cases c with
    | free => rfl
    | _ => simp [Slot.owner] at hnone

/-- The hypotheses are satisfiable: the second frontend is served first. -/
theorem served_inOrder_twoFrontends :
    ∃ waiting, requests twoFrontends =
      (reads twoFrontends).map (fun p => (p.1, p.2.1)) ++ waiting ∧ waiting = [] := by
  have hrun : (mpm Bool ℕ).Run (init Bool ℕ) twoFrontends
      ((mpm Bool ℕ).exec (init Bool ℕ) twoFrontends) :=
    Lib.Machine.run_iff_exec.2 ⟨by decide, rfl⟩
  obtain ⟨waiting, -, hwaiting, -, -, -, -, hnone⟩ := served_inOrder hrun (by decide)
  exact ⟨waiting, hwaiting, hnone (by decide)⟩

end Runs

end Mpm
end Dukserver
