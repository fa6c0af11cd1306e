/-
# Programs that change a state and can end early

A program reads and changes a state and ends with a value or with an error; the state is
kept in both cases.  `Ends x s Q` says that the program `x` succeeds from the state `s`
with a value and a state that `Q` is true of, and `Post x s Q E` says what is true however
it ends; the rules say it of what programs are composed of.
-/

import Mathlib.Data.List.Basic

namespace Dukserver
namespace Lib
namespace Effects

universe u

/-- A program with states `σ` and errors `ε`. -/
abbrev Prog (ε σ α : Type u) := ExceptT ε (StateM σ) α

variable {ε σ α β : Type u}

/-- What a program does in a state. -/
def exec (x : Prog ε σ α) (s : σ) : Except ε α × σ := StateT.run x.run s

/-- The program succeeds with a value and a state that meet `Q`. -/
def Ends (x : Prog ε σ α) (s : σ) (Q : α → σ → Prop) : Prop :=
  ∃ a t, exec x s = (.ok a, t) ∧ Q a t

variable {x : Prog ε σ α} {f : α → Prog ε σ β} {s t : σ} {a : α} {e : ε}

/-- Reading the state answers it and leaves it. -/
@[simp] theorem exec_get : exec (get : Prog ε σ σ) s = (.ok s, s) := rfl

/-- Changing the state succeeds, with nothing for an answer. -/
@[simp] theorem exec_modify {g : σ → σ} : exec (modify g : Prog ε σ PUnit) s = (.ok ⟨⟩, g s) := rfl

/-- Two parts one after the other: the second starts with the state that the
first has left, and is not reached if the first ends with an error. -/
theorem exec_bind : exec (x >>= f) s =
    match exec x s with
    | (.ok a, t) => exec (f a) t
    | (.error e, t) => (.error e, t) := by
  change ExceptT.bindCont f (exec x s).1 (exec x s).2 = _
  rcases exec x s with ⟨_ | _, _⟩ <;> rfl

/-- The rest of a program starts where the first part has succeeded. -/
theorem exec_bind_ok (h : exec x s = (.ok a, t)) : exec (x >>= f) s = exec (f a) t := by
  rw [exec_bind, h]

/-- An error ends the whole program, with the state that the first part has
left. -/
theorem exec_bind_error (h : exec x s = (.error e, t)) : exec (x >>= f) s = (.error e, t) := by
  rw [exec_bind, h]

/-! ### Rules for programs that succeed -/

variable {Q Q' : α → σ → Prop} {R : β → σ → Prop} {E : ε → σ → Prop}

/-- A run that is known is a specification. -/
theorem ends_of_exec (h : exec x s = (.ok a, t)) (ha : Q a t) : Ends x s Q := ⟨a, t, h, ha⟩

/-- The rule for reading the state. -/
theorem ends_get {Q : σ → σ → Prop} (h : Q s s) : Ends (get : Prog ε σ σ) s Q := ⟨s, s, rfl, h⟩

/-- The rule for changing the state. -/
theorem ends_modify {g : σ → σ} {Q : PUnit → σ → Prop} (h : Q ⟨⟩ (g s)) :
    Ends (modify g : Prog ε σ PUnit) s Q := ⟨⟨⟩, g s, rfl, h⟩

/-- The rule for a program that only answers. -/
theorem ends_pure (h : Q a s) : Ends (pure a : Prog ε σ α) s Q := ⟨a, s, rfl, h⟩

/-- The rule for two parts, read backwards: the first part has to end where the
rest succeeds. -/
theorem Ends.bind (h : Ends x s fun a t => Ends (f a) t R) : Ends (x >>= f) s R := by
  obtain ⟨a, t, hx, b, u, hf, hR⟩ := h
  exact ⟨b, u, (exec_bind_ok hx).trans hf, hR⟩

/-- A program that succeeds has succeeded in its first part, since an error
there would have been its own. -/
theorem Ends.of_bind (h : Ends (x >>= f) s R) : Ends x s fun a t => Ends (f a) t R := by
  rcases hx : exec x s with ⟨e | a, t⟩
  · obtain ⟨b, u, hexec, -⟩ := h
    rw [exec_bind_error hx] at hexec
    cases hexec
  · rw [Ends, exec_bind_ok hx] at h
    exact ⟨a, t, hx, h⟩

/-- What follows from a specification is one. -/
theorem Ends.mono (h : Ends x s Q) (hQ : ∀ a t, Q a t → Q' a t) : Ends x s Q' := by
  obtain ⟨a, t, hx, ha⟩ := h
  exact ⟨a, t, hx, hQ a t ha⟩

/-- A part with its own specification, and then the rest: the form in which a
program is followed step by step, each call by the lemma about it. -/
theorem Ends.seq (h : Ends x s Q) (hf : ∀ a t, Q a t → Ends (f a) t R) : Ends (x >>= f) s R :=
  (h.mono hf).bind

/-! ### Rules for programs that end in any way -/

/-- The value and the state meet `Q` if the program succeeds, and otherwise the
error and the state meet `E`. -/
structure Post (x : Prog ε σ α) (s : σ) (Q : α → σ → Prop) (E : ε → σ → Prop) : Prop where
  ok : ∀ a t, exec x s = (.ok a, t) → Q a t
  error : ∀ e t, exec x s = (.error e, t) → E e t

/-- Of every run something trivial is true, also of one that ends with an error. -/
theorem post_true (x : Prog ε σ α) (s : σ) : Post x s (fun _ _ => True) fun _ _ => True :=
  ⟨fun _ _ _ => trivial, fun _ _ _ => trivial⟩

/-- A run that is known and succeeds meets what its answer and its state meet,
whatever is asked of errors. -/
theorem post_of_exec_ok (h : exec x s = (.ok a, t)) (ha : Q a t) : Post x s Q E := by
  constructor <;> intro _ _ h' <;> rw [h] at h' <;> cases h'
  exact ha

/-- A run that is known and ends with an error meets what is asked of that
error. -/
theorem post_of_exec_error (h : exec x s = (.error e, t)) (he : E e t) : Post x s Q E := by
  constructor <;> intro _ _ h' <;> rw [h] at h' <;> cases h'
  exact he

/-- A program is known by what it does: it has one run from a state. -/
theorem post_iff_of_exec_ok (h : exec x s = (.ok a, t)) : Post x s Q E ↔ Q a t :=
  ⟨fun hpost => hpost.ok a t h, post_of_exec_ok h⟩

/-- The rule for a program that only answers. -/
theorem post_pure (h : Q a s) : Post (pure a : Prog ε σ α) s Q E := post_of_exec_ok rfl h

/-- The rule for reading the state. -/
theorem post_get (s : σ) : Post (get : Prog ε σ σ) s (fun a t => a = s ∧ t = s) E :=
  post_of_exec_ok rfl ⟨rfl, rfl⟩

/-- What succeeds meets its specification however it ends. -/
theorem Ends.post (h : Ends x s Q) : Post x s Q E := by
  obtain ⟨a, t, hx, ha⟩ := h
  exact post_of_exec_ok hx ha

/-- The two ways to end.  It is by these that a proof about one part goes on to
the next. -/
theorem Post.cases (h : Post x s Q E) : Ends x s Q ∨ ∃ e t, exec x s = (.error e, t) ∧ E e t := by
  rcases hx : exec x s with ⟨e | a, t⟩
  · exact .inr ⟨e, t, rfl, h.error e t hx⟩
  · exact .inl ⟨a, t, hx, h.ok a t hx⟩

/-- What is true however a program ends is true of its success. -/
theorem Ends.and_post (h : Ends x s Q) (hpost : Post x s Q' E) :
    Ends x s fun a t => Q a t ∧ Q' a t := by
  obtain ⟨a, t, hx, ha⟩ := h
  exact ⟨a, t, hx, ha, hpost.ok a t hx⟩

/-- A program that succeeds is one that does not end with an error. -/
theorem ends_iff_post : Ends x s Q ↔ Post x s Q fun _ _ => False :=
  ⟨Ends.post, fun h => h.cases.resolve_right fun he => he.elim fun _ he => he.elim fun _ he => he.2⟩

/-- What follows from a specification is one, for each of the two ways to end. -/
theorem Post.mono {E' : ε → σ → Prop} (h : Post x s Q E) (hQ : ∀ a t, Q a t → Q' a t)
    (hE : ∀ e t, E e t → E' e t) : Post x s Q' E' := by
  rcases h.cases with ⟨a, t, hx, ha⟩ | ⟨e, t, hx, he⟩
  · exact post_of_exec_ok hx (hQ a t ha)
  · exact post_of_exec_error hx (hE e t he)

/-- A part with its own specification, and then the rest.  Errors of both parts
meet the same condition, as nothing catches them. -/
theorem Post.seq (h : Post x s Q E) (hf : ∀ a t, Q a t → Post (f a) t R E) :
    Post (x >>= f) s R E := by
  rcases h.cases with ⟨a, t, hx, ha⟩ | ⟨e, t, hx, he⟩
  · have hrest := hf a t ha
    constructor <;> intro _ _ h' <;> rw [exec_bind_ok hx] at h'
    · exact hrest.ok _ _ h'
    · exact hrest.error _ _ h'
  · exact post_of_exec_error (exec_bind_error hx) he

/-- **An invariant of the passes of a loop**, which depends on what is left of
its list.  Each pass takes one element, and if none is left the loop has
succeeded. -/
theorem Post.foldlM {γ : Type*} {g : β → γ → Prog ε σ β} {I : List γ → β → σ → Prop}
    (hstep : ∀ c l b s, I (c :: l) b s → Post (g b c) s (I l) E) {l : List γ} {b : β}
    (h : I l b s) : Post (l.foldlM g b) s (I []) E := by
  induction l generalizing b s with
  | nil => exact post_pure h
  | cons c l ih =>
    rw [List.foldlM_cons]
    exact (hstep c l b s h).seq fun b' t hb' => ih hb'

/-! ### Programs that do what a computation without a state does -/

/-- The program ends as the computation `y` does: in the state and with the
value that `out` gives for its result, or with its error. -/
def Follows {ε' : Type*} {γ : Type*} (φ : ε' → ε) (x : Prog ε σ α) (s : σ) (y : Except ε' γ)
    (out : γ → α × σ) : Prop :=
  match y with
  | .ok c => exec x s = (.ok (out c).1, (out c).2)
  | .error e => ∃ t, exec x s = (.error (φ e), t)

section Follows

universe v w

variable {ε' : Type v} {γ δ : Type w} {φ : ε' → ε} {y : Except ε' γ} {g : γ → Except ε' δ}
  {out : γ → α × σ} {out' : δ → β × σ}

/-- A program that succeeds follows a computation that does, if the answers and
the states agree. -/
theorem follows_ok {c : γ} (h : exec x s = (.ok (out c).1, (out c).2)) :
    Follows φ x s (.ok c) out := h

/-- A step that cannot fail, and then the rest.  The computation does nothing
meanwhile. -/
theorem Follows.step {z : Except ε' δ} (hx : exec x s = (.ok a, t))
    (hf : Follows φ (f a) t z out') : Follows φ (x >>= f) s z out' := by
  unfold Follows at hf ⊢
  rw [exec_bind_ok hx]
  exact hf

/-- A part that follows a computation, and then the rest: if the computation
fails, so does the program, and the rest is reached on neither side. -/
theorem Follows.seq (h : Follows φ x s y out)
    (hf : ∀ c, y = .ok c → Follows φ (f (out c).1) (out c).2 (g c) out') :
    Follows φ (x >>= f) s (y >>= g) out' := by
  cases y with
  | ok c => exact Follows.step h (hf c rfl)
  | error e =>
    obtain ⟨t, hx⟩ := h
    exact ⟨t, exec_bind_error hx⟩

/-- A part that follows a computation, and then steps that cannot fail. -/
theorem Follows.finish {out₁ : γ → β × σ} (h : Follows φ x s y out)
    (hf : ∀ c, exec (f (out c).1) (out c).2 = (.ok (out₁ c).1, (out₁ c).2)) :
    Follows φ (x >>= f) s y out₁ := by
  cases y with
  | ok c => exact Follows.step h (hf c)
  | error e =>
    obtain ⟨t, hx⟩ := h
    exact ⟨t, exec_bind_error hx⟩

/-- What is made of the result in the end is made of it on both sides. -/
theorem Follows.map (h : γ → δ) {out₁ : δ → α × σ}
    (hx : Follows φ x s y fun c => out₁ (h c)) :
    Follows φ x s (y >>= fun c => .ok (h c)) out₁ := by
  cases y with
  | ok c => exact hx
  | error e => exact hx

/-- Two programs that do the same follow the same computations. -/
theorem Follows.congr {x' : Prog ε σ α} {s' : σ} (h : exec x s = exec x' s')
    (hx : Follows φ x' s' y out) : Follows φ x s y out := by
  unfold Follows at hx ⊢
  rw [h]
  exact hx

/-- **A loop follows a loop** if each pass follows a pass.  The state after a
pass is the one that belongs to what the computation has, so the next pass
starts alike. -/
theorem Follows.foldlM {ι : Type w} {p : PUnit → ι → Prog ε σ PUnit} {q : γ → ι → Except ε' γ}
    (st : γ → σ) (hpass : ∀ i c, Follows φ (p ⟨⟩ i) (st c) (q c i) fun c => (⟨⟩, st c))
    (l : List ι) (c : γ) :
    Follows φ (l.foldlM p ⟨⟩) (st c) (l.foldlM q c) fun c => (⟨⟩, st c) := by
  induction l generalizing c with
  | nil => exact follows_ok rfl
  | cons i l ih =>
    rw [List.foldlM_cons, List.foldlM_cons]
    exact (hpass i c).seq fun c' _ => ih c'

end Follows

end Effects

end Lib
end Dukserver
