import Mathlib.Tactic.Common

/-!
# Outcomes of computations that may stop

A computation is described by what holds when it returns, and by why it may stop. A
loop keeps an invariant of the elements it has gone through. A computation that follows
another one stops as it does, or returns a related result.
-/

namespace Cyberd.Library

variable {ε α β γ δ σ τ ι κ : Type}

/-- The computation returns with `post`, or stops for a reason with `stop`. -/
def Outcome (stop : ε → Prop) (post : α → Prop) : Except ε α → Prop
  | .ok a => post a
  | .error e => stop e

variable {stop stop' : ε → Prop} {post post' : α → Prop}

@[simp] theorem outcome_ok (a : α) : Outcome stop post (.ok a) ↔ post a := Iff.rfl

@[simp] theorem outcome_error (e : ε) : Outcome stop post (.error e) ↔ stop e := Iff.rfl

/-- Both conditions can be weakened. -/
theorem Outcome.mono {x : Except ε α} (h : Outcome stop post x) (hpost : ∀ a, post a → post' a)
    (hstop : ∀ e, stop e → stop' e) : Outcome stop' post' x := by
  cases x with
  | ok a => exact hpost a h
  | error e => exact hstop e h

/-- What is returned is the result of the computation. -/
theorem Outcome.result {x : Except ε α} (h : Outcome stop post x) :
    Outcome stop (fun a => x = .ok a ∧ post a) x := by
  cases x with
  | ok a => exact ⟨rfl, h⟩
  | error e => exact h

/-- Two outcomes of one computation. -/
theorem Outcome.and {x : Except ε α} (h : Outcome stop post x) (h' : Outcome stop' post' x) :
    Outcome stop (fun a => post a ∧ post' a) x := by
  cases x with
  | ok a => exact ⟨h, h'⟩
  | error e => exact h

/-- A result that is observed is the one of the computation. -/
theorem ok_of_toOption {x : Except ε α} {a : α} (h : x.toOption = some a) : x = .ok a := by
  cases x with
  | ok b => exact congrArg Except.ok (Option.some.inj h)
  | error e => cases h

/-- A sequence, by the outcomes of its parts. -/
theorem Outcome.bind {x : Except ε α} {f : α → Except ε β} {post' : β → Prop}
    (hx : Outcome stop post x) (hf : ∀ a, post a → Outcome stop post' (f a)) :
    Outcome stop post' (x >>= f) := by
  cases x with
  | ok a => exact hf a hx
  | error e => exact hx

/-- A loop keeps the invariant of the elements it has gone through. -/
theorem Outcome.foldlM {f : σ → ι → Except ε σ} (inv : List ι → σ → Prop) {l : List ι} {s : σ}
    (hs : inv [] s)
    (hstep : ∀ done x rest s, l = done ++ x :: rest → inv done s →
      Outcome stop (inv (done ++ [x])) (f s x)) :
    Outcome stop (inv l) (l.foldlM f s) := by
  have hloop : ∀ (rest done : List ι) (s : σ), l = done ++ rest → inv done s →
      Outcome stop (inv l) (rest.foldlM f s) := by
    intro rest
    induction rest with
    | nil =>
      rintro done s rfl h
      rw [List.append_nil]
      exact h
    | cons x rest ih =>
      intro done s hl h
      rw [List.foldlM_cons]
      exact (hstep done x rest s hl h).bind fun s' h' => ih (done ++ [x]) s' (by simp [hl]) h'
  exact hloop l [] s rfl hs

/-- A loop whose steps may use where the elements before them have led to. -/
theorem Outcome.foldlM_reached {f : σ → ι → Except ε σ} (inv : List ι → σ → Prop) {l : List ι}
    {s₀ : σ} (hs : inv [] s₀)
    (hstep : ∀ done x rest s, l = done ++ x :: rest → done.foldlM f s₀ = .ok s → inv done s →
      Outcome stop (inv (done ++ [x])) (f s x)) :
    Outcome stop (inv l) (l.foldlM f s₀) := by
  have hloop : Outcome stop (fun s => l.foldlM f s₀ = .ok s ∧ inv l s) (l.foldlM f s₀) := by
    apply Outcome.foldlM (fun done s => done.foldlM f s₀ = .ok s ∧ inv done s) ⟨rfl, hs⟩
    rintro done x rest s hl ⟨hdone, hinv⟩
    apply (hstep done x rest s hl hdone hinv).result.mono _ fun _ ht => ht
    rintro s' ⟨hx, hinv'⟩
    refine ⟨?_, hinv'⟩
    rw [List.foldlM_append, hdone]
    change [x].foldlM f s = .ok s'
    rw [List.foldlM_cons, hx]
    rfl
  exact hloop.mono (fun s hs => hs.2) fun _ ht => ht

/-- Both computations return related results, or stop for the same reason. -/
def Follows (rel : α → β → Prop) : Except ε α → Except ε β → Prop
  | .ok a, .ok b => rel a b
  | .error e, .error e' => e' = e
  | _, _ => False

/-- What the first one returns has a related result. -/
theorem Follows.outcome {rel : α → β → Prop} {x : Except ε α} {y : Except ε β}
    (h : Follows rel x y) (hx : Outcome stop post x) :
    Outcome stop (fun b => ∃ a, post a ∧ rel a b) y := by
  cases x with
  | ok a =>
    cases y with
    | ok b => exact ⟨a, hx, h⟩
    | error e => exact h.elim
  | error e =>
    cases y with
    | ok b => exact h.elim
    | error e' =>
      have heq : e' = e := h
      rw [heq]
      exact hx

/-- What the second one returns has a related result. -/
theorem Follows.of_ok {rel : α → β → Prop} {x : Except ε α} {b : β}
    (h : Follows rel x (.ok b)) : ∃ a, x = .ok a ∧ rel a b := by
  cases x with
  | ok a => exact ⟨a, rfl, h⟩
  | error e => exact h.elim

/-- Results may be related more loosely. -/
theorem Follows.mono {rel rel' : α → β → Prop} {x : Except ε α} {y : Except ε β}
    (h : Follows rel x y) (hrel : ∀ a b, rel a b → rel' a b) : Follows rel' x y := by
  cases x with
  | ok a =>
    cases y with
    | ok b => exact hrel a b h
    | error e => exact h.elim
  | error e =>
    cases y with
    | ok b => exact h.elim
    | error e' => exact h

/-- A sequence follows another one when its parts do. -/
theorem Follows.bind {rel : α → β → Prop} {rel' : γ → δ → Prop} {x : Except ε α} {y : Except ε β}
    {f : α → Except ε γ} {g : β → Except ε δ} (hx : Follows rel x y)
    (hf : ∀ a b, x = .ok a → rel a b → Follows rel' (f a) (g b)) :
    Follows rel' (x >>= f) (y >>= g) := by
  cases x with
  | ok a =>
    cases y with
    | ok b => exact hf a b rfl hx
    | error e => exact hx.elim
  | error e =>
    cases y with
    | ok b => exact hx.elim
    | error e' => exact hx

/-- A loop follows another one when each of its iterations does. -/
theorem Follows.foldlM {rel : σ → τ → Prop} {f : σ → ι → Except ε σ} {g : τ → κ → Except ε τ}
    (m : κ → ι) (hstep : ∀ s t x, rel s t → Follows rel (f s (m x)) (g t x)) (l : List κ) {s : σ}
    {t : τ} (h : rel s t) : Follows rel ((l.map m).foldlM f s) (l.foldlM g t) := by
  induction l generalizing s t with
  | nil => exact h
  | cons x l ih =>
    rw [List.map_cons, List.foldlM_cons, List.foldlM_cons]
    exact (hstep s t x h).bind fun s' t' _ h' => ih h'

end Cyberd.Library
