import Cyberd.Library.Outcome

/-!
# Runs of a machine

A machine takes a step at each event, which stops it or leads to its next state. What a
state owes is still owed at the end of a run, unless one of its steps has paid it. A
schedule is a run of which every event was enabled when it came: its length is bounded by
any number that its steps decrease, and it can be continued until nothing is enabled. Where
events that are not enabled change nothing, the others of a run are a schedule.
-/

namespace Cyberd.Library

variable {ε σ ι : Type} {f : σ → ι → Except ε σ} {s s' s'' : σ} {l l' : List ι}

/-- A run goes through the states of its parts. -/
theorem foldlM_append_ok :
    (l ++ l').foldlM f s = .ok s'' ↔ ∃ s', l.foldlM f s = .ok s' ∧ l'.foldlM f s' = .ok s'' := by
  rw [List.foldlM_append]
  constructor
  · intro h
    cases hl : l.foldlM f s with
    | ok s' =>
      rw [hl] at h
      exact ⟨s', rfl, h⟩
    | error e =>
      rw [hl] at h
      cases h
  · rintro ⟨s', hl, hl'⟩
    rw [hl]
    exact hl'

/-- A run begins with its first step. -/
theorem foldlM_cons_ok {x : ι} :
    (x :: l).foldlM f s = .ok s'' ↔ ∃ s', f s x = .ok s' ∧ l.foldlM f s' = .ok s'' := by
  rw [← List.singleton_append, foldlM_append_ok, List.foldlM_cons]
  cases f s x with
  | ok s' => rfl
  | error e => rfl

/-- What every step keeps, a run keeps. -/
theorem kept_by_run (inv : σ → Prop) (hstep : ∀ s x s', f s x = .ok s' → inv s → inv s')
    (h : l.foldlM f s = .ok s') (hs : inv s) : inv s' := by
  induction l generalizing s with
  | nil =>
    cases h
    exact hs
  | cons x l ih =>
    obtain ⟨s₁, hx, hrest⟩ := foldlM_cons_ok.mp h
    exact ih hrest (hstep s x s₁ hx hs)

/-- What is owed stays owed until a step that pays it. -/
theorem owed_until (owed : σ → Prop) (pays : σ → ι → Prop)
    (hstep : ∀ s, ∀ x ∈ l, ∀ s', f s x = .ok s' → owed s → owed s' ∨ pays s x)
    (h : l.foldlM f s = .ok s') (hs : owed s) :
    owed s' ∨ ∃ before x after q, l = before ++ x :: after ∧ before.foldlM f s = .ok q ∧
      pays q x := by
  induction l generalizing s with
  | nil =>
    cases h
    exact Or.inl hs
  | cons x l ih =>
    obtain ⟨s₁, hx, hrest⟩ := foldlM_cons_ok.mp h
    rcases hstep s x List.mem_cons_self s₁ hx hs with howed | hpays
    · have hstep' : ∀ s, ∀ y ∈ l, ∀ s', f s y = .ok s' → owed s → owed s' ∨ pays s y :=
        fun s y hy => hstep s y (List.mem_cons_of_mem _ hy)
      rcases ih hstep' hrest howed with h' | ⟨before, y, after, q, rfl, hq, hpays⟩
      · exact Or.inl h'
      · exact Or.inr ⟨x :: before, y, after, q, rfl, foldlM_cons_ok.mpr ⟨s₁, hx, hq⟩, hpays⟩
    · exact Or.inr ⟨[], x, l, s, rfl, rfl, hpays⟩

/-- A run of events that are enabled when they come. -/
inductive Schedule (f : σ → ι → Except ε σ) (enabled : σ → ι → Prop) : σ → List ι → σ → Prop
  | nil (s : σ) : Schedule f enabled s [] s
  | cons {s s' s'' : σ} {x : ι} {l : List ι} (hx : enabled s x) (hstep : f s x = .ok s')
      (hrest : Schedule f enabled s' l s'') : Schedule f enabled s (x :: l) s''

variable {enabled : σ → ι → Prop} {inv : σ → Prop}

/-- A schedule is a run. -/
theorem Schedule.run (h : Schedule f enabled s l s') : l.foldlM f s = .ok s' := by
  induction h with
  | nil s => rfl
  | cons hx hstep hrest ih => exact foldlM_cons_ok.mpr ⟨_, hstep, ih⟩

/-- What holds of the events of a schedule and of its state, from one event to the next one. -/
theorem Schedule.keeps (inv : List ι → σ → Prop)
    (hstep : ∀ done s x s', inv done s → enabled s x → f s x = .ok s' → inv (done ++ [x]) s')
    (h : Schedule f enabled s l s') (hs : inv [] s) : inv l s' := by
  have hloop : ∀ done, inv done s → inv (done ++ l) s' := by
    clear hs
    induction h with
    | nil s =>
      intro done hs
      rw [List.append_nil]
      exact hs
    | cons hx hf hrest ih =>
      intro done hs
      have hdone := ih _ (hstep done _ _ _ hs hx hf)
      rw [List.append_assoc] at hdone
      exact hdone
  exact hloop [] hs

/-- The events of a run that were enabled when they came. -/
def happening (f : σ → ι → Except ε σ) (enabled : σ → ι → Prop)
    [∀ s x, Decidable (enabled s x)] : σ → List ι → List ι
  | _, [] => []
  | s, x :: l =>
    match f s x with
    | .ok s' => if enabled s x then x :: happening f enabled s' l else happening f enabled s' l
    | .error _ => []

/-- They are a schedule, when the other ones change nothing. -/
theorem happening_schedule [∀ s x, Decidable (enabled s x)]
    (hidle : ∀ s x, ¬ enabled s x → f s x = .ok s) (h : l.foldlM f s = .ok s') :
    Schedule f enabled s (happening f enabled s l) s' := by
  induction l generalizing s with
  | nil =>
    cases h
    exact .nil _
  | cons x l ih =>
    obtain ⟨s₁, hx, hrest⟩ := foldlM_cons_ok.mp h
    simp only [happening, hx]
    split
    · rename_i hcan
      exact .cons hcan hx (ih hrest)
    · rename_i hcannot
      have hsame : s₁ = s := Except.ok.inj (hx.symm.trans (hidle s x hcannot))
      rw [hsame] at hrest ⊢
      exact ih hrest

/-- What happens later is appended to what has happened. -/
theorem happening_append [∀ s x, Decidable (enabled s x)] (h : l.foldlM f s = .ok s') :
    happening f enabled s (l ++ l') = happening f enabled s l ++ happening f enabled s' l' := by
  induction l generalizing s with
  | nil =>
    cases h
    rfl
  | cons x l ih =>
    obtain ⟨s₁, hx, hrest⟩ := foldlM_cons_ok.mp h
    simp only [List.cons_append, happening, hx, ih hrest]
    split <;> rfl

/-- Every step of a schedule decreases the number, which bounds its length. -/
theorem Schedule.length_le {rank : σ → Nat}
    (hstep : ∀ s x s', inv s → enabled s x → f s x = .ok s' → inv s' ∧ rank s' < rank s)
    (h : Schedule f enabled s l s') (hs : inv s) : inv s' ∧ l.length + rank s' ≤ rank s := by
  induction h with
  | nil s => exact ⟨hs, by simp⟩
  | cons hx hf hrest ih =>
    obtain ⟨hinv, hlt⟩ := hstep _ _ _ hs hx hf
    obtain ⟨hinv', hle⟩ := ih hinv
    refine ⟨hinv', ?_⟩
    rw [List.length_cons]
    omega

/-- Where events that are enabled do not stop, some schedule exhausts them. -/
theorem Schedule.exhausts {rank : σ → Nat}
    (hstep : ∀ s x s', inv s → enabled s x → f s x = .ok s' → inv s' ∧ rank s' < rank s)
    (hrun : ∀ s x, inv s → enabled s x → ∃ y s', enabled s y ∧ f s y = .ok s') (hs : inv s) :
    ∃ l s', Schedule f enabled s l s' ∧ ∀ x, ¬ enabled s' x := by
  induction hn : rank s using Nat.strongRecOn generalizing s with
  | ind n ih =>
    by_cases hx : ∃ x, enabled s x
    · obtain ⟨x, hx⟩ := hx
      obtain ⟨y, s₁, hy, hf⟩ := hrun s x hs hx
      obtain ⟨hinv, hlt⟩ := hstep s y s₁ hs hy hf
      obtain ⟨l, s', hl, hend⟩ := ih (rank s₁) (hn ▸ hlt) hinv rfl
      exact ⟨y :: l, s', .cons hy hf hl, hend⟩
    · exact ⟨[], s, .nil s, fun x h => hx ⟨x, h⟩⟩

end Cyberd.Library
