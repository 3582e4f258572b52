import Mathlib

/-!
# Runs of fallible steps

A step that may fail is a function into `Except`. A run folds such a step over a list of inputs and
stops at the first failure. What one step preserves, a run that does not fail preserves.

`Ends E P x` is a postcondition for both outcomes: a result satisfies `P`, a failure satisfies `E`.
-/

namespace Outcome

universe u

variable {ε σ ι β : Type u}

theorem bind_eq_ok {x : Except ε σ} {f : σ → Except ε β} {r : β} :
    (x >>= f) = .ok r ↔ ∃ a, x = .ok a ∧ f a = .ok r := by
  cases x with
  | error e => simp [bind, Except.bind]
  | ok a => simp [bind, Except.bind]

theorem map_eq_ok {x : Except ε σ} {f : σ → β} {r : β} :
    x.map f = .ok r ↔ ∃ a, x = .ok a ∧ f a = r := by
  cases x <;> simp [Except.map]

@[simp]
theorem ok_bind (a : σ) (f : σ → Except ε β) : (Except.ok a >>= f) = f a :=
  rfl

@[simp]
theorem error_bind (e : ε) (f : σ → Except ε β) : (Except.error e >>= f) = .error e :=
  rfl

@[simp]
theorem pure_eq_ok (a : σ) : (pure a : Except ε σ) = .ok a :=
  rfl

/-- What is seen of the end of two steps is seen of a state that they lead to. -/
theorem observed_bind {γ : Type u} {x : Except ε σ} {f : σ → Except ε β} {g : β → γ} {y : γ}
    (seen : (x >>= f).toOption.map g = some y) : ∃ a b, x = .ok a ∧ f a = .ok b ∧ g b = y := by
  cases first : x with
  | error e => simp [first, Except.toOption] at seen
  | ok a =>
      cases second : f a with
      | error e => simp [first, second, Except.toOption] at seen
      | ok b =>
          refine ⟨a, b, rfl, second, ?_⟩
          simpa [first, second, Except.toOption] using seen

/-- A property kept by every step on the inputs of a run holds at its end. -/
theorem foldlM_invariant {step : σ → ι → Except ε σ} (P : σ → Prop) {list : List ι}
    (keeps : ∀ s i s', i ∈ list → P s → step s i = .ok s' → P s') {s s' : σ} (start : P s)
    (run : list.foldlM step s = .ok s') : P s' := by
  induction list generalizing s with
  | nil =>
      simp only [List.foldlM_nil, pure_eq_ok, Except.ok.injEq] at run
      exact run ▸ start
  | cons i list ih =>
      rw [List.foldlM_cons, bind_eq_ok] at run
      rcases run with ⟨middle, first, rest⟩
      exact ih (fun s i s' member => keeps s i s' (List.mem_cons_of_mem _ member))
        (keeps s i middle List.mem_cons_self start first) rest

/-- Every input of a run satisfies `P` in the state in which it is taken. -/
def Along (step : σ → ι → Except ε σ) (P : σ → ι → Prop) : σ → List ι → Prop
  | _, [] => True
  | s, i :: list => P s i ∧ ∀ s', step s i = .ok s' → Along step P s' list

instance Along.decidable {step : σ → ι → Except ε σ} {P : σ → ι → Prop}
    [∀ s i, Decidable (P s i)] : ∀ s list, Decidable (Along step P s list)
  | _, [] => isTrue trivial
  | s, i :: list =>
      match outcome : step s i with
      | .error _ => decidable_of_iff (P s i) (by simp [Along, outcome])
      | .ok s' =>
          have : Decidable (Along step P s' list) := Along.decidable s' list
          decidable_of_iff (P s i ∧ Along step P s' list) (by simp [Along, outcome])

theorem along_append {step : σ → ι → Except ε σ} {P : σ → ι → Prop} {s : σ} {list list' : List ι} :
    Along step P s (list ++ list') ↔
      Along step P s list ∧ ∀ s', list.foldlM step s = .ok s' → Along step P s' list' := by
  induction list generalizing s with
  | nil => simp [Along]
  | cons i list ih =>
      simp only [List.cons_append, Along, ih, List.foldlM_cons, bind_eq_ok]
      constructor
      · rintro ⟨first, rest⟩
        refine ⟨⟨first, fun s' taken => (rest s' taken).1⟩, ?_⟩
        rintro s'' ⟨s', taken, run⟩
        exact (rest s' taken).2 s'' run
      · rintro ⟨⟨first, rest⟩, later⟩
        exact ⟨first, fun s' taken => ⟨rest s' taken, fun s'' run => later s'' ⟨s', taken, run⟩⟩⟩

/-- A condition on the inputs alone may be added. -/
theorem Along.and {step : σ → ι → Except ε σ} {P : σ → ι → Prop} {Q : ι → Prop} {s : σ}
    {list : List ι} (along : Along step P s list) (all : ∀ i ∈ list, Q i) :
    Along step (fun s i => P s i ∧ Q i) s list := by
  induction list generalizing s with
  | nil => trivial
  | cons i list ih =>
      rcases along with ⟨first, rest⟩
      refine ⟨⟨first, all i List.mem_cons_self⟩, ?_⟩
      intro s' taken
      exact ih (rest s' taken) fun j member => all j (List.mem_cons_of_mem i member)

/-- A property kept by every step whose input satisfies `P` holds at the end of such a run. -/
theorem foldlM_invariant_along {step : σ → ι → Except ε σ} {P : σ → ι → Prop} (R : σ → Prop)
    (keeps : ∀ s i s', P s i → R s → step s i = .ok s' → R s') {list : List ι} {s s' : σ}
    (along : Along step P s list) (start : R s) (run : list.foldlM step s = .ok s') : R s' := by
  induction list generalizing s with
  | nil =>
      simp only [List.foldlM_nil, pure_eq_ok, Except.ok.injEq] at run
      exact run ▸ start
  | cons i list ih =>
      rw [List.foldlM_cons, bind_eq_ok] at run
      rcases run with ⟨middle, first, rest⟩
      exact ih (along.2 middle first) (keeps s i middle along.1 start first) rest

/--
A loop over inputs with different keys, in which a round changes only what belongs to its key. In
the round of a key its part is still as at the beginning, up to `F`, and afterwards it stays as the
round has left it. The relation `R` holds throughout.
-/
theorem foldlM_keyed {κ : Type u} {step : σ → ι → Except ε σ} {key : ι → κ}
    {F : κ → σ → σ → Prop} {Q : κ → σ → Prop} {R : σ → σ → Prop} {list : List ι} {s s' : σ}
    (refl : ∀ k s, F k s s) (trans : ∀ k s₁ s₂ s₃, F k s₁ s₂ → F k s₂ s₃ → F k s₁ s₃)
    (reflR : ∀ s, R s s) (transR : ∀ s₁ s₂ s₃, R s₁ s₂ → R s₂ s₃ → R s₁ s₃)
    (stable : ∀ k s s', Q k s → F k s s' → Q k s') (nodup : (list.map key).Nodup)
    (round : ∀ i s₁ s₂, i ∈ list → F (key i) s s₁ → R s s₁ → step s₁ i = .ok s₂ →
      Q (key i) s₂ ∧ (∀ k, k ≠ key i → F k s₁ s₂) ∧ R s₁ s₂)
    (run : list.foldlM step s = .ok s') :
    (∀ i ∈ list, Q (key i) s') ∧ (∀ k, k ∉ list.map key → F k s s') ∧ R s s' := by
  induction list generalizing s with
  | nil =>
      simp only [List.foldlM_nil, pure_eq_ok, Except.ok.injEq] at run
      subst run
      exact ⟨by simp, fun k _ => refl k s, reflR s⟩
  | cons i list ih =>
      rw [List.foldlM_cons, bind_eq_ok] at run
      rcases run with ⟨s₁, first, rest⟩
      rw [List.map_cons, List.nodup_cons] at nodup
      rcases round i s s₁ List.mem_cons_self (refl _ s) (reflR s) first with ⟨done, frame, kept⟩
      have others : ∀ j ∈ list, key j ≠ key i := by
        intro j member same
        exact nodup.1 (same ▸ List.mem_map_of_mem member)
      rcases ih nodup.2 (fun j s₂ s₃ member frame' kept' next =>
        round j s₂ s₃ (List.mem_cons_of_mem _ member)
          (trans _ _ _ _ (frame _ (others j member)) frame') (transR _ _ _ kept kept') next) rest
        with ⟨later, frames, keeps⟩
      refine ⟨?_, ?_, transR _ _ _ kept keeps⟩
      · intro j member
        rcases List.mem_cons.mp member with rfl | member
        · exact stable _ _ _ done (frames _ nodup.1)
        · exact later j member
      · intro k out
        rw [List.map_cons, List.mem_cons, not_or] at out
        exact trans _ _ _ _ (frame k out.1) (frames k out.2)

/--
What one round does in a loop over inputs with different keys, in which a round changes only what
belongs to its key: it finds its part as it was at the beginning, and the part stays as the round
leaves it.
-/
theorem foldlM_rounds {κ : Type u} {step : σ → ι → Except ε σ} {key : ι → κ}
    {F : κ → σ → σ → Prop} {list : List ι} {s s' : σ} (refl : ∀ k s, F k s s)
    (trans : ∀ k s₁ s₂ s₃, F k s₁ s₂ → F k s₂ s₃ → F k s₁ s₃) (nodup : (list.map key).Nodup)
    (round : ∀ i s₁ s₂, i ∈ list → F (key i) s s₁ → step s₁ i = .ok s₂ →
      ∀ k, k ≠ key i → F k s₁ s₂)
    (run : list.foldlM step s = .ok s') :
    (∀ i ∈ list, ∃ s₁ s₂, F (key i) s s₁ ∧ step s₁ i = .ok s₂ ∧ F (key i) s₂ s') ∧
      ∀ k, k ∉ list.map key → F k s s' := by
  rcases foldlM_keyed (R := fun _ _ => True)
    (Q := fun k s' => ∃ i ∈ list, key i = k ∧
      ∃ s₁ s₂, F k s s₁ ∧ step s₁ i = .ok s₂ ∧ F k s₂ s')
    refl trans (fun _ => trivial) (fun _ _ _ _ _ => trivial)
    (by
      rintro k s₃ s₄ ⟨i, member, same, s₁, s₂, before, taken, after⟩ later
      exact ⟨i, member, same, s₁, s₂, before, taken, trans _ _ _ _ after later⟩)
    nodup
    (by
      intro i s₁ s₂ member before _ taken
      exact ⟨⟨i, member, rfl, s₁, s₂, before, taken, refl _ s₂⟩,
        round i s₁ s₂ member before taken, trivial⟩) run with ⟨done, frames, _⟩
  refine ⟨?_, frames⟩
  intro i member
  rcases done i member with ⟨j, other, same, rounds⟩
  rw [List.inj_on_of_nodup_map nodup other member same] at rounds
  exact rounds

/-- A loop over inputs with different keys does not fail if no round fails whose part is untouched. -/
theorem foldlM_keyed_total {κ : Type u} {step : σ → ι → Except ε σ} {key : ι → κ}
    {F : κ → σ → σ → Prop} {list : List ι} {s : σ} (refl : ∀ k s, F k s s)
    (trans : ∀ k s₁ s₂ s₃, F k s₁ s₂ → F k s₂ s₃ → F k s₁ s₃) (nodup : (list.map key).Nodup)
    (round : ∀ i s₁, i ∈ list → F (key i) s s₁ →
      ∃ s₂, step s₁ i = .ok s₂ ∧ ∀ k, k ≠ key i → F k s₁ s₂) :
    ∃ s', list.foldlM step s = .ok s' := by
  induction list generalizing s with
  | nil => exact ⟨s, rfl⟩
  | cons i list ih =>
      rw [List.map_cons, List.nodup_cons] at nodup
      rcases round i s List.mem_cons_self (refl _ s) with ⟨s₁, first, frame⟩
      rcases ih (s := s₁) nodup.2 (by
        intro j s₂ member frame'
        apply round j s₂ (List.mem_cons_of_mem _ member)
        refine trans _ _ _ _ (frame _ ?_) frame'
        intro same
        exact nodup.1 (same ▸ List.mem_map_of_mem member)) with ⟨s', rest⟩
      refine ⟨s', ?_⟩
      rw [List.foldlM_cons, first]
      exact rest

/-- A result satisfies `P` and a failure satisfies `E`. -/
def Ends (E : ε → Prop) (P : σ → Prop) : Except ε σ → Prop
  | .ok a => P a
  | .error e => E e

section Ends

variable {E : ε → Prop} {P P' : σ → Prop} {Q : β → Prop}

theorem Ends.bind {x : Except ε σ} {f : σ → Except ε β} (first : Ends E P x)
    (rest : ∀ a, P a → Ends E Q (f a)) : Ends E Q (x >>= f) := by
  cases x with
  | error e => exact first
  | ok a => exact rest a first

theorem Ends.map {x : Except ε σ} {f : σ → β} (first : Ends E P x) (rest : ∀ a, P a → Q (f a)) :
    Ends E Q (x.map f) := by
  cases x with
  | error e => exact first
  | ok a => exact rest a first

/-- A postcondition may be combined with what a result is known to satisfy. -/
theorem Ends.and {x : Except ε σ} (first : Ends E P x) (known : ∀ a, x = .ok a → P' a) :
    Ends E (fun a => P a ∧ P' a) x := by
  cases x with
  | error e => exact first
  | ok a => exact ⟨first, known a rfl⟩

theorem Ends.foldlM {step : σ → ι → Except ε σ} {list : List ι}
    (keeps : ∀ s i, i ∈ list → P s → Ends E P (step s i)) {s : σ} (start : P s) :
    Ends E P (list.foldlM step s) := by
  induction list generalizing s with
  | nil => exact start
  | cons i list ih =>
      rw [List.foldlM_cons]
      apply Ends.bind (keeps s i List.mem_cons_self start)
      intro middle kept
      exact ih (fun s i member => keeps s i (List.mem_cons_of_mem _ member)) kept

end Ends

end Outcome
