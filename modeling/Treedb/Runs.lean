import Mathlib

/-!
# Runs of a component and of its specification

A component is a function that takes a state and a call, and answers or fails. Its specification is
a total machine over abstract states. If every call is simulated, as long as the abstract state
leaves room for it, then so is every sequence of calls.
-/

namespace Runs

universe u

variable {σ τ γ α ε : Type u}

/-- The state after some calls, and their answers. -/
def run (step : σ → γ → Except ε (σ × α)) (s : σ) : List γ → Except ε (σ × List α)
  | [] => .ok (s, [])
  | call :: calls => do
      let (s, answer) ← step s call
      let (s, answers) ← run step s calls
      return (s, answer :: answers)

/-- What a call should do, and what it should answer. -/
structure Machine (τ γ α : Type u) where
  effect : τ → γ → τ
  answer : τ → γ → α

namespace Machine

/-- The state after a sequence of calls. -/
def after (machine : Machine τ γ α) (m : τ) (calls : List γ) : τ :=
  calls.foldl machine.effect m

/-- The answers to a sequence of calls. -/
def answers (machine : Machine τ γ α) (m : τ) : List γ → List α
  | [] => []
  | call :: calls => machine.answer m call :: machine.answers (machine.effect m call) calls

/-- There is room for every call of a sequence. -/
def Fits (machine : Machine τ γ α) (room : τ → Prop) (m : τ) (calls : List γ) : Prop :=
  ∀ before, before <+: calls → room (machine.after m before)

variable {machine : Machine τ γ α} {room : τ → Prop} {m : τ} {call : γ} {calls : List γ}

theorem Fits.head (fits : machine.Fits room m calls) : room m :=
  fits [] List.nil_prefix

theorem Fits.tail (fits : machine.Fits room m (call :: calls)) :
    machine.Fits room (machine.effect m call) calls :=
  fun before isPrefix => fits (call :: before) (List.cons_prefix_cons.mpr ⟨rfl, isPrefix⟩)

theorem Fits.last (fits : machine.Fits room m calls) : room (machine.after m calls) :=
  fits calls (List.prefix_refl calls)

end Machine

/-- Every call that there is room for does what it should, and answers what it should. -/
def Simulates (step : σ → γ → Except ε (σ × α)) (machine : Machine τ γ α) (room : τ → Prop)
    (rel : σ → τ → Prop) : Prop :=
  ∀ s m call, rel s m → room m →
    ∃ s', step s call = .ok (s', machine.answer m call) ∧ rel s' (machine.effect m call)

theorem Simulates.run {step : σ → γ → Except ε (σ × α)} {machine : Machine τ γ α} {room : τ → Prop}
    {rel : σ → τ → Prop} (simulates : Simulates step machine room rel) {s : σ} {m : τ}
    (related : rel s m) {calls : List γ} (fits : machine.Fits room m calls) :
    ∃ s', Runs.run step s calls = .ok (s', machine.answers m calls) ∧
      rel s' (machine.after m calls) := by
  induction calls generalizing s m with
  | nil => exact ⟨s, rfl, related⟩
  | cons call calls ih =>
      rcases simulates s m call related fits.head with ⟨s₁, first, related₁⟩
      rcases ih related₁ fits.tail with ⟨s₂, rest, related₂⟩
      refine ⟨s₂, ?_, related₂⟩
      simp only [Runs.run, first, rest, bind, Except.bind, pure, Except.pure, Machine.answers]

end Runs
