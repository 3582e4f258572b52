import Mathlib

/-!
# Forests given by parent pointers

A forest over an arbitrary type is read off one partial function: the parent of
a node, or `none` at a root. The ancestor relation is the reflexive transitive
closure of one upward step, and acyclicity is well-foundedness of that step, so
that a proof may descend from a node to its parent by induction.

Two edits of the parent function cover every re-linking below: clearing the
parent of a node, and giving one new parent to a set of nodes which had none.
For both the new ancestor relation is computed from the old one.

A loop that climbs from a node to its root visits the list `ancestors`. Its fuel
is only a bound: on an acyclic forest the list is complete as soon as the fuel
reaches the number of nodes which carry a pointer.
-/

namespace Forest

universe u

variable {α : Type u} {parent parent' : α → Option α} {x a b c p : α}

/-- One step from a node to its parent. -/
def Up (parent : α → Option α) (x p : α) : Prop :=
  parent x = some p

/-- The node `a` is `x` itself or one of its ancestors. -/
def Anc (parent : α → Option α) (x a : α) : Prop :=
  Relation.ReflTransGen (Up parent) x a

/-- The node `a` is a proper ancestor of `x`. -/
def StrictAnc (parent : α → Option α) (x a : α) : Prop :=
  Relation.TransGen (Up parent) x a

/-- No infinite upward chain: the parent of a node is smaller than the node. -/
def Acyclic (parent : α → Option α) : Prop :=
  WellFounded fun p x => Up parent x p

@[refl, simp]
theorem anc_refl (parent : α → Option α) (x : α) : Anc parent x x :=
  Relation.ReflTransGen.refl

theorem Anc.trans (first : Anc parent x a) (second : Anc parent a b) : Anc parent x b :=
  Relation.ReflTransGen.trans first second

theorem anc_of_parent (step : parent x = some p) : Anc parent x p :=
  Relation.ReflTransGen.single step

theorem StrictAnc.anc (strict : StrictAnc parent x a) : Anc parent x a :=
  Relation.TransGen.to_reflTransGen strict

theorem strictAnc_iff_parent : StrictAnc parent x a ↔ ∃ p, parent x = some p ∧ Anc parent p a :=
  Relation.TransGen.head'_iff

theorem strictAnc_iff_of_parent (step : parent x = some p) :
    StrictAnc parent x a ↔ Anc parent p a := by
  rw [strictAnc_iff_parent, step]
  simp

theorem not_strictAnc_of_root (root : parent x = none) : ¬StrictAnc parent x a := by
  rw [strictAnc_iff_parent, root]
  simp

theorem anc_iff_eq_or_strictAnc : Anc parent x a ↔ a = x ∨ StrictAnc parent x a :=
  Relation.reflTransGen_iff_eq_or_transGen

theorem anc_iff_of_parent (step : parent x = some p) :
    Anc parent x a ↔ a = x ∨ Anc parent p a := by
  rw [anc_iff_eq_or_strictAnc, strictAnc_iff_of_parent step]

theorem anc_iff_of_root (root : parent x = none) : Anc parent x a ↔ a = x := by
  rw [anc_iff_eq_or_strictAnc]
  simp [not_strictAnc_of_root root]

theorem StrictAnc.of_anc_of_parent (anc : Anc parent x c) (step : parent c = some p) :
    StrictAnc parent x p :=
  Relation.TransGen.tail'_iff.mpr ⟨c, anc, step⟩

theorem StrictAnc.trans_anc (strict : StrictAnc parent x a) (anc : Anc parent a b) :
    StrictAnc parent x b :=
  Relation.TransGen.trans_left strict anc

theorem Anc.trans_strict (anc : Anc parent x a) (strict : StrictAnc parent a b) :
    StrictAnc parent x b :=
  Relation.TransGen.trans_right anc strict

/-- The ancestors of one node form a chain. -/
theorem Anc.total (left : Anc parent x a) (right : Anc parent x b) :
    Anc parent a b ∨ Anc parent b a := by
  apply Relation.ReflTransGen.total_of_right_unique _ left right
  intro y u v hu hv
  exact Option.some.inj (hu.symm.trans hv)

namespace Acyclic

/-- Induction from the roots downwards. -/
theorem induction (acyclic : Acyclic parent) {motive : α → Prop} (x : α)
    (step : ∀ x, (∀ p, parent x = some p → motive p) → motive x) : motive x :=
  WellFounded.induction acyclic x fun x ih => step x fun p => ih p

theorem strict_irrefl (acyclic : Acyclic parent) (x : α) : ¬StrictAnc parent x x := by
  apply acyclic.induction x
  intro x ih loop
  rcases strictAnc_iff_parent.mp loop with ⟨p, step, back⟩
  exact ih p step (StrictAnc.of_anc_of_parent back step)

theorem not_anc_of_strict (acyclic : Acyclic parent) (strict : StrictAnc parent x a) :
    ¬Anc parent a x := fun back => acyclic.strict_irrefl x (strict.trans_anc back)

theorem parent_ne (acyclic : Acyclic parent) (step : parent x = some p) : p ≠ x := by
  rintro rfl
  exact acyclic.strict_irrefl p (Relation.TransGen.single step)

/-- Dropping pointers keeps a forest acyclic. -/
theorem mono (acyclic : Acyclic parent)
    (sub : ∀ x p, parent' x = some p → parent x = some p) : Acyclic parent' :=
  Subrelation.wf (fun {p x} step => sub x p step) acyclic

/-- Giving the nodes of `moved` the parent `p` keeps a forest acyclic, if `p` is not below them. -/
theorem relink (acyclic : Acyclic parent) (moved : Set α)
    (inside : ∀ x ∈ moved, parent' x = some p) (outside : ∀ x ∉ moved, parent' x = parent x)
    (apart : ∀ c ∈ moved, ¬Anc parent p c) : Acyclic parent' := by
  -- The ancestors of `p` are untouched, so they are accessible first.
  have above : ∀ y, Anc parent p y → Acc (fun q z => Up parent' z q) y := by
    intro y
    apply acyclic.induction y
    intro y ih anc
    refine ⟨y, fun q step => ?_⟩
    have old : parent y = some q := by
      rw [← outside y fun member => apart y member anc]
      exact step
    exact ih q old (anc.trans (anc_of_parent old))
  refine ⟨fun x => ?_⟩
  apply acyclic.induction x
  intro x ih
  refine ⟨x, fun q step => ?_⟩
  by_cases member : x ∈ moved
  · have same : q = p := Option.some.inj (step.symm.trans (inside x member))
    rw [same]
    exact above p (anc_refl _ _)
  · exact ih q (by rw [← outside x member]; exact step)

end Acyclic

/-! ## Ancestors after an edit -/

theorem Anc.mono (sub : ∀ x p, parent x = some p → parent' x = some p)
    (anc : Anc parent x a) : Anc parent' x a :=
  Relation.ReflTransGen.mono (fun y q => sub y q) x a anc

/-- What lies above a node that is not below `c` does not depend on the parent of `c`. -/
theorem anc_iff_of_not_anc (outside : ∀ x, x ≠ c → parent' x = parent x) (apart : ¬Anc parent x c) :
    Anc parent' x a ↔ Anc parent x a := by
  constructor
  · intro anc
    induction anc with
    | refl => exact anc_refl _ _
    | @tail y p _ step ih =>
        have other : y ≠ c := by
          rintro rfl
          exact apart ih
        refine ih.trans (anc_of_parent ?_)
        rw [← outside y other]
        exact step
  · intro anc
    induction anc with
    | refl => exact anc_refl _ _
    | @tail y p before step ih =>
        have other : y ≠ c := by
          rintro rfl
          exact apart before
        refine ih.trans (anc_of_parent ?_)
        rw [outside y other]
        exact step

/-- Ancestors are only cut above `c` when the parent of `c` is cleared. -/
theorem anc_unlink (acyclic : Acyclic parent) (cut : parent' c = none)
    (outside : ∀ x, x ≠ c → parent' x = parent x) :
    Anc parent' x a ↔ Anc parent x a ∧ (Anc parent x c → Anc parent a c) := by
  constructor
  · intro anc
    induction anc using Relation.ReflTransGen.head_induction_on with
    | refl => exact ⟨anc_refl _ _, id⟩
    | @head y q step _ ih =>
        have ne : y ≠ c := by
          rintro rfl
          simp [Up, cut] at step
        have old : parent y = some q := (outside y ne).symm.trans step
        refine ⟨(anc_of_parent old).trans ih.1, fun low => ih.2 ?_⟩
        rcases (anc_iff_of_parent old).mp low with same | high
        · exact absurd same.symm ne
        · exact high
  · rintro ⟨anc, keep⟩
    induction anc using Relation.ReflTransGen.head_induction_on with
    | refl => exact anc_refl _ _
    | @head y q step rest ih =>
        have ne : y ≠ c := by
          rintro rfl
          exact acyclic.not_anc_of_strict (Relation.TransGen.head' step rest)
            (keep (anc_refl _ _))
        exact (anc_of_parent ((outside y ne).trans step)).trans
          (ih fun low => keep ((anc_of_parent step).trans low))

/-- A set of roots that is given the parent `p` gains the ancestors of `p`. -/
theorem anc_relink (moved : Set α) (free : ∀ x ∈ moved, parent x = none)
    (inside : ∀ x ∈ moved, parent' x = some p) (outside : ∀ x ∉ moved, parent' x = parent x) :
    Anc parent' x a ↔
      Anc parent x a ∨ (∃ c ∈ moved, Anc parent x c) ∧ Anc parent p a := by
  have keep : ∀ {y z}, Anc parent y z → Anc parent' y z := by
    intro y z
    apply Anc.mono
    intro u q step
    have notMoved : u ∉ moved := fun member => by simp [free u member] at step
    rw [outside u notMoved, step]
  constructor
  · intro anc
    induction anc using Relation.ReflTransGen.head_induction_on with
    | refl => exact Or.inl (anc_refl _ _)
    | @head y q step _ ih =>
        by_cases member : y ∈ moved
        · have same : q = p := Option.some.inj (step.symm.trans (inside y member))
          subst same
          right
          refine ⟨⟨y, member, anc_refl _ _⟩, ?_⟩
          rcases ih with old | ⟨_, old⟩ <;> exact old
        · have old : parent y = some q := (outside y member).symm.trans step
          rcases ih with high | ⟨⟨c, cMem, low⟩, high⟩
          · exact Or.inl ((anc_of_parent old).trans high)
          · exact Or.inr ⟨⟨c, cMem, (anc_of_parent old).trans low⟩, high⟩
  · rintro (old | ⟨⟨c, cMem, low⟩, high⟩)
    · exact keep old
    · exact ((keep low).trans (anc_of_parent (inside c cMem))).trans (keep high)

/-- A node is taken out and its children go to the root `r`: below `r` only that node is missing. -/
theorem anc_bypass {r : α} (cut : parent' c = none)
    (inside : ∀ x, x ≠ c → parent x = some c → parent' x = some r)
    (outside : ∀ x, x ≠ c → parent x ≠ some c → parent' x = parent x) (ne : r ≠ c)
    (above : Anc parent c r) : Anc parent' x r ↔ Anc parent x r ∧ x ≠ c := by
  constructor
  · intro anc
    induction anc using Relation.ReflTransGen.head_induction_on with
    | refl => exact ⟨anc_refl _ _, ne⟩
    | @head y q step _ ih =>
        have other : y ≠ c := by
          rintro rfl
          simp [Up, cut] at step
        refine ⟨?_, other⟩
        by_cases child : parent y = some c
        · exact (anc_of_parent child).trans above
        · have old : parent y = some q := (outside y other child).symm.trans step
          exact (anc_of_parent old).trans ih.1
  · rintro ⟨anc, other⟩
    induction anc using Relation.ReflTransGen.head_induction_on with
    | refl => exact anc_refl _ _
    | @head y q step _ ih =>
        by_cases child : parent y = some c
        · exact anc_of_parent (inside y other child)
        · have next : q ≠ c := by
            rintro rfl
            exact child step
          exact (anc_of_parent ((outside y other child).trans step)).trans (ih next)

/-! ## The climbing loop -/

/-- The proper ancestors of `x`, nearest first, as a climb of at most `fuel` steps meets them. -/
def ancestors (parent : α → Option α) : ℕ → α → List α
  | 0, _ => []
  | fuel + 1, x =>
      match parent x with
      | none => []
      | some p => p :: ancestors parent fuel p

/-- The node itself, followed by its ancestors. -/
def chain (parent : α → Option α) (fuel : ℕ) (x : α) : List α :=
  x :: ancestors parent fuel x

/-- Every pointer starts and ends in the finite set `nodes`. -/
def Supported (parent : α → Option α) (nodes : Finset α) : Prop :=
  ∀ x p, parent x = some p → x ∈ nodes ∧ p ∈ nodes

theorem strictAnc_of_mem_ancestors {fuel : ℕ} (member : a ∈ ancestors parent fuel x) :
    StrictAnc parent x a := by
  induction fuel generalizing x with
  | zero => simp [ancestors] at member
  | succ fuel ih =>
      cases step : parent x with
      | none => simp [ancestors, step] at member
      | some p =>
          simp only [ancestors, step, List.mem_cons] at member
          rw [strictAnc_iff_of_parent step, anc_iff_eq_or_strictAnc]
          exact member.imp_right ih

theorem Acyclic.chain_nodup (acyclic : Acyclic parent) (fuel : ℕ) (x : α) :
    (chain parent fuel x).Nodup := by
  induction fuel generalizing x with
  | zero => simp [chain, ancestors]
  | succ fuel ih =>
      refine List.nodup_cons.mpr ⟨fun member => ?_, ?_⟩
      · exact acyclic.strict_irrefl x (strictAnc_of_mem_ancestors member)
      · cases step : parent x with
        | none => simp [ancestors, step]
        | some p => simpa [ancestors, step, chain] using ih p

theorem mem_ancestors_or_exhausted (fuel : ℕ) (strict : StrictAnc parent x a) :
    a ∈ ancestors parent fuel x ∨ fuel ≤ (ancestors parent fuel x).length := by
  induction fuel generalizing x with
  | zero => exact Or.inr (Nat.zero_le _)
  | succ fuel ih =>
      rcases strictAnc_iff_parent.mp strict with ⟨p, step, anc⟩
      simp only [ancestors, step, List.mem_cons, List.length_cons]
      rcases anc_iff_eq_or_strictAnc.mp anc with same | higher
      · exact Or.inl (Or.inl same)
      · rcases ih higher with member | long
        · exact Or.inl (Or.inr member)
        · exact Or.inr (Nat.succ_le_succ long)

theorem chain_subset_of_supported [DecidableEq α] {nodes : Finset α}
    (supported : Supported parent nodes) (fuel : ℕ) (start : x ∈ nodes) :
    ∀ y ∈ chain parent fuel x, y ∈ nodes := by
  intro y member
  rcases List.mem_cons.mp member with rfl | higher
  · exact start
  · rcases Relation.TransGen.tail'_iff.mp (strictAnc_of_mem_ancestors higher) with ⟨z, _, step⟩
    exact (supported z y step).2

theorem chain_length_le [DecidableEq α] {nodes : Finset α} (acyclic : Acyclic parent)
    (supported : Supported parent nodes) (fuel : ℕ) (start : x ∈ nodes) :
    (chain parent fuel x).length ≤ nodes.card := by
  rw [← List.toFinset_card_of_nodup (acyclic.chain_nodup fuel x)]
  apply Finset.card_le_card
  intro y member
  exact chain_subset_of_supported supported fuel start y (List.mem_toFinset.mp member)

/-- With fuel for every node that carries a pointer, the climb meets every ancestor. -/
theorem mem_ancestors [DecidableEq α] {nodes : Finset α} {fuel : ℕ} (acyclic : Acyclic parent)
    (supported : Supported parent nodes) (enough : nodes.card ≤ fuel) :
    a ∈ ancestors parent fuel x ↔ StrictAnc parent x a := by
  refine ⟨strictAnc_of_mem_ancestors, fun strict => ?_⟩
  rcases mem_ancestors_or_exhausted fuel strict with member | long
  · exact member
  · rcases strictAnc_iff_parent.mp strict with ⟨p, step, _⟩
    have bound := chain_length_le acyclic supported fuel (supported x p step).1
    simp only [chain, List.length_cons] at bound
    omega

theorem mem_chain [DecidableEq α] {nodes : Finset α} {fuel : ℕ} (acyclic : Acyclic parent)
    (supported : Supported parent nodes) (enough : nodes.card ≤ fuel) :
    a ∈ chain parent fuel x ↔ Anc parent x a := by
  rw [chain, List.mem_cons, mem_ancestors acyclic supported enough, anc_iff_eq_or_strictAnc]

/-- A climb that ended early is not changed by more fuel. -/
theorem ancestors_succ {fuel : ℕ} (short : (ancestors parent fuel x).length < fuel) :
    ancestors parent (fuel + 1) x = ancestors parent fuel x := by
  induction fuel generalizing x with
  | zero => simp at short
  | succ fuel ih =>
      cases step : parent x with
      | none => simp [ancestors, step]
      | some p =>
          simp only [ancestors, step, List.length_cons] at short
          have rest := ih (Nat.lt_of_succ_lt_succ short)
          rw [ancestors, ancestors, step]
          exact congrArg _ rest

theorem chain_of_parent [DecidableEq α] {nodes : Finset α} {fuel : ℕ} (acyclic : Acyclic parent)
    (supported : Supported parent nodes) (enough : nodes.card ≤ fuel) (step : parent x = some p) :
    chain parent fuel x = x :: chain parent fuel p := by
  have bound := chain_length_le acyclic supported fuel (supported x p step).1
  cases fuel with
  | zero =>
      simp only [chain, ancestors, List.length_singleton] at bound
      omega
  | succ fuel =>
      simp only [chain, ancestors, step, List.length_cons] at bound
      have rest : ancestors parent (fuel + 1) p = ancestors parent fuel p :=
        ancestors_succ (by omega)
      rw [chain, chain, rest, ancestors, step]

theorem chain_of_root {fuel : ℕ} (root : parent x = none) : chain parent fuel x = [x] := by
  cases fuel with
  | zero => rfl
  | succ fuel => simp [chain, ancestors, root]

theorem length_ancestors_of_climb {n : ℕ}
    (climb : (fun o => o.bind parent)^[n] (some x) = some a) :
    (ancestors parent n x).length = n := by
  induction n generalizing x with
  | zero => rfl
  | succ n ih =>
      rw [Function.iterate_succ_apply] at climb
      cases step : parent x with
      | none =>
          have stuck : (fun o => o.bind parent)^[n] (none : Option α) = none :=
            Function.iterate_fixed rfl n
          simp [step, stuck] at climb
      | some p =>
          simp only [Option.bind_some, step] at climb
          simp [ancestors, step, ih climb]

/-- A climb from one of `n` nodes has ended after `n` steps. -/
theorem climb_ends_within [DecidableEq α] {nodes : Finset α} (acyclic : Acyclic parent)
    (supported : Supported parent nodes) (start : x ∈ nodes) :
    (fun o => o.bind parent)^[nodes.card] (some x) = none := by
  cases climb : (fun o => o.bind parent)^[nodes.card] (some x) with
  | none => rfl
  | some a =>
      have long := length_ancestors_of_climb climb
      have bound := chain_length_le acyclic supported nodes.card start
      simp only [chain, List.length_cons] at bound
      omega

end Forest
