import Treedb.Runs
import Treedb.Rb.Delete

/-!
# A table is a map

The functions of the library other than the traversers refine the operations of a partial map from
keys to items: whatever sequence of calls is made on a new table, the answers are those of the map,
and the table never leaves the domain where the C code has a meaning. The bound on the number of
items is that of the stacks: a tree of fewer than `2 ^ 25 - 2` items has at most 47 levels.
-/

namespace Treedb

open RedBlack (lookup lookup_eq_none lookup_eq_some)
open Outcome

variable {α κ : Type} [LinearOrder κ] {compare : α → α → ℤ} {key : α → κ} {t : RbTable α}
  {u : RbTree α}

/-- Calls of the library. -/
inductive RbCall (α : Type)
  | find (item : α)
  | insert (item : α)
  | replace (item : α)
  | delete (item : α)

/-- The item that is looked for or stored. -/
def RbCall.item : RbCall α → α
  | .find item => item
  | .insert item => item
  | .replace item => item
  | .delete item => item

/-- One call of the library, with its answer. -/
def rbCall [DecidableEq α] (compare : α → α → ℤ) (t : RbTable α) :
    RbCall α → Except RbFault (RbTable α × Option α)
  | .find item => (rbFind compare t item).map fun found => (t, found)
  | .insert item => rbInsert compare t item
  | .replace item => rbReplace compare t item
  | .delete item => rbDelete compare t item

/-! ## The map -/

/-- What the calls should do to a map. An item that is in the map already is not an old item. -/
def itemMap [DecidableEq α] (key : α → κ) : Runs.Machine (κ → Option α) (RbCall α) (Option α) where
  effect m
    | .find _ => m
    | .insert item => Function.update m (key item) (some ((m (key item)).getD item))
    | .replace item => Function.update m (key item) (some item)
    | .delete item => Function.update m (key item) none
  answer m
    | .find item => m (key item)
    | .insert item => (m (key item)).filter (· ≠ item)
    | .replace item => (m (key item)).filter (· ≠ item)
    | .delete item => m (key item)

/-- The number of items of a map. -/
noncomputable def mapSize {β : Type} (m : κ → Option β) : ℕ :=
  {k | m k ≠ none}.ncard

/-- The stacks of the library are high enough for the items of the map and one more. -/
def Roomy {β : Type} (m : κ → Option β) : Prop :=
  mapSize m + 2 < 2 ^ 25

/-- A sequence of calls, each of which changes one entry, fits if it is short. -/
theorem fits_of_short {κ β γ ρ : Type} {machine : Runs.Machine (κ → Option β) γ ρ} (touched : γ → κ)
    (only : ∀ m call k, k ≠ touched call → machine.effect m call k = m k) {calls : List γ}
    (short : calls.length + 2 < 2 ^ 25) : machine.Fits Roomy (fun _ => none) calls := by
  classical
  have inside : ∀ (calls : List γ) (m : κ → Option β) (k : κ), machine.after m calls k ≠ none →
      m k ≠ none ∨ k ∈ calls.map touched := by
    intro calls
    induction calls with
    | nil => exact fun m k there => Or.inl there
    | cons call calls ih =>
        intro m k there
        rcases ih _ k there with before | later
        · by_cases here : k = touched call
          · exact Or.inr (by simp [here])
          · exact Or.inl (only m call k here ▸ before)
        · exact Or.inr (List.mem_cons_of_mem _ later)
  intro before isPrefix
  have few : mapSize (machine.after (fun _ => none) before) ≤ (before.map touched).toFinset.card := by
    rw [← Set.ncard_coe_finset]
    apply Set.ncard_le_ncard _ (Finset.finite_toSet _)
    intro k there
    rcases inside before _ k there with empty | touches
    · exact absurd rfl empty
    · simpa using touches
  have distinct := List.toFinset_card_le (before.map touched)
  have shorter := isPrefix.length_le
  rw [List.length_map] at distinct
  rw [Roomy]
  omega

/-- The table stands for the map. -/
def Implements (key : α → κ) (t : RbTable α) (m : κ → Option α) : Prop :=
  ∃ u, Represents key t u ∧ lookup key (items u) = m

/-- The counter of the table counts the keys of the map. -/
theorem Represents.count_eq (represents : Represents key t u) :
    t.count = mapSize (lookup key (items u)) := by
  have keys : {k | lookup key (items u) k ≠ none} = ↑((items u).map key).toFinset := by
    ext k
    rw [Set.mem_ofPred_eq, List.coe_toFinset, Set.mem_ofPred_eq, List.mem_map, ne_eq, lookup_eq_none]
    push Not
    rfl
  have nodup : ((items u).map key).Nodup :=
    List.pairwise_map.mpr (represents.sorted_items.imp fun less => less.ne)
  rw [mapSize, keys, Set.ncard_coe_finset, List.toFinset_card_of_nodup nodup, List.length_map,
    length_items, represents.count]

/-- The items of a table are those of the map that it stands for. -/
theorem Represents.mem_items (represents : Represents key t u) (item : α) :
    item ∈ items u ↔ lookup key (items u) (key item) = some item := by
  rw [lookup_eq_some represents.sorted_items]
  exact (and_iff_left rfl).symm

theorem rbCreate_implements : Implements key (rbCreate : RbTable α) fun _ => none :=
  ⟨.nil, rbCreate_represents, rfl⟩

/-! ## The refinement -/

section Refinement

variable [DecidableEq α]

/-- A call does to the table what it should do to the map. -/
theorem rbCall_simulates (compares : Compares compare key) :
    Runs.Simulates (rbCall compare) (itemMap key) Roomy (Implements key) := by
  rintro t _ call ⟨u, represents, rfl⟩ roomy
  have small : t.count + 2 < 2 ^ 25 := by
    rw [represents.count_eq]
    exact roomy
  cases call with
  | find item =>
      refine ⟨t, ?_, u, represents, rfl⟩
      rw [rbCall, rbFind_spec compares represents]
      rfl
  | insert item =>
      rcases rbInsert_spec compares represents small with ⟨t', u', run, represents', same⟩
      exact ⟨t', run, u', represents', same⟩
  | replace item =>
      rcases rbReplace_spec compares represents small with ⟨t', u', run, represents', same⟩
      exact ⟨t', run, u', represents', same⟩
  | delete item =>
      rcases rbDelete_spec compares represents small with ⟨t', u', run, represents', same⟩
      exact ⟨t', run, u', represents', same⟩

/-- Every run on a new table answers as the map does, and leaves a balanced search tree of its items. -/
theorem rbRun_refines (compares : Compares compare key) (calls : List (RbCall α))
    (fits : (itemMap key).Fits Roomy (fun _ => none) calls) :
    ∃ t, Runs.run (rbCall compare) rbCreate calls =
        .ok (t, (itemMap key).answers (fun _ => none) calls) ∧
      Implements key t ((itemMap key).after (fun _ => none) calls) :=
  (rbCall_simulates compares).run rbCreate_implements fits

theorem itemMap_effect_of_ne (m : κ → Option α) (call : RbCall α) (k : κ)
    (other : k ≠ key call.item) : (itemMap key).effect m call k = m k := by
  cases call with
  | find item => rfl
  | _ item => exact Function.update_of_ne other _ _

/-- Numbers with a note, of which only the number counts. -/
theorem rbRun_refines_example :
    ∃ t, Runs.run (rbCall fun x y : ℕ × ℕ => (x.1 : ℤ) - y.1) rbCreate
        [.replace (2, 0), .insert (1, 0), .insert (3, 0), .replace (1, 5), .insert (3, 7),
          .delete (2, 9), .find (2, 0), .find (1, 0)] =
        .ok (t, [none, none, none, some (1, 0), some (3, 0), some (2, 0), none, some (1, 5)]) ∧
      Implements Prod.fst t ((itemMap Prod.fst).after (fun _ => none)
        [.replace (2, 0), .insert (1, 0), .insert (3, 0), .replace (1, 5), .insert (3, 7),
          .delete (2, 9), .find (2, 0), .find (1, 0)]) := by
  have compares : Compares (fun x y : ℕ × ℕ => (x.1 : ℤ) - y.1) Prod.fst :=
    ⟨fun x y => by omega, fun x y => by omega⟩
  exact rbRun_refines compares _
    (fits_of_short (fun call => call.item.1) itemMap_effect_of_ne (by decide))

/-- The table after a run stands for a map with room. -/
theorem rbRun_represents (compares : Compares compare key) {calls : List (RbCall α)}
    (fits : (itemMap key).Fits Roomy (fun _ => none) calls) {answers : List (Option α)}
    (run : Runs.run (rbCall compare) rbCreate calls = .ok (t, answers)) :
    ∃ u, Represents key t u ∧ lookup key (items u) = (itemMap key).after (fun _ => none) calls ∧
      t.count + 2 < 2 ^ 25 := by
  rcases (rbCall_simulates compares).run rbCreate_implements fits with ⟨t', run', u, represents, same⟩
  cases run.symm.trans run'
  refine ⟨u, represents, same, ?_⟩
  rw [represents.count_eq, same]
  exact fits.last

/-- A search in a table of `n` items looks at fewer than `2 * log (n + 2)` of them. -/
theorem rbRun_search (compares : Compares compare key) (calls : List (RbCall α))
    (fits : (itemMap key).Fits Roomy (fun _ => none) calls) {answers : List (Option α)}
    (run : Runs.run (rbCall compare) rbCreate calls = .ok (t, answers)) (item : α) :
    t.count = mapSize ((itemMap key).after (fun _ => none) calls) ∧
      rbFindLoop compare t item (2 * Nat.log 2 (t.count + 2) - 1) t.root =
        .ok ((itemMap key).after (fun _ => none) calls (key item)) := by
  rcases rbRun_represents compares fits run with ⟨u, represents, same, -⟩
  rcases represents.balanced with ⟨n, balanced⟩
  have low : u.height < 2 * Nat.log 2 (t.count + 2) := by
    rw [represents.count]
    exact balanced.height_lt (Nat.lt_pow_succ_log_self (by omega) _)
  have root := represents.zipped.root
  rw [topPtr] at root
  refine ⟨?_, ?_⟩
  · rw [represents.count_eq, same]
  · rw [root, rbFindLoop_spec compares represents.zipped.below represents.sorted (by omega), same]

/-- Two items, one of which is found at the first node. -/
theorem rbRun_search_example :
    ∃ t, t.count = mapSize ((itemMap Prod.fst).after (fun _ => none)
        [.replace ((2 : ℕ), 0), .replace (1, 5)]) ∧
      rbFindLoop (fun x y : ℕ × ℕ => (x.1 : ℤ) - y.1) t (2, 8) (2 * Nat.log 2 (t.count + 2) - 1)
        t.root = .ok (some (2, 0)) := by
  have compares : Compares (fun x y : ℕ × ℕ => (x.1 : ℤ) - y.1) Prod.fst :=
    ⟨fun x y => by omega, fun x y => by omega⟩
  have fits : (itemMap (Prod.fst : ℕ × ℕ → ℕ)).Fits Roomy (fun _ => none)
      [.replace (2, 0), .replace (1, 5)] :=
    fits_of_short (fun call => call.item.1) itemMap_effect_of_ne (by decide)
  rcases (rbCall_simulates compares).run rbCreate_implements fits with ⟨t, run, -⟩
  exact ⟨t, rbRun_search compares _ fits run (2, 8)⟩

end Refinement

end Treedb
