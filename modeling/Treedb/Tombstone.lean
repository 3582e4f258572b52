import Treedb.Reachability
import Treedb.Request
import Treedb.Tree.Record

/-!
# The id of deleted records

In the file the id 0 marks a deleted record, and the parent id 0 marks the root. A branch of the
tree must not have this id. A request that names an id which is not sixteen hexadecimal digits, or
the integer 0, is read as naming the id 0, and `insert` takes this id for an unused one. As long as
the requests name other ids for new branches, or places that are not there, the tree stays free of
it.
-/

namespace Treedb

open Forest Outcome Treedb.Tree

namespace Tree

variable {t : Tree} {b : BranchPtr}

/-- No branch is stored under the id of a deleted record. -/
def NoZero (t : Tree) : Prop :=
  t.branchIndex 0 = none

theorem NoZero.id_ne_zero (noZero : t.NoZero) (wf : t.WellFormed) (indexed : t.Indexed b) :
    (t.mem b).id ≠ 0 := by
  intro zero
  have stored := wf.indexed_id indexed
  rw [zero, noZero] at stored
  simp at stored

theorem NoZero.apply {e : Edit} {leaf : Prop} (noZero : t.NoZero) (tame : e.Tame leaf True t) :
    (e.apply t).NoZero := by
  rw [NoZero, (Edit.apply_fields t e).2.2.2.1]
  cases e with
  | grow pb new i =>
      simp only [Edit.memory, grow_index, if_neg (tame trivial).symm]
      exact noZero
  | rehome b opb npb i => exact noZero
  | forget b p =>
      simp only [Edit.memory, forget_index]
      split
      · rfl
      · exact noZero
  | relabel b text noteId => exact noZero

end Tree

theorem call_noZero {m m' : Map} {call : Call} (wf : m.tree.WellFormed) (noZero : m.tree.NoZero)
    (named : call.AvoidsZero m.tree) (run : m.call call = .ok m') : m'.tree.NoZero := by
  have edits := call_edits False True wf False.elim (fun _ => named) run
  apply edits.invariant _ noZero
  intro t e noZero _ tame
  exact noZero.apply tame

/-! ## Requests -/

/-- The call that is read from the request names an id other than 0, or a place that is not there. -/
def AvoidsZero (m : Map) (request : Outside × Option Json) : Prop :=
  ∀ root call, request.2 = some root → readRequest request.1 m root = some call →
    call.AvoidsZero m.tree

instance (m : Map) (request : Outside × Option Json) : Decidable (AvoidsZero m request) :=
  match asked : request.2.bind (readRequest request.1 m) with
  | none => isTrue (by
      intro root call isJson read
      simp [isJson, read] at asked)
  | some call => decidable_of_iff (call.AvoidsZero m.tree) (by
      rcases Option.bind_eq_some_iff.mp asked with ⟨root, isJson, read⟩
      constructor
      · intro named root' call' isJson' read'
        rw [isJson, Option.some.injEq] at isJson'
        subst isJson'
        rw [read, Option.some.injEq] at read'
        exact read' ▸ named
      · intro named
        exact named root call isJson read)

theorem mapProc_cases {m m' : Map} {request : Outside × Option Json}
    (run : mapProc m request = .ok m') :
    m'.tree = m.tree ∨ ∃ root call m₁, request.2 = some root ∧
      readRequest request.1 m root = some call ∧ m.call call = .ok m₁ ∧ m'.tree = m₁.tree := by
  rcases request with ⟨out, _ | root⟩
  · left
    simp only [mapProc, Except.ok.injEq] at run
    rw [run]
  · rcases bind_eq_ok.mp run with ⟨m₁, performed, run⟩
    simp only [pure_eq_ok, Except.ok.injEq] at run
    cases asked : readRequest out m root with
    | none =>
        left
        simp only [asked, perform, Except.ok.injEq] at performed
        rw [← run, performed]
    | some call =>
        right
        simp only [asked, perform] at performed
        refine ⟨root, call, m₁, rfl, asked, performed, ?_⟩
        rw [← run]

/--
As long as each request for a new branch names an id other than 0 or a place that is not there, no
branch that can be reached from the root has the id 0.
-/
theorem mapProcAll_ids_ne_zero {m m' : Map} (wf : m.tree.WellFormed) (noZero : m.tree.NoZero)
    (requests : List (Outside × Option Json)) (named : Along mapProc AvoidsZero m requests)
    (run : mapProcAll m requests = .ok m') :
    ∀ b, m'.tree.Reachable b → (m'.tree.mem b).id ≠ 0 := by
  have kept : m'.tree.WellFormed ∧ m'.tree.NoZero := by
    refine foldlM_invariant_along (fun m : Map => m.tree.WellFormed ∧ m.tree.NoZero) ?_ named
      ⟨wf, noZero⟩ run
    rintro s request s' named ⟨wf, noZero⟩ done
    rcases mapProc_cases done with same | ⟨root, call, s₁, isJson, asked, called, same⟩
    · rw [same]
      exact ⟨wf, noZero⟩
    · rw [same]
      exact ⟨call_wellFormed wf called,
        call_noZero wf noZero (named root call isJson asked) called⟩
  intro b reachable
  exact kept.2.id_ne_zero kept.1 (kept.1.indexed_of_anc (kept.1.reachable_iff.mp reachable))

theorem mapCreateEmpty_noZero (id : UInt32) : (mapCreateEmpty id).tree.NoZero := by
  have start := mapCreateEmpty_holdsOnlyRoot id
  rw [NoZero, start.index, mapCreateEmpty_mem]
  decide

/-- A request of no view to insert a branch at position 0. -/
def insertRequest (parentId branchId : String) : Outside × Option Json :=
  ({}, some (.object
    [(cstr "viewId", .integer 0), (cstr "name", .string (cstr "mapInsert")),
      (cstr "data", .object
        [(cstr "parentBranchId", .string (cstr parentId)),
          (cstr "branchId", .string (cstr branchId)), (cstr "branchPos", .integer 0),
          (cstr "branchText", .string []), (cstr "branchDocumentId", .integer 0)])]))

/-- An insert, and one with a malformed id below an unknown parent. -/
theorem mapProcAll_ids_ne_zero_example :
    ∃ m', mapProcAll (mapCreateEmpty 1)
        [insertRequest "0000000000000001" "0000000000000002",
          insertRequest "000000000000000f" "2"] = .ok m' ∧
      ∀ b, m'.tree.Reachable b → (m'.tree.mem b).id ≠ 0 := by
  have ends : (mapProcAll (mapCreateEmpty 1)
      [insertRequest "0000000000000001" "0000000000000002",
        insertRequest "000000000000000f" "2"]).toBool = true := by
    decide +kernel
  cases run : mapProcAll (mapCreateEmpty 1)
      [insertRequest "0000000000000001" "0000000000000002",
        insertRequest "000000000000000f" "2"] with
  | error e => simp [run, Except.toBool] at ends
  | ok m' =>
      refine ⟨m', rfl, ?_⟩
      apply mapProcAll_ids_ne_zero (mapCreateEmpty_holdsOnlyRoot 1).wellFormed
        (mapCreateEmpty_noZero 1) _ _ run
      decide +kernel

/-- A malformed id is read as 0 and taken for an unused id. -/
theorem malformed_id_is_inserted :
    ¬∀ m', mapProcAll (mapCreateEmpty 1) [insertRequest "0000000000000001" "2"] = .ok m' →
      ∀ b, m'.tree.Reachable b → (m'.tree.mem b).id ≠ 0 := by
  intro claim
  have observed : (mapProcAll (mapCreateEmpty 1)
      [insertRequest "0000000000000001" "2"]).toOption.map (fun m =>
        (m.tree.branch, m.tree.children 0, (m.tree.mem 1).id)) = some (0, [1], 0) := by
    decide +kernel
  cases run : mapProcAll (mapCreateEmpty 1) [insertRequest "0000000000000001" "2"] with
  | error e => simp [run, Except.toOption] at observed
  | ok m' =>
      simp only [run, Except.toOption, Option.map_some, Option.some.injEq, Prod.mk.injEq] at observed
      rcases observed with ⟨root, listed, zero⟩
      have reachable : m'.tree.Reachable 1 := by
        apply Relation.ReflTransGen.single
        rw [root, listed]
        exact List.mem_singleton_self 1
      exact claim m' run 1 reachable zero

end Treedb
