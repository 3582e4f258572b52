import Treedb.Channel
import Treedb.View
import Treedb.Rb.Traverse

/-!
# The indexes (`branch_index_*`, `vbranch_index_*`, `view_index_*`, `map_index_*`)

The models of the map, its views and the channel look an id up in a partial map. In the code every
index is a red-black table of items that are allocated by the index functions; an item on the stack
stands for the id that is looked for. The four indexes differ in the width of the ids and in what a
value points to, so that there is one model, over the type `ι` of ids.

An item that is replaced is freed. An item that is deleted is taken out of the table only.
-/

namespace Treedb

open RedBlack (lookup lookup_eq_some)
open Outcome

variable {ι β : Type}

/-- `item32_t` and `item64_t`. -/
structure IndexItem (ι β : Type) where
  /-- The address, if the item was allocated. -/
  ptr : Option ℕ
  id : ι
  /-- The value, if it was set. -/
  value : Option β
  deriving DecidableEq

/-- `compare32` and `compare64`. -/
def compareIds [LT ι] [DecidableLT ι] (pa pb : IndexItem ι β) : ℤ :=
  if pa.id < pb.id then -1
  else if pa.id > pb.id then 1
  else 0

/-- A table of items, and the memory of the items. -/
structure IdIndex (ι β : Type) where
  table : RbTable (IndexItem ι β)
  /-- The items that are allocated. -/
  allocated : ℕ → Bool
  nextItem : ℕ

namespace IdIndex

/-- An index without entries. -/
def init : IdIndex ι β where
  table := rbCreate
  allocated := fun _ => false
  nextItem := 0

/-- The item on the stack that an id is looked for with. -/
def sought (id : ι) : IndexItem ι β where
  ptr := none
  id := id
  value := none

/-- `free` of an item. -/
def free (x : IdIndex ι β) (item : IndexItem ι β) : Except RbFault (IdIndex ι β) :=
  match item.ptr with
  | none => .error .invalidPointer
  | some p =>
      if x.allocated p then .ok { x with allocated := Function.update x.allocated p false }
      else .error .invalidPointer

variable [LT ι] [DecidableLT ι]

/-- The value under an id. -/
def get (x : IdIndex ι β) (id : ι) : Except RbFault (Option β) := do
  let resItem ← rbFind compareIds x.table (sought id)
  return resItem.bind fun item => item.value

/-- Take the item of an id out of the table; it is not freed. -/
def delete (x : IdIndex ι β) (id : ι) : Except RbFault (IdIndex ι β × Option β) := do
  let (table, resItem) ← rbDelete compareIds x.table (sought id)
  return ({ x with table := table }, resItem.bind fun item => item.value)

/-- The values that are visited by `map_index_traverse`, in the order of the visits. -/
def traverse (x : IdIndex ι β) : Except RbFault (List (ι × Option β)) := do
  let visited ← traverseLoop true compareIds x.table (x.table.count + 1) (rbTInit x.table)
  return visited.map fun item => (item.id, item.value)

/-- Store a value under an id in a new item; the old item is freed. -/
def put [DecidableEq ι] [DecidableEq β] (x : IdIndex ι β) (id : ι) (value : β) : Except RbFault (IdIndex ι β) := do
  let item : IndexItem ι β := { ptr := some x.nextItem, id := id, value := some value }
  let x := { x with
    allocated := Function.update x.allocated x.nextItem true
    nextItem := x.nextItem + 1 }
  let (table, oldItem) ← rbReplace compareIds x.table item
  let x := { x with table := table }
  match oldItem with
  | some oldItem => x.free oldItem
  | none => return x

/-- `vbranch_index_destroy`, whose callback frees the items. -/
def destroy (x : IdIndex ι β) : Except RbFault (IdIndex ι β) := do
  let (destroyed, table) ← rbDestroy x.table
  destroyed.foldlM free { x with table := table }

end IdIndex

/-! ## The map of an index -/

/-- Calls of the index functions. -/
inductive IndexCall (ι β : Type)
  | put (id : ι) (value : β)
  | get (id : ι)
  | delete (id : ι)

/-- The id that a call is about. -/
def IndexCall.id : IndexCall ι β → ι
  | .put id _ => id
  | .get id => id
  | .delete id => id

/-- What the index functions should do to a partial map. -/
def idMap [DecidableEq ι] : Runs.Machine (ι → Option β) (IndexCall ι β) (Option β) where
  effect m
    | .put id value => Function.update m id (some value)
    | .get _ => m
    | .delete id => Function.update m id none
  answer m
    | .put _ _ => none
    | .get id => m id
    | .delete id => m id

theorem idMap_effect_of_ne [DecidableEq ι] (m : ι → Option β) (call : IndexCall ι β) (id : ι) (other : id ≠ call.id) :
    idMap.effect m call id = m id := by
  cases call with
  | get id => rfl
  | _ => exact Function.update_of_ne other _ _

/-- One call of an index function, with its answer. -/
def indexCall [LT ι] [DecidableLT ι] [DecidableEq ι] [DecidableEq β] (x : IdIndex ι β) :
    IndexCall ι β → Except RbFault (IdIndex ι β × Option β)
  | .put id value => (x.put id value).map fun x => (x, none)
  | .get id => (x.get id).map fun found => (x, found)
  | .delete id => x.delete id

/-- The ids are ordered as numbers. -/
structure IdOrder [LT ι] (num : ι → ℕ) : Prop where
  lt_iff : ∀ a b, a < b ↔ num a < num b
  injective : Function.Injective num

theorem idOrder32 : IdOrder UInt32.toNat :=
  ⟨fun _ _ => Iff.rfl, fun _ _ same => UInt32.toNat_inj.mp same⟩

theorem idOrder64 : IdOrder UInt64.toNat :=
  ⟨fun _ _ => Iff.rfl, fun _ _ same => UInt64.toNat_inj.mp same⟩

/-- The key of an item. -/
def itemKey (num : ι → ℕ) (item : IndexItem ι β) : ℕ :=
  num item.id

/-- The items of the table are allocated, each for itself, and hold the values of the map. -/
structure ItemsHold (num : ι → ℕ) (x : IdIndex ι β) (u : RbTree (IndexItem ι β)) (m : ι → Option β) :
    Prop where
  represents : Represents (itemKey num) x.table u
  map : ∀ id, m id = (lookup (itemKey num) (items u) (num id)).bind IndexItem.value
  owned : ∀ item ∈ items u, ∃ p v, item = ⟨some p, item.id, some v⟩ ∧ p < x.nextItem ∧ x.allocated p
  apart : ∀ item ∈ items u, ∀ other ∈ items u, item.ptr = other.ptr → item = other

/-- The index stands for the map. -/
def IndexHolds (num : ι → ℕ) (x : IdIndex ι β) (m : ι → Option β) : Prop :=
  ∃ u, ItemsHold num x u m

variable {num : ι → ℕ} {x : IdIndex ι β} {m : ι → Option β} {u : RbTree (IndexItem ι β)}

theorem init_holds : IndexHolds num (IdIndex.init : IdIndex ι β) fun _ => none :=
  ⟨.nil, rbCreate_represents, fun _ => rfl, fun _ member => absurd member List.not_mem_nil,
    fun _ member => absurd member List.not_mem_nil⟩

section Order

variable [LT ι]

/-- The table has an item for every id of the map. -/
theorem ItemsHold.count_eq (order : IdOrder num) (hold : ItemsHold num x u m) :
    x.table.count = mapSize m := by
  have keys : {k | lookup (itemKey num) (items u) k ≠ none} = num '' {id | m id ≠ none} := by
    ext k
    constructor
    · intro found
      rcases Option.ne_none_iff_exists'.mp found with ⟨item, found⟩
      rcases (lookup_eq_some hold.represents.sorted_items).mp found with ⟨member, rfl⟩
      rcases hold.owned item member with ⟨p, v, whole, -⟩
      refine ⟨item.id, ?_, rfl⟩
      change lookup (itemKey num) (items u) (num item.id) = some item at found
      rw [Set.mem_ofPred_eq, hold.map, found, whole]
      exact Option.some_ne_none v
    · rintro ⟨id, present, rfl⟩ absent
      apply present
      rw [hold.map, absent]
      rfl
  rw [hold.represents.count_eq, mapSize, keys, Set.ncard_image_of_injective _ order.injective]
  rfl

/-- The values after the item with one id has changed. -/
theorem ItemsHold.update [DecidableEq ι] (order : IdOrder num) (hold : ItemsHold num x u m) (id : ι)
    (item : Option (IndexItem ι β)) (id' : ι) :
    Function.update m id (item.bind IndexItem.value) id' =
      (Function.update (lookup (itemKey num) (items u)) (num id) item (num id')).bind
        IndexItem.value := by
  by_cases equal : id' = id
  · rw [equal, Function.update_self, Function.update_self]
  · rw [Function.update_of_ne equal, Function.update_of_ne (order.injective.ne equal), hold.map]

variable [DecidableLT ι]

theorem compareIds_compares (order : IdOrder num) :
    Compares (compareIds : IndexItem ι β → IndexItem ι β → ℤ) (itemKey num) := by
  constructor
  · intro a b
    rw [compareIds, itemKey, itemKey, ← order.lt_iff]
    split
    · simpa
    · split <;> simpa
  · intro a b
    rw [compareIds, itemKey, itemKey, ← order.lt_iff]
    split
    · rename_i less
      have notLess : ¬ b.id < a.id := by
        rw [order.lt_iff] at less ⊢
        omega
      simpa
    · split <;> simpa

/-- A lookup with the item on the stack. -/
theorem ItemsHold.get (order : IdOrder num) (hold : ItemsHold num x u m) (id : ι) :
    x.get id = .ok (m id) := by
  rw [IdIndex.get, rbFind_spec (compareIds_compares order) hold.represents, ok_bind, hold.map]
  rfl

variable [DecidableEq ι]

theorem ItemsHold.delete (order : IdOrder num) (hold : ItemsHold num x u m) (roomy : Roomy m) (id : ι) :
    ∃ x', x.delete id = .ok (x', m id) ∧ IndexHolds num x' (Function.update m id none) := by
  have small : x.table.count + 2 < 2 ^ 25 := by
    rw [hold.count_eq order]
    exact roomy
  obtain ⟨t', u', run, represents', same⟩ : ∃ t' u',
      rbDelete compareIds x.table (IdIndex.sought id) =
        .ok (t', lookup (itemKey num) (items u) (num id)) ∧ Represents (itemKey num) t' u' ∧
      lookup (itemKey num) (items u') =
        Function.update (lookup (itemKey num) (items u)) (num id) none :=
    rbDelete_spec (compareIds_compares order) hold.represents small
  have kept : ∀ item ∈ items u', item ∈ items u := by
    intro item member
    have found := (represents'.mem_items item).mp member
    rw [same, Function.update_apply] at found
    split at found
    · cases found
    · exact (hold.represents.mem_items item).mpr found
  refine ⟨{ x with table := t' }, ?_, u', represents', fun id' => ?_,
    fun item member => hold.owned item (kept item member),
    fun item member other member' => hold.apart item (kept item member) other (kept other member')⟩
  · rw [IdIndex.delete, run, ok_bind, hold.map]
    rfl
  · rw [same]
    exact hold.update order id none id'

variable [DecidableEq β]

theorem ItemsHold.put (order : IdOrder num) (hold : ItemsHold num x u m) (roomy : Roomy m) (id : ι)
    (value : β) :
    ∃ x', x.put id value = .ok x' ∧ IndexHolds num x' (Function.update m id (some value)) := by
  have small : x.table.count + 2 < 2 ^ 25 := by
    rw [hold.count_eq order]
    exact roomy
  obtain ⟨t', u', run, represents', same⟩ : ∃ t' u',
      rbReplace compareIds x.table ⟨some x.nextItem, id, some value⟩ =
        .ok (t', (lookup (itemKey num) (items u) (num id)).filter
          (· ≠ ⟨some x.nextItem, id, some value⟩)) ∧
      Represents (itemKey num) t' u' ∧
      lookup (itemKey num) (items u') = Function.update (lookup (itemKey num) (items u)) (num id)
        (some ⟨some x.nextItem, id, some value⟩) :=
    rbReplace_spec (compareIds_compares order) hold.represents small
  have inside : ∀ item ∈ items u', item = ⟨some x.nextItem, id, some value⟩ ∨
      (item ∈ items u ∧ item.id ≠ id) := by
    intro item member
    have found := (represents'.mem_items item).mp member
    rw [same, Function.update_apply] at found
    split at found
    · exact Or.inl (Option.some.inj found).symm
    · rename_i other
      exact Or.inr ⟨(hold.represents.mem_items item).mpr found, fun equal => other (by rw [itemKey, equal])⟩
  have new : ∀ y ∈ items u, y.ptr ≠ some x.nextItem := by
    intro y member same
    rcases hold.owned y member with ⟨p, v, whole, less, -⟩
    rw [whole] at same
    cases same
    exact lt_irrefl _ less
  have values : ∀ id', Function.update m id (some value) id' =
      (lookup (itemKey num) (items u') (num id')).bind IndexItem.value := by
    intro id'
    rw [same]
    exact hold.update order id (some ⟨some x.nextItem, id, some value⟩) id'
  have apart : ∀ item ∈ items u', ∀ other ∈ items u', item.ptr = other.ptr → item = other := by
    intro item member other member' equal
    rcases inside item member with rfl | ⟨old, -⟩ <;>
      rcases inside other member' with rfl | ⟨old', -⟩
    · rfl
    · exact absurd equal.symm (new other old')
    · exact absurd equal (new item old)
    · exact hold.apart item old other old' equal
  -- What is owned before, and not freed, is owned still.
  have owned : ∀ allocated : ℕ → Bool, allocated x.nextItem = true →
      (∀ p, (∃ y ∈ items u, y.ptr = some p ∧ y.id ≠ id) → allocated p = x.allocated p) →
      ∀ item ∈ items u', ∃ p v, item = ⟨some p, item.id, some v⟩ ∧ p < x.nextItem + 1 ∧
        allocated p := by
    intro allocated here there item member
    rcases inside item member with rfl | ⟨old, other⟩
    · exact ⟨x.nextItem, value, rfl, Nat.lt_succ_self _, here⟩
    · rcases hold.owned item old with ⟨p, v, whole, less, kept⟩
      refine ⟨p, v, whole, less.trans (Nat.lt_succ_self _), ?_⟩
      rw [there p ⟨item, old, by rw [whole], other⟩]
      exact kept
  have allocated : ∀ p, (∃ y ∈ items u, y.ptr = some p) →
      Function.update x.allocated x.nextItem true p = x.allocated p := by
    rintro p ⟨y, member, ptr⟩
    apply Function.update_of_ne
    rintro rfl
    exact new y member ptr
  cases found : lookup (itemKey num) (items u) (num id) with
  | none =>
      rw [found] at run
      refine ⟨⟨t', Function.update x.allocated x.nextItem true, x.nextItem + 1⟩, ?_, u', represents',
        values, owned _ (Function.update_self _ _ _) ?_, apart⟩
      · rw [IdIndex.put, run]
        rfl
      · rintro p ⟨y, member, ptr, -⟩
        exact allocated p ⟨y, member, ptr⟩
  | some y =>
      rcases (lookup_eq_some hold.represents.sorted_items).mp found with ⟨member, keyY⟩
      have idY : y.id = id := order.injective keyY
      rcases hold.owned y member with ⟨p, v, whole, less, kept⟩
      have ptrY : y.ptr = some p := by rw [whole]
      have differs : y ≠ ⟨some x.nextItem, id, some value⟩ := by
        rintro rfl
        exact new _ member rfl
      have live := allocated p ⟨y, member, ptrY⟩
      rw [found, Option.filter, if_pos (decide_eq_true differs)] at run
      refine ⟨⟨t', Function.update (Function.update x.allocated x.nextItem true) p false,
        x.nextItem + 1⟩, ?_, u', represents', values, owned _ ?_ ?_, apart⟩
      · simp only [IdIndex.put, run, ok_bind, IdIndex.free, ptrY, live, kept, if_true]
      · dsimp only
        rw [Function.update_of_ne less.ne', Function.update_self]
      · rintro q ⟨z, memberZ, ptrZ, other⟩
        have apart : q ≠ p := by
          rintro rfl
          rw [hold.apart z memberZ y member (ptrZ.trans ptrY.symm)] at other
          exact other idY
        dsimp only
        rw [Function.update_of_ne apart]
        exact allocated q ⟨z, memberZ, ptrZ⟩

/-- Every call of an index function does to the index what it should do to the map. -/
theorem indexCall_simulates (order : IdOrder num) :
    Runs.Simulates (@indexCall ι β _ _ _ _) idMap Roomy (IndexHolds num) := by
  rintro x m call ⟨u, hold⟩ roomy
  cases call with
  | put id value =>
      rcases hold.put order roomy id value with ⟨x', run, hold'⟩
      refine ⟨x', ?_, hold'⟩
      rw [indexCall, run]
      rfl
  | get id =>
      refine ⟨x, ?_, u, hold⟩
      rw [indexCall, hold.get order]
      rfl
  | delete id => exact hold.delete order roomy id

end Order

/-- The traversal visits the items in the order of the ids. -/
theorem ItemsHold.traverse [LT ι] [DecidableLT ι] (order : IdOrder num) (hold : ItemsHold num x u m)
    (roomy : Roomy m) :
    x.traverse = .ok ((items u).map fun item => (item.id, item.value)) := by
  have small : x.table.count + 2 < 2 ^ 25 := by
    rw [hold.count_eq order]
    exact roomy
  rw [IdIndex.traverse, rbTraverse_spec (compareIds_compares order) hold.represents small]
  rfl

/-- The items are the entries of the map. -/
theorem ItemsHold.mem_iff [LT ι] (order : IdOrder num) (hold : ItemsHold num x u m) (id : ι)
    (v : Option β) : (∃ item ∈ items u, item.id = id ∧ item.value = v) ↔ v ≠ none ∧ m id = v := by
  constructor
  · rintro ⟨item, member, rfl, rfl⟩
    rcases hold.owned item member with ⟨p, w, whole, -⟩
    have found := (hold.represents.mem_items item).mp member
    refine ⟨?_, ?_⟩
    · rw [whole]
      exact Option.some_ne_none w
    · rw [hold.map]
      change (lookup (itemKey num) (items u) (itemKey num item)).bind _ = _
      rw [found]
      rfl
  · rintro ⟨present, same⟩
    rw [hold.map] at same
    cases found : lookup (itemKey num) (items u) (num id) with
    | none =>
        rw [found] at same
        exact absurd same.symm present
    | some item =>
        rw [found] at same
        rcases (lookup_eq_some hold.represents.sorted_items).mp found with ⟨member, keyed⟩
        exact ⟨item, member, order.injective keyed, same⟩

/-- No two items share an address. -/
theorem ItemsHold.ptr_apart (hold : ItemsHold num x u m) :
    (items u).Pairwise fun item other => item.ptr ≠ other.ptr := by
  have nodup : (items u).Nodup :=
    hold.represents.sorted_items.imp fun less equal => less.ne (congrArg _ equal)
  refine nodup.imp_of_mem fun member member' differ same => differ ?_
  exact hold.apart _ member _ member' same

theorem foldlM_free {l : List (IndexItem ι β)} {x : IdIndex ι β}
    (owned : ∀ item ∈ l, ∃ p, item.ptr = some p ∧ x.allocated p)
    (apart : l.Pairwise fun item other => item.ptr ≠ other.ptr) :
    ∃ x', l.foldlM IdIndex.free x = .ok x' ∧ x'.table = x.table ∧
      (∀ p, (∃ item ∈ l, item.ptr = some p) → x'.allocated p = false) ∧
      ∀ p, (∀ item ∈ l, item.ptr ≠ some p) → x'.allocated p = x.allocated p := by
  induction l generalizing x with
  | nil => exact ⟨x, rfl, rfl, by simp, by simp⟩
  | cons item l ih =>
      rcases owned item List.mem_cons_self with ⟨p, ptr, live⟩
      rw [List.pairwise_cons] at apart
      have others : ∀ q, (∃ other ∈ l, other.ptr = some q) → q ≠ p := by
        rintro q ⟨other, member, ptr'⟩ rfl
        exact apart.1 other member (ptr.trans ptr'.symm)
      have owned' : ∀ other ∈ l, ∃ q, other.ptr = some q ∧ Function.update x.allocated p false q := by
        intro other member
        rcases owned other (List.mem_cons_of_mem _ member) with ⟨q, ptr', live'⟩
        refine ⟨q, ptr', ?_⟩
        rw [Function.update_of_ne (others q ⟨other, member, ptr'⟩)]
        exact live'
      rcases ih (x := { x with allocated := Function.update x.allocated p false }) owned' apart.2 with
        ⟨x', run, table, gone, kept⟩
      refine ⟨x', ?_, table, ?_, ?_⟩
      · have freed : x.free item = .ok { x with allocated := Function.update x.allocated p false } := by
          simp only [IdIndex.free, ptr, live, if_true]
        rw [List.foldlM_cons, freed, ok_bind, run]
      · rintro q ⟨other, member, ptr'⟩
        rcases List.mem_cons.mp member with rfl | member
        · cases ptr.symm.trans ptr'
          by_cases again : ∃ other ∈ l, other.ptr = some p
          · exact gone p again
          · rw [kept p fun other member ptr' => again ⟨other, member, ptr'⟩]
            exact Function.update_self _ _ _
        · exact gone q ⟨other, member, ptr'⟩
      · intro q out
        rw [kept q fun other member => out other (List.mem_cons_of_mem _ member)]
        apply Function.update_of_ne
        rintro rfl
        exact out item List.mem_cons_self ptr

/-- `vbranch_index_destroy` frees every item and every node of the index once. -/
theorem ItemsHold.destroy (hold : ItemsHold num x u m) :
    ∃ x', x.destroy = .ok x' ∧ (∀ a, x'.table.mem a = none) ∧
      ∀ p, x'.allocated p = true ↔ x.allocated p = true ∧ ∀ item ∈ items u, item.ptr ≠ some p := by
  rcases rbDestroy_spec hold.represents with ⟨table, destroyed, nodes⟩
  have owned : ∀ item ∈ items u, ∃ p, item.ptr = some p ∧ x.allocated p := by
    intro item member
    rcases hold.owned item member with ⟨p, v, whole, -, live⟩
    exact ⟨p, by rw [whole], live⟩
  rcases foldlM_free (x := { x with table := table }) owned hold.ptr_apart with ⟨x', run, kept, gone, others⟩
  refine ⟨x', ?_, ?_, fun p => ?_⟩
  · rw [IdIndex.destroy, destroyed, ok_bind]
    exact run
  · rw [kept]
    exact nodes
  · by_cases inside : ∃ item ∈ items u, item.ptr = some p
    · rw [gone p inside]
      rcases inside with ⟨item, member, ptr⟩
      simp only [Bool.false_eq_true, false_iff, not_and, not_forall]
      exact fun _ => ⟨item, member, fun differ => differ ptr⟩
    · have outside : ∀ item ∈ items u, item.ptr ≠ some p := fun item member ptr =>
        inside ⟨item, member, ptr⟩
      rw [others p outside]
      exact (and_iff_left outside).symm


/-! ## Runs -/

section Run

variable [LT ι] [DecidableLT ι] [DecidableEq ι] [DecidableEq β]

/--
The index has these items: a traversal visits them in the order of the ids, they are the entries of
the map, and a destruction leaves no node of the table and frees each of them, and no other item.
-/
structure IdIndex.Stores (num : ι → ℕ) (x : IdIndex ι β) (m : ι → Option β)
    (stored : List (IndexItem ι β)) : Prop where
  traversed : x.traverse = .ok (stored.map fun item => (item.id, item.value))
  sorted : stored.Pairwise fun a b => num a.id < num b.id
  mem_iff : ∀ id v, (∃ item ∈ stored, item.id = id ∧ item.value = v) ↔ v ≠ none ∧ m id = v
  owned : ∀ item ∈ stored, ∃ p, item.ptr = some p ∧ x.allocated p
  apart : stored.Pairwise fun item other => item.ptr ≠ other.ptr
  destroyed : ∃ x', x.destroy = .ok x' ∧ (∀ a, x'.table.mem a = none) ∧
    ∀ p, x'.allocated p = true ↔ x.allocated p = true ∧ ∀ item ∈ stored, item.ptr ≠ some p

/-- Whatever sequence of calls is made on a new index, the answers and the entries are a map's. -/
theorem indexRun_refines (order : IdOrder num) (calls : List (IndexCall ι β))
    (fits : idMap.Fits Roomy (fun _ => none) calls) :
    ∃ x stored, Runs.run indexCall IdIndex.init calls =
        .ok (x, idMap.answers (fun _ => none) calls) ∧
      x.Stores num (idMap.after (fun _ => none) calls) stored := by
  rcases (indexCall_simulates order).run init_holds fits with ⟨x, run, u, hold⟩
  refine ⟨x, items u, run, hold.traverse order fits.last, ?_, hold.mem_iff order, ?_,
    hold.ptr_apart, hold.destroy⟩
  · exact hold.represents.sorted_items
  · intro item member
    rcases hold.owned item member with ⟨p, v, whole, -, live⟩
    exact ⟨p, by rw [whole], live⟩

/-- The second value of an id takes the place of the first. -/
theorem indexRun_refines_example :
    ∃ x stored, Runs.run indexCall (IdIndex.init : IdIndex UInt32 ℕ)
        [.put 7 0, .put 3 1, .put 7 2, .put 5 4, .delete 3, .get 3, .get 7] =
        .ok (x, [none, none, none, none, some 1, none, some 2]) ∧
      x.Stores UInt32.toNat (idMap.after (fun _ => none)
        [.put 7 0, .put 3 1, .put 7 2, .put 5 4, .delete 3, .get 3, .get 7]) stored :=
  indexRun_refines idOrder32 _ (fits_of_short IndexCall.id idMap_effect_of_ne (by decide))

end Run

/-! ## The four indexes -/

/-- `branch_index_*` do to the index what the model of the tree does. -/
theorem branchIndex_refines {x : IdIndex UInt64 BranchPtr} {t : Tree}
    (holds : IndexHolds UInt64.toNat x t.branchIndex) (roomy : Roomy t.branchIndex) :
    (∀ b, ∃ x', x.put (t.mem b).id b = .ok x' ∧
      IndexHolds UInt64.toNat x' (branchIndexPut t b).branchIndex) ∧
    (∀ id, x.get id = .ok (branchIndexGet t id)) ∧
    ∀ id, ∃ x', x.delete id = .ok (x', branchIndexGet t id) ∧
      IndexHolds UInt64.toNat x' (branchIndexDelete t id).branchIndex := by
  rcases holds with ⟨u, hold⟩
  exact ⟨fun b => hold.put idOrder64 roomy _ b, hold.get idOrder64, hold.delete idOrder64 roomy⟩

/-- `vbranch_index_*` of a view. -/
theorem vbranchIndex_refines {x : IdIndex UInt64 VbranchPtr} {t : Tree} {o : Overlay} {view : ViewPtr}
    (holds : IndexHolds UInt64.toNat x (o.views view).vbranchIndex)
    (roomy : Roomy (o.views view).vbranchIndex) :
    (∀ vb, ∃ x', x.put (t.mem (o.vmem vb).branch).id vb = .ok x' ∧
      IndexHolds UInt64.toNat x' ((vbranchIndexPut t o view vb).views view).vbranchIndex) ∧
    ∀ id, x.get id = .ok (vbranchIndexGet o view id) := by
  rcases holds with ⟨u, hold⟩
  refine ⟨fun vb => ?_, hold.get idOrder64⟩
  simp only [vbranchIndexPut, Function.update_self]
  exact hold.put idOrder64 roomy _ vb

/-- `view_index_*` of a map. -/
theorem viewIndex_refines {x : IdIndex UInt32 ViewPtr} {o : Overlay}
    (holds : IndexHolds UInt32.toNat x o.viewIndex) (roomy : Roomy o.viewIndex) :
    (∀ view, ∃ x', x.put (o.views view).id view = .ok x' ∧
      IndexHolds UInt32.toNat x' (viewIndexPut o view).viewIndex) ∧
    (∀ id, x.get id = .ok (viewIndexGet o id)) ∧
    ∀ id, ∃ x', x.delete id = .ok (x', viewIndexGet o id) ∧
      IndexHolds UInt32.toNat x' (viewIndexRemove o id).viewIndex := by
  rcases holds with ⟨u, hold⟩
  exact ⟨fun view => hold.put idOrder32 roomy _ view, hold.get idOrder32, hold.delete idOrder32 roomy⟩

/-- `map_index_*` of the server. -/
theorem mapIndex_refines {x : IdIndex UInt32 ℕ} {app : App}
    (holds : IndexHolds UInt32.toNat x app.mapIndex) (roomy : Roomy app.mapIndex) :
    (∀ map, ∃ x', x.put (app.maps map).id map = .ok x' ∧
      IndexHolds UInt32.toNat x' (mapIndexPut app map).mapIndex) ∧
    ∀ id, x.get id = .ok (mapIndexGet app id) := by
  rcases holds with ⟨u, hold⟩
  exact ⟨fun map => hold.put idOrder32 roomy _ map, hold.get idOrder32⟩

end Treedb
