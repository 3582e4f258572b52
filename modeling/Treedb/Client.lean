import Treedb.Forest.Basic
import Treedb.View

/-!
# Clients

What a user sees in a browser is a copy of a view in the server. The client is not part of the
repository; here it is what the messages are meant for: a tree of branch ids and counters that is
edited as the messages say. The order of siblings is not part of it.

A client holds a finite part of a forest, by the ids of its nodes (`Holds`). Every message changes
what is held in one of five ways: a counter is changed along the way to the root, a branch is hung
elsewhere, a subtree is dropped, a printed subtree is added, or a subtree is replaced by a printed
one.
-/

namespace Treedb

open Forest

/-- What a client knows of a branch: the id of its parent, and its counter. -/
structure Entry where
  parent : Option UInt64
  branchN : UInt32
  deriving DecidableEq, Repr

namespace VbranchJson

/-- The id in the JSON of a vbranch. -/
def id : VbranchJson → UInt64
  | .node id .. => id

/-- The counter in the JSON of a vbranch. -/
def branchN : VbranchJson → UInt32
  | .node _ _ branchN .. => branchN

mutual

/-- The branches of a printed subtree, hung below `parent`. -/
def entries (parent : Option UInt64) : VbranchJson → List (UInt64 × Entry)
  | .node id _ branchN _ _ _ childs => (id, ⟨parent, branchN⟩) :: entriesBelow id childs

/-- The entries of a list of subtrees below `parent`. -/
def entriesBelow (parent : UInt64) : List VbranchJson → List (UInt64 × Entry)
  | [] => []
  | json :: rest => entries (some parent) json ++ entriesBelow parent rest

end

theorem entriesBelow_eq (parent : UInt64) (list : List VbranchJson) :
    entriesBelow parent list = list.flatMap (entries (some parent)) := by
  induction list with
  | nil => simp [entriesBelow]
  | cons json rest ih => simp [entriesBelow, ih]

end VbranchJson

/-- The tree that a client holds. -/
@[ext]
structure Client where
  entry : UInt64 → Option Entry

namespace Client

/-- The parent of an id in the copy. -/
def up (c : Client) (k : UInt64) : Option UInt64 :=
  (c.entry k).bind Entry.parent

/-- The number of branches in the subtree at `k`. -/
def size (c : Client) (k : UInt64) : UInt32 :=
  1 + ((c.entry k).map Entry.branchN).getD 0

open Classical in
/-- Add `n` to the counter of `k` and of all its ancestors. -/
noncomputable def add (c : Client) (k : UInt64) (n : UInt32) : Client :=
  ⟨fun j => (c.entry j).map fun e =>
    if Anc c.up k j then { e with branchN := e.branchN + n } else e⟩

/-- Add `n` to the counters of all ancestors of `k`. -/
noncomputable def addAbove (c : Client) (k : UInt64) (n : UInt32) : Client :=
  match c.up k with
  | none => c
  | some p => c.add p n

/-- Hang `k` below `p`. -/
def hang (c : Client) (k p : UInt64) : Client :=
  ⟨Function.update c.entry k ((c.entry k).map fun e => { e with parent := some p })⟩

open Classical in
/-- Drop the subtree at `k`. -/
noncomputable def prune (c : Client) (k : UInt64) : Client :=
  ⟨fun j => if Anc c.up j k then none else c.entry j⟩

/-- Put in the branches of a printed subtree. -/
def graft (c : Client) (entries : List (UInt64 × Entry)) : Client :=
  ⟨fun k => (entries.lookup k).or (c.entry k)⟩

/-- What a client makes of a message. -/
noncomputable def handle (c : Client) : Message → Client
  | .mapInit _ _ map => graft ⟨fun _ => none⟩ (map.entries none)
  | .mapInsert _ parentId _ branch =>
      if branch.id = parentId then (c.prune parentId).graft (branch.entries (c.up parentId))
      else (c.graft (branch.entries (some parentId))).add parentId (1 + branch.branchN)
  | .mapCount _ id n => c.add id (UInt32.ofInt n)
  | .mapMove _ newParentId id _ _ =>
      ((c.addAbove id (-c.size id)).hang id newParentId).addAbove id (c.size id)
  | .mapDelete _ id => (c.addAbove id (-c.size id)).prune id
  | .mapUpdate .. | .mapRemoveMark .. | .ack => c

/-- What a client makes of its messages, in order. -/
noncomputable def receive (c : Client) (msgs : List Message) : Client :=
  msgs.foldl handle c

theorem receive_append (c : Client) (msgs msgs' : List Message) :
    c.receive (msgs ++ msgs') = (c.receive msgs).receive msgs' :=
  List.foldl_append

/-! ## What a client holds -/

section Holds

variable {α : Type} {c c' : Client} {shown shown' new : Set α} {id : α → UInt64}
  {parent parent' : α → Option α} {count count' : α → UInt32} {a b p : α} {k : UInt64}

/-- The client holds the nodes of `shown`, and nothing else. -/
def Holds (c : Client) (shown : Set α) (id : α → UInt64) (parent : α → Option α)
    (count : α → UInt32) : Prop :=
  ∀ k e, c.entry k = some e ↔ ∃ a ∈ shown, id a = k ∧ e = ⟨(parent a).map id, count a⟩

/-- The nodes of a set have different ids, and their parents are in it. -/
structure Framed (shown : Set α) (id : α → UInt64) (parent : α → Option α) : Prop where
  inj : Set.InjOn id shown
  closed : ∀ {a p}, a ∈ shown → parent a = some p → p ∈ shown

theorem Framed.anc (framed : Framed shown id parent) (member : a ∈ shown)
    (up : Anc parent a b) : b ∈ shown := by
  induction up with
  | refl => exact member
  | tail _ step ih => exact framed.closed ih step

namespace Holds

theorem entry_eq (holds : Holds c shown id parent count) (member : a ∈ shown) :
    c.entry (id a) = some ⟨(parent a).map id, count a⟩ :=
  (holds _ _).mpr ⟨a, member, rfl, rfl⟩

theorem up_eq (holds : Holds c shown id parent count) (member : a ∈ shown) :
    c.up (id a) = (parent a).map id := by
  rw [up, holds.entry_eq member]
  rfl

theorem size_eq (holds : Holds c shown id parent count) (member : a ∈ shown) :
    c.size (id a) = 1 + count a := by
  rw [size, holds.entry_eq member]
  rfl

/-- Two clients that hold the same are the same. -/
theorem eq (holds : Holds c shown id parent count) (holds' : Holds c' shown id parent count) :
    c = c' := by
  ext k e
  exact (holds k e).trans (holds' k e).symm

/-- Only what is said of the nodes of the set counts. -/
theorem congr (holds : Holds c shown id parent count) {id' : α → UInt64}
    (ids : ∀ a ∈ shown, id' a = id a)
    (parents : ∀ a ∈ shown, (parent' a).map id' = (parent a).map id)
    (counts : ∀ a ∈ shown, count' a = count a) : Holds c shown id' parent' count' := by
  intro k e
  rw [holds k e]
  apply exists_congr
  intro a
  apply and_congr_right
  intro member
  rw [ids a member, parents a member, counts a member]

theorem anc_iff (holds : Holds c shown id parent count) (framed : Framed shown id parent)
    (memberA : a ∈ shown) (memberB : b ∈ shown) : Anc c.up (id a) (id b) ↔ Anc parent a b := by
  have climb : ∀ {k}, Anc c.up (id a) k → ∃ b ∈ shown, id b = k ∧ Anc parent a b := by
    intro k up
    induction up with
    | refl => exact ⟨a, memberA, rfl, anc_refl _ a⟩
    | tail _ step ih =>
        rcases ih with ⟨d, member, rfl, below⟩
        rw [Up, holds.up_eq member, Option.map_eq_some_iff] at step
        rcases step with ⟨p, stepP, named⟩
        exact ⟨p, framed.closed member stepP, named, below.trans (anc_of_parent stepP)⟩
  constructor
  · intro up
    rcases climb up with ⟨d, member, named, below⟩
    rw [framed.inj member memberB named] at below
    exact below
  · intro up
    clear memberB
    induction up with
    | refl => exact anc_refl _ _
    | @tail d p below step ih =>
        refine ih.trans (anc_of_parent ?_)
        rw [holds.up_eq (framed.anc memberA below), step]
        rfl

/-- An edit of the entries, one by one. -/
theorem map (holds : Holds c shown id parent count) {f : UInt64 → Entry → Entry}
    (edited : ∀ k, c'.entry k = (c.entry k).map (f k))
    (fits : ∀ a ∈ shown, f (id a) ⟨(parent a).map id, count a⟩ = ⟨(parent' a).map id, count' a⟩) :
    Holds c' shown id parent' count' := by
  intro k e
  rw [edited, Option.map_eq_some_iff]
  constructor
  · rintro ⟨e', held, rfl⟩
    rcases (holds k e').mp held with ⟨a, member, rfl, rfl⟩
    exact ⟨a, member, rfl, fits a member⟩
  · rintro ⟨a, member, rfl, rfl⟩
    exact ⟨_, holds.entry_eq member, fits a member⟩

open Classical in
theorem add (holds : Holds c shown id parent count) (framed : Framed shown id parent)
    (member : a ∈ shown) (n : UInt32) :
    Holds (c.add (id a) n) shown id parent fun b =>
      if Anc parent a b then count b + n else count b := by
  apply holds.map fun _ => rfl
  intro b memberB
  by_cases up : Anc parent a b
  · rw [if_pos ((holds.anc_iff framed member memberB).mpr up), if_pos up]
  · rw [if_neg fun held => up ((holds.anc_iff framed member memberB).mp held), if_neg up]

open Classical in
theorem addAbove (holds : Holds c shown id parent count) (framed : Framed shown id parent)
    (member : a ∈ shown) (n : UInt32) :
    Holds (c.addAbove (id a) n) shown id parent fun b =>
      if StrictAnc parent a b then count b + n else count b := by
  unfold Client.addAbove
  rw [holds.up_eq member]
  cases step : parent a with
  | none =>
      apply holds.congr (fun _ _ => rfl) (fun _ _ => rfl)
      intro b _
      rw [if_neg (not_strictAnc_of_root step)]
  | some p =>
      apply (holds.add framed (framed.closed member step) n).congr (fun _ _ => rfl) (fun _ _ => rfl)
      intro b _
      simp only [strictAnc_iff_of_parent step]

theorem hang [DecidableEq α] (holds : Holds c shown id parent count)
    (framed : Framed shown id parent) (member : a ∈ shown) (p : α) :
    Holds (c.hang (id a) (id p)) shown id (Function.update parent a (some p)) count := by
  apply holds.map (f := fun k e => if k = id a then { e with parent := some (id p) } else e)
  · intro k
    simp only [Client.hang, Function.update_apply]
    split
    · rename_i here
      rw [here]
    · rw [Option.map_id']
  · intro b memberB
    by_cases here : b = a
    · simp [here]
    · have other : id b ≠ id a := fun same => here (framed.inj memberB member same)
      rw [if_neg other, Function.update_of_ne here]

theorem prune (holds : Holds c shown id parent count) (framed : Framed shown id parent)
    (member : a ∈ shown) :
    Holds (c.prune (id a)) { b | b ∈ shown ∧ ¬Anc parent b a } id parent count := by
  intro k e
  unfold Client.prune
  constructor
  · intro held
    dsimp only at held
    split at held
    · simp at held
    · rename_i apart
      rcases (holds k e).mp held with ⟨b, memberB, rfl, rfl⟩
      exact ⟨b, ⟨memberB, mt (holds.anc_iff framed memberB member).mpr apart⟩, rfl, rfl⟩
  · rintro ⟨b, ⟨memberB, apart⟩, rfl, rfl⟩
    dsimp only
    rw [if_neg (mt (holds.anc_iff framed memberB member).mp apart)]
    exact holds.entry_eq memberB

/-- The printed branches are those of `new`. -/
theorem graft (holds : Holds c shown id parent count) {entries : List (UInt64 × Entry)}
    (lists : ∀ k e, entries.lookup k = some e ↔
      ∃ a ∈ new, id a = k ∧ e = ⟨(parent a).map id, count a⟩)
    (inj : Set.InjOn id (shown ∪ new)) :
    Holds (c.graft entries) (shown ∪ new) id parent count := by
  intro k e
  rw [Client.graft, Option.or_eq_some_iff]
  constructor
  · rintro (listed | ⟨_, held⟩)
    · rcases (lists k e).mp listed with ⟨a, member, named⟩
      exact ⟨a, .inr member, named⟩
    · rcases (holds k e).mp held with ⟨a, member, named⟩
      exact ⟨a, .inl member, named⟩
  · rintro ⟨a, member, rfl, rfl⟩
    cases listed : entries.lookup (id a) with
    | some e =>
        rcases (lists _ e).mp listed with ⟨b, memberB, same, rfl⟩
        rw [inj (.inr memberB) member same]
        exact .inl rfl
    | none =>
        refine .inr ⟨rfl, ?_⟩
        rcases member with old | late
        · exact holds.entry_eq old
        · rw [(lists _ _).mpr ⟨a, late, rfl, rfl⟩] at listed
          simp at listed

end Holds

/-! ## Messages -/

namespace Holds

open Classical in
theorem mapCount (holds : Holds c shown id parent count) (framed : Framed shown id parent)
    (member : a ∈ shown) (view : UInt32) (n : ℤ) :
    Holds (c.handle (.mapCount view (id a) n)) shown id parent fun b =>
      if Anc parent a b then count b + UInt32.ofInt n else count b :=
  holds.add framed member _

open Classical in
/-- The printed branches are hung below `p`. -/
theorem mapInsert {json : VbranchJson} (holds : Holds c shown id parent count)
    (framed : Framed (shown ∪ new) id parent)
    (lists : ∀ k e, (json.entries (some (id p))).lookup k = some e ↔
      ∃ a ∈ new, id a = k ∧ e = ⟨(parent a).map id, count a⟩)
    (member : p ∈ shown) (apart : json.id ≠ id p) (view : UInt32) (pos : ℕ) :
    Holds (c.handle (.mapInsert view (id p) pos json)) (shown ∪ new) id parent fun b =>
      if Anc parent p b then count b + (1 + json.branchN) else count b := by
  rw [handle, if_neg apart]
  exact (holds.graft lists framed.inj).add framed (.inl member) _

open Classical in
/-- The subtree at `a` is replaced by a printed one. -/
theorem mapInsert_again {json : VbranchJson} (holds : Holds c shown id parent count)
    (framed : Framed shown id parent) (member : a ∈ shown) (named : json.id = id a)
    (lists : ∀ k e, (json.entries ((parent a).map id)).lookup k = some e ↔
      ∃ b ∈ new, id b = k ∧ e = ⟨(parent b).map id, count b⟩)
    (inj : Set.InjOn id ({ b | b ∈ shown ∧ ¬Anc parent b a } ∪ new)) (view : UInt32) (pos : ℕ) :
    Holds (c.handle (.mapInsert view (id a) pos json)) ({ b | b ∈ shown ∧ ¬Anc parent b a } ∪ new)
      id parent count := by
  rw [handle, if_pos named, holds.up_eq member]
  exact (holds.prune framed member).graft lists inj

open Classical in
theorem mapDelete (holds : Holds c shown id parent count) (framed : Framed shown id parent)
    (member : a ∈ shown) (view : UInt32) :
    Holds (c.handle (.mapDelete view (id a))) { b | b ∈ shown ∧ ¬Anc parent b a } id parent fun b =>
      if StrictAnc parent a b then count b - (1 + count a) else count b := by
  rw [handle, holds.size_eq member]
  apply ((holds.addAbove framed member _).prune framed member).congr (fun _ _ => rfl)
    (fun _ _ => rfl)
  intro b _
  split
  · grind
  · rfl

open Classical in
/-- A branch below `p` moves to `q`. -/
theorem mapMove [DecidableEq α] {q : α} (holds : Holds c shown id parent count)
    (framed : Framed shown id parent) (member : a ∈ shown) (step : parent a = some p)
    (target : q ∈ shown) (apart : ¬Anc parent q a) (view : UInt32) (pos : ℤ) (retry : Bool) :
    Holds (c.handle (.mapMove view (id q) (id a) pos retry)) shown id
      (Function.update parent a (some q)) fun b =>
        count b - (if Anc parent p b then 1 + count a else 0) +
          (if Anc parent q b then 1 + count a else 0) := by
  have framed' : Framed shown id (Function.update parent a (some q)) := by
    refine ⟨framed.inj, ?_⟩
    intro b r memberB stepB
    by_cases here : b = a
    · rw [here, Function.update_self, Option.some.injEq] at stepB
      rw [← stepB]
      exact target
    · rw [Function.update_of_ne here] at stepB
      exact framed.closed memberB stepB
  have up : ∀ b, Anc (Function.update parent a (some q)) q b ↔ Anc parent q b := by
    intro b
    apply anc_iff_of_not_anc _ apart
    intro x other
    exact Function.update_of_ne other _ _
  rw [handle, holds.size_eq member]
  apply (((holds.addAbove framed member _).hang framed member q).addAbove framed' member _).congr
    (fun _ _ => rfl) (fun _ _ => rfl)
  intro b _
  simp only [strictAnc_iff_of_parent step,
    strictAnc_iff_of_parent (Function.update_self a (some q) parent), up]
  split <;> split <;> grind

end Holds

end Holds

end Client

end Treedb
