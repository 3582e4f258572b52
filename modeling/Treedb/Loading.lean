import Treedb.Saving
import Treedb.Tombstone

/-!
# Loading what was saved

`io_load_map` reads the records twice. The first pass allocates a branch for every record with a
nonzero id, the second hooks each branch into the array of its parent. On the image of a tree whose
ids are all nonzero both passes run to their end, and what they build is that tree again: the branch
of record `i` is the branch whose slot is `i`.

Both passes are described by what they have built after the first `k` records.
-/

namespace Treedb

open Forest Outcome RecordFile Treedb.Tree

/-- The slot of a branch, which is the address of the branch when it is loaded again. -/
def Tree.slot (t : Tree) (b : BranchPtr) : ℕ :=
  (t.mem b).findex.toNat

/-- The loaded tree is the tree `t`, each branch at the address given by its slot. -/
structure Loading.Rebuilds (l : Loading) (t : Tree) : Prop where
  root : l.root = some (t.slot t.branch)
  /-- The same ids are known, and no others. -/
  index : ∀ k, l.index k = (t.branchIndex k).map t.slot
  branch : ∀ b, t.Reachable b → (l.mem (t.slot b)).id = (t.mem b).id ∧
    (l.mem (t.slot b)).findex = (t.mem b).findex ∧
    (l.mem (t.slot b)).childN = (t.mem b).childN ∧
    (l.mem (t.slot b)).parent = (t.parent b).map t.slot
  /-- Every array is filled, with the children in their order. -/
  slots : ∀ b, t.Reachable b → l.slots (t.slot b) = (t.children b).map fun c => some (t.slot c)

namespace Tree

variable {t : Tree} {b p c : BranchPtr} {file : ByteFile} {l l' : Loading} {k : ℕ}

theorem Slots.slot_inj (slots : t.Slots) (indexedB : t.Indexed b) (indexedC : t.Indexed c)
    (same : t.slot b = t.slot c) : b = c :=
  slots.inj indexedB indexedC (UInt32.toNat_inj.mp same)

/-! ## The first pass -/

/-- What the first pass has built after `k` records. -/
structure Allocated (t : Tree) (l : Loading) (k : ℕ) : Prop where
  root : l.root = none
  index : ∀ key, l.index key = ((t.branchIndex key).map t.slot).filter fun i => i < k
  branch : ∀ {b}, t.Indexed b → t.slot b < k → l.mem (t.slot b) =
    { findex := (t.mem b).findex, id := (t.mem b).id, childN := (t.mem b).childN }
  slots : ∀ {b}, t.Indexed b → t.slot b < k →
    l.slots (t.slot b) = List.replicate (t.mem b).childN.toNat none

theorem Allocated.step (allocated : t.Allocated l k) (wf : t.WellFormed) (slots : t.Slots)
    (noZero : t.NoZero) (holds : t.Holds file) :
    t.Allocated (l.alloc k (Bhead.codec.get file k)) (k + 1) := by
  by_cases used : ∃ b, t.Indexed b ∧ t.slot b = k
  · rcases used with ⟨b, indexed, rfl⟩
    have head : Bhead.codec.get file (t.slot b) = t.record b := holds.record indexed
    have nonzero := noZero.id_ne_zero wf indexed
    rw [head, Loading.alloc, record_id, if_neg nonzero, record_childN]
    have earlier : ∀ {c}, t.Indexed c → t.slot c < t.slot b + 1 → c ≠ b → t.slot c < t.slot b := by
      intro c indexedC lt ne
      have apart : t.slot c ≠ t.slot b := fun same => ne (slots.slot_inj indexedC indexed same)
      omega
    refine ⟨allocated.root, ?_, ?_, ?_⟩
    · intro key
      simp only [Function.update_apply]
      by_cases same : key = (t.mem b).id
      · subst same
        simp [wf.indexed_id indexed, Option.filter_some]
      · rw [if_neg same, allocated.index]
        cases stored : t.branchIndex key with
        | none => rfl
        | some c =>
            have ne : c ≠ b := by
              rintro rfl
              exact same (wf.index_spec stored).1.symm
            have apart : t.slot c ≠ t.slot b :=
              fun same => ne (slots.slot_inj ⟨key, stored⟩ indexed same)
            simp only [Option.map_some, Option.filter_some]
            have shift : t.slot c < t.slot b ↔ t.slot c < t.slot b + 1 := by omega
            simp only [shift]
    · intro c indexedC lt
      simp only [Function.update_apply]
      by_cases same : c = b
      · subst same
        rw [if_pos rfl]
        simp [slot]
      · have lower := earlier indexedC lt same
        rw [if_neg (Nat.ne_of_lt lower)]
        exact allocated.branch indexedC lower
    · intro c indexedC lt
      simp only [Function.update_apply]
      by_cases same : c = b
      · subst same
        rw [if_pos rfl]
      · have lower := earlier indexedC lt same
        rw [if_neg (Nat.ne_of_lt lower)]
        exact allocated.slots indexedC lower
  · have unused : ∀ b, t.Indexed b → t.slot b ≠ k := fun b indexed same => used ⟨b, indexed, same⟩
    rw [holds.blank k unused, Loading.alloc, if_pos rfl]
    have earlier : ∀ {c}, t.Indexed c → t.slot c < k + 1 → t.slot c < k := by
      intro c indexed lt
      have apart := unused c indexed
      omega
    refine ⟨allocated.root, ?_, ?_, ?_⟩
    · intro key
      rw [allocated.index]
      cases stored : t.branchIndex key with
      | none => rfl
      | some c =>
          have apart := unused c ⟨key, stored⟩
          have shift : t.slot c < k ↔ t.slot c < k + 1 := by omega
          simp only [Option.map_some, Option.filter_some, shift]
    · intro c indexed lt
      exact allocated.branch indexed (earlier indexed lt)
    · intro c indexed lt
      exact allocated.slots indexed (earlier indexed lt)

theorem allocated_all (wf : t.WellFormed) (slots : t.Slots) (noZero : t.NoZero)
    (holds : t.Holds file) (k : ℕ) :
    t.Allocated ((List.range k).foldl (fun l i => l.alloc i (Bhead.codec.get file i))
      Loading.init) k := by
  induction k with
  | zero =>
      refine ⟨rfl, ?_, ?_, ?_⟩
      · intro key
        cases t.branchIndex key <;> simp [Loading.init]
      · intro b _ lt
        exact absurd lt (Nat.not_lt_zero _)
      · intro b _ lt
        exact absurd lt (Nat.not_lt_zero _)
  | succ k ih =>
      rw [List.range_succ, List.foldl_append, List.foldl_cons, List.foldl_nil]
      exact ih.step wf slots noZero holds

/-! ## The second pass -/

/-- What the second pass has built after `k` records. -/
structure Linked (t : Tree) (l : Loading) (k : ℕ) : Prop where
  root : l.root = if t.slot t.branch < k then some (t.slot t.branch) else none
  index : ∀ key, l.index key = (t.branchIndex key).map t.slot
  branch : ∀ {b}, t.Indexed b → l.mem (t.slot b) =
    { findex := (t.mem b).findex, id := (t.mem b).id, childN := (t.mem b).childN
      parent := if t.slot b < k then (t.parent b).map t.slot else none }
  slots : ∀ {b}, t.Indexed b → l.slots (t.slot b) =
    (t.children b).map fun c => if t.slot c < k then some (t.slot c) else none

theorem Allocated.linked (allocated : t.Allocated l k) (wf : t.WellFormed) (slots : t.Slots)
    (all : t.branchN.toNat ≤ k) : t.Linked l 0 := by
  have inside : ∀ {b}, t.Indexed b → t.slot b < k :=
    fun indexed => Nat.lt_of_lt_of_le (slots.lt indexed) all
  refine ⟨?_, ?_, ?_, ?_⟩
  · simp [allocated.root]
  · intro key
    rw [allocated.index]
    cases stored : t.branchIndex key with
    | none => rfl
    | some b => simp [inside ⟨key, stored⟩]
  · intro b indexed
    rw [allocated.branch indexed (inside indexed)]
    simp
  · intro b indexed
    rw [allocated.slots indexed (inside indexed), wf.childN_eq]
    simp [List.map_const']

/-- A record changes only what is said about the branch in its slot. -/
theorem Slots.shift (slots : t.Slots) (indexed : t.Indexed b) (indexedC : t.Indexed c)
    (ne : c ≠ b) : t.slot c < t.slot b ↔ t.slot c < t.slot b + 1 := by
  have apart : t.slot c ≠ t.slot b := fun same => ne (slots.slot_inj indexedC indexed same)
  omega

theorem Linked.step_unused (linked : t.Linked l k) (wf : t.WellFormed) (holds : t.Holds file)
    (unused : ∀ b, t.Indexed b → t.slot b ≠ k) :
    ∃ l', l.link k (Bhead.codec.get file k) = .ok l' ∧ t.Linked l' (k + 1) := by
  have shift : ∀ {c}, t.Indexed c → (t.slot c < k ↔ t.slot c < k + 1) := by
    intro c indexed
    have apart := unused c indexed
    omega
  refine ⟨l, ?_, ?_, linked.index, ?_, ?_⟩
  · rw [holds.blank k unused, Loading.link, if_pos rfl]
  · rw [linked.root]
    simp only [shift wf.root_indexed]
  · intro b indexed
    rw [linked.branch indexed]
    simp only [shift indexed]
  · intro b indexed
    rw [linked.slots indexed]
    apply List.map_congr_left
    intro c child
    simp only [shift (wf.indexed_of_parent (wf.mirrors.mem_iff.mp child))]

theorem Linked.step_root (linked : t.Linked l (t.slot t.branch)) (wf : t.WellFormed)
    (slots : t.Slots) (noZero : t.NoZero) (holds : t.Holds file) :
    ∃ l', l.link (t.slot t.branch) (Bhead.codec.get file (t.slot t.branch)) = .ok l' ∧
      t.Linked l' (t.slot t.branch + 1) := by
  have head : Bhead.codec.get file (t.slot t.branch) = t.record t.branch :=
    holds.record wf.root_indexed
  have nonzero := noZero.id_ne_zero wf wf.root_indexed
  have top := record_of_root wf.root_parent
  have shift := fun {c} => slots.shift (c := c) wf.root_indexed
  refine ⟨{ l with root := some (t.slot t.branch) }, ?_, ?_, linked.index, ?_, ?_⟩
  · rw [head, Loading.link, record_id, if_neg nonzero, top, if_neg (by simp)]
  · simp
  · intro b indexed
    simp only [linked.branch indexed]
    by_cases same : b = t.branch
    · subst same
      simp [wf.root_parent]
    · simp only [shift indexed same]
  · intro b indexed
    simp only [linked.slots indexed]
    apply List.map_congr_left
    intro c child
    have step := wf.mirrors.mem_iff.mp child
    have ne : c ≠ t.branch := wf.ne_root step
    simp only [shift (wf.indexed_of_parent step) ne]

theorem map_set_idxOf {β : Type} {list : List BranchPtr} (nodup : list.Nodup) (member : b ∈ list)
    (f : BranchPtr → β) (v : β) :
    (list.map f).set (list.idxOf b) v = list.map fun c => if c = b then v else f c := by
  apply List.ext_getElem?
  intro j
  rw [List.getElem?_set, List.getElem?_map, List.getElem?_map]
  by_cases here : list.idxOf b = j
  · subst here
    have inside := List.idxOf_lt_length_of_mem member
    simp [inside]
  · rw [if_neg here]
    cases found : list[j]? with
    | none => rfl
    | some c =>
        have ne : c ≠ b := by
          rintro rfl
          exact here (idxOf_of_getElem? nodup found)
        simp [ne]

theorem Linked.step_child (linked : t.Linked l (t.slot b)) (wf : t.WellFormed) (rooted : t.Rooted)
    (slots : t.Slots) (noZero : t.NoZero) (holds : t.Holds file) (step : t.parent b = some p) :
    ∃ l', l.link (t.slot b) (Bhead.codec.get file (t.slot b)) = .ok l' ∧
      t.Linked l' (t.slot b + 1) := by
  have indexed := wf.indexed_of_parent step
  have indexedP := rooted.parent_indexed wf step
  have listed : b ∈ t.children p := wf.mirrors.mem_iff.mpr step
  have head : Bhead.codec.get file (t.slot b) = t.record b := holds.record indexed
  have nonzero := noZero.id_ne_zero wf indexed
  have fields := wf.record_of_parent step
  have known : l.index (t.mem p).id = some (t.slot p) := by
    rw [linked.index, wf.indexed_id indexedP]
    rfl
  have inside : (t.children p).idxOf b < (l.slots (t.slot p)).length := by
    rw [linked.slots indexedP, List.length_map]
    exact List.idxOf_lt_length_of_mem listed
  have shift := fun {c} => slots.shift (c := c) indexed
  refine ⟨{ l with
    mem := Function.update l.mem (t.slot b) { l.mem (t.slot b) with parent := some (t.slot p) }
    slots := Function.update l.slots (t.slot p)
      ((l.slots (t.slot p)).set ((t.children p).idxOf b) (some (t.slot b))) },
    ?_, ?_, linked.index, ?_, ?_⟩
  · simp only [head, Loading.link, record_id, nonzero, if_false, fields.1, fields.2,
      noZero.id_ne_zero wf indexedP, ne_eq, not_false_eq_true, if_true, known, inside]
  · have ne : t.branch ≠ b := (wf.ne_root step).symm
    simp only [linked.root, shift wf.root_indexed ne]
  · intro c indexedC
    simp only [Function.update_apply]
    by_cases same : c = b
    · subst same
      rw [if_pos rfl, linked.branch indexed]
      simp [step]
    · have apart : t.slot c ≠ t.slot b := fun sameSlot =>
        same (slots.slot_inj indexedC indexed sameSlot)
      rw [if_neg apart, linked.branch indexedC]
      simp only [shift indexedC same]
  · intro c indexedC
    simp only [Function.update_apply]
    by_cases same : c = p
    · subst same
      rw [if_pos rfl, linked.slots indexedP, map_set_idxOf (wf.mirrors.nodup c) listed]
      apply List.map_congr_left
      intro d child
      by_cases sameD : d = b
      · subst sameD
        simp
      · rw [if_neg sameD]
        simp only [shift (wf.indexed_of_parent (wf.mirrors.mem_iff.mp child)) sameD]
    · have apart : t.slot c ≠ t.slot p := fun sameSlot =>
        same (slots.slot_inj indexedC indexedP sameSlot)
      rw [if_neg apart, linked.slots indexedC]
      apply List.map_congr_left
      intro d child
      have stepD := wf.mirrors.mem_iff.mp child
      have ne : d ≠ b := by
        rintro rfl
        rw [step] at stepD
        exact same (Option.some.inj stepD).symm
      simp only [shift (wf.indexed_of_parent stepD) ne]

theorem Linked.step (linked : t.Linked l k) (wf : t.WellFormed) (rooted : t.Rooted)
    (slots : t.Slots) (noZero : t.NoZero) (holds : t.Holds file) :
    ∃ l', l.link k (Bhead.codec.get file k) = .ok l' ∧ t.Linked l' (k + 1) := by
  by_cases used : ∃ b, t.Indexed b ∧ t.slot b = k
  · rcases used with ⟨b, indexed, rfl⟩
    cases step : t.parent b with
    | none =>
        have top := rooted.oneRoot b indexed step
        subst top
        exact linked.step_root wf slots noZero holds
    | some p => exact linked.step_child wf rooted slots noZero holds step
  · apply linked.step_unused wf holds
    intro b indexed same
    exact used ⟨b, indexed, same⟩

theorem linked_all (linked : t.Linked l 0) (wf : t.WellFormed) (rooted : t.Rooted)
    (slots : t.Slots) (noZero : t.NoZero) (holds : t.Holds file) (k : ℕ) :
    ∃ l', (List.range k).foldlM (fun l i => l.link i (Bhead.codec.get file i)) l = .ok l' ∧
      t.Linked l' k := by
  induction k with
  | zero => exact ⟨l, rfl, linked⟩
  | succ k ih =>
      rcases ih with ⟨middle, before, linkedK⟩
      rcases linkedK.step wf rooted slots noZero holds with ⟨l', last, after⟩
      refine ⟨l', ?_, after⟩
      rw [List.range_succ, List.foldlM_append, before, ok_bind, List.foldlM_cons, last, ok_bind]
      rfl

theorem Linked.rebuilds (linked : t.Linked l k) (wf : t.WellFormed) (slots : t.Slots)
    (all : t.branchN.toNat ≤ k) : l.Rebuilds t := by
  have inside : ∀ {b}, t.Indexed b → t.slot b < k :=
    fun indexed => Nat.lt_of_lt_of_le (slots.lt indexed) all
  refine ⟨?_, linked.index, ?_, ?_⟩
  · rw [linked.root, if_pos (inside wf.root_indexed)]
  · intro b reachable
    have indexed := wf.indexed_of_anc (wf.reachable_iff.mp reachable)
    rw [linked.branch indexed, if_pos (inside indexed)]
    exact ⟨rfl, rfl, rfl, rfl⟩
  · intro b reachable
    rw [linked.slots (wf.indexed_of_anc (wf.reachable_iff.mp reachable))]
    apply List.map_congr_left
    intro c child
    rw [if_pos (inside (wf.indexed_of_parent (wf.mirrors.mem_iff.mp child)))]

/-- Both passes run to their end over the image of a tree without zero ids. -/
theorem Holds.ioLoadMap (holds : t.Holds file) (wf : t.WellFormed) (rooted : t.Rooted)
    (slots : t.Slots) (noZero : t.NoZero) :
    ∃ l, ioLoadMap file = .ok l ∧ t.Linked l t.branchN.toNat := by
  have fits := slots.fits
  have records : (UInt32.ofNat file.size).toNat / 20 = t.branchN.toNat := by
    rw [holds.size, UInt32.toNat_ofNat']
    omega
  have allocated := allocated_all wf slots noZero holds t.branchN.toNat
  have start := allocated.linked wf slots (Nat.le_refl _)
  rcases linked_all start wf rooted slots noZero holds t.branchN.toNat with ⟨l, loaded, linked⟩
  refine ⟨l, ?_, linked⟩
  rw [Treedb.ioLoadMap, records]
  exact loaded

/-- Loading the image of a tree without zero ids gives the tree back. -/
theorem InStep.ioLoadMap (inStep : t.InStep) (wf : t.WellFormed) (noZero : t.NoZero) :
    ∃ l, ioLoadMap t.bhead = .ok l ∧ l.Rebuilds t := by
  rcases inStep.holds.ioLoadMap wf inStep.rooted inStep.slots noZero with ⟨l, loaded, linked⟩
  exact ⟨l, loaded, linked.rebuilds wf inStep.slots (Nat.le_refl _)⟩

end Tree

/-! ## Runs -/

/-- The file keeps in step with the tree if each delete leaves nothing behind and no id is zero. -/
theorem run_inStep {id : UInt32} {calls : List Call} {m' : Map}
    (safe : (mapCreateEmpty id).Along (fun m call => call.DeletesFew m.tree ∧ call.AvoidsZero m.tree)
      calls)
    (run : (mapCreateEmpty id).run calls = .ok m') (fits : m'.tree.next * 20 < 2 ^ 32) :
    m'.tree.WellFormed ∧ m'.tree.InStep ∧ m'.tree.NoZero := by
  have start := mapCreateEmpty_holdsOnlyRoot id
  have edited : Edits (Edit.Tame True True) (mapCreateEmpty id).tree m'.tree := by
    apply run_edits True True start.wellFormed _ safe run
    rintro m call ⟨few, named⟩
    exact ⟨fun _ => few, fun _ => named⟩
  have noZero : m'.tree.NoZero := by
    apply edited.invariant _ (mapCreateEmpty_noZero id)
    intro t e noZero _ tame
    exact noZero.apply tame
  have tame : Edits (Edit.Tame True False) (mapCreateEmpty id).tree m'.tree := by
    apply edited.mono
    intro t e tame
    exact tame.mono (fun asked => asked) False.elim
  exact ⟨edited.wellFormed start.wellFormed, (edits_inStep tame fits).1, noZero⟩

/--
After a run on a new map in which only branches with at most one child are deleted and no branch is
inserted under the id 0, the file can be loaded and gives the same tree.
-/
theorem run_restarts (id : UInt32) (calls : List Call) (edits : ∀ call ∈ calls, call.EditsTree)
    (room : (mapCreateEmpty id).NeverFull calls)
    (safe : (mapCreateEmpty id).Along (fun m call => call.DeletesFew m.tree ∧ call.AvoidsZero m.tree)
      calls) :
    ∃ m', (mapCreateEmpty id).run calls = .ok m' ∧
      (m'.tree.next * 20 < 2 ^ 32 → ∃ l, ioLoadMap m'.tree.bhead = .ok l ∧ l.Rebuilds m'.tree) := by
  have start := mapCreateEmpty_holdsOnlyRoot id
  rcases run_ends start.wellFormed start.views edits room with ⟨m', run⟩
  refine ⟨m', run, fun fits => ?_⟩
  rcases run_inStep safe run fits with ⟨wf, inStep, noZero⟩
  exact inStep.ioLoadMap wf noZero

/-- A branch with one child is deleted; the child survives a restart. -/
theorem run_restarts_example :
    ∃ m', (mapCreateEmpty 1).run
        [.insert 0 1 2 0 [] 0 0, .insert 0 2 3 0 [] 0 0, .delete 0 2] = .ok m' ∧
      (m'.tree.next * 20 < 2 ^ 32 → ∃ l, ioLoadMap m'.tree.bhead = .ok l ∧ l.Rebuilds m'.tree) := by
  apply run_restarts 1
  · simp [Call.EditsTree]
  · apply neverFull_of_ends
    decide +kernel
  · decide +kernel

/-- After the delete of a branch with two children the load stops at the child left behind. -/
theorem delete_breaks_restart :
    ¬∀ m', (mapCreateEmpty 1).run
        [.insert 0 1 2 0 [] 0 0, .insert 0 2 3 0 [] 0 0, .insert 0 2 4 1 [] 0 0, .delete 0 2] =
          .ok m' →
        ∃ l, ioLoadMap m'.tree.bhead = .ok l ∧ l.Rebuilds m'.tree := by
  intro claim
  have observed : ((mapCreateEmpty 1).run
      [.insert 0 1 2 0 [] 0 0, .insert 0 2 3 0 [] 0 0, .insert 0 2 4 1 [] 0 0,
        .delete 0 2]).toOption.map (fun m => (ioLoadMap m.tree.bhead).toBool) = some false := by
    decide +kernel
  cases run : (mapCreateEmpty 1).run
      [.insert 0 1 2 0 [] 0 0, .insert 0 2 3 0 [] 0 0, .insert 0 2 4 1 [] 0 0, .delete 0 2] with
  | error e => simp [run, Except.toOption] at observed
  | ok m' =>
      rcases claim m' run with ⟨l, loaded, _⟩
      simp [run, Except.toOption, loaded, Except.toBool] at observed

end Treedb
