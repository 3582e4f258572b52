import Treedb.Forest.Basic
import Treedb.Helpers
import Treedb.RecordFile

/-!
# Branches (`branch.h`, `branch.c`)

The memory of a map is a table of branches, indexed by address. Addresses are handed
out in order and never reused, so the branches ever allocated, deleted ones included, are
those below `next`. A null pointer is `none`.

`branch_t` and its `data_t` are one record: every branch of a running map owns its data.
The list of vbranches in `data_t` belongs to the views and is kept with them. The index of
branches is a red-black tree keyed by id, used only through `rb_find`, `rb_replace` and
`rb_delete`; it is the finite map these operations maintain.

Two loops can go wrong. The copy loop of `branch_add` counts with 16 bits and runs past its
array if the parent already has 65535 children. The model stops there with a fault. A loop
that climbs parent pointers is given the number of allocated branches as fuel; that this is
always enough is part of what is proved about reachable maps.
-/

namespace Treedb

open RecordFile

/-- The address of a branch. -/
abbrev BranchPtr := ℕ

/-- Ways in which the C code leaves the domain where it has a meaning. -/
inductive Fault
  /-- The child-array copy loop does not end. -/
  | childOverflow
  /-- A null pointer is followed. -/
  | nullDeref
  deriving DecidableEq, Repr

/-- `branch_t` with its `data_t`. -/
@[ext]
structure Branch where
  findex : UInt32 := 0
  id : UInt64 := 0
  parent : Option BranchPtr := none
  childList : List BranchPtr := []
  childN : UInt16 := 0
  text : CString := []
  noteId : UInt64 := 0
  totalBranchN : UInt32 := 0
  deriving DecidableEq, Repr

instance : Inhabited Branch :=
  ⟨{}⟩

/-- A number of an SQL statement: a literal above 2^63 - 1 is a floating-point value. -/
inductive SqlNumber
  | integer (n : ℕ)
  | real (n : ℕ)
  deriving DecidableEq, Repr

/-- One row of the SQLite table `branch`. -/
structure Row where
  noteId : SqlNumber
  text : CString
  deriving DecidableEq, Repr

/-- The part of `map_t` that holds the tree and its files. -/
@[ext]
structure Tree where
  mem : BranchPtr → Branch
  /-- The next address to hand out. -/
  next : ℕ
  /-- The root branch, `map->branch`. -/
  branch : BranchPtr
  branchIndex : UInt64 → Option BranchPtr
  branchN : UInt32
  bhead : ByteFile
  sqlite : UInt64 → Option Row

namespace Tree

/-- `b->parent`. -/
def parent (t : Tree) (b : BranchPtr) : Option BranchPtr :=
  (t.mem b).parent

/-- The array `b->child_list`. -/
def children (t : Tree) (b : BranchPtr) : List BranchPtr :=
  (t.mem b).childList

/-- Change one branch in place. -/
def modify (t : Tree) (b : BranchPtr) (f : Branch → Branch) : Tree :=
  { t with mem := Function.update t.mem b (f (t.mem b)) }

/-- The branches met by `while ((b = b->parent))`. -/
def ancestors (t : Tree) (b : BranchPtr) : List BranchPtr :=
  Forest.ancestors t.parent t.next b

/-- The branches met by `do { .. } while ((b = b->parent))`. -/
def chain (t : Tree) (b : BranchPtr) : List BranchPtr :=
  Forest.chain t.parent t.next b

end Tree

/-- `branch_index_put`: the branch is stored under its own id, in place of what was there. -/
def branchIndexPut (t : Tree) (b : BranchPtr) : Tree :=
  { t with branchIndex := Function.update t.branchIndex (t.mem b).id (some b) }

/-- `branch_index_delete`. -/
def branchIndexDelete (t : Tree) (id : UInt64) : Tree :=
  { t with branchIndex := Function.update t.branchIndex id none }

/-- `branch_index_get`. -/
def branchIndexGet (t : Tree) (id : UInt64) : Option BranchPtr :=
  t.branchIndex id

/-- `branch_increase`: `n` is added to the counters of all branches above `b`, in 32 bits. -/
def branchIncrease (t : Tree) (b : BranchPtr) (n : Int32) : Tree :=
  (t.ancestors b).foldl
    (fun t a => t.modify a fun x => { x with totalBranchN := x.totalBranchN + n.toUInt32 }) t

/--
The copy loop of `branch_add` and `vbranch_add`: `n` is the 16-bit counter, `src` the rest of
the old array and `dst` what is already written.  After 2^16 rounds the counter has taken every
value, so a loop that is still running never ends.
-/
def copyLoop {α : Type} (childN pos : ℤ) (current : α) :
    ℕ → UInt16 → List α → List α → Except Fault (List α)
  | 0, _, _, _ => .error .childOverflow
  | fuel + 1, n, src, dst =>
      if (n.toNat : ℤ) < childN + 1 then
        if (n.toNat : ℤ) ≠ pos then
          match src with
          | [] => .error .childOverflow
          | x :: src => copyLoop childN pos current fuel (n + 1) src (dst ++ [x])
        else copyLoop childN pos current fuel (n + 1) src (dst ++ [current])
      else .ok dst

/-- The child array with `current` put at `pos`, or at the end if `pos` is out of range. -/
def childsWith {α : Type} (childN : ℤ) (childList : List α) (current : α) (pos : ℤ) :
    Except Fault (List α) :=
  if childN = 0 then .ok [current]
  else
    copyLoop childN (if pos < 0 ∨ pos > childN then childN else pos) current (2 ^ 16 + 1) 0
      childList []

/-- `branch_add`: link `current` below `parent` and raise the counters above it. -/
def branchAdd (t : Tree) (current parent : BranchPtr) (pos : ℤ) : Except Fault Tree := do
  let t := t.modify current fun b => { b with parent := some parent }
  let childs ← childsWith (t.mem parent).childN.toNat (t.mem parent).childList current pos
  let t := t.modify parent fun b => { b with childList := childs, childN := b.childN + 1 }
  return branchIncrease t current ((t.mem current).totalBranchN + 1).toInt32

/-- The counters go down before the branch is unlinked, while its ancestors can be found. -/
def branchDetach (t : Tree) (b : BranchPtr) : Tree :=
  let pb := (t.mem b).parent
  let t := branchIncrease t b (-(t.mem b).totalBranchN - 1).toInt32
  match pb with
  | none => t
  | some pb =>
      let t := t.modify pb fun x =>
        { x with
          childList := (x.childList.take x.childN.toNat).filter fun c => c ≠ b
          childN := x.childN - 1 }
      t.modify b fun x => { x with parent := none }

/-- The position of a branch among its siblings, or -1; only asked of a branch with a parent. -/
def branchGetPos (t : Tree) (b : BranchPtr) : ℤ :=
  match (t.mem b).parent with
  | none => -1
  | some pb =>
      match ((t.mem pb).childList.take (t.mem pb).childN.toNat).findIdx? fun c => c = b with
      | some n => n
      | none => -1

/-- The recursion of `branch_calculate`, to the given depth. -/
def branchCalculateLoop : ℕ → Tree → BranchPtr → Tree
  | 0, t, _ => t
  | depth + 1, t, b =>
      let t := branchIncrease t b 1
      ((t.mem b).childList.take (t.mem b).childN.toNat).foldl (branchCalculateLoop depth) t

/-- `branch_calculate`: every branch from `b` down is counted at all branches above it. -/
def branchCalculate (t : Tree) (b : BranchPtr) : Tree :=
  branchCalculateLoop (t.next + 1) t b

end Treedb
