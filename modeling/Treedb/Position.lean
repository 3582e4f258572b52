import Treedb.Request
import Treedb.FaithfulMoves
import Treedb.MovingOrder

/-!
# Positions at the end

A position beyond the end of a child list stands for the end: `branch_add` clamps it. Two things come
before the clamp. A `branchPos` of a request is cut to 16 bits, so that a negative or a large number
can turn into any place of the list. And `delete` and `move_to_path` write 9999 for "at the end",
while a list may hold 65534 children. Where the number that arrives at `branch_add` is smaller than
the list is long, the branch goes there and not to the end.
-/

namespace Treedb

open Forest Overlay Outcome Treedb.Tree

/-! ## The end of a list -/

section Lists

variable {α : Type*} {l : List α} {x : α} {i : ℕ}

theorem getLast?_insertIdx_iff (inside : i ≤ l.length) (fresh : x ∉ l) :
    (l.insertIdx i x).getLast? = some x ↔ i = l.length := by
  constructor
  · intro last
    by_contra short
    have shorter : i < l.length := by omega
    rw [List.getLast?_eq_getElem?, List.length_insertIdx_of_le_length inside,
      List.getElem?_insertIdx_of_gt (by omega)] at last
    exact fresh (List.mem_of_getElem? last)
  · rintro rfl
    rw [List.insertIdx_length_self, List.getLast?_concat]

/-- Every new entry goes to the place `bound`, or to the end of a list that is not so long. -/
def placeAll (bound : ℕ) (l : List α) (xs : List α) : List α :=
  xs.foldl (fun l x => l.insertIdx (min bound l.length) x) l

theorem length_placeAll (bound : ℕ) (l xs : List α) :
    (placeAll bound l xs).length = l.length + xs.length := by
  induction xs generalizing l with
  | nil => rfl
  | cons x xs ih =>
      have longer := List.length_insertIdx_of_le_length (a := x) (min_le_right bound l.length)
      rw [placeAll, List.foldl_cons]
      change (placeAll bound _ xs).length = _
      rw [ih, longer, List.length_cons]
      omega

theorem mem_placeAll {bound : ℕ} {xs : List α} :
    x ∈ placeAll bound l xs ↔ x ∈ l ∨ x ∈ xs := by
  induction xs generalizing l with
  | nil => simp [placeAll]
  | cons y xs ih =>
      rw [placeAll, List.foldl_cons]
      change x ∈ placeAll bound _ xs ↔ _
      rw [ih, List.mem_insertIdx (min_le_right bound l.length), List.mem_cons]
      tauto

/-- All entries end up behind the list if and only if it never gets longer than `bound` before the last. -/
theorem placeAll_eq_append_iff {bound : ℕ} {xs : List α} (nodup : (l ++ xs).Nodup) :
    placeAll bound l xs = l ++ xs ↔ xs = [] ∨ l.length + xs.length ≤ bound + 1 := by
  induction xs using List.reverseRecOn with
  | nil => simp [placeAll]
  | append_singleton xs x ih =>
      rw [← List.append_assoc, List.nodup_append] at nodup
      have fresh : x ∉ placeAll bound l xs := by
        rw [mem_placeAll, ← List.mem_append]
        intro old
        exact nodup.2.2 x old x (by simp) rfl
      have step : placeAll bound l (xs ++ [x]) =
          (placeAll bound l xs).insertIdx (min bound (placeAll bound l xs).length) x := by
        simp [placeAll]
      have length := length_placeAll bound l xs
      have last := getLast?_insertIdx_iff (min_le_right bound (placeAll bound l xs).length) fresh
      rw [step, List.length_append, List.length_singleton]
      constructor
      · intro same
        right
        rw [same, ← List.append_assoc, List.getLast?_concat] at last
        have bounded := last.mp rfl
        omega
      · rintro (nothing | short)
        · simp at nothing
        · have before := (ih nodup.1).mpr (.inr (by omega))
          rw [before] at length ⊢
          rw [min_eq_right (by omega), List.insertIdx_length_self, List.append_assoc]

/-- The entries at the places 0, 2, 4 and so on. -/
def everyOther : List α → List α
  | [] => []
  | [x] => [x]
  | x :: _ :: l => x :: everyOther l

theorem everyOther_sublist (l : List α) : (everyOther l).Sublist l := by
  induction l using everyOther.induct with
  | case1 => exact .slnil
  | case2 x => exact .refl _
  | case3 x y l ih => exact (ih.cons y).cons_cons x

theorem length_everyOther (l : List α) : (everyOther l).length = (l.length + 1) / 2 := by
  induction l using everyOther.induct with
  | case1 => simp [everyOther]
  | case2 x => simp [everyOther]
  | case3 x y l ih =>
      simp only [everyOther, List.length_cons, ih]
      omega

theorem everyOther_drop (inside : i < l.length) :
    everyOther (l.drop i) = l[i] :: everyOther (l.drop (i + 2)) := by
  rw [List.drop_eq_getElem_cons inside]
  rcases rest : l.drop (i + 1) with _ | ⟨y, more⟩
  · have short := List.drop_eq_nil_iff.mp rest
    rw [List.drop_eq_nil_of_le (by omega)]
    rfl
  · have tail : l.drop (i + 2) = more := by
      rw [← List.drop_drop (i := 1) (j := i + 1), rest]
      rfl
    rw [tail]
    rfl

theorem drop_eraseIdx (inside : i < l.length) : (l.eraseIdx i).drop (i + 1) = l.drop (i + 2) := by
  have front : (l.take i).length = i := List.length_take_of_le inside.le
  rw [List.eraseIdx_eq_take_drop_succ, List.drop_append, front,
    List.drop_eq_nil_of_le (by omega), List.drop_drop, List.nil_append]
  congr 1
  omega

end Lists

/-! ## The positions that reach `branch_add` -/

/-- What is left of an integer in 16 bits. -/
def lowWord (n : ℤ) : ℕ :=
  (n % 2 ^ 16).toNat

theorem toNat_ofInt (n : ℤ) : (UInt16.ofInt n).toNat = lowWord n := by
  have nonneg : 0 ≤ n % 2 ^ 16 := Int.emod_nonneg n (by decide)
  have bound : n % 2 ^ 16 < 2 ^ 16 := Int.emod_lt_of_pos n (by decide)
  rw [UInt16.ofInt, UInt16.toNat_ofNat', lowWord]
  omega

/-- A 16-bit position passes the `uint32_t` and the `int` of an insert unchanged. -/
theorem toInt32_toInt (pos : UInt16) : (pos.toUInt32).toInt32.toInt = pos.toNat := by
  have bound := pos.toNat_lt
  have small : 2 * pos.toUInt32.toBitVec.toNat < 2 ^ 32 := by
    rw [UInt32.toNat_toBitVec, UInt16.toNat_toUInt32]
    omega
  change pos.toUInt32.toBitVec.toInt = _
  rw [BitVec.toInt_eq_toNat_of_lt small, UInt32.toNat_toBitVec, UInt16.toNat_toUInt32]

section Ends

variable {m m' : Map} {view : Option ViewPtr} {parentId branchId newParentId oldParentId : UInt64}
  {text : CString} {mark doc : UInt64} {names : List CString} {pb b opb npb p e : BranchPtr}
  {r : Option BranchPtr} {accepted : Bool}

theorem insertPos_eq_length_iff (k n : ℕ) : insertPos k n = n ↔ n ≤ k := by
  rw [insertPos_nat]
  omega

/-- An insert puts the branch at the end if the position is not smaller than the list is long. -/
theorem insert_last_iff {pos : UInt16} (wf : m.tree.WellFormed)
    (known : m.tree.branchIndex parentId = some pb)
    (run : insert m view parentId branchId pos.toUInt32 text mark doc = .ok (m', some b)) :
    (m'.tree.children pb).getLast? = some b ↔ (m.tree.children pb).length ≤ pos.toNat := by
  rcases insert_cases wf run with ⟨_, no, _⟩ | ⟨pb', found, _, allowed, after, new⟩
  · simp at no
  · rw [known, Option.some.injEq] at found
    subst found
    rw [Option.some.injEq] at new
    subst new
    rw [toInt32_toInt] at allowed after
    have fresh : m.tree.next ∉ m.tree.children pb := by
      intro listed
      exact (wf.parent_lt (wf.mirrors.mem_iff.mp listed)).1.ne rfl
    rw [after, wf.grow_apply_children allowed, if_pos rfl,
      getLast?_insertIdx_iff (insertPos_le _ _) fresh, insertPos_eq_length_iff]

/-- A move puts the branch at the end if the position is not smaller than the rest of the list is long. -/
theorem move_last_iff {pos : UInt16} (wf : m.tree.WellFormed)
    (accept : moveCheck m.tree newParentId oldParentId branchId = .accept b opb npb)
    (run : move m view newParentId oldParentId branchId pos = .ok (m', accepted)) :
    (m'.tree.children npb).getLast? = some b ↔
      ((m.tree.children npb).erase b).length ≤ pos.toNat := by
  rcases (moveCheck_accept wf).mp accept with ⟨_, step, _, _, apart⟩
  have edited : m.tree.Moved _ b opb npb pos := moved_rehome wf step apart
  have fresh := (wf.mirrors.nodup npb).not_mem_erase (a := b)
  rw [(move_of_accept wf accept run).2.1, edited.target,
    getLast?_insertIdx_iff (min_le_right _ _) fresh]
  omega

/-- The loop of `delete` moves every other child of the branch to the place 9999 below the root. -/
theorem deleteChildren_root (fuel i : ℕ) (wf : m.tree.WellFormed)
    (parentB : m.tree.parent b = some p) (enough : (m.tree.children b).length ≤ i + fuel)
    (run : deleteChildren b fuel i m = .ok m') :
    m'.tree.children m.tree.branch = placeAll 9999 (m.tree.children m.tree.branch)
      (everyOther ((m.tree.children b).drop i)) := by
  induction fuel generalizing m i with
  | zero =>
      rw [← Except.ok.inj run, List.drop_eq_nil_of_le (by omega)]
      rfl
  | succ fuel ih =>
      have count := wf.childN_eq b
      unfold deleteChildren at run
      by_cases more : i < (m.tree.children b).length
      · have found : (m.tree.mem b).childList[i]? = some ((m.tree.children b)[i]) :=
          List.getElem?_eq_getElem more
        have step : m.tree.parent (m.tree.children b)[i] = some b :=
          wf.mirrors.mem_iff.mp (List.getElem_mem more)
        simp only [count, more, if_true, found,
          show (m.tree.mem (m.tree.children b)[i]).parent = some b from step] at run
        rcases bind_eq_ok.mp run with ⟨⟨m₁, accepted⟩, moved, rest⟩
        rcases deleteChildren_step False False wf parentB step moved with ⟨edits, parents, fewer⟩
        have root := deleteChildren_step_root wf parentB step moved
        have parentB₁ : m₁.tree.parent b = some p := by
          rw [parents, if_neg (wf.acyclic.parent_ne step)]
          exact parentB
        have shorter : m₁.tree.children b = (m.tree.children b).eraseIdx i := by
          rw [fewer, (wf.mirrors.nodup b).erase_getElem]
        have length : (m₁.tree.children b).length ≤ (i + 1) + fuel := by
          rw [shorter, List.length_eraseIdx_of_lt more]
          omega
        have rest' := ih (i + 1) (edits.wellFormed wf) parentB₁ length rest
        rw [edits.branch_eq, root, shorter, drop_eraseIdx more] at rest'
        rw [rest', everyOther_drop more]
        rfl
      · simp only [count, more, if_false] at run
        rw [← Except.ok.inj run, List.drop_eq_nil_of_le (by omega)]
        rfl

/-- The children that `delete` re-homes end up behind those of the root. -/
theorem deleteChildren_append_iff (wf : m.tree.WellFormed) (parentB : m.tree.parent b = some p)
    (run : deleteChildren b (2 ^ 16) 0 m = .ok m') :
    m'.tree.children m.tree.branch =
        m.tree.children m.tree.branch ++ everyOther (m.tree.children b) ↔
      m.tree.children b = [] ∨
        (m.tree.children m.tree.branch).length + ((m.tree.children b).length + 1) / 2 ≤ 10000 := by
  have short := wf.children_length_le b
  have placed := deleteChildren_root (2 ^ 16) 0 wf parentB (by omega) run
  have nodup : (m.tree.children m.tree.branch ++ everyOther (m.tree.children b)).Nodup := by
    refine (wf.mirrors.nodup _).append ((wf.mirrors.nodup b).sublist (everyOther_sublist _)) ?_
    intro c below moved
    have atRoot := wf.mirrors.mem_iff.mp below
    rw [wf.mirrors.mem_iff.mp ((everyOther_sublist _).subset moved), Option.some.injEq] at atRoot
    rw [atRoot, wf.root_parent] at parentB
    simp at parentB
  have none_iff : everyOther (m.tree.children b) = [] ↔ m.tree.children b = [] := by
    rw [← List.length_eq_zero_iff, ← List.length_eq_zero_iff, length_everyOther]
    omega
  rw [placed, List.drop_zero, placeAll_eq_append_iff nodup, length_everyOther, none_iff]

end Ends

/-! ## Requests -/

section Requests

variable {viewId : UInt32} {data : Json} {n : ℤ} {call : Call}

theorem jsonGetInt16_integer (given : jsonObjectGet data (cstr "branchPos") = some (.integer n)) :
    jsonGetInt16 data (cstr "branchPos") = some (UInt16.ofInt n) := by
  rw [jsonGetInt16, given]

/-- A mapInsert carries the low word of its position. -/
theorem readInsert_pos (given : jsonObjectGet data (cstr "branchPos") = some (.integer n))
    (read : readInsert viewId data = some call) :
    ∃ parentId branchId text doc,
      call = .insert viewId parentId branchId (UInt16.ofInt n).toUInt32 text 1 doc := by
  simp only [readInsert, jsonGetInt16_integer given, Option.bind_eq_bind, Option.bind_some,
    Option.bind_eq_some_iff] at read
  rcases read with ⟨parentId, _, branchId, _, text, _, doc, _, same⟩
  exact ⟨parentId, branchId, text, doc, (Option.some.inj same).symm⟩

/-- A mapMove carries the low word of its position. -/
theorem readMove_pos (given : jsonObjectGet data (cstr "branchPos") = some (.integer n))
    (read : readMove viewId data = some call) :
    ∃ newParentId oldParentId branchId,
      call = .move viewId newParentId oldParentId branchId (UInt16.ofInt n) := by
  simp only [readMove, jsonGetInt16_integer given, Option.bind_eq_bind, Option.bind_some,
    Option.bind_eq_some_iff] at read
  rcases read with ⟨newParentId, _, oldParentId, _, branchId, _, same⟩
  exact ⟨newParentId, oldParentId, branchId, (Option.some.inj same).symm⟩

end Requests

/-! ## At the end -/

section Last

variable {m m' : Map} {viewId : UInt32} {view : Option ViewPtr} {data : Json} {n : ℤ} {call : Call}
  {parentId branchId : UInt64} {names : List CString} {b p e : BranchPtr} {m₁ : Map}

theorem readInsert_last_iff (wf : m.tree.WellFormed)
    (given : jsonObjectGet data (cstr "branchPos") = some (.integer n))
    (read : readInsert viewId data = some call) :
    ∃ parentId branchId text doc,
      call = .insert viewId parentId branchId (UInt16.ofInt n).toUInt32 text 1 doc ∧
      ∀ pb m', m.tree.branchIndex branchId = none → m.tree.branchIndex parentId = some pb →
        m.call call = .ok m' →
        ((m'.tree.children pb).getLast? = some m.tree.next ↔
          (m.tree.children pb).length ≤ lowWord n) := by
  rcases readInsert_pos given read with ⟨parentId, branchId, text, doc, rfl⟩
  refine ⟨parentId, branchId, text, doc, rfl, ?_⟩
  intro pb m' unused known run
  rcases map_eq_ok.mp run with ⟨⟨m₁, r⟩, inserted, rfl⟩
  rcases insert_cases wf inserted with ⟨_, _, rejects⟩ | ⟨_, _, _, _, _, rfl⟩
  · exact absurd ⟨unused, pb, known⟩ rejects
  · rw [insert_last_iff wf known inserted, toNat_ofInt]

theorem readMove_last_iff (wf : m.tree.WellFormed)
    (given : jsonObjectGet data (cstr "branchPos") = some (.integer n))
    (read : readMove viewId data = some call) :
    ∃ newParentId oldParentId branchId,
      call = .move viewId newParentId oldParentId branchId (UInt16.ofInt n) ∧
      ∀ b opb npb m', moveCheck m.tree newParentId oldParentId branchId = .accept b opb npb →
        m.call call = .ok m' →
        ((m'.tree.children npb).getLast? = some b ↔
          ((m.tree.children npb).erase b).length ≤ lowWord n) := by
  rcases readMove_pos given read with ⟨newParentId, oldParentId, branchId, rfl⟩
  refine ⟨newParentId, oldParentId, branchId, rfl, ?_⟩
  intro b opb npb m' accept run
  rcases map_eq_ok.mp run with ⟨⟨m₁, accepted⟩, moved, rfl⟩
  rw [move_last_iff wf accept moved, toNat_ofInt]

/-- The move that `move_to_path` makes once the path is there. -/
theorem moveToPath_last_iff (wf : m.tree.WellFormed)
    (path : insertPath m parentId names = .ok (m₁, some e))
    (known : m₁.tree.branchIndex branchId = some b) (above : m₁.tree.parent b = some p)
    (apart : ¬Anc m₁.tree.parent e b) (run : moveToPath m parentId names branchId = .ok m') :
    (m'.tree.children e).getLast? = some b ↔ ((m₁.tree.children e).erase b).length ≤ 9999 := by
  rcases insertPath_edits False False wf path with ⟨edits, indexed⟩
  have wf₁ := edits.wellFormed wf
  have accept : moveCheck m₁.tree (m₁.tree.mem e).id (m₁.tree.mem p).id branchId = .accept b p e :=
    (moveCheck_accept wf₁).mpr ⟨known, above, wf₁.indexed_id (indexed e rfl), rfl, apart⟩
  rcases moveToPath_stages run with
    ⟨m₂, x, path₂, ⟨_, nothing⟩ | ⟨e', b', p', accepted, rfl, known', above', moved⟩⟩
  · rw [path, Except.ok.injEq, Prod.mk.injEq] at path₂
    rcases path₂ with ⟨rfl, rfl⟩
    exact absurd above (nothing e b p rfl known)
  · rw [path, Except.ok.injEq, Prod.mk.injEq, Option.some.injEq] at path₂
    rcases path₂ with ⟨rfl, rfl⟩
    rw [known, Option.some.injEq] at known'
    subst known'
    rw [above, Option.some.injEq] at above'
    subst above'
    rw [move_last_iff wf₁ accept moved]
    rfl

theorem moveToPath_returns (wf : m.tree.WellFormed) (none' : m.overlay.NoViews)
    (path : insertPath m parentId names = .ok (m₁, some e))
    (known : m₁.tree.branchIndex branchId = some b) (above : m₁.tree.parent b = some p)
    (room : (m₁.tree.children e).length < 65535) :
    ∃ m', moveToPath m parentId names branchId = .ok m' := by
  rcases insertPath_edits False False wf path with ⟨edits, indexed⟩
  have wf₁ := edits.wellFormed wf
  have ends : OnlyOverflow (insertPath m parentId names) := insertPath_onlyOverflow wf none'
  rw [path] at ends
  have target : ∀ x, m₁.tree.branchIndex (m₁.tree.mem e).id = some x →
      (m₁.tree.children x).length < 65535 := by
    intro x found
    rw [wf₁.indexed_id (indexed e rfl), Option.some.injEq] at found
    exact found ▸ room
  have returned : ∃ s, move m₁ none (m₁.tree.mem e).id (m₁.tree.mem p).id branchId 9999 = .ok s ∧
      s.1.overlay.NoViews := move_returns wf₁ ends target 9999
  rcases returned with ⟨s, moved, _⟩
  refine ⟨s.1, ?_⟩
  rw [moveToPath, path, ok_bind]
  simp only [branchIndexGet, known, show (m₁.tree.mem b).parent = some p from above, moved, ok_bind,
    pure_eq_ok]

/--
When a position that stands for the end makes the branch the last child. For a request the low word
of `branchPos` counts; `delete` and `move_to_path` reach the end of a list of at most 9999 others.
Without views all these calls return, as long as the lists have room.
-/
theorem position_last_iff (wf : m.tree.WellFormed)
    (room : ∀ b, (m.tree.children b).length < 65535) :
    (∀ viewId data call n, jsonObjectGet data (cstr "branchPos") = some (.integer n) →
      readInsert viewId data = some call →
      (m.overlay.NoViews → ∃ m', m.call call = .ok m') ∧
      ∃ parentId branchId text doc,
        call = .insert viewId parentId branchId (UInt16.ofInt n).toUInt32 text 1 doc ∧
        ∀ pb m', m.tree.branchIndex branchId = none → m.tree.branchIndex parentId = some pb →
          m.call call = .ok m' →
          ((m'.tree.children pb).getLast? = some m.tree.next ↔
            (m.tree.children pb).length ≤ lowWord n)) ∧
    (∀ viewId data call n, jsonObjectGet data (cstr "branchPos") = some (.integer n) →
      readMove viewId data = some call →
      (m.overlay.NoViews → ∃ m', m.call call = .ok m') ∧
      ∃ newParentId oldParentId branchId,
        call = .move viewId newParentId oldParentId branchId (UInt16.ofInt n) ∧
        ∀ b opb npb m', moveCheck m.tree newParentId oldParentId branchId = .accept b opb npb →
          m.call call = .ok m' →
          ((m'.tree.children npb).getLast? = some b ↔
            ((m.tree.children npb).erase b).length ≤ lowWord n)) ∧
    (∀ view branchId b p, m.tree.branchIndex branchId = some b → m.tree.parent b = some p →
      (m.overlay.NoViews →
        (m.tree.children m.tree.branch).length + (m.tree.children b).length ≤ 65535 →
        ∃ m', delete m view branchId = .ok m') ∧
      ∀ m', delete m view branchId = .ok m' → ∃ m₁, deleteChildren b (2 ^ 16) 0 m = .ok m₁ ∧
        m'.tree = (Edit.forget b p).apply m₁.tree ∧
        (m₁.tree.children m.tree.branch =
            m.tree.children m.tree.branch ++ everyOther (m.tree.children b) ↔
          m.tree.children b = [] ∨ (m.tree.children m.tree.branch).length +
            ((m.tree.children b).length + 1) / 2 ≤ 10000)) ∧
    ∀ parentId names branchId m₁ e b p, insertPath m parentId names = .ok (m₁, some e) →
      m₁.tree.branchIndex branchId = some b → m₁.tree.parent b = some p →
      ¬Anc m₁.tree.parent e b →
      (m.overlay.NoViews → (m₁.tree.children e).length < 65535 →
        ∃ m', moveToPath m parentId names branchId = .ok m') ∧
      ∀ m', moveToPath m parentId names branchId = .ok m' →
        ((m'.tree.children e).getLast? = some b ↔ ((m₁.tree.children e).erase b).length ≤ 9999) := by
  refine ⟨?_, ?_, ?_, ?_⟩
  · intro viewId data call n given read
    refine ⟨?_, readInsert_last_iff wf given read⟩
    rcases readInsert_pos given read with ⟨parentId, branchId, text, doc, rfl⟩
    exact fun none' => call_returns wf none' room trivial trivial
  · intro viewId data call n given read
    refine ⟨?_, readMove_last_iff wf given read⟩
    rcases readMove_pos given read with ⟨newParentId, oldParentId, branchId, rfl⟩
    exact fun none' => call_returns wf none' room trivial trivial
  · intro view branchId b p found parentB
    refine ⟨?_, ?_⟩
    · intro none' space
      rcases deleteChildren_returns wf none' parentB space with ⟨m₁, emptied⟩
      exact delete_of_emptied wf found parentB emptied view
    · intro m' run
      rcases delete_of_found False False wf found parentB run with ⟨m₁, emptied, _, _, after⟩
      exact ⟨m₁, emptied, after, deleteChildren_append_iff wf parentB emptied⟩
  · intro parentId names branchId m₁ e b p path known above apart
    refine ⟨?_, fun m' run => moveToPath_last_iff wf path known above apart run⟩
    intro none' space
    exact moveToPath_returns wf none' path known above space

end Last

/-- The data of a mapInsert that asks for a branch 3 below the root. -/
def insertData (n : ℤ) : Json :=
  .object [(cstr "parentBranchId", .string (cstr "0000000000000001")),
    (cstr "branchId", .string (cstr "0000000000000003")), (cstr "branchPos", .integer n),
    (cstr "branchText", .string []), (cstr "branchDocumentId", .integer 0)]

theorem insertData_pos (n : ℤ) :
    jsonObjectGet (insertData n) (cstr "branchPos") = some (.integer n) :=
  rfl

theorem readInsert_insertData (n : ℤ) : readInsert 0 (insertData n) =
    some (.insert 0 1 3 (UInt16.ofInt n).toUInt32 [] 1 0) :=
  rfl

/-- The position -1 is 65535 in 16 bits, which is the end of every list. -/
theorem position_last_iff_example :
    ∃ m m', (mapCreateEmpty 1).run [.insert 0 1 2 0 [] 0 0] = .ok m ∧
      (m.tree.children 0).length ≤ lowWord (-1) ∧
      m.call (.insert 0 1 3 (UInt16.ofInt (-1)).toUInt32 [] 1 0) = .ok m' ∧
      (m'.tree.children 0).getLast? = some m.tree.next := by
  have start := mapCreateEmpty_holdsOnlyRoot 1
  have observed : ((mapCreateEmpty 1).run [.insert 0 1 2 0 [] 0 0]).toOption.map (fun m =>
      (m.tree.branchIndex 3, m.tree.branchIndex 1, m.tree.children 0, m.tree.children 1,
        m.tree.next)) = some (none, some 0, [1], [], 2) := by
    decide +kernel
  rcases run : (mapCreateEmpty 1).run [.insert 0 1 2 0 [] 0 0] with fault | m
  · simp [run, Except.toOption] at observed
  · simp only [run, Except.toOption, Option.map_some, Option.some.injEq, Prod.mk.injEq] at observed
    rcases observed with ⟨unused, known, one, zero, next⟩
    have wf := run_wellFormed start.wellFormed run
    have views := run_noViews start.wellFormed start.views (by simp [Call.EditsTree]) run
    have room := wf.children_length_lt (by omega)
    rcases (position_last_iff wf room).1 0 (insertData (-1)) _ (-1) (insertData_pos (-1))
      (readInsert_insertData (-1)) with ⟨returns, _, _, _, _, same, last⟩
    rcases returns views with ⟨m', inserted⟩
    simp only [Call.insert.injEq] at same
    rcases same with ⟨_, rfl, rfl, _, rfl, _, rfl⟩
    have short : (m.tree.children 0).length ≤ lowWord (-1) := by
      rw [one]
      decide
    exact ⟨m, m', rfl, short, inserted, (last 0 m' unused known inserted).mpr short⟩

/-- The position 65536 is 0 in 16 bits: the branch goes before the only child of the root. -/
theorem position_wraps :
    ¬∀ (calls : List Call) (m m' : Map) (viewId : UInt32) (data : Json) (n : ℤ)
      (parentId branchId : UInt64) (pos : UInt32) (text : CString) (mark doc : UInt64)
      (pb : BranchPtr), (mapCreateEmpty 1).run calls = .ok m →
      jsonObjectGet data (cstr "branchPos") = some (.integer n) →
      readInsert viewId data = some (.insert viewId parentId branchId pos text mark doc) →
      m.tree.branchIndex branchId = none → m.tree.branchIndex parentId = some pb →
      n < 0 ∨ n > (m.tree.children pb).length →
      m.call (.insert viewId parentId branchId pos text mark doc) = .ok m' →
      (m'.tree.children pb).getLast? = some m.tree.next := by
  intro appends
  have before : ((mapCreateEmpty 1).run [.insert 0 1 2 0 [] 0 0]).toOption.map (fun m =>
      (m.tree.branchIndex 3, m.tree.branchIndex 1, m.tree.children 0, m.tree.next)) =
        some (none, some 0, [1], 2) := by
    decide +kernel
  have after : ((mapCreateEmpty 1).run [.insert 0 1 2 0 [] 0 0] >>=
      fun m => m.call (.insert 0 1 3 (UInt16.ofInt 65536).toUInt32 [] 1 0)).toOption.map
        (fun m => m.tree.children 0) = some [2, 1] := by
    decide +kernel
  rcases observed_bind after with ⟨m, m', run, inserted, lists⟩
  simp only [run, Except.toOption, Option.map_some, Option.some.injEq, Prod.mk.injEq] at before
  rcases before with ⟨unused, known, one, next⟩
  have last := appends _ m m' 0 (insertData 65536) 65536 1 3 _ [] 1 0 0 run (insertData_pos 65536)
    (readInsert_insertData 65536) unused known (.inr (by rw [one]; decide)) inserted
  rw [lists, next] at last
  exact absurd last (by decide)

end Treedb
