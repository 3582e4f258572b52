import Treedb.Forest.Count
import Treedb.Forest.Walk

/-!
# Shadows of a forest

A shadow is a second forest that stands for part of a first one: some nodes `a` of the first are
represented by a node `stand a` of the second, and the pointers of the second run as those of the
first do. A node whose representative hangs nowhere yet, or is the root, is a top.

A shadow is edited in small steps: a new representative is hung up as a top, tops are adopted by the
representative of their parent, a representative is loosened or dropped. While a node is a top its
parent may change.
-/

namespace Forest

universe u v

variable {α : Type u} {β : Type v} {parent parent' : α → Option α} {tops tops' : Set α}
  {stand stand' : α → Option β} {up up' : β → Option β} {down down' : β → List β}
  {a b c p r : α} {x y z : β}

/-- The representatives given by `stand` are linked as the nodes are, except above `tops`. -/
structure Shadow (parent : α → Option α) (tops : Set α) (stand : α → Option β)
    (up : β → Option β) (down : β → List β) : Prop where
  inj : ∀ {a b x}, stand a = some x → stand b = some x → a = b
  up_eq : ∀ {a x}, stand a = some x → a ∉ tops →
    ∃ p y, parent a = some p ∧ stand p = some y ∧ up x = some y
  mem_down : ∀ {a x y}, stand a = some x →
    (y ∈ down x ↔ ∃ c, parent c = some a ∧ c ∉ tops ∧ stand c = some y)
  nodup : ∀ {a x}, stand a = some x → (down x).Nodup

namespace Shadow

/-- Nothing below an absent node is present, up to tops. -/
theorem absent_child (shadow : Shadow parent tops stand up down) (absent : stand a = none)
    (step : parent c = some a) (low : c ∉ tops) : stand c = none := by
  cases present : stand c with
  | none => rfl
  | some x =>
      rcases shadow.up_eq present low with ⟨p, y, step', above, _⟩
      rw [step, Option.some.injEq] at step'
      rw [← step', absent] at above
      simp at above

/-! ## Edits -/

/-- Only the parents of present nodes other than tops count. -/
theorem congr_parent (shadow : Shadow parent tops stand up down)
    (same : ∀ a, a ∉ tops → stand a ≠ none → parent' a = parent a) :
    Shadow parent' tops stand up down where
  inj := shadow.inj
  up_eq := by
    intro a x present low
    rw [same a low (by simp [present])]
    exact shadow.up_eq present low
  mem_down := by
    intro a x y present
    rw [shadow.mem_down present]
    constructor
    · rintro ⟨c, step, low, there⟩
      exact ⟨c, by rw [same c low (by simp [there]), step], low, there⟩
    · rintro ⟨c, step, low, there⟩
      exact ⟨c, by rw [← same c low (by simp [there]), step], low, there⟩
  nodup := shadow.nodup

/-- Pointers and lists of representatives that stand for nothing do not count. -/
theorem congr_links (shadow : Shadow parent tops stand up down)
    (ups : ∀ a x, stand a = some x → up' x = up x)
    (downs : ∀ a x, stand a = some x → down' x = down x) :
    Shadow parent tops stand up' down' where
  inj := shadow.inj
  up_eq := by
    intro a x present low
    rw [ups a x present]
    exact shadow.up_eq present low
  mem_down := by
    intro a x y present
    rw [downs a x present]
    exact shadow.mem_down present
  nodup := by
    intro a x present
    rw [downs a x present]
    exact shadow.nodup present

variable [DecidableEq α] [DecidableEq β]

omit [DecidableEq β] in
/-- A new representative without children, for an absent node, becomes a top. -/
theorem hang (shadow : Shadow parent tops stand up down) (absent : stand a = none)
    (new : ∀ b, stand b ≠ some x) (leaf : down x = []) :
    Shadow parent (insert a tops) (Function.update stand a (some x)) up down where
  inj := by
    intro b c z first second
    rw [Function.update_apply] at first second
    split at first <;> split at second
    · rename_i sameB sameC
      rw [sameB, sameC]
    · exact absurd (second.trans first.symm) (new c)
    · exact absurd (first.trans second.symm) (new b)
    · exact shadow.inj first second
  up_eq := by
    intro b z present low
    rw [Set.mem_insert_iff, not_or] at low
    rw [Function.update_of_ne low.1] at present
    rcases shadow.up_eq present low.2 with ⟨p, y, step, above, link⟩
    have ne : p ≠ a := by
      rintro rfl
      simp [absent] at above
    exact ⟨p, y, step, by rw [Function.update_of_ne ne, above], link⟩
  mem_down := by
    intro b z y present
    have others : (∃ c, parent c = some b ∧ c ∉ insert a tops ∧
        Function.update stand a (some x) c = some y) ↔
        ∃ c, parent c = some b ∧ c ∉ tops ∧ c ≠ a ∧ stand c = some y := by
      apply exists_congr
      intro c
      by_cases same : c = a
      · simp [same]
      · simp [same]
    rw [others]
    by_cases same : b = a
    · subst same
      rw [Function.update_self, Option.some.injEq] at present
      rw [← present, leaf]
      simp only [List.not_mem_nil, false_iff, not_exists]
      rintro c ⟨step, low, _, there⟩
      rw [shadow.absent_child absent step low] at there
      simp at there
    · rw [Function.update_of_ne same] at present
      rw [shadow.mem_down present]
      apply exists_congr
      intro c
      constructor
      · rintro ⟨step, low, there⟩
        refine ⟨step, low, ?_, there⟩
        rintro rfl
        simp [absent] at there
      · rintro ⟨step, low, _, there⟩
        exact ⟨step, low, there⟩
  nodup := by
    intro b z present
    rw [Function.update_apply] at present
    split at present
    · rw [Option.some.injEq] at present
      rw [← present, leaf]
      exact List.nodup_nil
    · exact shadow.nodup present

omit [DecidableEq α] in
/-- A representative takes all present children of its node into its list. -/
theorem adopt (shadow : Shadow parent tops stand up down) (present : stand a = some x)
    {list : List β} (members : ∀ y, y ∈ list ↔ ∃ c, parent c = some a ∧ stand c = some y)
    (nodup : list.Nodup) (downs : ∀ y, down' y = if y = x then list else down y)
    (ups : ∀ y, up' y = if y ∈ list then some x else up y)
    (rest : ∀ b, b ∈ tops' ↔ b ∈ tops ∧ parent b ≠ some a) :
    Shadow parent tops' stand up' down' where
  inj := shadow.inj
  up_eq := by
    intro b y there low
    rw [rest, not_and_or, not_not] at low
    by_cases child : parent b = some a
    · refine ⟨a, x, child, present, ?_⟩
      rw [ups, if_pos ((members y).mpr ⟨b, child, there⟩)]
    · rcases shadow.up_eq there (low.resolve_right child) with ⟨p, z, step, above, link⟩
      refine ⟨p, z, step, above, ?_⟩
      rw [ups, if_neg, link]
      intro member
      rcases (members y).mp member with ⟨c, step', there'⟩
      rw [shadow.inj there' there] at step'
      exact child step'
  mem_down := by
    intro b z y there
    rw [downs]
    by_cases same : z = x
    · rw [if_pos same, members]
      have sameNode : b = a := shadow.inj there (same ▸ present)
      subst sameNode
      apply exists_congr
      intro c
      constructor
      · rintro ⟨step, below⟩
        exact ⟨step, by simp [rest, step], below⟩
      · rintro ⟨step, _, below⟩
        exact ⟨step, below⟩
    · rw [if_neg same, shadow.mem_down there]
      have other : b ≠ a := by
        rintro rfl
        rw [present, Option.some.injEq] at there
        exact same there.symm
      apply exists_congr
      intro c
      constructor
      · rintro ⟨step, low, below⟩
        exact ⟨step, fun top => low ((rest c).mp top).1, below⟩
      · rintro ⟨step, low, below⟩
        refine ⟨step, fun top => low ((rest c).mpr ⟨top, ?_⟩), below⟩
        rw [step, ne_eq, Option.some.injEq]
        exact other
  nodup := by
    intro b z there
    rw [downs]
    split
    · exact nodup
    · exact shadow.nodup there

omit [DecidableEq α] in
/-- A representative is taken out of the list it is in. -/
theorem loosen (shadow : Shadow parent tops stand up down) (present : stand a = some x)
    (low : a ∉ tops) (above : up x = some z)
    (downs : ∀ y, down' y = if y = z then (down y).filter fun w => w ≠ x else down y)
    (ups : ∀ y, y ≠ x → up' y = up y) : Shadow parent (insert a tops) stand up' down' := by
  rcases shadow.up_eq present low with ⟨p, z', step, aboveZ, link⟩
  rw [above, Option.some.injEq] at link
  subst link
  refine ⟨shadow.inj, ?_, ?_, ?_⟩
  · intro b y there lowB
    rw [Set.mem_insert_iff, not_or] at lowB
    have ne : y ≠ x := by
      rintro rfl
      exact lowB.1 (shadow.inj there present)
    rw [ups y ne]
    exact shadow.up_eq there lowB.2
  · intro b w y there
    have others : (∃ c, parent c = some b ∧ c ∉ insert a tops ∧ stand c = some y) ↔
        y ∈ down w ∧ y ≠ x := by
      rw [shadow.mem_down there]
      constructor
      · rintro ⟨c, stepC, lowC, below⟩
        rw [Set.mem_insert_iff, not_or] at lowC
        refine ⟨⟨c, stepC, lowC.2, below⟩, ?_⟩
        rintro rfl
        exact lowC.1 (shadow.inj below present)
      · rintro ⟨⟨c, stepC, lowC, below⟩, ne⟩
        refine ⟨c, stepC, ?_, below⟩
        rw [Set.mem_insert_iff, not_or]
        refine ⟨?_, lowC⟩
        rintro rfl
        rw [present, Option.some.injEq] at below
        exact ne below.symm
    rw [others, downs]
    by_cases same : w = z
    · simp [same]
    · rw [if_neg same]
      refine ⟨fun member => ⟨member, ?_⟩, And.left⟩
      rintro rfl
      rcases (shadow.mem_down there).mp member with ⟨c, stepC, _, below⟩
      rw [shadow.inj below present, step, Option.some.injEq] at stepC
      rw [← stepC, aboveZ, Option.some.injEq] at there
      exact same there.symm
  · intro b w there
    rw [downs]
    split
    · exact (shadow.nodup there).filter _
    · exact shadow.nodup there

omit [DecidableEq β] in
/-- A top without present children is taken away. -/
theorem drop (shadow : Shadow parent tops stand up down) (top : a ∈ tops)
    (bare : ∀ c, parent c = some a → stand c = none) (rest : ∀ b, b ≠ a → (b ∈ tops' ↔ b ∈ tops)) :
    Shadow parent tops' (Function.update stand a none) up down := by
  have present_iff : ∀ {b : α} {y : β}, Function.update stand a none b = some y ↔
      b ≠ a ∧ stand b = some y := by
    intro b y
    by_cases same : b = a
    · simp [same]
    · simp [same]
  refine ⟨?_, ?_, ?_, ?_⟩
  · intro b c y first second
    exact shadow.inj (present_iff.mp first).2 (present_iff.mp second).2
  · intro b y there low
    rcases present_iff.mp there with ⟨ne, here⟩
    rw [rest b ne] at low
    rcases shadow.up_eq here low with ⟨p, z, step, above, link⟩
    refine ⟨p, z, step, present_iff.mpr ⟨?_, above⟩, link⟩
    rintro rfl
    rw [bare b step] at here
    simp at here
  · intro b w y there
    rcases present_iff.mp there with ⟨_, there⟩
    rw [shadow.mem_down there]
    apply exists_congr
    intro c
    rw [present_iff]
    constructor
    · rintro ⟨step, low, below⟩
      have ne : c ≠ a := by
        rintro rfl
        exact low top
      exact ⟨step, by rwa [rest c ne], ne, below⟩
    · rintro ⟨step, low, ne, below⟩
      exact ⟨step, by rwa [← rest c ne], below⟩
  · intro b w there
    exact shadow.nodup (present_iff.mp there).2

omit [DecidableEq α] [DecidableEq β]

/-! ## Shadows with one top -/

section Single

variable (shadow : Shadow parent {r} stand up down)
include shadow

omit shadow in
/-- A single representative without children. -/
theorem single (only : ∀ a x, stand a = some x → a = r) (leaf : ∀ x, stand r = some x → down x = []) :
    Shadow parent {r} stand up down where
  inj := by
    intro a b x first second
    rw [only a x first, only b x second]
  up_eq := fun present low => absurd (only _ _ present) low
  mem_down := by
    intro a x y present
    rw [only a x present] at present
    rw [leaf x present]
    simp only [List.not_mem_nil, false_iff]
    rintro ⟨c, _, low, there⟩
    exact low (only c y there)
  nodup := by
    intro a x present
    rw [only a x present] at present
    rw [leaf x present]
    exact List.nodup_nil

/-- Every present node is below the top. -/
theorem anc_top (acyclic : Acyclic parent) (present : stand a = some x) : Anc parent a r := by
  induction a using acyclic.induction generalizing x with
  | step a ih =>
      by_cases top : a = r
      · rw [top]
      · rcases shadow.up_eq present top with ⟨p, y, step, above, _⟩
        exact (anc_of_parent step).trans (ih p step above)

/-- What is between a present node and the top is present. -/
theorem present_of_anc (present : stand a ≠ none) (anc : Anc parent a b)
    (below : Anc parent b r) (acyclic : Acyclic parent) : stand b ≠ none := by
  induction anc with
  | refl => exact present
  | @tail b c first step ih =>
      have strict : Anc parent b r := (anc_of_parent step).trans below
      rcases Option.ne_none_iff_exists'.mp (ih strict) with ⟨y, there⟩
      have low : b ≠ r := by
        rintro rfl
        exact acyclic.not_anc_of_strict (StrictAnc.of_anc_of_parent (anc_refl _ _) step) below
      rcases shadow.up_eq there low with ⟨p, z, step', above, _⟩
      rw [step, Option.some.injEq] at step'
      rw [step', above]
      simp

/-- The representatives are what can be reached from that of the top through the lists. -/
theorem reaches_iff (acyclic : Acyclic parent) (top : stand r = some x) :
    Relation.ReflTransGen (fun x y => y ∈ down x) x y ↔ ∃ a, stand a = some y := by
  constructor
  · intro reached
    induction reached with
    | refl => exact ⟨r, top⟩
    | tail _ member ih =>
        rcases ih with ⟨a, present⟩
        rcases (shadow.mem_down present).mp member with ⟨c, _, _, there⟩
        exact ⟨c, there⟩
  · rintro ⟨a, present⟩
    induction a using acyclic.induction generalizing y with
    | step a ih =>
        by_cases isTop : a = r
        · rw [isTop, top, Option.some.injEq] at present
          rw [present]
        · rcases shadow.up_eq present isTop with ⟨p, z, step, above, _⟩
          exact (ih p step above).tail ((shadow.mem_down above).mpr ⟨a, step, isTop, present⟩)

/-! A walk through the lists meets every representative once. -/

section Walks

open Classical in
/-- The links between representatives, with those of other nodes of their type left out. -/
noncomputable def links (stand : α → Option β) (up : β → Option β) (y : β) : Option β :=
  if ∃ a, stand a = some y then up y else none

open Classical in
/-- The lists of representatives, with those of other nodes of their type left out. -/
noncomputable def lists (stand : α → Option β) (down : β → List β) (y : β) : List β :=
  if ∃ a, stand a = some y then down y else []

omit shadow in
theorem links_of_present (present : stand a = some y) : links stand up y = up y :=
  if_pos ⟨a, present⟩

omit shadow in
theorem lists_of_present (present : stand a = some y) : lists stand down y = down y :=
  if_pos ⟨a, present⟩

theorem links_eq_some (rootless : ∀ x, stand r = some x → up x = none) :
    links stand up y = some z ↔
      ∃ a p, stand a = some y ∧ stand p = some z ∧ parent a = some p ∧ a ≠ r := by
  constructor
  · intro link
    by_cases there : ∃ a, stand a = some y
    · rcases there with ⟨a, present⟩
      rw [links_of_present present] at link
      have low : a ≠ r := by
        rintro rfl
        simp [rootless y present] at link
      rcases shadow.up_eq present low with ⟨p, z', step, above, link'⟩
      rw [link, Option.some.injEq] at link'
      exact ⟨a, p, present, link' ▸ above, step, low⟩
    · simp [links, there] at link
  · rintro ⟨a, p, present, above, step, low⟩
    rcases shadow.up_eq present low with ⟨p', z', step', above', link⟩
    rw [step, Option.some.injEq] at step'
    rw [← step', above, Option.some.injEq] at above'
    rw [links_of_present present, link, above']

theorem mirrors_links (rootless : ∀ x, stand r = some x → up x = none) :
    Mirrors (lists stand down) (links stand up) where
  mem_iff := by
    intro y z
    rw [shadow.links_eq_some rootless]
    by_cases there : ∃ p, stand p = some z
    · rcases there with ⟨p, above⟩
      rw [lists_of_present above, shadow.mem_down above]
      constructor
      · rintro ⟨c, step, low, present⟩
        exact ⟨c, p, present, above, step, low⟩
      · rintro ⟨c, q, present, aboveQ, step, low⟩
        rw [shadow.inj aboveQ above] at step
        exact ⟨c, step, low, present⟩
    · simp only [lists, there, if_false, List.not_mem_nil, false_iff]
      rintro ⟨c, q, _, above, _⟩
      exact there ⟨q, above⟩
  nodup := by
    intro z
    by_cases there : ∃ p, stand p = some z
    · rcases there with ⟨p, above⟩
      rw [lists_of_present above]
      exact shadow.nodup above
    · simp [lists, there]

theorem acyclic_links (acyclic : Acyclic parent) (rootless : ∀ x, stand r = some x → up x = none) :
    Acyclic (links stand up) := by
  have present : ∀ a y, stand a = some y → Acc (fun z y => links stand up y = some z) y := by
    intro a
    induction a using acyclic.induction with
    | step a ih =>
        intro y there
        constructor
        intro z link
        rcases (shadow.links_eq_some rootless).mp link with ⟨b, p, thereB, above, step, _⟩
        rw [shadow.inj thereB there] at step
        exact ih p step z above
  constructor
  intro y
  by_cases there : ∃ a, stand a = some y
  · rcases there with ⟨a, there⟩
    exact present a y there
  · constructor
    intro z link
    simp [Up, links, there] at link

theorem strictAnc_links (rootless : ∀ x, stand r = some x → up x = none) (top : parent r = none) :
    StrictAnc (links stand up) y z ↔
      ∃ a b, stand a = some y ∧ stand b = some z ∧ StrictAnc parent a b := by
  have low : ∀ {a p}, parent a = some p → a ≠ r := by
    rintro a p step rfl
    simp [top] at step
  constructor
  · intro strict
    induction strict with
    | single link =>
        rcases (shadow.links_eq_some rootless).mp link with ⟨a, p, present, above, step, _⟩
        exact ⟨a, p, present, above, .single step⟩
    | tail _ link ih =>
        rcases ih with ⟨a, b, present, above, strict⟩
        rcases (shadow.links_eq_some rootless).mp link with ⟨b', p, above', higher, step, _⟩
        rw [shadow.inj above' above] at step
        exact ⟨a, p, present, higher, strict.tail step⟩
  · rintro ⟨a, b, present, above, strict⟩
    induction strict using Relation.TransGen.head_induction_on generalizing y with
    | single step =>
        exact .single ((shadow.links_eq_some rootless).mpr ⟨_, _, present, above, step, low step⟩)
    | head step _ ih =>
        rcases shadow.up_eq present (low step) with ⟨p, x, step', higher, _⟩
        rw [show parent _ = some _ from step, Option.some.injEq] at step'
        rw [← step'] at higher
        have link := (shadow.links_eq_some rootless).mpr ⟨_, _, present, higher, step, low step⟩
        exact .head link (ih higher)

/-- If all descendants of a node are present, its representative has as many of them. -/
theorem count_links (rootless : ∀ x, stand r = some x → up x = none) (top : parent r = none)
    (present : stand a = some y) (whole : ∀ c, StrictAnc parent c a → stand c ≠ none) :
    count (links stand up) y = count parent a := by
  have images : some '' below (links stand up) y = stand '' below parent a := by
    ext o
    constructor
    · rintro ⟨x, strict, rfl⟩
      rcases (shadow.strictAnc_links rootless top).mp strict with ⟨c, b, there, above, strict⟩
      rw [shadow.inj above present] at strict
      exact ⟨c, strict, there⟩
    · rintro ⟨c, strict, rfl⟩
      rcases Option.ne_none_iff_exists'.mp (whole c strict) with ⟨x, there⟩
      exact ⟨x, (shadow.strictAnc_links rootless top).mpr ⟨c, a, there, present, strict⟩, there.symm⟩
  have inj : Set.InjOn stand (below parent a) := by
    intro c strict d _ same
    rcases Option.ne_none_iff_exists'.mp (whole c strict) with ⟨x, there⟩
    exact shadow.inj there (same ▸ there)
  rw [count, count, ← inj.ncard_image, ← images,
    Set.ncard_image_of_injective _ (Option.some_injective β)]

theorem preorder_lists (depth : ℕ) (present : stand a = some y) :
    preorder (lists stand down) depth y = preorder down depth y := by
  induction depth generalizing a y with
  | zero => rfl
  | succ depth ih =>
      rw [preorder, preorder, lists_of_present present]
      apply congrArg
      apply List.flatMap_congr
      intro z member
      rcases (shadow.mem_down present).mp member with ⟨c, _, _, there⟩
      exact ih there

/-- A walk from the top that may go as deep as there are nodes meets every representative once. -/
theorem preorder_top (acyclic : Acyclic parent) (top : stand r = some x) (rootless : up x = none)
    (nodes : Finset β) (inside : ∀ a y, stand a = some y → y ∈ nodes) {depth : ℕ}
    (enough : nodes.card < depth) :
    (preorder down depth x).Nodup ∧ ∀ y, y ∈ preorder down depth x ↔ ∃ a, stand a = some y := by
  classical
  have rootless' : ∀ y, stand r = some y → up y = none := by
    intro y there
    rw [top, Option.some.injEq] at there
    rw [← there, rootless]
  have supported : Supported (links stand up) nodes := by
    intro y z link
    rcases (shadow.links_eq_some rootless').mp link with ⟨b, p, there, above, _⟩
    exact ⟨inside b y there, inside p z above⟩
  have mirrors := shadow.mirrors_links rootless'
  have ends := shadow.acyclic_links acyclic rootless'
  rw [← shadow.preorder_lists depth top]
  refine ⟨preorder_nodup mirrors ends depth x, fun y => ?_⟩
  rw [mem_preorder mirrors ends supported enough]
  constructor
  · intro anc
    rcases Relation.ReflTransGen.cases_head anc with same | ⟨z, link, _⟩
    · exact ⟨r, same ▸ top⟩
    · rcases (shadow.links_eq_some rootless').mp link with ⟨b, _, there, _⟩
      exact ⟨b, there⟩
  · rintro ⟨a, present⟩
    induction a using acyclic.induction generalizing y with
    | step a ih =>
        by_cases isTop : a = r
        · rw [isTop, top, Option.some.injEq] at present
          rw [present]
        · rcases shadow.up_eq present isTop with ⟨p, z, step, above, link⟩
          have first : links stand up y = some z := by
            rw [links_of_present present, link]
          exact (anc_of_parent first).trans (ih p step z above)

end Walks

end Single

/-! A subtree of a shadow is the shadow of a subtree. -/

section Below

open Classical in
/-- The pointers of the forest, without those of the tops. -/
noncomputable def cut (parent : α → Option α) (tops : Set α) (a : α) : Option α :=
  if a ∈ tops then none else parent a

theorem cut_eq (rootless : ∀ r ∈ tops, parent r = none) : cut parent tops = parent := by
  funext a
  unfold cut
  split
  · rename_i top
    exact (rootless a top).symm
  · rfl

open Classical in
/-- The representatives of the nodes below `a`. -/
noncomputable def restrict (parent : α → Option α) (tops : Set α) (stand : α → Option β) (a : α)
    (c : α) : Option β :=
  if Anc (cut parent tops) c a then stand c else none

theorem restrict_eq_some :
    restrict parent tops stand a c = some x ↔ Anc (cut parent tops) c a ∧ stand c = some x := by
  unfold restrict
  split
  · rename_i below
    simp [below]
  · rename_i apart
    simp [apart]

/-- The node `a` becomes the only top. -/
theorem subtree (shadow : Shadow parent tops stand up down) (acyclic : Acyclic parent)
    (present : stand a = some x) :
    ∃ up', up' x = none ∧ Shadow parent {a} (restrict parent tops stand a) up' down := by
  classical
  refine ⟨Function.update up x none, Function.update_self .., ?_, ?_, ?_, ?_⟩
  · intro b c y first second
    exact shadow.inj (restrict_eq_some.mp first).2 (restrict_eq_some.mp second).2
  · intro c y there other
    rcases restrict_eq_some.mp there with ⟨low, there⟩
    have step : ∃ q, cut parent tops c = some q ∧ Anc (cut parent tops) q a := by
      rcases Relation.ReflTransGen.cases_head low with same | above
      · exact absurd same other
      · exact above
    rcases step with ⟨q, step, rest⟩
    have inner : c ∉ tops := by
      intro top
      simp [cut, top] at step
    rw [cut, if_neg inner] at step
    rcases shadow.up_eq there inner with ⟨p, z, step', above, link⟩
    rw [step, Option.some.injEq] at step'
    subst step'
    refine ⟨q, z, step, restrict_eq_some.mpr ⟨rest, above⟩, ?_⟩
    rw [Function.update_of_ne, link]
    rintro rfl
    exact other (shadow.inj there present)
  · intro b y z there
    rcases restrict_eq_some.mp there with ⟨low, there⟩
    rw [shadow.mem_down there]
    apply exists_congr
    intro c
    constructor
    · rintro ⟨step, inner, below⟩
      have first : cut parent tops c = some b := by
        rw [cut, if_neg inner, step]
      refine ⟨step, ?_, restrict_eq_some.mpr ⟨(anc_of_parent first).trans low, below⟩⟩
      rintro rfl
      -- Then `b` would lie below its own child.
      have up : Anc parent b c := by
        refine Anc.mono ?_ low
        intro d q stepD
        unfold cut at stepD
        split at stepD
        · simp at stepD
        · exact stepD
      exact acyclic.not_anc_of_strict ((strictAnc_iff_of_parent step).mpr (anc_refl _ b)) up
    · rintro ⟨step, other, below⟩
      rcases restrict_eq_some.mp below with ⟨lowC, below⟩
      refine ⟨step, ?_, below⟩
      intro top
      have alone : cut parent tops c = none := if_pos top
      exact other ((anc_iff_of_root alone).mp lowC).symm
  · exact fun there => shadow.nodup (restrict_eq_some.mp there).2

/-- A walk from `x` that may go as deep as there are nodes meets the representatives below it once. -/
theorem preorder_below (shadow : Shadow parent tops stand up down) (acyclic : Acyclic parent)
    (present : stand a = some x) (nodes : Finset β) (inside : ∀ a y, stand a = some y → y ∈ nodes)
    {depth : ℕ} (enough : nodes.card < depth) :
    (preorder down depth x).Nodup ∧ ∀ y, y ∈ preorder down depth x ↔
      ∃ c, Anc (cut parent tops) c a ∧ stand c = some y := by
  rcases shadow.subtree acyclic present with ⟨up', rootless, alone⟩
  rcases alone.preorder_top acyclic (restrict_eq_some.mpr ⟨anc_refl _ a, present⟩) rootless nodes
    (fun c y there => inside c y (restrict_eq_some.mp there).2) enough with ⟨nodup, met⟩
  exact ⟨nodup, fun y => (met y).trans (exists_congr fun _ => restrict_eq_some)⟩

end Below

end Shadow

end Forest
