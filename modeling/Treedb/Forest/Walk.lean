import Treedb.Forest.Basic

/-!
# Walking a forest downwards

The child lists of a forest list exactly the nodes that point to a parent. A
recursion that visits a node and then recurses into its children, in order, is a
fold over `preorder`. On an acyclic forest this list holds every node of the
subtree once, as soon as the recursion is allowed to go as deep as there are
nodes.
-/

namespace Forest

universe u v

variable {α : Type u} {σ : Type v} {parent : α → Option α} {children : α → List α}
  {x y p : α} {nodes : Finset α}

/-- The child lists name each child of a node once, and nothing else. -/
structure Mirrors (children : α → List α) (parent : α → Option α) : Prop where
  mem_iff : ∀ {c p}, c ∈ children p ↔ parent c = some p
  nodup : ∀ p, (children p).Nodup

/-- The nodes met by a recursion from `x` through the child lists, parents first. -/
def preorder (children : α → List α) : ℕ → α → List α
  | 0, _ => []
  | depth + 1, x => x :: (children x).flatMap (preorder children depth)

/-- A recursive walk that visits a node and then walks each of its children. -/
def walk (children : α → List α) (visit : σ → α → σ) : ℕ → σ → α → σ
  | 0, s, _ => s
  | depth + 1, s, x => (children x).foldl (walk children visit depth) (visit s x)

theorem walk_eq_foldl (children : α → List α) (visit : σ → α → σ) (depth : ℕ) (s : σ) (x : α) :
    walk children visit depth s x = (preorder children depth x).foldl visit s := by
  induction depth generalizing s x with
  | zero => rfl
  | succ depth ih =>
      simp only [walk, preorder, List.foldl_cons, List.foldl_flatMap]
      congr 1
      funext s x
      exact ih s x

theorem anc_of_mem_preorder (mirrors : Mirrors children parent) {depth : ℕ}
    (member : y ∈ preorder children depth x) : Anc parent y x := by
  induction depth generalizing x with
  | zero => simp [preorder] at member
  | succ depth ih =>
      simp only [preorder, List.mem_cons, List.mem_flatMap] at member
      rcases member with rfl | ⟨c, child, low⟩
      · exact anc_refl _ _
      · exact (ih low).trans (anc_of_parent (mirrors.mem_iff.mp child))

theorem preorder_mono {depth : ℕ} (member : y ∈ preorder children depth x) :
    y ∈ preorder children (depth + 1) x := by
  induction depth generalizing x with
  | zero => simp [preorder] at member
  | succ depth ih =>
      rw [preorder, List.mem_cons, List.mem_flatMap] at member ⊢
      rcases member with same | ⟨c, child, low⟩
      · exact Or.inl same
      · exact Or.inr ⟨c, child, ih low⟩

theorem preorder_mono_le {depth depth' : ℕ} (le : depth ≤ depth')
    (member : y ∈ preorder children depth x) : y ∈ preorder children depth' x := by
  induction le with
  | refl => exact member
  | step _ ih => exact preorder_mono ih

theorem mem_preorder_child {depth : ℕ} (member : p ∈ preorder children depth x)
    (child : y ∈ children p) : y ∈ preorder children (depth + 1) x := by
  induction depth generalizing x with
  | zero => simp [preorder] at member
  | succ depth ih =>
      rw [preorder, List.mem_cons, List.mem_flatMap] at member
      rw [preorder, List.mem_cons, List.mem_flatMap]
      right
      rcases member with rfl | ⟨c, cMem, low⟩
      · exact ⟨y, child, by simp [preorder]⟩
      · exact ⟨c, cMem, ih low⟩

/-- The position of `x` on the climb from `y` is a depth at which the walk from `x` meets `y`. -/
theorem mem_preorder_of_getElem? (mirrors : Mirrors children parent) {fuel k : ℕ}
    (at_k : (chain parent fuel y)[k]? = some x) : y ∈ preorder children (k + 1) x := by
  induction k generalizing y fuel with
  | zero =>
      simp only [chain, List.getElem?_cons_zero, Option.some.injEq] at at_k
      simp [preorder, at_k]
  | succ k ih =>
      simp only [chain, List.getElem?_cons_succ] at at_k
      cases fuel with
      | zero => simp [ancestors] at at_k
      | succ fuel =>
          cases step : parent y with
          | none => simp [ancestors, step] at at_k
          | some q =>
              simp only [ancestors, step] at at_k
              exact mem_preorder_child (ih at_k) (mirrors.mem_iff.mpr step)

/-- Deep enough, the walk meets exactly the subtree of its start. -/
theorem mem_preorder [DecidableEq α] (mirrors : Mirrors children parent)
    (acyclic : Acyclic parent) (supported : Supported parent nodes) {depth : ℕ}
    (enough : nodes.card < depth) : y ∈ preorder children depth x ↔ Anc parent y x := by
  refine ⟨anc_of_mem_preorder mirrors, fun anc => ?_⟩
  have onChain := (mem_chain acyclic supported (le_refl nodes.card)).mpr anc
  rcases List.getElem_of_mem onChain with ⟨k, hk, at_k⟩
  apply preorder_mono_le _
    (mem_preorder_of_getElem? mirrors ((List.getElem?_eq_getElem hk).trans (congrArg some at_k)))
  have short : (chain parent nodes.card y).length ≤ nodes.card + 1 := by
    have climb : ∀ fuel z, (ancestors parent fuel z).length ≤ fuel := by
      intro fuel
      induction fuel with
      | zero => simp [ancestors]
      | succ fuel ih =>
          intro z
          cases step : parent z with
          | none => simp [ancestors, step]
          | some q => simpa [ancestors, step] using ih q
    simpa [chain] using climb nodes.card y
  omega

/-- The walk meets no node twice. -/
theorem preorder_nodup (mirrors : Mirrors children parent) (acyclic : Acyclic parent)
    (depth : ℕ) (x : α) : (preorder children depth x).Nodup := by
  induction depth generalizing x with
  | zero => simp [preorder]
  | succ depth ih =>
      rw [preorder, List.nodup_cons]
      constructor
      · intro member
        rcases List.mem_flatMap.mp member with ⟨c, child, low⟩
        have step := mirrors.mem_iff.mp child
        exact acyclic.strict_irrefl x
          (StrictAnc.of_anc_of_parent (anc_of_mem_preorder mirrors low) step)
      · rw [List.nodup_flatMap]
        refine ⟨fun c _ => ih c, (mirrors.nodup x).pairwise_of_forall_ne ?_⟩
        intro c cMem d dMem ne
        simp only [Function.onFun, List.Disjoint]
        intro z inC inD
        -- Two siblings above one node would be ancestors of each other.
        have apart : ∀ {c d}, c ∈ children x → d ∈ children x → c ≠ d → ¬Anc parent c d := by
          intro c d cMem dMem ne anc
          rcases (anc_iff_of_parent (mirrors.mem_iff.mp cMem)).mp anc with same | high
          · exact ne same.symm
          · exact acyclic.strict_irrefl x
              (StrictAnc.of_anc_of_parent high (mirrors.mem_iff.mp dMem))
        rcases (anc_of_mem_preorder mirrors inC).total (anc_of_mem_preorder mirrors inD) with
          up | up
        · exact apart cMem dMem ne up
        · exact apart dMem cMem (Ne.symm ne) up

end Forest
