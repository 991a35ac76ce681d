import Formula.Proofs.Deepest

/-!
The way down to the deepest node.

* `Expr.at?`: the node with a given address, which tells at each level the child to enter.
* `Expr.descent`: the address that is found by always entering the higher child, the left
  one of two that are as high; `length_descent` and `at?_descent`.
* `descent_le`: no address is longer, and this is the leftmost one of its length.
* `Search`: the search as a loop that takes nodes off a stack; `Search.iterate_step`: a tree
  on top of the stack is gone after as many steps as it has nodes.
* `search_ends_at_descent`: what the search finds.
-/

namespace Formula.Expr

variable {e n : Expr} {best : ℕ × Expr} {depth : ℕ}

/-! ### Addresses -/

/-- The node that is reached from the root by entering the children with the given
indices. -/
def at? (e : Expr) : List ℕ → Option Expr
  | [] => some e
  | i :: address => e.children[i]?.bind (·.at? address)

/-- The address reached by always entering the only child of a node, or the higher one of
two, the left one if they are as high. -/
def descent : Expr → List ℕ
  | literal .. | unknown .. => []
  | block child _ => 0 :: child.descent
  | signed _ operand _ => 0 :: operand.descent
  | binary _ left right _ =>
      if right.height ≤ left.height then 0 :: left.descent else 1 :: right.descent

lemma descent_left {l r : Expr} (h : r.height ≤ l.height) (op : Operator) (span : Span) :
    (binary op l r span).descent = 0 :: l.descent := by
  rw [descent, if_pos h]

lemma descent_right {l r : Expr} (h : l.height < r.height) (op : Operator) (span : Span) :
    (binary op l r span).descent = 1 :: r.descent := by
  rw [descent, if_neg (Nat.not_le_of_lt h)]

/-- The way down is as long as the tree is high. -/
lemma length_descent (e : Expr) : e.descent.length = e.height := by
  induction e with
  | literal | unknown => rfl
  | block _ _ ih | signed _ _ _ ih => rw [descent, List.length_cons, ih, height, Nat.add_comm]
  | binary op l r span ihl ihr =>
      rcases Nat.lt_or_ge l.height r.height with hlt | hle
      · rw [descent_right hlt, List.length_cons, ihr, height, max_eq_right hlt.le, Nat.add_comm]
      · rw [descent_left hle, List.length_cons, ihl, height, max_eq_left hle, Nat.add_comm]

/-- The way down ends at the deepest leaf. -/
lemma at?_descent (e : Expr) : e.at? e.descent = some e.deepLeaf := by
  induction e with
  | literal | unknown => rfl
  | block _ _ ih | signed _ _ _ ih => exact ih
  | binary op l r span ihl ihr =>
      rcases Nat.lt_or_ge l.height r.height with hlt | hle
      · rw [descent_right hlt, deepLeaf, if_neg (Nat.not_le_of_lt hlt)]
        exact ihr
      · rw [descent_left hle, deepLeaf, if_pos hle]
        exact ihl

lemma children_deepLeaf (e : Expr) : e.deepLeaf.children = [] := by
  induction e with
  | literal | unknown => rfl
  | block _ _ ih | signed _ _ _ ih => exact ih
  | binary op l r span ihl ihr =>
      rw [deepLeaf]
      split
      · exact ihl
      · exact ihr

/-- An address of a child that is no longer than the way down to some leaf, or further to the
right, stays so below its parent. -/
lemma descent_le_cons {address descent : List ℕ} {height : ℕ} (i : ℕ)
    (h : address.length ≤ height ∧ (address.length = height → descent ≤ address)) :
    (i :: address).length ≤ 1 + height
      ∧ ((i :: address).length = 1 + height → i :: descent ≤ i :: address) := by
  rw [List.length_cons]
  refine ⟨by omega, fun hlen => ?_⟩
  exact List.cons_le_cons i (h.2 (by omega))

/-- No address in a tree is longer than the way down, and of those that are as long none
stands further to the left. -/
theorem descent_le {address : List ℕ} (h : e.at? address = some n) :
    address.length ≤ e.height ∧ (address.length = e.height → e.descent ≤ address) := by
  induction e generalizing address with
  | literal | unknown =>
      cases address with
      | nil => exact ⟨le_rfl, fun _ => le_rfl⟩
      | cons i address => simp [at?, children] at h
  | block child span ih | signed sign child span ih =>
      rcases address with _ | ⟨_ | i, address⟩
      · exact ⟨Nat.zero_le _, fun hlen => by rw [List.length_nil, height] at hlen; omega⟩
      · exact descent_le_cons 0 (ih h)
      · simp [at?, children] at h
  | binary op l r span ihl ihr =>
      rcases address with _ | ⟨_ | _ | i, address⟩
      · exact ⟨Nat.zero_le _, fun hlen => by rw [List.length_nil, height] at hlen; omega⟩
      · have hl := ihl h
        rcases Nat.lt_or_ge l.height r.height with hlt | hle
        · rw [height, List.length_cons]
          exact ⟨by omega, fun hlen => by omega⟩
        · rw [descent_left hle, height, max_eq_left hle]
          exact descent_le_cons 0 hl
      · have hr := ihr h
        rcases Nat.lt_or_ge l.height r.height with hlt | hle
        · rw [descent_right hlt, height, max_eq_right hlt.le]
          exact descent_le_cons 1 hr
        · rw [descent_left hle, height, List.length_cons]
          exact ⟨by omega, fun _ => le_of_lt (List.Lex.rel Nat.zero_lt_one)⟩
      · simp [at?, children] at h

/-! ### The search as a loop -/

/-- Where the search stands: the best node so far, and the nodes still to visit on a stack
that grows at its end, each with its distance from the root. -/
structure Search where
  best : ℕ × Expr
  stack : List (ℕ × Expr)

namespace Search

/-- The search begins with the root. -/
def start (e : Expr) : Search := ⟨(0, e), [(0, e)]⟩

/-- One round of the search: the node on top of the stack is visited, and its children are
put on the stack from right to left. With an empty stack the search is over. -/
def step (s : Search) : Search :=
  match s.stack.getLast? with
  | none => s
  | some (depth, e) =>
      ⟨visit s.best depth e, s.stack.dropLast ++ (e.children.map (depth + 1, ·)).reverse⟩

variable {stack : List (ℕ × Expr)}

lemma step_append (best : ℕ × Expr) (stack : List (ℕ × Expr)) (depth : ℕ) (e : Expr) :
    step ⟨best, stack ++ [(depth, e)]⟩
      = ⟨visit best depth e, stack ++ (e.children.map (depth + 1, ·)).reverse⟩ := by
  simp [step]

/-- A tree on top of the stack is gone after as many rounds as it has nodes, and its deepest
leaf has become the best node if it is further away than the one before. -/
lemma iterate_step (e : Expr) (best : ℕ × Expr) (depth : ℕ) (stack : List (ℕ × Expr)) :
    step^[e.nodeCount] ⟨best, stack ++ [(depth, e)]⟩ = ⟨better best depth e, stack⟩ := by
  induction e generalizing best depth stack with
  | literal | unknown =>
      rw [nodeCount, Function.iterate_one, step_append]
      exact congrArg (Search.mk _) (List.append_nil stack)
  | block child span ih =>
      rw [nodeCount, Nat.add_comm, Function.iterate_succ_apply, step_append]
      have hchild : better (visit best depth (block child span)) (depth + 1) child
          = better best depth (block child span) := better_child rfl rfl
      rw [← hchild]
      exact ih ..
  | signed sign operand span ih =>
      rw [nodeCount, Nat.add_comm, Function.iterate_succ_apply, step_append]
      have hoperand : better (visit best depth (signed sign operand span)) (depth + 1) operand
          = better best depth (signed sign operand span) := better_child rfl rfl
      rw [← hoperand]
      exact ih ..
  | binary op l r span ihl ihr =>
      have hcount : (binary op l r span).nodeCount = r.nodeCount + l.nodeCount + 1 := by
        rw [nodeCount]
        omega
      rw [hcount, Function.iterate_succ_apply, step_append, Function.iterate_add_apply]
      show step^[r.nodeCount]
        (step^[l.nodeCount] ⟨_, stack ++ [(depth + 1, r), (depth + 1, l)]⟩) = _
      rw [List.append_cons, ihl, ihr, better_children]

/-- The search is over after as many rounds as the tree has nodes. -/
lemma iterate_start (e : Expr) : step^[e.nodeCount] (start e) = ⟨e.deepest, []⟩ := by
  rw [deepest, deepestFrom_cons, deepestFrom]
  exact iterate_step e (0, e) 0 []

end Search

/-- **The search ends at the way down**: it visits each node once and finds the height of the
tree and the leaf at which the way down ends that always enters the higher child, the left
one of two that are as high. No node is further away from the root, and none that is as far
stands further to the left. -/
theorem search_ends_at_descent (e : Expr) :
    ∃ leaf, e.deepest = (e.height, leaf) ∧ leaf.children = []
      ∧ e.at? e.descent = some leaf ∧ e.descent.length = e.height
      ∧ (∀ address n, e.at? address = some n →
          address.length ≤ e.height ∧ (address.length = e.height → e.descent ≤ address))
      ∧ Search.step^[e.nodeCount] (Search.start e) = ⟨(e.height, leaf), []⟩ := by
  refine ⟨e.deepLeaf, deepest_eq e, children_deepLeaf e, at?_descent e, length_descent e,
    fun address n h => descent_le h, ?_⟩
  rw [← deepest_eq]
  exact Search.iterate_start e

end Formula.Expr
