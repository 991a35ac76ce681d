import Mathlib.Tactic
import Formula.Expr

/-!
The search for the deepest node.

* `Expr.deepLeaf`: the leaf reached from the root by always entering the higher
  child, the left one of two that are as high.
* `better`: only a leaf at a greater distance than the best node so far replaces
  that; `better_child` and `better_children` say how this is found one level down.
* `deepestFrom_cons`: the search is through with one tree before it goes on to the
  next.
* `deepest_eq`: the search from the root finds the height and that leaf.
-/

namespace Formula.Expr

/-- The leaf at the end of the path that enters the only child of a node, or the
higher one of two, the left one if they are as high. -/
def deepLeaf : Expr → Expr
  | literal value span => literal value span
  | unknown name span => unknown name span
  | block child _ => child.deepLeaf
  | signed _ operand _ => operand.deepLeaf
  | binary _ left right _ => if right.height ≤ left.height then left.deepLeaf else right.deepLeaf

/-- The deepest leaf of a tree whose root has the given distance, if it is further
away than the best node so far, and that node otherwise. -/
def better (best : ℕ × Expr) (depth : ℕ) (e : Expr) : ℕ × Expr :=
  if best.1 < depth + e.height then (depth + e.height, e.deepLeaf) else best

/-- What visiting the root of a tree makes of the best node so far. -/
def visit (best : ℕ × Expr) (depth : ℕ) (e : Expr) : ℕ × Expr :=
  if depth > best.1 then (depth, e) else best

variable {best : ℕ × Expr} {depth : ℕ} {e : Expr}

lemma better_of_lt (h : best.1 < depth + e.height) :
    better best depth e = (depth + e.height, e.deepLeaf) := if_pos h

lemma better_of_le (h : depth + e.height ≤ best.1) : better best depth e = best :=
  if_neg (Nat.not_lt_of_le h)

lemma fst_better (best : ℕ × Expr) (depth : ℕ) (e : Expr) :
    (better best depth e).1 = max best.1 (depth + e.height) := by
  by_cases h : best.1 < depth + e.height
  · rw [better_of_lt h, max_eq_right (le_of_lt h)]
  · rw [better_of_le (Nat.le_of_not_lt h), max_eq_left (Nat.le_of_not_lt h)]

/-- The root itself is no further away than its distance. -/
lemma fst_visit (best : ℕ × Expr) (depth : ℕ) (e : Expr) :
    (visit best depth e).1 = max depth best.1 := by
  by_cases h : depth > best.1
  · rw [visit, if_pos h, max_eq_left (le_of_lt h)]
  · rw [visit, if_neg h, max_eq_right (le_of_not_gt h)]

lemma visit_of_le (h : depth ≤ best.1) : visit best depth e = best :=
  if_neg (Nat.not_lt_of_le h)

/-- The deepest leaf below a node with one child is that of the child. -/
lemma better_child {child : Expr} (hh : e.height = 1 + child.height)
    (hl : e.deepLeaf = child.deepLeaf) :
    better (visit best depth e) (depth + 1) child = better best depth e := by
  have hv := fst_visit best depth e
  by_cases h : best.1 < depth + e.height
  · rw [better_of_lt h, better_of_lt (by omega), hl, hh, Nat.add_assoc]
  · rw [better_of_le (Nat.le_of_not_lt h), visit_of_le (by omega), better_of_le (by omega)]

/-- The deepest leaf below a node with two children is that of the left one, unless
the right one is higher. -/
lemma better_children (op : Operator) (l r : Expr) (span : Span) :
    better (better (visit best depth (binary op l r span)) (depth + 1) l) (depth + 1) r
      = better best depth (binary op l r span) := by
  have hheight : (binary op l r span).height = 1 + max l.height r.height := rfl
  have hv := fst_visit best depth (binary op l r span)
  by_cases h : best.1 < depth + (binary op l r span).height
  · rw [better_of_lt h, deepLeaf]
    by_cases hle : r.height ≤ l.height
    · have hl : (visit best depth (binary op l r span)).1 < depth + 1 + l.height := by omega
      rw [better_of_lt hl, better_of_le (by simpa using hle), if_pos hle, hheight,
        max_eq_left hle, Nat.add_assoc]
    · have hr : (better (visit best depth (binary op l r span)) (depth + 1) l).1
          < depth + 1 + r.height := by
        rw [fst_better, hv]
        omega
      rw [better_of_lt hr, if_neg hle, hheight, max_eq_right (Nat.le_of_not_le hle), Nat.add_assoc]
  · have hl : better best (depth + 1) l = best := better_of_le (by omega)
    rw [better_of_le (Nat.le_of_not_lt h), visit_of_le (by omega), hl, better_of_le (by omega)]

/-- The search is through with a whole tree before it goes on. -/
lemma deepestFrom_cons (e : Expr) (best : ℕ × Expr) (depth : ℕ) (pending : List (ℕ × Expr)) :
    deepestFrom best ((depth, e) :: pending) = deepestFrom (better best depth e) pending := by
  induction e generalizing best depth pending with
  | literal value span =>
      rw [deepestFrom]
      rfl
  | unknown name span =>
      rw [deepestFrom]
      rfl
  | block child span ih =>
      rw [deepestFrom, children]
      have hchild : better (visit best depth (block child span)) (depth + 1) child
          = better best depth (block child span) := better_child rfl rfl
      calc deepestFrom (visit best depth (block child span)) ((depth + 1, child) :: pending)
          = deepestFrom (better (visit best depth (block child span)) (depth + 1) child) pending :=
            ih ..
        _ = deepestFrom (better best depth (block child span)) pending := by rw [hchild]
  | signed sign operand span ih =>
      rw [deepestFrom, children]
      have hoperand : better (visit best depth (signed sign operand span)) (depth + 1) operand
          = better best depth (signed sign operand span) := better_child rfl rfl
      calc deepestFrom (visit best depth (signed sign operand span))
            ((depth + 1, operand) :: pending)
          = deepestFrom (better (visit best depth (signed sign operand span)) (depth + 1) operand)
              pending := ih ..
        _ = deepestFrom (better best depth (signed sign operand span)) pending := by rw [hoperand]
  | binary op l r span ihl ihr =>
      rw [deepestFrom, children]
      calc deepestFrom (visit best depth (binary op l r span))
            ((depth + 1, l) :: (depth + 1, r) :: pending)
          = deepestFrom (better (visit best depth (binary op l r span)) (depth + 1) l)
              ((depth + 1, r) :: pending) := ihl ..
        _ = deepestFrom (better (better (visit best depth (binary op l r span)) (depth + 1) l)
              (depth + 1) r) pending := ihr ..
        _ = deepestFrom (better best depth (binary op l r span)) pending := by
            rw [better_children]

/-- The search from the root finds the height of the tree and its deepest leaf. -/
theorem deepest_eq (e : Expr) : e.deepest = (e.height, e.deepLeaf) := by
  rw [deepest, deepestFrom_cons, deepestFrom]
  by_cases h : 0 < e.height
  · rw [better_of_lt (by omega), Nat.zero_add]
  · rw [better_of_le (by omega)]
    -- a tree without levels is a leaf
    cases e with
    | literal | unknown => rfl
    | _ => simp [height] at h

end Formula.Expr
