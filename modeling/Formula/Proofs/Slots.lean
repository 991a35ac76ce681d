import Formula.Proofs.Descent
import Formula.Proofs.Lowering

/-!
The places that a program looks up.

A program knows its unknowns by their places in a list. Where it looks a value up it relies on
the values being those of the same list, which the program itself cannot tell.

* `Expr.unblocked`: a tree without its blocks, and `Program.at?`: the node of a program with
  a given address.
* `Program.StandsFor`: a program has the shape of a tree without blocks, with the first place
  of a name wherever the tree has that name; `standsFor_of_ofExpr`.
* `StandsFor.children`, `StandsFor.at?`: it does so at each child, and so at each address.
* `Program.run?`: the value of a program that looks up places of values only;
  `StandsFor.run?_eq`.
* `slots_name_unknowns`: what stands at the places, in the program and in the values.
-/

namespace Formula

/-- The tree with what each block holds in place of the block. -/
def Expr.unblocked : Expr → Expr
  | literal value span => literal value span
  | unknown name span => unknown name span
  | block child _ => child.unblocked
  | signed sign operand span => signed sign operand.unblocked span
  | binary op left right span => binary op left.unblocked right.unblocked span

variable {b : Bindings} {unknowns : List String} {values : List Float} {e : Expr} {p : Program}
  {name : String} {i : ℕ} {address : List ℕ}

namespace Program

/-- The children of a node, from left to right. -/
def children : Program → List Program
  | constant _ | slot _ => []
  | signed _ operand => [operand]
  | binary _ left right => [left, right]

/-- The node that is reached from the root by entering the children with the given
indices. -/
def at? (p : Program) : List ℕ → Option Program
  | [] => some p
  | i :: address => p.children[i]?.bind (·.at? address)

/-- The value of a program, if each of its places is the place of a value. -/
def run? (values : List Float) : Program → Option Float
  | constant value => some value
  | slot index => values[index]?
  | signed sign operand => do
      let x ← operand.run? values
      return sign.apply x
  | binary op left right => do
      let x ← left.run? values
      let y ← right.run? values
      return op.apply x y

/-- The place is that of a name, and no place in front of it is. -/
structure FirstPlace (unknowns : List String) (name : String) (i : ℕ) : Prop where
  getElem? : unknowns[i]? = some name
  first : ∀ j < i, unknowns[j]? ≠ some name

/-- A program has the shape of a tree without blocks, with the first place of a name wherever
the tree has that name. -/
inductive StandsFor (unknowns : List String) : Expr → Program → Prop
  | constant (value : Float) (span : Span) :
      StandsFor unknowns (.literal value span) (.constant value)
  | slot {name : String} {i : ℕ} (span : Span) (h : FirstPlace unknowns name i) :
      StandsFor unknowns (.unknown name span) (.slot i)
  | signed {e : Expr} {p : Program} (sign : Sign) (span : Span) (h : StandsFor unknowns e p) :
      StandsFor unknowns (.signed sign e span) (.signed sign p)
  | binary {l r : Expr} {p q : Program} (op : Operator) (span : Span)
      (hl : StandsFor unknowns l p) (hr : StandsFor unknowns r q) :
      StandsFor unknowns (.binary op l r span) (.binary op p q)

lemma firstPlace_of_idxOf? (h : unknowns.idxOf? name = some i) :
    FirstPlace unknowns name i := by
  obtain ⟨hlt, hname, hfirst⟩ := List.idxOf?_eq_some_iff.mp h
  refine ⟨List.getElem?_eq_some_iff.mpr ⟨hlt, by simpa using hname⟩, fun j hj hget => ?_⟩
  obtain ⟨hlt', hname'⟩ := List.getElem?_eq_some_iff.mp hget
  exact absurd (by simpa using hname') (hfirst j hj)

/-- The program of a tree stands for the tree without its blocks. -/
lemma standsFor_of_ofExpr (h : ofExpr unknowns e = .ok p) :
    StandsFor unknowns e.unblocked p := by
  induction e generalizing p with
  | literal value span =>
      obtain rfl := Except.ok.inj h
      exact .constant value span
  | unknown name span =>
      rw [ofExpr] at h
      split at h
      · next index hi =>
        obtain rfl := Except.ok.inj h
        exact .slot span (firstPlace_of_idxOf? hi)
      · cases h
  | block child span ih => exact ih h
  | signed sign operand span ih =>
      obtain ⟨q, hq, hp⟩ := bind_eq_ok_iff.mp h
      obtain rfl := Except.ok.inj hp
      exact .signed sign span (ih hq)
  | binary op left right span ihl ihr =>
      obtain ⟨l, hl, h⟩ := bind_eq_ok_iff.mp h
      obtain ⟨r, hr, hp⟩ := bind_eq_ok_iff.mp h
      obtain rfl := Except.ok.inj hp
      exact .binary op span (ihl hl) (ihr hr)

namespace StandsFor

/-- Each child of a program stands for the child of the tree with the same index. -/
lemma children (h : StandsFor unknowns e p) :
    List.Forall₂ (StandsFor unknowns) e.children p.children := by
  cases h with
  | constant | slot => exact .nil
  | signed sign span h => exact .cons h .nil
  | binary op span hl hr => exact .cons hl (.cons hr .nil)

/-- At each address there is a node in the program exactly if there is one in the tree, and
the one stands for the other. -/
lemma at? (h : StandsFor unknowns e p) (address : List ℕ) :
    Option.Rel (StandsFor unknowns) (e.at? address) (p.at? address) := by
  induction address generalizing e p with
  | nil => exact .some h
  | cons i address ih =>
      have hlen := h.children.length_eq
      rw [Expr.at?, Program.at?]
      rcases Nat.lt_or_ge i e.children.length with hlt | hle
      · have hlt' : i < p.children.length := hlen ▸ hlt
        rw [List.getElem?_eq_getElem hlt, List.getElem?_eq_getElem hlt']
        exact ih (h.children.get hlt hlt')
      · rw [List.getElem?_eq_none hle, List.getElem?_eq_none (hlen ▸ hle)]
        exact .none

/-- Where the program has a place the tree has the unknown with that place. -/
lemma exists_unknown (h : StandsFor unknowns e p) (hi : p.at? address = some (.slot i)) :
    ∃ name span, e.at? address = some (.unknown name span) ∧ FirstPlace unknowns name i := by
  have hrel := h.at? address
  rw [hi] at hrel
  generalize e.at? address = node? at hrel ⊢
  cases hrel with
  | some hnode =>
      cases hnode with
      | slot span hplace => exact ⟨_, span, rfl, hplace⟩

/-- With a value at each place of the unknowns nothing else is looked up. -/
lemma run?_eq (h : StandsFor unknowns e p) (hlen : values.length = unknowns.length) :
    p.run? values = some (p.run values) := by
  induction h with
  | constant => rfl
  | @slot name i span hplace =>
      obtain ⟨hlt, -⟩ := List.getElem?_eq_some_iff.mp hplace.getElem?
      have hlt' : i < values.length := hlen ▸ hlt
      rw [run?, run, List.getElem?_eq_getElem hlt', List.getD_eq_getElem values 0 hlt']
  | signed sign span h ih => rw [run?, ih]; rfl
  | binary op span hl hr ihl ihr => rw [run?, ihl, ihr]; rfl

end StandsFor

end Program

/-- The value at the place of an unknown is the one bound to it. -/
lemma Bindings.Gives.getElem? (hv : b.Gives unknowns values) (hname : unknowns[i]? = some name) :
    ∃ x, values[i]? = some x ∧ b.find? name = some x := by
  obtain ⟨hlt, rfl⟩ := List.getElem?_eq_some_iff.mp hname
  have hlt' : i < values.length := hv.length_eq ▸ hlt
  refine ⟨values[i], List.getElem?_eq_getElem hlt', ?_⟩
  have hget := hv.get hlt hlt'
  simp only [List.get_eq_getElem, Bindings.get] at hget
  split at hget
  · next x hx => rw [hx, Except.ok.inj hget]
  · cases hget

/-- **The places in a program name its unknowns**: a place stands where the tree without its
blocks has an unknown, is the first place of that name and so lies in the list; and the whole
program has the shape of that tree. Bindings that fit the unknowns supply as many values, at
each place the one bound to the name there. So a program looks up nothing beyond them. -/
theorem slots_name_unknowns (h : Program.ofExpr unknowns e = .ok p) :
    (∀ address i, p.at? address = some (.slot i) →
        i < unknowns.length
          ∧ ∃ name span, e.unblocked.at? address = some (.unknown name span)
            ∧ unknowns[i]? = some name ∧ ∀ j < i, unknowns[j]? ≠ some name)
      ∧ (∀ address,
        Option.Rel (Program.StandsFor unknowns) (e.unblocked.at? address) (p.at? address))
      ∧ ∀ (b : Bindings) (values : List Float), b.resolve unknowns = .ok values →
        values.length = unknowns.length
          ∧ (∀ (i : ℕ) name, unknowns[i]? = some name →
            ∃ x, values[i]? = some x ∧ b.find? name = some x)
          ∧ p.run? values = some (p.run values) := by
  have hstands := Program.standsFor_of_ofExpr h
  refine ⟨?_, hstands.at?, ?_⟩
  · intro address i hi
    obtain ⟨name, span, hnode, hplace⟩ := hstands.exists_unknown hi
    obtain ⟨hlt, -⟩ := List.getElem?_eq_some_iff.mp hplace.getElem?
    exact ⟨hlt, name, span, hnode, hplace.getElem?, hplace.first⟩
  · intro b values hb
    have hv : b.Gives unknowns values := (Bindings.resolve_eq_ok_iff.mp hb).2
    have hlen : values.length = unknowns.length := hv.length_eq.symm
    exact ⟨hlen, fun i name hname => hv.getElem? hname, hstands.run?_eq hlen⟩

/-- In `(x+y)*x` a name that is listed twice has its first place both times. -/
theorem slots_of_name_listed_twice :
    Program.ofExpr ["x", "y", "x"]
        (.binary .mul (.block (.binary .add (.unknown "x" ⟨1, 2⟩) (.unknown "y" ⟨3, 4⟩) ⟨1, 4⟩)
          ⟨0, 5⟩) (.unknown "x" ⟨6, 7⟩) ⟨0, 7⟩)
        = .ok (.binary .mul (.binary .add (.slot 0) (.slot 1)) (.slot 0))
      ∧ (∀ j < 1, ["x", "y", "x"][j]? ≠ some "y")
      ∧ (Program.binary .mul (.binary .add (.slot 0) (.slot 1)) (.slot 0)).run? [1, 2, 1]
        = some (Program.run [1, 2, 1]
          (.binary .mul (.binary .add (.slot 0) (.slot 1)) (.slot 0))) := by
  have hlower : Program.ofExpr ["x", "y", "x"]
      (.binary .mul (.block (.binary .add (.unknown "x" ⟨1, 2⟩) (.unknown "y" ⟨3, 4⟩) ⟨1, 4⟩)
        ⟨0, 5⟩) (.unknown "x" ⟨6, 7⟩) ⟨0, 7⟩)
      = .ok (.binary .mul (.binary .add (.slot 0) (.slot 1)) (.slot 0)) := by rfl
  have hresolve : (Bindings.ofList [("x", 1), ("y", 2), ("x", 3)]).resolve ["x", "y", "x"]
      = .ok [1, 2, 1] := by rfl
  obtain ⟨hplaces, -, hvalues⟩ := slots_name_unknowns hlower
  obtain ⟨-, name, span, hnode, hname, hfirst⟩ := hplaces [0, 1] 1 rfl
  obtain rfl : "y" = name := Option.some.inj hname
  exact ⟨hlower, hfirst, (hvalues _ _ hresolve).2.2⟩

end Formula
