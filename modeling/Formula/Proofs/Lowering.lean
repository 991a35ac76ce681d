import Mathlib.Data.List.GetD
import Formula.Proofs.Missing

/-!
Programs and the trees they come from.

* `Bindings.resolve_eq_ok_iff`: bindings fit some unknowns if there are as many of
  them and each unknown has a value.
* `Program.exists_ofExpr_iff`: a tree has a program exactly if each of its names is
  an unknown.
* `Program.value_of_ofExpr`: a program has the value of its tree.
* `Compiled.evaluate_eq`: a compiled tree is evaluated as the tree itself, and it
  refuses the same bindings.
* `evaluation_with_any_unknowns`: what compiling and evaluating answer when the unknowns
  need not be those of the tree.
-/

namespace Formula

/-- Two steps answer exactly if the first one does and the second one does so after
it. -/
lemma bind_eq_ok_iff {α β : Type} {x : Except Fault α} {f : α → Except Fault β} {b : β} :
    (x >>= f) = .ok b ↔ ∃ a, x = .ok a ∧ f a = .ok b := by
  cases x with
  | error fault =>
      refine ⟨?_, ?_⟩
      · intro h
        cases h
      · rintro ⟨a, ha, -⟩
        cases ha
  | ok a =>
      refine ⟨?_, ?_⟩
      · intro h
        exact ⟨a, rfl, h⟩
      · rintro ⟨a', ha, h⟩
        obtain rfl := Except.ok.inj ha
        exact h

variable {b : Bindings} {unknowns : List String} {values : List Float} {e : Expr} {p : Program}

/-! ### The values of the unknowns -/

/-- The values are each bound to the unknown at the same place. -/
def Bindings.Gives (b : Bindings) (unknowns : List String) (values : List Float) : Prop :=
  List.Forall₂ (fun name x => b.get name = .ok x) unknowns values

lemma Bindings.mapM_get_eq_ok_iff :
    unknowns.mapM b.get = .ok values ↔ b.Gives unknowns values := by
  induction unknowns generalizing values with
  | nil =>
      rw [List.mapM_nil, Bindings.Gives, List.forall₂_nil_left_iff]
      exact ⟨fun h => (Except.ok.inj h).symm, fun h => h ▸ rfl⟩
  | cons name unknowns ih =>
      rw [List.mapM_cons, bind_eq_ok_iff, Bindings.Gives, List.forall₂_cons_left_iff]
      refine ⟨?_, ?_⟩
      · rintro ⟨x, hx, h⟩
        obtain ⟨xs, hxs, hvalues⟩ := bind_eq_ok_iff.mp h
        exact ⟨x, xs, hx, ih.mp hxs, (Except.ok.inj hvalues).symm⟩
      · rintro ⟨x, xs, hx, hxs, rfl⟩
        exact ⟨x, hx, bind_eq_ok_iff.mpr ⟨xs, ih.mpr hxs, rfl⟩⟩

/-- Bindings fit some unknowns if there are as many of them and each unknown has a
value. -/
lemma Bindings.resolve_eq_ok_iff :
    b.resolve unknowns = .ok values ↔ b.size = unknowns.length ∧ b.Gives unknowns values := by
  rw [Bindings.resolve, ← Bindings.mapM_get_eq_ok_iff]
  by_cases hsize : b.size = unknowns.length
  · rw [if_pos hsize, and_iff_right hsize]
  · rw [if_neg hsize]
    refine ⟨?_, ?_⟩
    · intro h
      cases h
    · rintro ⟨h, -⟩
      exact absurd h hsize

namespace Program

/-! ### Trees that have a program -/

/-- A tree has a program exactly if each of its names is an unknown. -/
lemma exists_ofExpr_iff :
    (∃ p, ofExpr unknowns e = .ok p) ↔ ∀ name ∈ e.names, name ∈ unknowns :=
  (reports_ofExpr unknowns e).ok_iff

/-! ### The value of a program -/

/-- The place of an unknown holds the value of its name. -/
lemma get_of_idxOf? {name : String} {index : ℕ} (hv : b.Gives unknowns values)
    (hi : unknowns.idxOf? name = some index) : b.get name = .ok (values.getD index 0) := by
  obtain ⟨hlt, hname, -⟩ := List.idxOf?_eq_some_iff.mp hi
  have hlt' : index < values.length := hv.length_eq ▸ hlt
  have hget := hv.get hlt hlt'
  rw [List.getD_eq_getElem values 0 hlt']
  simpa [hname] using hget

/-- A program has the value of its tree: what it finds at a place is what the tree
looks up by name. -/
lemma value_of_ofExpr (hv : b.Gives unknowns values) (h : ofExpr unknowns e = .ok p) :
    e.value b = .ok (p.run values) := by
  induction e generalizing p with
  | literal value span =>
      obtain rfl := Except.ok.inj h
      rfl
  | unknown name span =>
      rw [ofExpr] at h
      split at h
      · next index hi =>
        obtain rfl := Except.ok.inj h
        exact get_of_idxOf? hv hi
      · cases h
  | block child span ih => exact ih h
  | signed sign operand span ih =>
      obtain ⟨q, hq, hp⟩ := bind_eq_ok_iff.mp h
      obtain rfl := Except.ok.inj hp
      exact bind_eq_ok_iff.mpr ⟨q.run values, ih hq, rfl⟩
  | binary op left right span ihl ihr =>
      obtain ⟨l, hl, h⟩ := bind_eq_ok_iff.mp h
      obtain ⟨r, hr, hp⟩ := bind_eq_ok_iff.mp h
      obtain rfl := Except.ok.inj hp
      exact bind_eq_ok_iff.mpr ⟨l.run values, ihl hl,
        bind_eq_ok_iff.mpr ⟨r.run values, ihr hr, rfl⟩⟩

end Program

/-- A compiled tree is evaluated as the tree itself: both hold the bindings against
the unknowns first, and then neither fails. -/
lemma Compiled.evaluate_eq (h : Program.ofExpr unknowns e = .ok p) (b : Bindings) :
    Compiled.evaluate ⟨e, unknowns, p⟩ b = e.evaluate unknowns b := by
  rw [Compiled.evaluate, Expr.evaluate, Bindings.check]
  rcases hr : b.resolve unknowns with fault | values
  · rfl
  · have hv : b.Gives unknowns values := (Bindings.resolve_eq_ok_iff.mp hr).2
    exact (Program.value_of_ofExpr hv h).symm

/-! ### Unknowns that are not those of the tree -/

lemma Compiled.ofExpr_eq_ok_iff {c : Compiled} :
    Compiled.ofExpr e unknowns = .ok c
      ↔ ∃ p, Program.ofExpr unknowns e = .ok p ∧ c = ⟨e, unknowns, p⟩ := by
  rw [Compiled.ofExpr, bind_eq_ok_iff]
  refine exists_congr fun p => and_congr_right fun _ => ?_
  exact ⟨fun h => (Except.ok.inj h).symm, fun h => h ▸ rfl⟩

/-- **Both ways of evaluating, with any unknowns**: a tree is compiled exactly if each of its
names is an unknown, and the leftmost name that is none is reported. What is compiled is
evaluated as the tree itself. Evaluating the tree reports first what holding the bindings
against the unknowns reports; then it answers exactly if each name of the tree has a value,
and the leftmost name without one is reported. -/
theorem evaluation_with_any_unknowns (e : Expr) (unknowns : List String) (b : Bindings) :
    Reports (· ∈ unknowns) e.names (Compiled.ofExpr e unknowns)
      ∧ (∀ c, Compiled.ofExpr e unknowns = .ok c → c.evaluate b = e.evaluate unknowns b)
      ∧ (∀ fault, b.resolve unknowns = .error fault → e.evaluate unknowns b = .error fault)
      ∧ ∀ values, b.resolve unknowns = .ok values →
        Reports b.Binds e.names (e.evaluate unknowns b) := by
  refine ⟨(Program.reports_ofExpr unknowns e).map _, ?_, ?_, ?_⟩
  · intro c hc
    obtain ⟨p, hp, rfl⟩ := Compiled.ofExpr_eq_ok_iff.mp hc
    exact Compiled.evaluate_eq hp b
  · intro fault h
    rw [Expr.evaluate, Bindings.check, h]
    rfl
  · intro values h
    rw [Expr.evaluate, Bindings.check, h]
    exact e.reports_value b

end Formula
