import Formula.Evaluation
import Formula.Program
import Formula.Proofs.Grammar

/-!
The leftmost name that is missing.

* `FirstWithout`: the first of some names that lacks what each of them needs, a place
  or a value. `FirstWithout.unique`: there is only one.
* `Reports`: an outcome that answers if no name lacks what it needs, and reports the
  first that does otherwise. `Reports.bind` puts outcomes together whose names stand
  one behind the other.
* `Program.reports_ofExpr`, `Expr.reports_value`, `Bindings.reports_mapM_get`: making
  the program of a tree reports the leftmost name that is no unknown; evaluating the
  tree and looking up the unknowns report the first name without a value.
-/

namespace Formula

variable {α β : Type} {has : String → Prop} {names more : List String} {name other : String}

/-- A name is the first of some names that lacks what they need. -/
def FirstWithout (has : String → Prop) (names : List String) (name : String) : Prop :=
  ∃ before behind, names = before ++ name :: behind ∧ (∀ n ∈ before, has n) ∧ ¬ has name

namespace FirstWithout

/-- More names behind the first one that lacks something change nothing … -/
lemma append (h : FirstWithout has names name) (more : List String) :
    FirstWithout has (names ++ more) name := by
  obtain ⟨before, behind, rfl, hbefore, hname⟩ := h
  exact ⟨before, behind ++ more, by simp, hbefore, hname⟩

/-- … nor do names in front of it that lack nothing. -/
lemma behind (h : FirstWithout has more name) (hall : ∀ n ∈ names, has n) :
    FirstWithout has (names ++ more) name := by
  obtain ⟨before, behind, rfl, hbefore, hname⟩ := h
  exact ⟨names ++ before, behind, by simp, List.forall_mem_append.mpr ⟨hall, hbefore⟩, hname⟩

/-- Only one name is the first. -/
lemma unique (h : FirstWithout has names name) (h' : FirstWithout has names other) :
    name = other := by
  obtain ⟨before, behind, rfl, hbefore, hname⟩ := h
  obtain ⟨before', behind', heq, hbefore', hother⟩ := h'
  rcases List.append_eq_append_iff.mp heq with ⟨_ | ⟨first, between⟩, hb, hrest⟩
    | ⟨_ | ⟨first, between⟩, hb, hrest⟩
  · exact (List.cons.inj hrest).1
  · obtain rfl : name = first := (List.cons.inj hrest).1
    exact absurd (hbefore' name (by simp [hb])) hname
  · exact (List.cons.inj hrest).1.symm
  · obtain rfl : other = first := (List.cons.inj hrest).1
    exact absurd (hbefore other (by simp [hb])) hother

end FirstWithout

/-- An outcome that answers exactly if each name has what it needs. Otherwise it reports
that the first name without is missing. -/
structure Reports (has : String → Prop) (names : List String) (x : Except Fault α) : Prop where
  ok_iff : (∃ a, x = .ok a) ↔ ∀ n ∈ names, has n
  first : ∀ fault, x = .error fault →
    ∃ name, FirstWithout has names name ∧ fault = .missingVariable name

namespace Reports

variable {x : Except Fault α}

/-- Without names there is nothing to report. -/
lemma pure (a : α) : Reports has [] (.ok a : Except Fault α) where
  ok_iff := ⟨fun _ => List.forall_mem_nil _, fun _ => ⟨a, rfl⟩⟩
  first := fun _ h => nomatch h

/-- A name that has what it needs. -/
lemma single (h : has name) (a : α) : Reports has [name] (.ok a : Except Fault α) where
  ok_iff := ⟨fun _ => (List.forall_mem_singleton ..).mpr h, fun _ => ⟨a, rfl⟩⟩
  first := fun _ h => nomatch h

/-- A name that lacks what it needs is missing, whatever stands behind it. -/
lemma missing (h : FirstWithout has names name) :
    Reports has names (.error (.missingVariable name) : Except Fault α) where
  ok_iff := by
    obtain ⟨before, behind, rfl, -, hname⟩ := h
    refine ⟨?_, ?_⟩
    · rintro ⟨a, ha⟩
      cases ha
    · intro hall
      exact absurd (hall name (by simp)) hname
  first := by
    intro fault he
    exact ⟨name, h, (Except.error.inj he).symm⟩

/-- Two steps, of which the second one is about the names behind those of the first. -/
lemma bind {f : α → Except Fault β} (hx : Reports has names x)
    (hf : ∀ a, x = .ok a → Reports has more (f a)) : Reports has (names ++ more) (x >>= f) := by
  match x, hx, hf with
  | .error fault, hx, _ =>
      obtain ⟨name, hfirst, rfl⟩ := hx.first fault rfl
      exact missing (hfirst.append more)
  | .ok a, hx, hf =>
      have hall : ∀ n ∈ names, has n := hx.ok_iff.mp ⟨a, rfl⟩
      have hrest : Reports has more (f a) := hf a rfl
      refine ⟨?_, ?_⟩
      · rw [List.forall_mem_append, and_iff_right hall]
        exact hrest.ok_iff
      · intro fault he
        obtain ⟨name, hfirst, hfault⟩ := hrest.first fault he
        exact ⟨name, hfirst.behind hall, hfault⟩

/-- A step that is about no name may follow. -/
lemma map (hx : Reports has names x) (f : α → β) :
    Reports has names (x >>= fun a => .ok (f a)) := by
  rw [← List.append_nil names]
  exact hx.bind fun a _ => pure (f a)

/-- Two outcomes on the same names fail alike. -/
lemma error_of_error {y : Except Fault β} (hx : Reports has names x) (hy : Reports has names y)
    {fault : Fault} (h : x = .error fault) : y = .error fault := by
  rcases hf : y with fault' | b
  · obtain ⟨name, hname, rfl⟩ := hx.first fault h
    obtain ⟨name', hname', rfl⟩ := hy.first fault' hf
    rw [hname.unique hname']
  · obtain ⟨a, ha⟩ := hx.ok_iff.mpr (hy.ok_iff.mp ⟨b, hf⟩)
    rw [ha] at h
    cases h

end Reports

variable {unknowns : List String} {b : Bindings}

/-! ### What the walks over a tree report -/

/-- A single name is missing if it lacks what it needs. -/
lemma firstWithout_singleton (h : ¬ has name) : FirstWithout has [name] name :=
  ⟨[], [], rfl, List.forall_mem_nil _, h⟩

/-- Making the program of a tree reports the leftmost name that is no unknown. -/
theorem Program.reports_ofExpr (unknowns : List String) (e : Expr) :
    Reports (· ∈ unknowns) e.names (ofExpr unknowns e) := by
  induction e with
  | literal value span => exact Reports.pure _
  | unknown name span =>
      rw [ofExpr, Expr.names]
      rcases hi : unknowns.idxOf? name with _ | index
      · exact Reports.missing (firstWithout_singleton (List.idxOf?_eq_none_iff.mp hi))
      · have hmem : name ∈ unknowns := by
          rw [← List.isSome_idxOf?, hi]
          rfl
        exact Reports.single hmem _
  | block child span ih => exact ih
  | signed sign operand span ih => exact ih.map _
  | binary op left right span ihl ihr => exact ihl.bind fun l _ => ihr.map _

/-- A name has a value under some bindings. -/
def Bindings.Binds (b : Bindings) (name : String) : Prop := ∃ x, b.find? name = some x

/-- Looking up a name reports it if it has no value. -/
lemma Bindings.reports_get (b : Bindings) (name : String) :
    Reports b.Binds [name] (b.get name) := by
  rw [get]
  rcases hx : b.find? name with _ | x
  · exact Reports.missing (firstWithout_singleton (by simp [Binds, hx]))
  · exact Reports.single ⟨x, hx⟩ x

/-- Evaluating a tree reports its leftmost name without a value. -/
theorem Expr.reports_value (b : Bindings) (e : Expr) : Reports b.Binds e.names (e.value b) := by
  induction e with
  | literal value span => exact Reports.pure _
  | unknown name span => exact b.reports_get name
  | block child span ih => exact ih
  | signed sign operand span ih => exact ih.map _
  | binary op left right span ihl ihr => exact ihl.bind fun x _ => ihr.map _

/-- Looking up some unknowns reports the first one without a value. -/
theorem Bindings.reports_mapM_get (b : Bindings) (unknowns : List String) :
    Reports b.Binds unknowns (unknowns.mapM b.get) := by
  induction unknowns with
  | nil => exact Reports.pure _
  | cons name unknowns ih =>
      rw [List.mapM_cons, ← List.singleton_append]
      exact (b.reports_get name).bind fun x _ => ih.map _

end Formula
