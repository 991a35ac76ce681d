import Formula.Proofs.Acceptance
import Formula.Proofs.Respan

/-!
Putting an expression in parentheses in the place of a name.

* `Expr.valueUnder`: the value of a tree in which each name has a value.
  `Expr.valueUnder_substitute`: replacing a name by an expression is giving the name the
  value of the expression.
* `Bindings.Supplies`: bindings for some unknowns and for nothing else. Under them both
  ways of evaluating answer the value of the tree (`Expr.yields_of_supplies`).
* `Derives.substitute`: a phrase stays a phrase of its kind when its names are replaced by
  formulas in parentheses, and its tree is the tree with the names replaced.
* `substituted_tokens_keep_value`: tokens with a name replaced are accepted with the tree
  that the replacement gives, and have the value that it gives.
-/

namespace Formula

/-! ### Values of names -/

namespace Expr

/-- The value of a tree in which each name has a value. -/
def valueUnder (v : String → Float) : Expr → Float
  | literal x _ => x
  | unknown name _ => v name
  | block child _ => child.valueUnder v
  | signed sign operand _ => sign.apply (operand.valueUnder v)
  | binary op left right _ => op.apply (left.valueUnder v) (right.valueUnder v)

/-- The tree with a parenthesised expression in the place of each occurrence of a name. -/
def substitute (e : Expr) (x : String) (r : Expr) : Expr :=
  match e with
  | literal value span => literal value span
  | unknown name span => if name = x then block r span else unknown name span
  | block child span => block (child.substitute x r) span
  | signed sign operand span => signed sign (operand.substitute x r) span
  | binary op left right span => binary op (left.substitute x r) (right.substitute x r) span

variable (v : String → Float) (e : Expr)

@[simp] lemma valueUnder_mapSpans (f : Span → Span) :
    (e.mapSpans f).valueUnder v = e.valueUnder v := by
  induction e with
  | literal | unknown => rfl
  | block child span ih => exact ih
  | signed sign operand span ih => rw [mapSpans, valueUnder, valueUnder, ih]
  | binary op left right span ihl ihr => rw [mapSpans, valueUnder, valueUnder, ihl, ihr]

lemma valueUnder_eq_of_bare {e e' : Expr} (h : e.bare = e'.bare) :
    e.valueUnder v = e'.valueUnder v := by
  calc e.valueUnder v = e.bare.valueUnder v := (valueUnder_mapSpans v e _).symm
    _ = e'.bare.valueUnder v := by rw [h]
    _ = e'.valueUnder v := valueUnder_mapSpans v e' _

/-- Replacing a name by an expression is giving the name the value of the expression. -/
theorem valueUnder_substitute (x : String) (r : Expr) :
    (e.substitute x r).valueUnder v = e.valueUnder (Function.update v x (r.valueUnder v)) := by
  induction e with
  | literal value span => rfl
  | unknown name span =>
      rw [substitute, valueUnder]
      by_cases hx : name = x
      · rw [if_pos hx, hx, Function.update_self]
        rfl
      · rw [if_neg hx, Function.update_of_ne hx]
        rfl
  | block child span ih => exact ih
  | signed sign operand span ih => rw [substitute, valueUnder, valueUnder, ih]
  | binary op left right span ihl ihr => rw [substitute, valueUnder, valueUnder, ihl, ihr]

variable {v e} {b : Bindings} {unknowns : List String}

/-- Where the names of a tree are bound to values, the tree has its value under them. -/
lemma value_of_forall_get (h : ∀ name ∈ e.names, b.get name = .ok (v name)) :
    e.value b = .ok (e.valueUnder v) := by
  induction e with
  | literal => rfl
  | unknown name span => exact h name (List.mem_singleton_self name)
  | block child span ih => exact ih h
  | signed sign operand span ih => exact bind_eq_ok_iff.mpr ⟨_, ih h, rfl⟩
  | binary op left right span ihl ihr =>
      obtain ⟨hl, hr⟩ := List.forall_mem_append.mp h
      exact bind_eq_ok_iff.mpr ⟨_, ihl hl, bind_eq_ok_iff.mpr ⟨_, ihr hr, rfl⟩⟩

end Expr

/-! ### Bindings for the unknowns and nothing else -/

/-- The unknowns are bound to their values, and nothing else is bound. -/
structure Bindings.Supplies (b : Bindings) (v : String → Float) (unknowns : List String) :
    Prop where
  size_eq : b.size = unknowns.length
  find?_eq : ∀ name, b.find? name = if name ∈ unknowns then some (v name) else none

/-- Both ways of evaluating a tree, by its names and by its program, answer a value. -/
def Expr.Yields (e : Expr) (unknowns : List String) (b : Bindings) (y : Float) : Prop :=
  e.evaluate unknowns b = .ok y
    ∧ (Compiled.ofExpr e unknowns >>= fun c => c.evaluate b) = .ok y

variable {b : Bindings} {v : String → Float} {unknowns : List String} {e : Expr}

namespace Bindings

/-- The unknowns with their values, in a list. -/
lemma supplies_ofList (v : String → Float) (unknowns : List String) :
    (ofList (unknowns.map fun name => (name, v name))).Supplies v unknowns where
  size_eq := List.length_map _
  find?_eq := by
    intro name
    rw [ofList]
    induction unknowns with
    | nil => rfl
    | cons first unknowns ih =>
        by_cases hf : first = name
        · simp [hf]
        · simpa [hf, Ne.symm hf] using ih

namespace Supplies

lemma get_eq (h : b.Supplies v unknowns) {name : String} (hn : name ∈ unknowns) :
    b.get name = .ok (v name) := by
  rw [get, h.find?_eq, if_pos hn]

/-- Bindings for the unknowns fit them. -/
lemma resolve_eq (h : b.Supplies v unknowns) : b.resolve unknowns = .ok (unknowns.map v) := by
  refine resolve_eq_ok_iff.mpr ⟨h.size_eq, ?_⟩
  rw [Gives, List.forall₂_map_right_iff, List.forall₂_same]
  exact fun name hn => h.get_eq hn

end Supplies

end Bindings

/-- Under bindings for the unknowns a tree made of them has its value, evaluated directly
and compiled. -/
lemma Expr.yields_of_supplies (hb : b.Supplies v unknowns)
    (hu : ∀ name ∈ e.names, name ∈ unknowns) : e.Yields unknowns b (e.valueUnder v) := by
  have hdirect : e.evaluate unknowns b = .ok (e.valueUnder v) := by
    rw [evaluate, Bindings.check, hb.resolve_eq]
    exact value_of_forall_get fun name hn => hb.get_eq (hu name hn)
  obtain ⟨p, hp⟩ := Program.exists_ofExpr_iff.mpr hu
  have hcompiled : Compiled.ofExpr e unknowns = .ok ⟨e, unknowns, p⟩ :=
    bind_eq_ok_iff.mpr ⟨p, hp, rfl⟩
  refine ⟨hdirect, ?_⟩
  rw [hcompiled]
  exact (Compiled.evaluate_eq hp b).trans hdirect

/-! ### Tokens with a name replaced -/

/-- The kinds with a formula in parentheses in the place of each occurrence of a name. -/
def Token.Kind.substitute (x : String) (formula kinds : List Token.Kind) : List Token.Kind :=
  kinds.flatMap fun kind => if kind = .name x then .lparen :: (formula ++ [.rparen]) else [kind]

/-- The tokens with a formula in parentheses in the place of each occurrence of a name.
The new parentheses have no text. -/
def Token.substitute (x : String) (formula ts : List Token) : List Token :=
  ts.flatMap fun t =>
    if t.kind = .name x then
      ⟨.lparen, Span.point 0⟩ :: (formula ++ [⟨.rparen, Span.point 0⟩])
    else [t]

namespace Token

variable {x : String} {formula : List Token}

lemma map_kind_substitute (x : String) (formula ts : List Token) :
    (substitute x formula ts).map (·.kind)
      = Kind.substitute x (formula.map (·.kind)) (ts.map (·.kind)) := by
  rw [substitute, Kind.substitute, List.map_flatMap, List.flatMap_map]
  congr 1
  funext t
  split <;> simp

@[simp] lemma substitute_append (ts us : List Token) :
    substitute x formula (ts ++ us) = substitute x formula ts ++ substitute x formula us :=
  List.flatMap_append

lemma substitute_cons_of_ne {t : Token} (h : t.kind ≠ .name x) (ts : List Token) :
    substitute x formula (t :: ts) = t :: substitute x formula ts := by
  rw [substitute, List.flatMap_cons, if_neg h]
  rfl

lemma substitute_of_ne {t : Token} (h : t.kind ≠ .name x) : substitute x formula [t] = [t] :=
  substitute_cons_of_ne h []

lemma substitute_name (x : String) (formula : List Token) (span : Span) :
    substitute x formula [⟨.name x, span⟩]
      = ⟨.lparen, Span.point 0⟩ :: (formula ++ [⟨.rparen, Span.point 0⟩]) := by
  rw [substitute, List.flatMap_singleton, if_pos rfl]

end Token

variable {phrase : Phrase} {ts es us : List Token} {t r : Expr}

/-- A phrase whose names are replaced by formulas in parentheses is a phrase of the same
kind. What is put in is a primary, and so it binds as tightly as the name did. -/
theorem Derives.substitute (h : Derives phrase ts t) (hr : Derives (.chain .sum) es r)
    (x : String) :
    ∃ u, Derives phrase (Token.substitute x es ts) u ∧ u.bare = (t.substitute x r).bare := by
  induction h using Derives.byRank with
  | first _ ih =>
      obtain ⟨u, hu, hb⟩ := ih
      exact ⟨u, hu.first, hb⟩
  | base _ ih =>
      obtain ⟨u, hu, hb⟩ := ih
      exact ⟨u, hu.base, hb⟩
  | unsigned _ ih =>
      obtain ⟨u, hu, hb⟩ := ih
      exact ⟨u, hu.unsigned, hb⟩
  | join _ hop _ ihl ihr =>
      obtain ⟨l, hl, hbl⟩ := ihl
      obtain ⟨r, hr, hbr⟩ := ihr
      rw [Token.substitute_append, Token.substitute_cons_of_ne (by simp)]
      refine ⟨_, hl.join hop hr, ?_⟩
      rw [Expr.substitute, Expr.bare_binary, Expr.bare_binary, hbl, hbr]
  | raise _ _ ihb ihe =>
      obtain ⟨b, hb, hbb⟩ := ihb
      obtain ⟨e, he, hbe⟩ := ihe
      rw [Token.substitute_append, Token.substitute_cons_of_ne (by simp)]
      refine ⟨_, hb.raise he, ?_⟩
      rw [Expr.substitute, Expr.bare_binary, Expr.bare_binary, hbb, hbe]
  | sign hop _ ih =>
      obtain ⟨e, he, hbe⟩ := ih
      rw [Token.substitute_cons_of_ne (by simp)]
      refine ⟨_, he.sign hop, ?_⟩
      rw [Expr.substitute, Expr.bare_signed, Expr.bare_signed, hbe]
  | number =>
      rw [Token.substitute_of_ne (by simp)]
      exact ⟨_, Derives.number, rfl⟩
  | @name name span =>
      by_cases hx : name = x
      · subst hx
        rw [Token.substitute_name, Expr.substitute, if_pos rfl]
        exact ⟨_, hr.group, rfl⟩
      · rw [Token.substitute_of_ne (by simpa using hx), Expr.substitute, if_neg hx]
        exact ⟨_, Derives.name, rfl⟩
  | group _ ih =>
      obtain ⟨e, he, hbe⟩ := ih
      rw [Token.substitute_cons_of_ne (by simp), Token.substitute_append,
        Token.substitute_of_ne (by simp)]
      exact ⟨_, he.group, by rw [Expr.substitute, Expr.bare_block, Expr.bare_block, hbe]⟩

/-- The unknowns of the tokens of a formula supply its tree. -/
lemma Derives.yields (h : Derives (.chain .sum) ts t) (hb : b.Supplies v (Token.unknowns ts)) :
    t.Yields (Token.unknowns ts) b (t.valueUnder v) := by
  refine Expr.yields_of_supplies hb fun name hn => ?_
  rw [unknowns_eq h, List.mem_eraseDups]
  exact hn

/-- **Replacing a name by an expression in parentheses is sound**: if some tokens have a
tree and those of an expression have one, then tokens of the kinds that come about when the
expression, in parentheses, takes the place of a name are accepted within every limit that
the tree with the name replaced respects, with this tree except for spans. Whatever values
the names have, they have the value of the first tree in which the replaced name has the
value of the expression. This holds for both ways of evaluating, each under bindings for
just the unknowns of the tokens. -/
theorem substituted_tokens_keep_value {limits limits' : Limits} (x : String)
    (ht : Expr.build limits ts = .ok t) (hr : Expr.build limits' es = .ok r)
    (hu : us.map (·.kind) = Token.Kind.substitute x (es.map (·.kind)) (ts.map (·.kind))) :
    ∃ u, (∀ limits : Limits, (t.substitute x r).height ≤ limits.maxDepth →
          Expr.build limits us = .ok u)
      ∧ u.bare = (t.substitute x r).bare
      ∧ ∀ (v : String → Float) (br bu : Bindings), br.Supplies v (Token.unknowns es) →
          bu.Supplies v (Token.unknowns us) →
          ∃ y, r.Yields (Token.unknowns es) br y
            ∧ ∀ bt : Bindings, bt.Supplies (Function.update v x y) (Token.unknowns ts) →
              ∃ z, t.Yields (Token.unknowns ts) bt z ∧ u.Yields (Token.unknowns us) bu z := by
  have hdt := derives_of_build ht
  have hdr := derives_of_build hr
  rw [← Token.map_kind_substitute] at hu
  obtain ⟨u', hu', hbare'⟩ := hdt.substitute hdr x
  obtain ⟨u, hdu, hbare⟩ := hu'.respan hu
  have hsame : u.bare = (t.substitute x r).bare := hbare.trans hbare'
  refine ⟨u, ?_, hsame, ?_⟩
  · intro limits hheight
    rw [← Expr.height_eq_of_bare hsame] at hheight
    exact build_of_derives hdu hheight
  · intro v br bu hbr hbu
    refine ⟨r.valueUnder v, hdr.yields hbr, ?_⟩
    intro bt hbt
    have hvalue : t.valueUnder (Function.update v x (r.valueUnder v)) = u.valueUnder v := by
      rw [Expr.valueUnder_eq_of_bare v hsame, Expr.valueUnder_substitute]
    refine ⟨u.valueUnder v, ?_, hdu.yields hbu⟩
    rw [← hvalue]
    exact hdt.yields hbt

/-- With `y + 1` in parentheses in the place of `x`, `-x * y` becomes `-(y + 1) * y`, and
the limits that this tree just respects admit it. -/
theorem substituted_sum_behind_sign :
    let one : Float := Float.ofBits 0x3ff0000000000000
    let ts : List Token := [⟨.operator .sub, ⟨0, 1⟩⟩, ⟨.name "x", ⟨1, 2⟩⟩,
      ⟨.operator .mul, ⟨3, 4⟩⟩, ⟨.name "y", ⟨5, 6⟩⟩]
    let es : List Token := [⟨.name "y", ⟨0, 1⟩⟩, ⟨.operator .add, ⟨2, 3⟩⟩, ⟨.number one, ⟨4, 5⟩⟩]
    let us : List Token := [⟨.operator .sub, ⟨0, 1⟩⟩, ⟨.lparen, ⟨1, 2⟩⟩, ⟨.name "y", ⟨2, 3⟩⟩,
      ⟨.operator .add, ⟨4, 5⟩⟩, ⟨.number one, ⟨6, 7⟩⟩, ⟨.rparen, ⟨7, 8⟩⟩,
      ⟨.operator .mul, ⟨9, 10⟩⟩, ⟨.name "y", ⟨11, 12⟩⟩]
    let t : Expr := .binary .mul (.signed .minus (.unknown "x" ⟨1, 2⟩) ⟨0, 2⟩)
      (.unknown "y" ⟨5, 6⟩) ⟨0, 6⟩
    let r : Expr := .binary .add (.unknown "y" ⟨0, 1⟩) (.literal one ⟨4, 5⟩) ⟨0, 5⟩
    Expr.build ⟨2, 4⟩ ts = .ok t ∧ Expr.build ⟨1, 3⟩ es = .ok r
      ∧ ∃ u, Expr.build ⟨4, 8⟩ us = .ok u ∧ u.bare = (t.substitute "x" r).bare
        ∧ ∀ y : Float, ∃ z, t.Yields ["x", "y"] (.ofList [("x", y + one), ("y", y)]) z
          ∧ u.Yields ["y"] (.ofList [("y", y)]) z := by
  intro one ts es us t r
  have ht : Expr.build ⟨2, 4⟩ ts = .ok t := by cbv
  have hr : Expr.build ⟨1, 3⟩ es = .ok r := by cbv
  have hus : us.map (·.kind)
      = Token.Kind.substitute "x" (es.map (·.kind)) (ts.map (·.kind)) := rfl
  obtain ⟨u, hu, hbare, hvalue⟩ := substituted_tokens_keep_value "x" ht hr hus
  refine ⟨ht, hr, u, hu ⟨4, 8⟩ (by decide), hbare, ?_⟩
  intro y
  let v : String → Float := fun _ => y
  obtain ⟨sum, hsum, hall⟩ := hvalue v _ _ (Bindings.supplies_ofList v (Token.unknowns es))
    (Bindings.supplies_ofList v (Token.unknowns us))
  obtain rfl : y + one = sum := Except.ok.inj hsum.1
  have hbound := Bindings.supplies_ofList (Function.update v "x" (y + one)) ["x", "y"]
  rw [List.map_cons, Function.update_self, List.map_singleton,
    Function.update_of_ne (by decide)] at hbound
  exact hall _ hbound

end Formula
