import Formula.Proofs.Lowering

/-!
Which bindings fit some unknowns.

* `Bindings.Holds`: what pairs of names and values are supplied in, a list, an array, a
  map filled from them, or a reference to one of these.
* `Bindings.Lists`: bindings that know the given pairs and nothing else. There is only
  one such (`Lists.unique`), and if the names of the pairs are distinct, whatever holds
  the pairs is such (`lists_of_holds`).
* `Bindings.names_perm_of_resolve`: the names of pairs that fit distinct unknowns are
  the unknowns. Each unknown is the name of a pair, and there are as many pairs as
  unknowns, so that no pair is left for another name or for a repeated one.
* `resolution_follows_names`: what resolving pairs answers depends on which names have
  which values, not on the order of the pairs nor on what holds them.
-/

namespace Formula

namespace Bindings

variable {pairs reordered : List (String × Float)} {unknowns : List String}
  {values : List Float} {b c : Bindings} {name : String} {x : Float}

/-- Bindings that hold some pairs, as they were supplied. -/
inductive Holds (pairs : List (String × Float)) : Bindings → Prop
  | list : Holds pairs (ofList pairs)
  | array : Holds pairs (ofArray pairs.toArray)
  | treeMap : Holds pairs (ofTreeMap (.ofList pairs))
  | hashMap : Holds pairs (ofHashMap (.ofList pairs))
  | ref {b : Bindings} (h : Holds pairs b) : Holds pairs b.ofRef

/-- The bound names and their values are those of the pairs. -/
structure Lists (pairs : List (String × Float)) (b : Bindings) : Prop where
  size_eq : b.size = pairs.length
  find?_eq_some_iff : ∀ name x, b.find? name = some x ↔ (name, x) ∈ pairs

namespace Lists

/-- Only one set of bindings lists some pairs … -/
lemma unique (hb : Lists pairs b) (hc : Lists pairs c) : b = c := by
  obtain ⟨size, find?⟩ := b
  obtain ⟨size', find?'⟩ := c
  have hfind : find? = find?' := by
    funext name
    refine Option.ext fun x => ?_
    exact (hb.find?_eq_some_iff name x).trans (hc.find?_eq_some_iff name x).symm
  rw [hfind, show size = size' from hb.size_eq.trans hc.size_eq.symm]

/-- … whatever their order. -/
lemma perm (hb : Lists pairs b) (hp : reordered.Perm pairs) : Lists reordered b where
  size_eq := hb.size_eq.trans hp.length_eq.symm
  find?_eq_some_iff := fun name x => (hb.find?_eq_some_iff name x).trans hp.mem_iff.symm

/-- Bindings list the pairs if they find each of them, and under no other name a value. -/
lemma of_mem (hsize : b.size = pairs.length)
    (hmem : ∀ name x, (name, x) ∈ pairs → b.find? name = some x)
    (hnone : ∀ name, name ∉ pairs.map Prod.fst → b.find? name = none) : Lists pairs b where
  size_eq := hsize
  find?_eq_some_iff := by
    intro name x
    refine ⟨?_, hmem name x⟩
    intro hfind
    by_cases hname : name ∈ pairs.map Prod.fst
    · obtain ⟨⟨_, y⟩, hy, rfl⟩ := List.mem_map.mp hname
      obtain rfl : x = y := Option.some.inj (hfind.symm.trans (hmem _ y hy))
      exact hy
    · rw [hnone name hname] at hfind
      cases hfind

end Lists

/-! ### Lists of pairs -/

/-- The value that is found in a list stands there with its name. -/
lemma mem_of_find?_ofList (h : (ofList pairs).find? name = some x) : (name, x) ∈ pairs := by
  obtain ⟨⟨name', x'⟩, hfind, rfl⟩ := Option.map_eq_some_iff.mp h
  obtain rfl : name' = name := by simpa using List.find?_some hfind
  exact List.mem_of_find?_eq_some hfind

/-- A name has a value in a list exactly if it is the name of a pair, the first one or a
later one. -/
lemma binds_ofList : (ofList pairs).Binds = fun name => name ∈ pairs.map Prod.fst := by
  funext name
  refine propext ⟨?_, ?_⟩
  · rintro ⟨x, hx⟩
    exact List.mem_map_of_mem (f := Prod.fst) (mem_of_find?_ofList hx)
  · intro hname
    obtain ⟨pair, hmem, hpair⟩ := List.mem_map.mp hname
    have hsome : (pairs.find? (·.1 == name)).isSome :=
      List.find?_isSome.mpr ⟨pair, hmem, beq_iff_eq.mpr hpair⟩
    obtain ⟨found, hfound⟩ := Option.isSome_iff_exists.mp hsome
    exact ⟨found.2, Option.map_eq_some_iff.mpr ⟨found, hfound, rfl⟩⟩

/-! ### Pairs with distinct names -/

section Distinct

variable (hd : (pairs.map Prod.fst).Nodup)
include hd

lemma lists_ofList : Lists pairs (ofList pairs) where
  size_eq := rfl
  find?_eq_some_iff := by
    intro name x
    refine ⟨mem_of_find?_ofList, ?_⟩
    intro hmem
    have hbinds : (ofList pairs).Binds name := by
      rw [binds_ofList]
      exact List.mem_map_of_mem (f := Prod.fst) hmem
    obtain ⟨y, hy⟩ := hbinds
    have heq := List.inj_on_of_nodup_map hd hmem (mem_of_find?_ofList hy) rfl
    rw [(Prod.mk.inj heq).2]
    exact hy

/-- The names are distinct for the order of strings too, by which a map is sorted. -/
lemma lists_ofTreeMap : Lists pairs (ofTreeMap (.ofList pairs)) := by
  have hcmp : pairs.Pairwise fun p q => ¬ compare p.1 q.1 = .eq :=
    (List.pairwise_map.mp hd).imp fun hne heq => hne (Std.LawfulEqCmp.eq_of_compare heq)
  refine Lists.of_mem (Std.TreeMap.size_ofList hcmp) ?_ ?_
  · intro name x hmem
    exact Std.TreeMap.getElem?_ofList_of_mem Std.ReflCmp.compare_self hcmp hmem
  · intro name hname
    exact Std.TreeMap.getElem?_ofList_of_contains_eq_false (by simpa using hname)

lemma lists_ofHashMap : Lists pairs (ofHashMap (.ofList pairs)) := by
  have hbeq : pairs.Pairwise fun p q => (p.1 == q.1) = false :=
    (List.pairwise_map.mp hd).imp fun hne => beq_eq_false_iff_ne.mpr hne
  refine Lists.of_mem (Std.HashMap.size_ofList hbeq) ?_ ?_
  · intro name x hmem
    exact Std.HashMap.getElem?_ofList_of_mem (beq_self_eq_true name) hbeq hmem
  · intro name hname
    exact Std.HashMap.getElem?_ofList_of_contains_eq_false (by simpa using hname)

/-- **What holds pairs with distinct names lists them.** -/
theorem lists_of_holds (h : Holds pairs b) : Lists pairs b := by
  induction h with
  | list => exact lists_ofList hd
  | array =>
      have heq : ofArray pairs.toArray = ofList pairs := by simp [ofArray, ofList]
      rw [heq]
      exact lists_ofList hd
  | treeMap => exact lists_ofTreeMap hd
  | hashMap => exact lists_ofHashMap hd
  | ref _ ih => exact ih

/-- Whatever holds the pairs, the bindings are the same. -/
lemma eq_ofList_of_holds (h : Holds pairs b) : b = ofList pairs :=
  (lists_of_holds hd h).unique (lists_ofList hd)

lemma ofList_eq_of_perm (hp : reordered.Perm pairs) : ofList reordered = ofList pairs := by
  have hd' : (reordered.map Prod.fst).Nodup := (hp.map Prod.fst).nodup_iff.mpr hd
  exact (lists_ofList hd').unique ((lists_ofList hd).perm hp)

end Distinct

/-! ### Pairs that fit distinct unknowns -/

/-- Where the numbers agree, resolving looks up one unknown after the other. -/
lemma resolve_of_size_eq (h : b.size = unknowns.length) :
    b.resolve unknowns = unknowns.mapM b.get := by
  rw [resolve, if_pos h]

/-- The names of pairs that fit distinct unknowns are the unknowns: each unknown is one of
the names, and there are no more names than unknowns. -/
lemma names_perm_of_resolve (hu : unknowns.Nodup)
    (h : (ofList pairs).resolve unknowns = .ok values) : (pairs.map Prod.fst).Perm unknowns := by
  have hsize : (ofList pairs).size = unknowns.length := (resolve_eq_ok_iff.mp h).1
  have hbinds : ∀ name ∈ unknowns, (ofList pairs).Binds name :=
    (reports_mapM_get _ _).ok_iff.mp ⟨values, (resolve_of_size_eq hsize).symm.trans h⟩
  rw [binds_ofList] at hbinds
  refine ((List.subperm_of_subset hu hbinds).perm_of_length_le ?_).symm
  rw [List.length_map]
  exact hsize.le

/-- Pairs whose names are the unknowns fit them. -/
lemma exists_resolve_of_names_perm (hp : (pairs.map Prod.fst).Perm unknowns) :
    ∃ values, (ofList pairs).resolve unknowns = .ok values := by
  have hsize : (ofList pairs).size = unknowns.length := by
    rw [← hp.length_eq, List.length_map]
    rfl
  rw [resolve_of_size_eq hsize, (reports_mapM_get _ _).ok_iff, binds_ofList]
  exact fun name hname => hp.mem_iff.mpr hname

/-- Each unknown is resolved to the value that it is paired with. -/
lemma paired_of_resolve (h : (ofList pairs).resolve unknowns = .ok values) :
    List.Forall₂ (fun name x => (name, x) ∈ pairs) unknowns values := by
  refine (resolve_eq_ok_iff.mp h).2.imp ?_
  intro name x hget
  rw [get] at hget
  split at hget
  · next hfind =>
    obtain rfl := Except.ok.inj hget
    exact mem_of_find?_ofList hfind
  · cases hget

/-- Reordering the pairs changes nothing. Pairs that fit have distinct names; if some do
not fit, there are too many or too few, or the first unknown that is the name of no pair is
reported, and none of this has to do with their order. -/
lemma resolve_of_perm (hu : unknowns.Nodup) (hp : reordered.Perm pairs) :
    (ofList reordered).resolve unknowns = (ofList pairs).resolve unknowns := by
  rcases hr : (ofList pairs).resolve unknowns with fault | values
  · have hlen : (ofList reordered).size = (ofList pairs).size := hp.length_eq
    by_cases hsize : (ofList pairs).size = unknowns.length
    · have hnames : (ofList reordered).Binds = (ofList pairs).Binds := by
        rw [binds_ofList, binds_ofList]
        funext name
        exact propext (hp.map Prod.fst).mem_iff
      have hreordered := reports_mapM_get (ofList reordered) unknowns
      rw [hnames] at hreordered
      rw [resolve_of_size_eq hsize] at hr
      rw [resolve_of_size_eq (hlen.trans hsize)]
      exact (reports_mapM_get (ofList pairs) unknowns).error_of_error hreordered hr
    · rw [resolve, if_neg hsize] at hr
      rw [resolve, if_neg (hlen ▸ hsize), hlen]
      exact hr
  · have hd : (pairs.map Prod.fst).Nodup := (names_perm_of_resolve hu hr).nodup_iff.mpr hu
    rw [ofList_eq_of_perm hd hp]
    exact hr

end Bindings

open Bindings in
/-- **Resolving follows the names**: a list of pairs fits distinct unknowns exactly if its
names are the unknowns, in some order and none of them twice. Then each unknown is resolved
to the value that it is paired with, whatever holds the pairs. Reordering the pairs changes
neither values nor faults. If the names are distinct, all that holds the pairs answers alike,
with faults as well, also for unknowns that are not distinct. -/
theorem resolution_follows_names {unknowns : List String} (hu : unknowns.Nodup)
    (pairs : List (String × Float)) :
    ((∃ values, (ofList pairs).resolve unknowns = .ok values)
        ↔ (pairs.map Prod.fst).Perm unknowns)
      ∧ (∀ values, (ofList pairs).resolve unknowns = .ok values →
        List.Forall₂ (fun name x => (name, x) ∈ pairs) unknowns values
          ∧ ∀ b, Holds pairs b → b.resolve unknowns = .ok values)
      ∧ (∀ reordered, reordered.Perm pairs →
        (ofList reordered).resolve unknowns = (ofList pairs).resolve unknowns)
      ∧ ((pairs.map Prod.fst).Nodup → ∀ (others : List String) (b : Bindings), Holds pairs b →
        b.resolve others = (ofList pairs).resolve others) := by
  refine ⟨⟨?_, exists_resolve_of_names_perm⟩, ?_, fun _ hp => resolve_of_perm hu hp, ?_⟩
  · rintro ⟨values, h⟩
    exact names_perm_of_resolve hu h
  · intro values h
    have hd : (pairs.map Prod.fst).Nodup := (names_perm_of_resolve hu h).nodup_iff.mpr hu
    refine ⟨paired_of_resolve h, ?_⟩
    intro b hb
    rw [eq_ofList_of_holds hd hb]
    exact h
  · intro hd others b hb
    rw [eq_ofList_of_holds hd hb]

open Bindings in
/-- A reference to a map filled from `y = 2` and `x = 0.5` supplies `x` and `y`. -/
theorem resolution_of_referenced_map :
    ["x", "y"].Nodup
      ∧ (ofTreeMap (.ofList [("y", 2), ("x", 0.5)])).ofRef.resolve ["x", "y"] = .ok [0.5, 2] := by
  have hu : ["x", "y"].Nodup := by decide
  have hlist : (ofList [("y", 2), ("x", 0.5)]).resolve ["x", "y"] = .ok [0.5, 2] := rfl
  exact ⟨hu, ((resolution_follows_names hu _).2.1 _ hlist).2 _ (.ref .treeMap)⟩

end Formula
