import QueryTree.Condition.Combine
import QueryTree.Proofs.Equality
import QueryTree.Update

/-! # Operations on equal nodes

Equal nodes may differ below, in the scale of a decimal or in what equality of joins leaves out. The
operations on groups, conditions, joins and updates do not tell equal arguments apart: they take the
same branches, make equal nodes, and refuse with the same errors.
-/

namespace QueryTree

/-- Results are equal when they are the same error or equal values. -/
instance instBEqExcept {ε α : Type} [BEq ε] [BEq α] : BEq (Except ε α) where
  beq
    | .ok a, .ok b => a == b
    | .error e, .error e' => e == e'
    | _, _ => false

namespace Except

variable {ε α β : Type} [BEq ε] [BEq α] [BEq β] {x y : Except ε α}

/-- How two results are equal: both are errors, or both are values. -/
inductive EqualParts : Except ε α → Except ε α → Prop where
  | error {e e' : ε} : e == e' → EqualParts (.error e) (.error e')
  | ok {a b : α} : a == b → EqualParts (.ok a) (.ok b)

/-- Equal results have equal parts. -/
theorem equalParts_of_beq (h : x == y) : EqualParts x y := by
  cases x with
  | error e =>
    cases y with
    | error e' => exact .error h
    | ok b => cases h
  | ok a =>
    cases y with
    | error e' => cases h
    | ok b => exact .ok h

/-- Equal results are continued alike by functions that give equal results on equal values. -/
theorem bind_beq {f g : α → Except ε β} (h : x == y) (hfg : ∀ a b, a == b → f a == g b) :
    (x >>= f) == (y >>= g) := by
  cases equalParts_of_beq h with
  | error he => exact he
  | ok hab => exact hfg _ _ hab

/-- Mapping equal results gives equal results. -/
theorem map_beq {f g : α → β} (h : x == y) (hfg : ∀ a b, a == b → f a == g b) :
    x.map f == y.map g := by
  cases equalParts_of_beq h with
  | error he => exact he
  | ok hab => exact hfg _ _ hab

/-- Mapping the errors of equal results gives equal results. -/
theorem mapError_beq {δ : Type} [BEq δ] {f : ε → δ} (h : x == y)
    (hf : ∀ e e', e == e' → f e == f e') : x.mapError f == y.mapError f := by
  cases equalParts_of_beq h with
  | error he => exact hf _ _ he
  | ok hab => exact hab

end Except

/-! ## Lists and options -/

section Lists

variable {α β : Type} [BEq α] [BEq β] {as bs cs ds : List α} {x y : Option α}

/-- Appending equal lists gives equal lists. -/
theorem append_beq (h : as == bs) (h' : cs == ds) : as ++ cs == bs ++ ds := by
  rw [list_beq_iff_forall₂] at h h' ⊢
  exact List.rel_append h h'

/-- Mapping equal lists gives equal lists. -/
theorem map_beq {f g : α → β} (h : as == bs) (hfg : ∀ a b, a == b → f a == g b) :
    as.map f == bs.map g := by
  rw [list_beq_iff_forall₂] at h ⊢
  exact List.rel_map (fun a b => hfg a b) h

/-- Replacing equal items by equal lists gives equal lists. -/
theorem flatMap_beq {f g : α → List β} (h : as == bs) (hfg : ∀ a b, a == b → f a == g b) :
    as.flatMap f == bs.flatMap g := by
  rw [list_beq_iff_forall₂] at h ⊢
  exact List.rel_flatMap h fun a b hab => list_beq_iff_forall₂.1 (hfg a b hab)

/-- Equal lists have the same length. -/
theorem length_eq_of_beq (h : as == bs) : as.length = bs.length :=
  (list_beq_iff_forall₂.1 h).length_eq

/-- Equal lists are empty alike. -/
theorem isEmpty_eq_of_beq (h : as == bs) : as.isEmpty = bs.isEmpty := by
  have hlength := length_eq_of_beq h
  rw [Bool.eq_iff_iff, List.isEmpty_iff_length_eq_zero, List.isEmpty_iff_length_eq_zero, hlength]

/-- Filtering equal lists by what equal items have alike gives equal lists. -/
theorem filter_beq {p : α → Bool} (h : as == bs) (hp : ∀ a b, a == b → p a = p b) :
    as.filter p == bs.filter p := by
  rw [list_beq_iff_forall₂] at h ⊢
  exact List.rel_filter (fun a b hab => Bool.eq_iff_iff.1 (hp a b hab)) h

/-- The first items with a property are equal if equal items have it alike. -/
theorem find?_beq {p : α → Bool} (h : as == bs) (hp : ∀ a b, a == b → p a = p b) :
    as.find? p == bs.find? p := by
  induction as generalizing bs with
  | nil =>
    rw [nil_beq_iff.1 h]
    rfl
  | cons a as ih =>
    obtain ⟨b, bs, rfl, hab, hrest⟩ := cons_beq_iff.1 h
    rw [List.find?_cons, List.find?_cons, ← hp a b hab]
    cases p a with
    | true => exact hab
    | false => exact ih hrest

/-- Mapping equal optional values gives equal optional values. -/
theorem option_map_beq {f g : α → β} (h : x == y) (hfg : ∀ a b, a == b → f a == g b) :
    x.map f == y.map g := by
  cases x with
  | none =>
    rw [none_beq_iff.1 h]
    rfl
  | some a =>
    obtain ⟨b, rfl, hab⟩ := some_beq_iff.1 h
    exact hfg a b hab

/-- Equal optional values are present alike. -/
theorem isSome_eq_of_beq (h : x == y) : x.isSome = y.isSome := by
  cases x with
  | none => rw [none_beq_iff.1 h]
  | some a =>
    obtain ⟨b, rfl, -⟩ := some_beq_iff.1 h
    rfl

/-- Running through equal lists gives equal results, errors included. -/
theorem mapM_beq {ε : Type} [BEq ε] {f g : α → Except ε β} (h : as == bs)
    (hfg : ∀ a b, a == b → f a == g b) : as.mapM f == bs.mapM g := by
  induction as generalizing bs with
  | nil =>
    rw [nil_beq_iff.1 h]
    rfl
  | cons a as ih =>
    obtain ⟨b, bs, rfl, hab, hrest⟩ := cons_beq_iff.1 h
    rw [List.mapM_cons, List.mapM_cons]
    refine Except.bind_beq (hfg a b hab) fun c d hcd => ?_
    refine Except.bind_beq (ih hrest) fun cs ds hds => ?_
    exact cons_beq_iff.2 ⟨d, ds, rfl, hcd, hds⟩

/-- The same for an optional value. -/
theorem option_mapM_beq {ε : Type} [BEq ε] {f g : α → Except ε β} (h : x == y)
    (hfg : ∀ a b, a == b → f a == g b) : x.mapM f == y.mapM g := by
  cases x with
  | none =>
    rw [none_beq_iff.1 h]
    rfl
  | some a =>
    obtain ⟨b, rfl, hab⟩ := some_beq_iff.1 h
    exact Except.bind_beq (hfg a b hab) fun c d hcd => some_beq_iff.2 ⟨d, rfl, hcd⟩

end Lists

/-! ## Groups -/

namespace Groups

variable {α β : Type} [BEq α] [BEq β] {g g' h h' : Groups α} {xs ys : List α} {key : GroupKey}

/-- Equal entries are updated at a key to equal entries. -/
theorem updateEntries_beq {f f' : List α → List α} {entries entries' : List (GroupKey × List α)}
    (hentries : entries == entries') (hf : ∀ xs ys, xs == ys → f xs == f' ys) :
    updateEntries key f entries == updateEntries key f' entries' := by
  have hentry : ∀ (k : GroupKey) {xs ys : List α}, xs == ys → (k, f xs) == (k, f' ys) :=
    fun k _ _ h => pair_beq_iff.2 ⟨beq_self_eq_true k, hf _ _ h⟩
  induction entries generalizing entries' with
  | nil =>
    rw [nil_beq_iff.1 hentries]
    exact cons_beq_iff.2 ⟨_, _, rfl, hentry key rfl, rfl⟩
  | cons e rest ih =>
    obtain ⟨⟨k', ys⟩, rest', rfl, he, hrest⟩ := cons_beq_iff.1 hentries
    obtain ⟨k, xs⟩ := e
    obtain ⟨hk, hxs⟩ := pair_beq_iff.1 he
    obtain rfl : k = k' := eq_of_beq hk
    rw [updateEntries, updateEntries]
    cases compare key k with
    | lt => exact cons_beq_iff.2 ⟨_, _, rfl, hentry key rfl, hentries⟩
    | eq => exact cons_beq_iff.2 ⟨_, _, rfl, hentry k hxs, hrest⟩
    | gt => exact cons_beq_iff.2 ⟨_, _, rfl, he, ih hrest⟩

/-- Equal groups are updated at a key to equal groups. -/
theorem update_beq {f f' : List α → List α} (hg : g == h)
    (hf : ∀ xs ys, xs == ys → f xs == f' ys) : g.update key f == h.update key f' :=
  have hentries : g.entries == h.entries := hg
  updateEntries_beq hentries hf

/-- Inserting equal lists under a key gives equal groups. -/
theorem insert_beq (hg : g == h) (hxs : xs == ys) : g.insert key xs == h.insert key ys :=
  update_beq hg fun _ _ _ => hxs

/-- Appending equal lists under a key gives equal groups. -/
theorem appendTo_beq (hg : g == h) (hxs : xs == ys) : g.appendTo key xs == h.appendTo key ys :=
  update_beq hg fun _ _ hzs => append_beq hzs hxs

/-- Adding equal optional items under a key gives equal groups. -/
theorem addTo_beq {x y : Option α} (hg : g == h) (hxy : x == y) :
    g.addTo key x == h.addTo key y := by
  cases x with
  | none =>
    rw [none_beq_iff.1 hxy]
    exact hg
  | some a =>
    obtain ⟨b, rfl, hab⟩ := some_beq_iff.1 hxy
    exact appendTo_beq hg (cons_beq_iff.2 ⟨b, [], rfl, hab, rfl⟩)

/-- Adding equal optional items gives equal groups. -/
theorem add_beq {x y : Option α} (hg : g == h) (hxy : x == y) : g.add x == h.add y :=
  addTo_beq hg hxy

/-- Both sides append equal items to equal groups, one after the other. -/
theorem extend_beq (hg : g == h) (hxs : xs == ys) : g.extend xs == h.extend ys :=
  List.rel_foldl (P := fun (a b : Groups α) => a == b)
    (fun _ _ hab _ _ hxy => add_beq hab (some_beq_iff.2 ⟨_, rfl, hxy⟩)) hg
    (list_beq_iff_forall₂.1 hxs)

/-- Equal groups stay equal without a key. -/
theorem erase_beq (hg : g == h) : g.erase key == h.erase key :=
  filter_beq hg fun e e' he => by rw [eq_of_beq (pair_beq_iff.1 he).1]

/-- Setting a key to equal optional items gives equal groups. -/
theorem set_beq {x y : Option α} (hg : g == h) (hxy : x == y) : g.set key x == h.set key y := by
  cases x with
  | none =>
    rw [none_beq_iff.1 hxy]
    exact erase_beq hg
  | some a =>
    obtain ⟨b, rfl, hab⟩ := some_beq_iff.1 hxy
    exact insert_beq hg (cons_beq_iff.2 ⟨b, [], rfl, hab, rfl⟩)

/-- Equal lists make equal groups. -/
theorem ofList_beq (hxs : xs == ys) : ofList xs == ofList ys := by
  rw [ofList, ofList, isEmpty_eq_of_beq hxs]
  split
  · rfl
  · exact insert_beq rfl hxs

/-- Both merges append equal groups to equal groups, one after the other. -/
theorem merge_beq (hg : g == g') (hh : h == h') : g.merge h == g'.merge h' := by
  have hentries : List.Forall₂ (fun e e' => e == e') h.entries h'.entries :=
    list_beq_iff_forall₂.1 hh
  refine List.rel_foldl (P := fun (a b : Groups α) => a == b) ?_ hg hentries
  rintro a b hab ⟨key, xs⟩ ⟨key', ys⟩ he
  obtain ⟨hkey, hitems⟩ := pair_beq_iff.1 he
  obtain rfl : key = key' := eq_of_beq hkey
  exact appendTo_beq hab hitems

/-- Equal groups hold equal lists under every key. -/
theorem get?_beq (hg : g == h) : g.get? key == h.get? key := by
  have hfind : g.entries.find? (·.1 == key) == h.entries.find? (·.1 == key) := by
    refine find?_beq hg fun e e' he => ?_
    rw [eq_of_beq (pair_beq_iff.1 he).1]
  exact option_map_beq hfind fun _ _ he => (pair_beq_iff.1 he).2

/-- Equal groups have the same keys, asked one by one. -/
theorem contains_eq_of_beq (hg : g == h) : g.contains key = h.contains key :=
  isSome_eq_of_beq (get?_beq hg)

/-- Equal groups list the same keys. -/
theorem keys_eq_of_beq (hg : g == h) : g.keys = h.keys :=
  eq_of_beq (map_beq hg fun _ _ he => (pair_beq_iff.1 he).1)

/-- Equal groups hold equal items in the same order. -/
theorem toList_beq (hg : g == h) : g.toList == h.toList :=
  flatMap_beq hg fun _ _ he => (pair_beq_iff.1 he).2

/-- Equal groups have the same size. -/
theorem size_eq_of_beq (hg : g == h) : g.size = h.size :=
  length_eq_of_beq (toList_beq hg)

/-- Equal groups are empty alike. -/
theorem isEmpty_eq_of_beq (hg : g == h) : g.isEmpty = h.isEmpty :=
  have hentries : g.entries == h.entries := hg
  QueryTree.isEmpty_eq_of_beq hentries

/-- Mapping the items of equal groups gives equal groups. -/
theorem map_beq {f f' : α → β} (hg : g == h) (hf : ∀ a b, a == b → f a == f' b) :
    g.map f == h.map f' := by
  have hentries : g.entries == h.entries := hg
  refine QueryTree.map_beq hentries fun e e' he => ?_
  obtain ⟨hkey, hitems⟩ := pair_beq_iff.1 he
  exact pair_beq_iff.2 ⟨hkey, QueryTree.map_beq hitems hf⟩

end Groups

/-! ## Conditions -/

namespace Condition

variable {c d : Condition}

/-- How two conditions are equal: they have one shape and equal parts. -/
inductive EqualParts : Condition → Condition → Prop where
  | compare {a b : Comparison} : a == b → EqualParts (.compare a) (.compare b)
  | composite (op : Connective) {g h : Groups Condition} : g == h →
    EqualParts (.composite op g) (.composite op h)
  | negation {a b : Condition} : a == b → EqualParts (.negation a) (.negation b)

/-- Equal conditions are of one kind and have equal parts. -/
theorem equalParts_of_beq (h : c == d) : EqualParts c d := by
  cases c with
  | compare a =>
    obtain ⟨b, rfl, hab⟩ := compare_beq_iff.1 h
    exact .compare hab
  | composite op g =>
    obtain ⟨g', rfl, hg⟩ := composite_beq_iff.1 h
    exact .composite op hg
  | negation a =>
    obtain ⟨b, rfl, hab⟩ := negation_beq_iff.1 h
    exact .negation hab

/-- Equal conditions are called the same in errors. -/
theorem kind_eq_of_beq (h : c == d) : c.kind = d.kind := by
  cases equalParts_of_beq h <;> rfl

/-- Equal conditions are comparisons alike. -/
theorem isCompare_eq_of_beq (h : c == d) : c.isCompare = d.isCompare := by
  cases equalParts_of_beq h <;> rfl

/-- Equal conditions are absent alike. -/
theorem isAbsent_eq_of_beq (h : c == d) : c.isAbsent = d.isAbsent := by
  cases equalParts_of_beq h with
  | composite op hg => exact Groups.isEmpty_eq_of_beq hg
  | _ => rfl

/-- Equal conditions make equal groups of one member. -/
theorem singleton_beq (h : c == d) : Groups.ofList [c] == Groups.ofList [d] :=
  Groups.ofList_beq (cons_beq_iff.2 ⟨d, [], rfl, h, rfl⟩)

/-- Equal conditions contribute equal groups to a composite. -/
theorem contribution_beq (op : Connective) (h : c == d) :
    contribution op c == contribution op d := by
  cases equalParts_of_beq h with
  | composite op' hg =>
    rw [contribution, contribution]
    split
    · exact hg
    · exact singleton_beq h
  | _ => exact singleton_beq h

/-- Equal optional conditions are present alike, with equal conditions. -/
theorem present?_beq {c? d? : Option Condition} (h : c? == d?) : present? c? == present? d? := by
  cases c? with
  | none =>
    rw [none_beq_iff.1 h]
    rfl
  | some c =>
    obtain ⟨d, rfl, hcd⟩ := some_beq_iff.1 h
    rw [present?, present?, Option.filter_some, Option.filter_some, isAbsent_eq_of_beq hcd]
    split
    · exact hcd
    · rfl

/-- Combining equal optional conditions gives equal ones. -/
theorem combine_beq (op : Connective) {left left' right right' : Option Condition}
    (hleft : left == left') (hright : right == right') :
    combine op left right == combine op left' right' := by
  have hl := present?_beq hleft
  have hr := present?_beq hright
  rw [combine, combine]
  cases hl' : present? left with
  | none =>
    rw [hl'] at hl
    rw [none_beq_iff.1 hl]
    exact hr
  | some c =>
    rw [hl'] at hl
    obtain ⟨d, hd, hcd⟩ := some_beq_iff.1 hl
    rw [hd]
    cases hr' : present? right with
    | none =>
      rw [hr'] at hr
      rw [none_beq_iff.1 hr]
      exact hcd
    | some e =>
      rw [hr'] at hr
      obtain ⟨f, hf, hef⟩ := some_beq_iff.1 hr
      rw [hf]
      have hmerged := Groups.merge_beq (contribution_beq op hcd) (contribution_beq op hef)
      exact some_beq_iff.2 ⟨_, rfl, composite_beq_iff.2 ⟨_, rfl, hmerged⟩⟩

end Condition

/-- Equal comparisons stay equal with their operands swapped. -/
theorem Comparison.swapOperands_beq {c d : Comparison} (h : c == d) :
    c.swapOperands == d.swapOperands := by
  obtain ⟨hoperator, hleft, hright⟩ := Comparison.beq_iff.1 h
  exact Comparison.beq_iff.2 ⟨hoperator, hright, hleft⟩

/-! ## Joins -/

/-- Equal operands are columns alike. -/
theorem Operand.isColumn_eq_of_beq {o o' : Operand} (h : o == o') : o.isColumn = o'.isColumn := by
  cases o with
  | column c =>
    obtain ⟨_, rfl, -⟩ := column_beq_iff.1 h
    rfl
  | value v =>
    obtain ⟨_, rfl, -⟩ := value_beq_iff.1 h
    rfl
  | anyOf a =>
    obtain ⟨_, rfl, -⟩ := anyOf_beq_iff.1 h
    rfl

/-- Equal comparisons equate columns alike, so inverting turns the same ones around. -/
theorem Comparison.equatesColumns_eq_of_beq {c d : Comparison} (h : c == d) :
    c.equatesColumns = d.equatesColumns := by
  obtain ⟨hoperator, hleft, hright⟩ := Comparison.beq_iff.1 h
  rw [equatesColumns, equatesColumns, hoperator, Operand.isColumn_eq_of_beq hleft,
    Operand.isColumn_eq_of_beq hright]

namespace Join

variable {c d : Condition}

/-- Inverting equal members of a join's condition gives equal members. -/
theorem invertMember_beq (h : c == d) : invertMember c == invertMember d := by
  cases Condition.equalParts_of_beq h with
  | compare hab =>
    rw [invertMember, invertMember, Comparison.equatesColumns_eq_of_beq hab]
    split
    · exact Condition.compare_beq_iff.2 ⟨_, rfl, Comparison.swapOperands_beq hab⟩
    · exact h
  | _ => exact h

/-- Equal joins have equal inversions. -/
theorem invert_beq {i j : Join} (h : i == j) (name : String) : i.invert name == j.invert name := by
  obtain ⟨-, hcondition, hforeign, htype, hprimary⟩ := Join.beq_iff.1 h
  refine Join.beq_iff.2 ⟨rfl, Groups.map_beq hcondition fun _ _ => invertMember_beq, ?_, ?_, ?_⟩
  · change TableRef.mk i.primary = ⟨j.primary⟩
    rw [hprimary]
  · change i.type.inverted = j.type.inverted
    rw [htype]
  · change i.foreign.table = j.foreign.table
    rw [hforeign]

/-- Equal conditions are accepted as equal groups, or refused for the same member. -/
theorem conditionOf_beq (foreign : TableRef) (h : c == d) :
    conditionOf foreign c == conditionOf foreign d := by
  have hrefused : ∀ {a b : Condition}, a == b →
      JoinError.mk foreign.render a.kind == ⟨foreign.render, b.kind⟩ := by
    intro a b hab
    rw [Condition.kind_eq_of_beq hab, beq_self_eq_true]
  cases Condition.equalParts_of_beq h with
  | compare => exact Condition.singleton_beq h
  | @composite op g g' hg =>
    cases op with
    | or => exact hrefused h
    | and =>
      have hfind : g.toList.find? (!·.isCompare) == g'.toList.find? (!·.isCompare) :=
        find?_beq (Groups.toList_beq hg) fun a b hab => by rw [Condition.isCompare_eq_of_beq hab]
      rw [conditionOf, conditionOf]
      cases hchild : g.toList.find? (!·.isCompare) with
      | none =>
        rw [hchild] at hfind
        rw [none_beq_iff.1 hfind]
        exact hg
      | some child =>
        rw [hchild] at hfind
        obtain ⟨child', hchild', hequal⟩ := some_beq_iff.1 hfind
        rw [hchild']
        exact hrefused hequal
  | negation => exact hrefused h

/-- The permanence of a join makes no difference either. -/
theorem make_beq (name : String) (primary : Table) (foreign : TableRef) (h : c == d)
    (type : JoinType) (permanent permanent' : Bool) :
    make name primary foreign c type permanent == make name primary foreign d type permanent' :=
  Except.bind_beq (conditionOf_beq foreign h) fun _ _ hg =>
    Join.beq_iff.2 ⟨rfl, hg, rfl, rfl, rfl⟩

end Join

/-! ## Updates -/

namespace Update

variable {u v : Update}

/-- Assigning equal operands in equal updates gives equal updates. -/
theorem assign_beq {o o' : Operand} (h : u == v) (column : Column) (ho : o == o') :
    u.assign column o == v.assign column o' := by
  obtain ⟨htable, hcolumns, hvalues, hcondition, hjoins⟩ := Update.beq_iff.1 h
  refine Update.beq_iff.2 ⟨htable, ?_, ?_, hcondition, hjoins⟩
  · exact congrArg (· ++ [column]) hcolumns
  · exact append_beq hvalues (cons_beq_iff.2 ⟨o', [], rfl, ho, rfl⟩)

/-- Equal conditions are put into equal conjunctions. -/
theorem conjunctionOf_beq {c d : Condition} (h : c == d) : conjunctionOf c == conjunctionOf d := by
  cases Condition.equalParts_of_beq h with
  | composite op hg =>
    cases op with
    | and => exact hg
    | or => exact Condition.singleton_beq h
  | _ => exact Condition.singleton_beq h

/-- Setting equal conditions in equal updates gives equal updates. -/
theorem setCondition_beq {c? d? : Option Condition} (h : u == v) (hc : c? == d?) :
    u.setCondition c? == v.setCondition d? := by
  obtain ⟨htable, hcolumns, hvalues, -, hjoins⟩ := Update.beq_iff.1 h
  have hcondition := option_map_beq hc fun _ _ => conjunctionOf_beq
  exact Update.beq_iff.2 ⟨htable, hcolumns, hvalues, hcondition, hjoins⟩

/-- Adding equal conditions to equal updates gives equal updates. -/
theorem addCondition_beq {c? d? : Option Condition} (h : u == v) (hc : c? == d?) :
    u.addCondition c? == v.addCondition d? := by
  cases c? with
  | none =>
    rw [none_beq_iff.1 hc]
    exact h
  | some c =>
    obtain ⟨d, rfl, hcd⟩ := some_beq_iff.1 hc
    obtain ⟨htable, hcolumns, hvalues, hcondition, hjoins⟩ := Update.beq_iff.1 h
    have hpresent : u.condition?.getD .empty == v.condition?.getD .empty := by
      cases hu : u.condition? with
      | none =>
        rw [hu] at hcondition
        rw [none_beq_iff.1 hcondition]
        rfl
      | some g =>
        rw [hu] at hcondition
        obtain ⟨g', hv, hg⟩ := some_beq_iff.1 hcondition
        rw [hv]
        exact hg
    have hadded := Groups.add_beq hpresent (some_beq_iff.2 ⟨d, rfl, hcd⟩)
    exact Update.beq_iff.2
      ⟨htable, hcolumns, hvalues, some_beq_iff.2 ⟨_, rfl, hadded⟩, hjoins⟩

end Update

end QueryTree
