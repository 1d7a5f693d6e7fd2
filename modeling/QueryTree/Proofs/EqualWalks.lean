import QueryTree.Proofs.Equality
import QueryTree.Walk.Visitors

/-! # Walks of equal trees

Two walks are `Alike` when they go from each state to the same one and make equal trees. Visitors
that answer alike to equal nodes walk alike through equal trees, since the walk does not look at
what equality ignores. Replacing and renaming nodes, and collecting tables, are such visitors.
-/

namespace QueryTree

/-- Answers are equal when they decide the same, with equal nodes. -/
instance {α : Type} [BEq α] : BEq (Answer α) where
  beq
    | .enter, .enter => true
    | .skip, .skip => true
    | .put x, .put y => x == y
    | _, _ => false

/-- From each state both computations make equal values and go to the same state. -/
def Alike {σ α : Type} [BEq α] (x y : StateM σ α) : Prop :=
  ∀ s, (x.run s).1 == (y.run s).1 ∧ (x.run s).2 = (y.run s).2

section Alike

variable {σ α β : Type} [BEq α] [BEq β] {x y : StateM σ α}

/-- Computations that only return equal values run alike. -/
theorem alike_pure {a b : α} (h : a == b) : Alike (pure a : StateM σ α) (pure b) :=
  fun _ => ⟨h, rfl⟩

/-- Computations that run alike are continued alike on equal values. -/
theorem Alike.bind {f g : α → StateM σ β} (h : Alike x y)
    (hfg : ∀ a b, a == b → Alike (f a) (g b)) : Alike (x >>= f) (y >>= g) := by
  intro s
  obtain ⟨hvalue, hstate⟩ := h s
  have hnext := hfg _ _ hvalue (x.run s).2
  rw [StateT.run_bind, StateT.run_bind]
  rw [hstate] at hnext
  change ((f (x.run s).1).run (x.run s).2).1 == ((g (y.run s).1).run (y.run s).2).1
    ∧ ((f (x.run s).1).run (x.run s).2).2 = ((g (y.run s).1).run (y.run s).2).2
  rw [hstate]
  exact hnext

/-- Computations that run alike still do when their values are mapped to equal ones. -/
theorem Alike.map {f g : α → β} (h : Alike x y) (hfg : ∀ a b, a == b → f a == g b) :
    Alike (f <$> x) (g <$> y) := by
  rw [map_eq_pure_bind, map_eq_pure_bind]
  exact h.bind fun a b hab => alike_pure (hfg a b hab)

/-- Running through equal lists is alike if equal items are run alike. -/
theorem alike_mapM {γ : Type} [BEq γ] {f g : γ → StateM σ α}
    (hfg : ∀ a b, a == b → Alike (f a) (g b)) {as bs : List γ} (h : as == bs) :
    Alike (as.mapM f) (bs.mapM g) := by
  induction as generalizing bs with
  | nil =>
    rw [nil_beq_iff.1 h]
    exact alike_pure rfl
  | cons a as ih =>
    obtain ⟨b, bs, rfl, hab, hrest⟩ := cons_beq_iff.1 h
    rw [List.mapM_cons, List.mapM_cons]
    refine (hfg a b hab).bind fun c d hcd => (ih hrest).bind fun cs ds hds => alike_pure ?_
    exact cons_beq_iff.2 ⟨d, ds, rfl, hcd, hds⟩

end Alike

namespace Walk

variable {σ : Type} {visit visit' : Visitor (StateM σ)}
  (h : ∀ k (x y : k.Node), x == y → Alike (visit k x) (visit' k y))

include h

/-- Offering equal nodes is alike if the visitors and what lies below are. -/
theorem alike_offer (k : NodeKind) {x y : k.Node} (hxy : x == y) {inside inside' : StateM σ k.Node}
    (hinside : Alike inside inside') :
    Alike (offer visit k x inside) (offer visit' k y inside') := by
  refine (h k x y hxy).bind fun answer answer' hanswer => ?_
  cases answer with
  | enter =>
    cases answer' with
    | enter => exact hinside
    | _ => cases hanswer
  | skip =>
    cases answer' with
    | skip => exact alike_pure hxy
    | _ => cases hanswer
  | put z =>
    cases answer' with
    | put w => exact alike_pure hanswer
    | _ => cases hanswer

/-- A table is walked alike by visitors that treat equal nodes alike. -/
theorem alike_table (t : Table) : Alike (table visit t) (table visit' t) :=
  alike_offer h .table (x := t) BEq.rfl (alike_pure BEq.rfl)

theorem alike_insideTableRef (r : TableRef) :
    Alike (insideTableRef visit r) (insideTableRef visit' r) := by
  refine (alike_table h r.table).bind fun t t' ht => alike_pure ?_
  rw [eq_of_beq ht, beq_self_eq_true]

theorem alike_insideColumn (c : Column) :
    Alike (insideColumn visit c) (insideColumn visit' c) := by
  refine (alike_table h c.table).bind fun t t' ht => alike_pure ?_
  rw [eq_of_beq ht, beq_self_eq_true]

theorem alike_tableRef (r : TableRef) : Alike (tableRef visit r) (tableRef visit' r) :=
  alike_offer h .tableRef (x := r) BEq.rfl (alike_insideTableRef h r)

theorem alike_column (c : Column) : Alike (column visit c) (column visit' c) :=
  alike_offer h .column (x := c) BEq.rfl (alike_insideColumn h c)

/-- Equal operands are walked alike. -/
theorem alike_operand {o o' : Operand} (ho : o == o') :
    Alike (operand visit o) (operand visit' o') := by
  cases o with
  | column c =>
    obtain ⟨d, rfl, hcd⟩ := Operand.column_beq_iff.1 ho
    obtain rfl := eq_of_beq hcd
    exact (alike_column h c).map fun a b hab => Operand.column_beq_iff.2 ⟨b, rfl, hab⟩
  | value v =>
    obtain ⟨w, rfl, hvw⟩ := Operand.value_beq_iff.1 ho
    exact (alike_offer h .value hvw (alike_pure hvw)).map fun a b hab =>
      Operand.value_beq_iff.2 ⟨b, rfl, hab⟩
  | anyOf a =>
    obtain ⟨b, rfl, hab⟩ := Operand.anyOf_beq_iff.1 ho
    exact (alike_offer h .anyOf hab (alike_pure hab)).map fun a b hab =>
      Operand.anyOf_beq_iff.2 ⟨b, rfl, hab⟩

/-- Equal comparisons are walked alike below. -/
theorem alike_insideComparison {c d : Comparison} (hcd : c == d) :
    Alike (insideComparison visit c) (insideComparison visit' d) := by
  obtain ⟨hop, hleft, hright⟩ := Comparison.beq_iff.1 hcd
  refine (alike_operand h hleft).bind fun l l' hl => (alike_operand h hright).bind fun r r' hr => ?_
  exact alike_pure (Comparison.beq_iff.2 ⟨hop, hl, hr⟩)

/-- Equal lists of conditions are walked alike if their members are. -/
theorem alike_insideList {cs ds : List Condition} (hcs : cs == ds)
    (hinside : ∀ c ∈ cs, ∀ d, c == d → Alike (insideCondition visit c) (insideCondition visit' d)) :
    Alike (insideList visit cs) (insideList visit' ds) := by
  induction cs generalizing ds with
  | nil =>
    rw [nil_beq_iff.1 hcs]
    exact alike_pure rfl
  | cons c cs ih =>
    obtain ⟨d, ds, rfl, hcd, hrest⟩ := cons_beq_iff.1 hcs
    obtain ⟨hc, htail⟩ := List.forall_mem_cons.1 hinside
    rw [insideList, insideList]
    refine (alike_offer h .condition hcd (hc d hcd)).bind fun a b hab =>
      (ih hrest htail).bind fun as bs hbs => alike_pure ?_
    exact cons_beq_iff.2 ⟨b, bs, rfl, hab, hbs⟩

/-- Equal entries of groups are walked alike if their members are. -/
theorem alike_insideEntries {entries entries' : List (GroupKey × List Condition)}
    (hentries : entries == entries')
    (hinside : ∀ e ∈ entries, ∀ c ∈ e.2, ∀ d, c == d →
      Alike (insideCondition visit c) (insideCondition visit' d)) :
    Alike (insideEntries visit entries) (insideEntries visit' entries') := by
  induction entries generalizing entries' with
  | nil =>
    rw [nil_beq_iff.1 hentries]
    exact alike_pure rfl
  | cons e rest ih =>
    obtain ⟨⟨key', cs'⟩, rest', rfl, he, hrest⟩ := cons_beq_iff.1 hentries
    obtain ⟨key, cs⟩ := e
    obtain ⟨hkey, hcs⟩ := pair_beq_iff.1 he
    obtain ⟨hc, htail⟩ := List.forall_mem_cons.1 hinside
    rw [insideEntries, insideEntries]
    refine (alike_insideList h hcs hc).bind fun as bs hbs =>
      (ih hrest htail).bind fun es fs hfs => alike_pure ?_
    exact cons_beq_iff.2 ⟨(key', bs), fs, rfl, pair_beq_iff.2 ⟨hkey, hbs⟩, hfs⟩

/-- Equal conditions are walked alike below. -/
theorem alike_insideCondition {c d : Condition} (hcd : c == d) :
    Alike (insideCondition visit c) (insideCondition visit' d) := by
  induction c using Condition.induction generalizing d with
  | compare c =>
    obtain ⟨d, rfl, hcd⟩ := Condition.compare_beq_iff.1 hcd
    rw [insideCondition, insideCondition]
    exact (alike_insideComparison h hcd).map fun a b hab =>
      Condition.compare_beq_iff.2 ⟨b, rfl, hab⟩
  | composite op g ih =>
    obtain ⟨⟨entries'⟩, rfl, hgroups⟩ := Condition.composite_beq_iff.1 hcd
    obtain ⟨entries⟩ := g
    have hentries := alike_insideEntries h hgroups fun e he c hc d =>
      ih c (Groups.mem_toList.2 ⟨e, he, hc⟩)
    have hmk : ∀ (op : Connective) (es fs : List (GroupKey × List Condition)), es == fs →
        Condition.composite op ⟨es⟩ == .composite op ⟨fs⟩ :=
      fun op es fs hes => Condition.composite_beq_iff.2 ⟨⟨fs⟩, rfl, hes⟩
    cases op with
    | and =>
      rw [insideCondition, insideCondition]
      have hoffer := alike_offer h .conjunction hgroups (hentries.map fun es fs hes => hes)
      exact hoffer.map fun a b hab => hmk .and a.entries b.entries hab
    | or =>
      rw [insideCondition, insideCondition]
      exact hentries.map (hmk .or)
  | negation c ih =>
    obtain ⟨d, rfl, hinner⟩ := Condition.negation_beq_iff.1 hcd
    rw [insideCondition, insideCondition]
    have hoffer := alike_offer h .condition (x := c) (y := d) hinner (ih hinner)
    exact hoffer.map fun a b hab => Condition.negation_beq_iff.2 ⟨b, rfl, hab⟩

/-- Equal groups are walked alike below. -/
theorem alike_insideConjunction {g g' : Groups Condition} (hg : g == g') :
    Alike (insideConjunction visit g) (insideConjunction visit' g') :=
  (alike_insideEntries h hg fun _ _ _ _ _ => alike_insideCondition h).map fun _ _ hes => hes

/-- Equal groups are walked alike. -/
theorem alike_conjunction {g g' : Groups Condition} (hg : g == g') :
    Alike (conjunction visit g) (conjunction visit' g') :=
  alike_offer h .conjunction hg (alike_insideConjunction h hg)

/-- Equal joins are walked alike below. -/
theorem alike_insideJoin {i j : Join} (hij : i == j) :
    Alike (insideJoin visit i) (insideJoin visit' j) := by
  obtain ⟨hname, hcondition, hforeign, htype, hprimary⟩ := Join.beq_iff.1 hij
  rw [insideJoin, insideJoin, ← hforeign, ← hprimary]
  refine (alike_table h i.primary).bind fun p p' hp => (alike_tableRef h i.foreign).bind
    fun f f' hf => (alike_conjunction h hcondition).bind fun c c' hc => alike_pure ?_
  exact Join.beq_iff.2 ⟨hname, hc, eq_of_beq hf, htype, eq_of_beq hp⟩

/-- Equal joins are walked alike. -/
theorem alike_join {i j : Join} (hij : i == j) : Alike (join visit i) (join visit' j) :=
  alike_offer h .join hij (alike_insideJoin h hij)

/-- Equal optional groups are walked alike. -/
theorem alike_optionalConjunction {g? g?' : Option (Groups Condition)} (hg : g? == g?') :
    Alike (optionalConjunction visit g?) (optionalConjunction visit' g?') := by
  cases g? with
  | none =>
    rw [none_beq_iff.1 hg]
    exact alike_pure rfl
  | some g =>
    obtain ⟨g', rfl, hgg'⟩ := some_beq_iff.1 hg
    exact (alike_conjunction h hgg').map fun a b hab => some_beq_iff.2 ⟨b, rfl, hab⟩

/-- Equal updates are walked alike below. -/
theorem alike_insideUpdate {u v : Update} (huv : u == v) :
    Alike (insideUpdate visit u) (insideUpdate visit' v) := by
  obtain ⟨htable, hcolumns, hvalues, hcondition, hjoins⟩ := Update.beq_iff.1 huv
  rw [insideUpdate, insideUpdate, ← htable, ← hcolumns]
  have hcols := alike_mapM (fun (c d : Column) hcd => by
    rw [eq_of_beq hcd]
    exact alike_column h d) (BEq.rfl (a := u.columns))
  refine (alike_table h u.table).bind fun t t' ht => hcols.bind fun cs cs' hcs =>
    (alike_mapM (fun _ _ => alike_operand h) hvalues).bind fun vs vs' hvs =>
    (alike_optionalConjunction h hcondition).bind fun g g' hg =>
    (alike_mapM (fun _ _ => alike_join h) hjoins).bind fun js js' hjs => alike_pure ?_
  exact Update.beq_iff.2 ⟨eq_of_beq ht, eq_of_beq hcs, hvs, hg, hjs⟩

/-- Equal nodes of every kind are walked alike below. -/
theorem alike_inside (k : NodeKind) {x y : k.Node} (hxy : x == y) :
    Alike (inside visit k x) (inside visit' k y) := by
  cases k with
  | table => exact alike_pure hxy
  | tableRef =>
    obtain rfl : x = y := eq_of_beq hxy
    exact alike_insideTableRef h x
  | column =>
    obtain rfl : x = y := eq_of_beq hxy
    exact alike_insideColumn h x
  | value => exact alike_pure hxy
  | anyOf => exact alike_pure hxy
  | condition => exact alike_insideCondition h hxy
  | conjunction => exact alike_insideConjunction h hxy
  | join => exact alike_insideJoin h hxy
  | update => exact alike_insideUpdate h hxy

/-- Visitors that answer alike to equal nodes walk alike through equal trees. -/
theorem alike_walk (k : NodeKind) {x y : k.Node} (hxy : x == y) :
    Alike (walk visit k x) (walk visit' k y) :=
  alike_offer h k hxy (alike_inside h k hxy)

end Walk

/-! ## Where walks start -/

/-- Where a walk starts: with a node that it offers, or below a node. A disjunction, a comparison
and an operand are not offered, so their walks start below them. -/
inductive WalkStart where
  | offering (k : NodeKind)
  | below (k : NodeKind)
  | belowDisjunction
  | belowComparison
  | belowOperand

namespace WalkStart

/-- The kind of the nodes that a walk starts from. -/
def kind : WalkStart → HashedKind
  | offering k => .offered k
  | below k => .offered k
  | belowDisjunction => .disjunction
  | belowComparison => .comparison
  | belowOperand => .operand

/-- The walk from a start. -/
def walk {m : Type → Type} [Monad m] (visit : Visitor m) :
    (s : WalkStart) → s.kind.Node → m s.kind.Node
  | offering k, x => QueryTree.walk visit k x
  | below k, x => Walk.inside visit k x
  | belowDisjunction, g => Walk.insideConjunction visit g
  | belowComparison, c => Walk.insideComparison visit c
  | belowOperand, o => Walk.operand visit o

/-- The tree that a walk makes and the count after it, for a visitor with a count from before. -/
def counted (visit : Visitor (StateM Nat)) (s : WalkStart) (count : Nat) (x : s.kind.Node) :
    s.kind.Node × Nat :=
  (s.walk visit x).run count

/-- Equal nodes are walked alike from every start, if the visitors treat equal nodes alike. -/
theorem alike_walk {σ : Type} {visit visit' : Visitor (StateM σ)}
    (h : ∀ k (x y : k.Node), x == y → Alike (visit k x) (visit' k y)) (s : WalkStart)
    {x y : s.kind.Node} (hxy : x == y) : Alike (s.walk visit x) (s.walk visit' y) := by
  cases s with
  | offering k => exact Walk.alike_walk h k hxy
  | below k => exact Walk.alike_inside h k hxy
  | belowDisjunction => exact Walk.alike_insideConjunction h hxy
  | belowComparison => exact Walk.alike_insideComparison h hxy
  | belowOperand => exact Walk.alike_operand h hxy

/-- Such walks give equal nodes and the same count. -/
theorem counted_beq {visit visit' : Visitor (StateM Nat)}
    (h : ∀ k (x y : k.Node), x == y → Alike (visit k x) (visit' k y)) (s : WalkStart) (count : Nat)
    {x y : s.kind.Node} (hxy : x == y) : s.counted visit count x == s.counted visit' count y := by
  obtain ⟨htree, hcount⟩ := s.alike_walk h hxy count
  exact pair_beq_iff.2 ⟨htree, beq_iff_eq.2 hcount⟩

end WalkStart

/-! ## Replacing, renaming and collecting -/

/-- What is looked for and what is put there may be equal only: the same nodes match. -/
theorem alike_replacing {target : NodeKind} {old old' new new' : target.Node} (hold : old == old')
    (hnew : new == new') (k : NodeKind) (x y : k.Node) (hxy : x == y) :
    Alike (replacing target old new k x) (replacing target old' new' k y) := by
  unfold replacing
  by_cases hk : target = k
  · subst hk
    have hmatch : (x == old) = (y == old') := by
      rw [BEq.congr_left hxy, BEq.congr_right hold]
    rw [dif_pos rfl, dif_pos rfl]
    by_cases hx : x == old
    · rw [if_pos hx, if_pos (hmatch ▸ hx)]
      exact fun _ => ⟨hnew, rfl⟩
    · rw [if_neg hx, if_neg (hmatch ▸ hx)]
      exact alike_pure rfl
  · rw [dif_neg hk, dif_neg hk]
    exact alike_pure rfl

/-- Renaming treats equal nodes alike. -/
theorem alike_renamer (mapping : TableMapping) (k : NodeKind) (x y : k.Node) (hxy : x == y) :
    Alike (renamer mapping k x) (renamer mapping k y) := by
  cases k with
  | table =>
    obtain rfl : x = y := eq_of_beq hxy
    rw [renamer]
    split
    · exact alike_pure rfl
    · exact fun _ => ⟨beq_self_eq_true (mapping.rename x), rfl⟩
  | _ => exact alike_pure rfl

/-- Collecting tables treats equal nodes alike. -/
theorem alike_collecting (k : NodeKind) (x y : k.Node) (hxy : x == y) :
    Alike (collecting k x) (collecting k y) := by
  cases k with
  | table =>
    obtain rfl : x = y := eq_of_beq hxy
    exact fun _ => ⟨rfl, rfl⟩
  | _ => exact alike_pure rfl

/-- Equal nodes refer to the same tables. -/
theorem tablesIn_eq_of_beq (k : NodeKind) {x y : k.Node} (h : x == y) :
    tablesIn k x = tablesIn k y :=
  (Walk.alike_walk alike_collecting k h []).2

end QueryTree
