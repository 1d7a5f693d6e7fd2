import QueryTree.Proofs.Replacement

/-! # Replacing and replacing back

Of most kinds no node lies in another one, only conditions and conjunctions do. Replacing such a
node therefore leaves no match, and replacing `new` by `old` afterwards finds the places that were
changed and, if there was no `new` before, no other ones. What it puts there is equal to what was
there, so the tree is equal to the one it was (`replacing_back`). -/

namespace QueryTree

/-! ## Trees in which nothing is found -/

/-- What is looked for is at no position. -/
def Misses (hit : Slot → Prop) (at? : List Nat → Option Slot) : Prop :=
  ∀ p, ¬ IsHit hit at? p

section Misses

variable {hit : Slot → Prop} {s : Slot} {ss : List Slot}

/-- Nothing is found in slots in a row exactly if it is in none of them. -/
theorem misses_slotAt?_iff : Misses hit (slotAt? ss) ↔ ∀ s ∈ ss, Misses hit s.at? := by
  constructor
  · intro h s hs p hp
    obtain ⟨i, hi⟩ := List.mem_iff_getElem?.1 hs
    exact h (i :: p) ((isHit_cons hi).2 hp)
  · intro h p hp
    obtain ⟨a, ha, -⟩ := id hp
    obtain ⟨i, q, s, rfl, hs⟩ := exists_of_slotAt? ha
    exact h s (List.mem_of_getElem? hs) q ((isHit_cons hs).1 hp)

/-- Nothing is found in a slot if it is not looked for itself and nothing is found in its children.
-/
theorem misses_at?_iff : Misses hit s.at? ↔ ¬ hit s ∧ ∀ t ∈ s.children, Misses hit t.at? := by
  rw [← misses_slotAt?_iff]
  constructor
  · intro h
    have hs : ¬ hit s := fun hs => h [] ⟨s, rfl, hs⟩
    rw [Misses, isHit_at?_of_miss hs] at h
    exact ⟨hs, h⟩
  · rintro ⟨hs, h⟩
    rw [Misses, isHit_at?_of_miss hs]
    exact h

/-- Nothing is found exactly if it is in none of the slots that are listed. -/
theorem ListsAll.misses_iff {at? : List Nat → Option Slot} (h : ListsAll at? ss) :
    Misses hit at? ↔ ∀ s ∈ ss, ¬ hit s := by
  obtain ⟨ps, -, hps, hlist⟩ := h
  constructor
  · intro hmiss s hs hhit
    have hmem : some s ∈ ps.map at? := hlist ▸ List.mem_map_of_mem hs
    obtain ⟨p, -, hp⟩ := List.mem_map.1 hmem
    exact hmiss p ⟨s, hp, hhit⟩
  · rintro hall p ⟨s, hp, hhit⟩
    have hmem : some s ∈ ss.map some :=
      hlist ▸ hp ▸ List.mem_map_of_mem ((hps p).2 (Option.isSome_of_mem hp))
    obtain ⟨t, ht, heq⟩ := List.mem_map.1 hmem
    exact hall t ht (Option.some.inj heq ▸ hhit)

end Misses

/-! ## Kinds that do not nest -/

/-- How high in a tree the nodes of a kind stand at least. -/
def NodeKind.rank : NodeKind → Nat
  | .table | .value | .anyOf => 0
  | .tableRef | .column => 1
  | .condition | .conjunction => 2
  | .join => 3
  | .update => 4

/-- Below an operand stand nodes of a low rank only. -/
theorem Operand.rank_slot (o : Operand) : o.slot.1.rank < 2 := by
  cases o <;> simp [slot, NodeKind.rank]

/-- Below groups stand conditions. -/
theorem Groups.rank_of_mem_slots {g : Groups Condition} {t : Slot} (h : t ∈ g.slots) :
    t.1.rank = 2 := by
  obtain ⟨c, -, rfl⟩ := List.mem_map.1 h
  rfl

/-- Below a condition no nodes stand of a higher rank than conditions. -/
theorem Condition.rank_of_mem_slots {c : Condition} {t : Slot} (h : t ∈ c.slots) :
    t.1.rank ≤ 2 := by
  cases c with
  | compare c =>
    simp only [slots, Comparison.slots, List.mem_cons, List.not_mem_nil, or_false] at h
    rcases h with rfl | rfl
    · exact c.left.rank_slot.le
    · exact c.right.rank_slot.le
  | composite op g =>
    cases op with
    | and =>
      obtain rfl := List.mem_singleton.1 h
      exact le_rfl
    | or => exact (Groups.rank_of_mem_slots h).le
  | negation c =>
    obtain rfl := List.mem_singleton.1 h
    exact le_rfl

/-- Below a join stand nodes of a lower rank only. -/
theorem Join.rank_of_mem_slots {j : Join} {t : Slot} (h : t ∈ j.slots) : t.1.rank < 3 := by
  simp only [slots, List.mem_cons, List.not_mem_nil, or_false] at h
  rcases h with rfl | rfl | rfl <;> simp [NodeKind.rank]

/-- Below an update stand nodes of a lower rank only. -/
theorem Update.rank_of_mem_slots {u : Update} {t : Slot} (h : t ∈ u.slots) : t.1.rank < 4 := by
  simp only [slots, List.mem_cons, List.mem_append, List.mem_map] at h
  rcases h with rfl | ((⟨c, -, rfl⟩ | ⟨o, -, rfl⟩) | ⟨g, -, rfl⟩) | ⟨j, -, rfl⟩
  · simp [NodeKind.rank]
  · simp [NodeKind.rank]
  · exact o.rank_slot.trans (by decide)
  · simp [NodeKind.rank]
  · simp [NodeKind.rank]

/-- On the way down a tree only conditions and conjunctions keep the rank. -/
theorem Slot.rank_of_mem_children {s t : Slot} (h : t ∈ s.children) :
    t.1.rank < s.1.rank ∨ t.1.rank ≤ 2 ∧ s.1.rank = 2 := by
  obtain ⟨k, x⟩ := s
  cases k with
  | table => cases h
  | tableRef =>
    obtain rfl := List.mem_singleton.1 h
    exact .inl Nat.one_pos
  | column =>
    obtain rfl := List.mem_singleton.1 h
    exact .inl Nat.one_pos
  | value => cases h
  | anyOf => cases h
  | condition => exact .inr ⟨Condition.rank_of_mem_slots h, rfl⟩
  | conjunction => exact .inr ⟨(Groups.rank_of_mem_slots h).le, rfl⟩
  | join => exact .inl (Join.rank_of_mem_slots h)
  | update => exact .inl (Update.rank_of_mem_slots h)

/-- Conditions and conjunctions, which nest in one another, share their rank with no other kind. -/
theorem NodeKind.rank_eq_two_iff {k : NodeKind} :
    k.rank = 2 ↔ k = .condition ∨ k = .conjunction := by
  cases k <;> decide

section Flat

variable {target : NodeKind} {old new : target.Node}

/-- There is no match in what ranks lower than the matches. -/
theorem misses_of_rank_lt (s : Slot) (h : s.1.rank < target.rank) :
    Misses (IsMatch target old) s.at? := by
  induction s using Slot.induction with
  | step s ih =>
    refine misses_at?_iff.2 ⟨?_, fun t ht => ih t ht ?_⟩
    · rintro ⟨x, rfl, -⟩
      exact lt_irrefl _ h
    · rcases Slot.rank_of_mem_children ht with hlt | ⟨hle, heq⟩
      · exact hlt.trans h
      · omega

/-- No node of a kind that does not nest lies in another one. -/
theorem misses_children (hkind : target ≠ .condition ∧ target ≠ .conjunction) {s : Slot}
    (hs : s.1 = target) : ∀ t ∈ s.children, Misses (IsMatch target old) t.at? := by
  intro t ht
  refine misses_of_rank_lt t ?_
  rcases Slot.rank_of_mem_children ht with hlt | ⟨-, heq⟩
  · exact hs ▸ hlt
  · rw [hs, NodeKind.rank_eq_two_iff] at heq
    exact (heq.elim hkind.1 hkind.2).elim

/-- If below each slot what is found is outermost, it is so among the slots in a row. -/
theorem isOutermost_slotAt? {hit : Slot → Prop} {ss : List Slot}
    (h : ∀ s ∈ ss, ∀ p, IsHit hit s.at? p → IsOutermost hit s.at? p) {p : List Nat}
    (hp : IsHit hit (slotAt? ss) p) : IsOutermost hit (slotAt? ss) p := by
  obtain ⟨a, ha, -⟩ := id hp
  obtain ⟨i, q, s, rfl, hs⟩ := exists_of_slotAt? ha
  rw [isOutermost_cons hs]
  exact h s (List.mem_of_getElem? hs) q ((isHit_cons hs).1 hp)

/-- Every match is outermost. -/
theorem isOutermost_of_isHit (hkind : target ≠ .condition ∧ target ≠ .conjunction) (s : Slot) :
    ∀ p, IsHit (IsMatch target old) s.at? p → IsOutermost (IsMatch target old) s.at? p := by
  induction s using Slot.induction with
  | step s ih =>
    intro p hp
    by_cases h : IsMatch target old s
    · obtain ⟨x, rfl, hx⟩ := id h
      have hbelow : Misses (IsMatch target old) (slotAt? (Slot.children ⟨target, x⟩)) :=
        misses_slotAt?_iff.2 (misses_children hkind rfl)
      cases p with
      | nil => exact (isOutermost_at?_of_hit h).2 rfl
      | cons i p => exact (hbelow (i :: p) hp).elim
    · rw [isOutermost_at?_of_miss h]
      rw [isHit_at?_of_miss h] at hp
      exact isOutermost_slotAt? ih hp

end Flat

/-! ## Slots with equal nodes -/

section Equal

variable {f : (k : NodeKind) → k.Node → k.Node}

/-- The image of the slot's node is equal to the node. -/
def Slot.Kept (f : (k : NodeKind) → k.Node → k.Node) (s : Slot) : Prop := f s.1 s.2 == s.2

/-- An operand stays equal if its slot is kept. -/
theorem Operand.mapSlot_beq_self {o : Operand} (h : o.slot.Kept f) :
    o.mapSlot f == o := by
  cases o with
  | column c => exact column_beq_iff.2 ⟨c, rfl, h⟩
  | value v => exact value_beq_iff.2 ⟨v, rfl, h⟩
  | anyOf a => exact anyOf_beq_iff.2 ⟨a, rfl, h⟩

/-- A comparison stays equal if its slots are kept. -/
theorem Comparison.mapSlots_beq_self {c : Comparison} (h : ∀ t ∈ c.slots, t.Kept f) :
    c.mapSlots f == c := by
  obtain ⟨hleft, hright⟩ := List.forall_mem_cons.1 h
  exact beq_iff.2 ⟨rfl, Operand.mapSlot_beq_self hleft,
    Operand.mapSlot_beq_self (List.forall_mem_singleton.1 hright)⟩

/-- Groups stay equal if their slots are kept. -/
theorem Groups.map_beq_self {g : Groups Condition} (h : ∀ t ∈ g.slots, t.Kept f) :
    g.map (f .condition) == g := by
  have hentries : (g.map (f .condition)).entries == g.entries := by
    refine QueryTree.map_beq_self fun e he => pair_beq_iff.2 ⟨BEq.rfl, ?_⟩
    refine QueryTree.map_beq_self fun c hc => ?_
    exact h ⟨.condition, c⟩ (List.mem_map_of_mem (mem_toList.2 ⟨e, he, hc⟩))
  exact hentries

/-- A condition stays equal if the slots directly below it are kept. -/
theorem Condition.mapSlots_beq_self {c : Condition} (h : ∀ t ∈ c.slots, t.Kept f) :
    c.mapSlots f == c := by
  cases c with
  | compare c => exact compare_beq_iff.2 ⟨c, rfl, Comparison.mapSlots_beq_self h⟩
  | composite op g =>
    cases op with
    | and => exact composite_beq_iff.2 ⟨g, rfl, h _ List.mem_cons_self⟩
    | or => exact composite_beq_iff.2 ⟨g, rfl, Groups.map_beq_self h⟩
  | negation c => exact negation_beq_iff.2 ⟨c, rfl, h _ List.mem_cons_self⟩

/-- A join stays equal if the slots directly below it are kept. -/
theorem Join.mapSlots_beq_self {j : Join} (h : ∀ t ∈ j.slots, t.Kept f) :
    j.mapSlots f == j := by
  simp only [slots, List.forall_mem_cons] at h
  obtain ⟨hprimary, hforeign, hcondition, -⟩ := h
  exact beq_iff.2 ⟨rfl, hcondition, eq_of_beq hforeign, rfl, eq_of_beq hprimary⟩

/-- An update stays equal if the slots directly below it are kept. -/
theorem Update.mapSlots_beq_self {u : Update} (h : ∀ t ∈ u.slots, t.Kept f) :
    u.mapSlots f == u := by
  simp only [slots, List.forall_mem_cons, List.forall_mem_append, List.forall_mem_map] at h
  obtain ⟨htable, ⟨⟨hcolumns, hvalues⟩, hcondition⟩, hjoins⟩ := h
  refine beq_iff.2 ⟨eq_of_beq htable, eq_of_beq (map_beq_self hcolumns),
    map_beq_self fun o ho => Operand.mapSlot_beq_self (hvalues o ho), ?_, map_beq_self hjoins⟩
  cases hg : u.condition? with
  | none => simp [mapSlots, hg]
  | some g =>
    rw [mapSlots, hg]
    exact some_beq_iff.2 ⟨g, rfl, hcondition g (by simp [hg])⟩

/-- A node whose slots get equal nodes stays equal. -/
theorem NodeKind.mapSlots_beq_self {k : NodeKind} {x : k.Node}
    (h : ∀ t ∈ k.slots x, t.Kept f) : k.mapSlots f x == x := by
  cases k with
  | tableRef =>
    have htable : f .table (TableRef.table x) = TableRef.table x :=
      eq_of_beq (h _ List.mem_cons_self)
    rw [mapSlots, htable]
    exact BEq.rfl
  | column =>
    have htable : f .table (Column.table x) = Column.table x :=
      eq_of_beq (h _ List.mem_cons_self)
    rw [mapSlots, htable]
    exact BEq.rfl
  | condition => exact Condition.mapSlots_beq_self h
  | conjunction => exact Groups.map_beq_self h
  | join => exact Join.mapSlots_beq_self h
  | update => exact Update.mapSlots_beq_self h
  | _ => exact BEq.rfl

/-- A node stays equal if the slots from which a walk sets out are kept. -/
theorem WalkStart.mapSlots_beq_self (s : WalkStart) {x : s.kind.Node}
    (h : ∀ t ∈ s.slots x, t.Kept f) : s.mapSlots f x == x := by
  cases s with
  | offering k => exact h _ List.mem_cons_self
  | below k => exact NodeKind.mapSlots_beq_self h
  | belowDisjunction => exact Groups.map_beq_self h
  | belowComparison => exact Comparison.mapSlots_beq_self h
  | belowOperand => exact Operand.mapSlot_beq_self (h _ List.mem_cons_self)

end Equal

/-! ## One slot -/

section Replacing

variable {target : NodeKind} {old new : target.Node}

/-- Slots that count nothing one by one count nothing together. -/
theorem sum_map_eq_zero {ss : List Slot} {count : Slot → Nat} (h : ∀ s ∈ ss, count s = 0) :
    (ss.map count).sum = 0 := by
  rw [List.map_congr_left h]
  simp

/-- Where nothing matches, nothing is replaced. -/
theorem substituted_of_misses (s : Slot) (h : Misses (IsMatch target old) s.at?) :
    s.map (substituted target old new) = s ∧ places target old new s = 0 := by
  induction s using Slot.induction with
  | step s ih =>
    obtain ⟨hs, hchildren⟩ := misses_at?_iff.1 h
    rw [map_substituted_of_miss hs, places_of_miss hs]
    refine ⟨Slot.eq_of_children s.bare_mapChildren ?_,
      sum_map_eq_zero fun t ht => (ih t ht (hchildren t ht)).2⟩
    rw [s.children_mapChildren]
    exact (List.map_congr_left fun t ht => (ih t ht (hchildren t ht)).1).trans (List.map_id _)

variable (hkind : target ≠ .condition ∧ target ≠ .conjunction)

include hkind

/-- A node of the kind that is no match stays, as there is no match in it. -/
theorem substituted_of_kind {s : Slot} (hs : s.1 = target) (h : ¬ IsMatch target old s) :
    s.map (substituted target old new) = s :=
  (substituted_of_misses s (misses_at?_iff.2 ⟨h, misses_children hkind hs⟩)).1

/-- After the walk nothing matches any more. -/
theorem misses_substituted (hne : ¬ old == new) (s : Slot) :
    Misses (IsMatch target old) (s.map (substituted target old new)).at? := by
  induction s using Slot.induction with
  | step s ih =>
    by_cases h : IsMatch target old s
    · obtain ⟨x, rfl, hx⟩ := h
      rw [Slot.map, substituted_of_match hx]
      refine misses_at?_iff.2 ⟨?_, misses_children hkind rfl⟩
      rintro ⟨y, heq, hy⟩
      obtain rfl := sigma_mk_injective heq
      exact hne (BEq.symm hy)
    · by_cases hs : s.1 = target
      · rw [substituted_of_kind hkind hs h]
        exact misses_at?_iff.2 ⟨h, misses_children hkind hs⟩
      · rw [map_substituted_of_miss h]
        refine misses_at?_iff.2 ⟨?_, ?_⟩
        · rintro ⟨x, heq, -⟩
          exact hs (congrArg Sigma.fst heq)
        · rw [s.children_mapChildren]
          exact List.forall_mem_map.2 ih

/-- The walk makes no match for `new` but where it puts `new`. -/
theorem not_isMatch_mapChildren {s : Slot} (h : ¬ IsMatch target old s)
    (hnew : ¬ IsMatch target new s) :
    ¬ IsMatch target new (s.mapChildren (substituted target old new)) := by
  by_cases hs : s.1 = target
  · rw [← map_substituted_of_miss h, substituted_of_kind hkind hs h]
    exact hnew
  · rintro ⟨x, heq, -⟩
    exact hs (congrArg Sigma.fst heq)

/-- Replacing back finds as many places, and makes an equal node. -/
theorem substituted_back (s : Slot) (h : Misses (IsMatch target new) s.at?) :
    substituted target new old s.1 (substituted target old new s.1 s.2) == s.2
      ∧ places target new old (s.map (substituted target old new)) = places target old new s := by
  induction s using Slot.induction with
  | step s ih =>
    obtain ⟨hnew, hchildren⟩ := misses_at?_iff.1 h
    by_cases hs : IsMatch target old s
    · obtain ⟨x, rfl, hx⟩ := hs
      rw [Slot.map, substituted_of_match hx, substituted_of_match BEq.rfl, places_of_match hx,
        places_of_match BEq.rfl]
      exact ⟨BEq.symm hx, rfl⟩
    · have hback := not_isMatch_mapChildren hkind hs hnew
      have hthere :
          s.map (substituted target old new) = s.mapChildren (substituted target old new) :=
        map_substituted_of_miss hs
      constructor
      · -- both walks go below the node, so the slots there are treated one by one
        have hfirst : substituted target old new s.1 s.2
            = s.1.mapSlots (substituted target old new) s.2 := sigma_mk_injective hthere
        have hsecond :
            substituted target new old s.1 (s.1.mapSlots (substituted target old new) s.2)
            = s.1.mapSlots (substituted target new old)
              (s.1.mapSlots (substituted target old new) s.2) :=
          sigma_mk_injective (map_substituted_of_miss hback)
        rw [hfirst, hsecond, NodeKind.mapSlots_mapSlots]
        exact NodeKind.mapSlots_beq_self fun t ht => (ih t ht (hchildren t ht)).1
      · rw [hthere, places_of_miss hback, places_of_miss hs, s.children_mapChildren, List.map_map]
        exact congrArg List.sum (List.map_congr_left fun t ht => (ih t ht (hchildren t ht)).2)

end Replacing

/-! ## Walks -/

/-- A node of a kind that does not nest is replaced wherever it is equal to `old`, and these places
are counted. After that no slot of the walk holds such a node, and the walk changes and counts
nothing more. If no slot held a node equal to `new` before, replacing `new` by `old` changes as many
places and leads to a tree that is equal to the first one. -/
theorem replacing_back {target : NodeKind} (hkind : target ≠ .condition ∧ target ≠ .conjunction)
    {old new : target.Node} (hne : ¬ old == new) (s : WalkStart) (x : s.kind.Node) :
    ∃ (y : s.kind.Node) (changed : ℕ),
      (∀ count, s.counted (replacing target old new) count x = (y, count + changed))
      ∧ (changed : ℕ∞) = {p | IsHit (IsMatch target old) (s.at? x) p}.encard
      ∧ ListsAll (s.at? y) ((s.walk recording y).run []).2
      ∧ Misses (IsMatch target old) (s.at? y)
      ∧ (∀ count, s.counted (replacing target old new) count y = (y, count))
      ∧ (Misses (IsMatch target new) (s.at? x) →
        ∃ z, (∀ count, s.counted (replacing target new old) count y = (z, count + changed))
          ∧ z == x) := by
  have hslots : s.slots (s.mapSlots (substituted target old new) x)
      = (s.slots x).map (Slot.map (substituted target old new)) := s.slots_mapSlots x
  have hmisses : ∀ t ∈ s.slots (s.mapSlots (substituted target old new) x),
      Misses (IsMatch target old) t.at? := by
    rw [hslots]
    exact List.forall_mem_map.2 fun t _ => misses_substituted hkind hne t
  refine ⟨s.mapSlots (substituted target old new) x, ((s.slots x).map (places target old new)).sum,
    fun count => s.counted_replacing count x, ?_, s.listsAll_offered _,
    misses_slotAt?_iff.2 hmisses,
    fun count => ?_, fun hnew => ?_⟩
  · rw [sum_places fun t _ => places_eq_encard t]
    congr 1
    ext p
    exact ⟨fun hp => hp.1, isOutermost_slotAt? fun t _ => isOutermost_of_isHit hkind t⟩
  · rw [s.counted_replacing, sum_map_eq_zero fun t ht => (substituted_of_misses t (hmisses t ht)).2]
    have hsame : s.mapSlots (substituted target old new) (s.mapSlots (substituted target old new) x)
        = s.mapSlots (substituted target old new) x := by
      refine WalkStart.eq_of_slots (s.bare_mapSlots _) ?_
      rw [s.slots_mapSlots]
      exact (List.map_congr_left fun t ht => (substituted_of_misses t (hmisses t ht)).1).trans
        (List.map_id _)
    rw [hsame, Nat.add_zero]
  · have hback : ∀ t ∈ s.slots x,
        substituted target new old t.1 (substituted target old new t.1 t.2) == t.2
          ∧ places target new old (t.map (substituted target old new)) = places target old new t :=
      fun t ht => substituted_back hkind t (misses_slotAt?_iff.1 hnew t ht)
    refine ⟨s.mapSlots (substituted target new old) (s.mapSlots (substituted target old new) x),
      fun count => ?_, ?_⟩
    · rw [s.counted_replacing, hslots, List.map_map]
      exact congrArg (fun n => (_, count + n))
        (congrArg List.sum (List.map_congr_left fun t ht => (hback t ht).2))
    · rw [s.mapSlots_mapSlots]
      exact s.mapSlots_beq_self fun t ht => (hback t ht).1

/-- Sets the price of an order to 1.00. -/
def Update.pricedOne : Update :=
  (Update.ofTable (.named "orders")).assign ⟨.named "orders", "price", none⟩
    (.value (.decimal ⟨false, 100, 2, by decide, by decide⟩))

/-- The number 1.0 and the price 1.00 are equal, so they match. -/
theorem Update.price_replaced_back :
    ∃ one two : Value, ¬ one == two
      ∧ Misses (IsMatch .value two) ((WalkStart.offering .update).at? pricedOne)
      ∧ ∃ y z : Update,
        replaceNodes .value one two .update pricedOne = (y, 1)
        ∧ replaceNodes .value two one .update y = (z, 1)
        ∧ z == pricedOne ∧ z.values ≠ pricedOne.values := by
  have hmisses : Misses (IsMatch .value (.integer 2))
      ((WalkStart.offering .update).at? pricedOne) := by
    rw [((WalkStart.offering .update).listsAll_offered pricedOne).misses_iff]
    have hoffered : (((WalkStart.offering .update).walk recording pricedOne).run []).2
        = [⟨.update, pricedOne⟩, ⟨.table, .named "orders"⟩,
          ⟨.column, ⟨.named "orders", "price", none⟩⟩, ⟨.table, .named "orders"⟩,
          ⟨.value, .decimal ⟨false, 100, 2, by decide, by decide⟩⟩] := rfl
    have hprice : ¬ Value.decimal ⟨false, 100, 2, by decide, by decide⟩ == Value.integer 2 := by
      decide
    rw [hoffered]
    simpa [IsMatch] using hprice
  obtain ⟨y, changed, hy, -, -, -, -, hback⟩ :=
    @replacing_back .value (by decide) (.decimal ⟨false, 10, 1, by decide, by decide⟩) (.integer 2)
      (by decide) (.offering .update) pricedOne
  obtain ⟨z, hz, heq⟩ := hback hmisses
  have hrun : (WalkStart.offering .update).counted (replacing .value
      (.decimal ⟨false, 10, 1, by decide, by decide⟩) (.integer 2)) 0 pricedOne
      = (⟨.named "orders", [⟨.named "orders", "price", none⟩], [.value (.integer 2)], none, []⟩,
          1) :=
    rfl
  obtain ⟨rfl, hchanged⟩ := Prod.mk.inj ((hy 0).symm.trans hrun)
  have hrunBack : (WalkStart.offering .update).counted (replacing .value (.integer 2)
      (.decimal ⟨false, 10, 1, by decide, by decide⟩)) 0
      ⟨.named "orders", [⟨.named "orders", "price", none⟩], [.value (.integer 2)], none, []⟩
      = (⟨.named "orders", [⟨.named "orders", "price", none⟩],
        [.value (.decimal ⟨false, 10, 1, by decide, by decide⟩)], none, []⟩, 1) :=
    rfl
  obtain ⟨rfl, -⟩ := Prod.mk.inj ((hz 0).symm.trans hrunBack)
  exact ⟨_, _, by decide, hmisses, _, _, hrun, hrunBack, heq, by decide⟩

end QueryTree
