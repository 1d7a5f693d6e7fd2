import Mathlib.Algebra.BigOperators.Ring.Finset
import QueryTree.Proofs.Offers

/-! # Replacing the outermost matches

A node that `replacing` matches is replaced and counted, and the walk does not go on below it. So
the walk replaces a match wherever it is outermost, changes nothing apart from these positions, and
counts them, even if matches lie inside one another or the new node holds matches itself.
-/

namespace QueryTree

/-- The slot holds a node of the kind that is equal to `old`. -/
def IsMatch (target : NodeKind) (old : target.Node) (s : Slot) : Prop :=
  ∃ x, s = ⟨target, x⟩ ∧ x == old

section Replacing

variable (target : NodeKind) (old new : target.Node)

/-- What the walk from a slot makes of its node. -/
def substituted (k : NodeKind) (x : k.Node) : k.Node :=
  (replaceNodes target old new k x).1

/-- How often the walk from a slot replaces a node. -/
def places (s : Slot) : Nat :=
  (replaceNodes target old new s.1 s.2).2

end Replacing

variable {target : NodeKind} {old new : target.Node}

/-! ## One slot -/

/-- A node equal to the old one is replaced and counted once, and nothing below it is looked at. -/
theorem run_walk_of_match {x : target.Node} (h : x == old) (count : Nat) :
    (walk (replacing target old new) target x).run count = (new, count + 1) := by
  rw [walk, Walk.offer, replacing, dif_pos rfl, if_pos h]
  rfl

/-- A slot without a match is entered. -/
theorem replacing_of_miss {s : Slot} (h : ¬ IsMatch target old s) :
    replacing target old new s.1 s.2 = pure .enter := by
  obtain ⟨k, x⟩ := s
  unfold replacing
  by_cases hk : target = k
  · subst hk
    have hx : ¬ (x == old) := fun hx => h ⟨x, rfl, hx⟩
    rw [dif_pos rfl, if_neg hx]
  · rw [dif_neg hk]

/-- Where nothing matches, the walk goes on with the slots below. -/
theorem run_walk_of_miss {s : Slot} (h : ¬ IsMatch target old s)
    (ih : ∀ t ∈ s.children, ∀ count, (walk (replacing target old new) t.1 t.2).run count
      = (substituted target old new t.1 t.2, count + places target old new t)) (count : Nat) :
    (walk (replacing target old new) s.1 s.2).run count
      = (s.1.mapSlots (substituted target old new) s.2,
        count + (s.children.map (places target old new)).sum) := by
  rw [walk_of_enter (replacing_of_miss h), ← foldl_add_sum]
  exact WalkStart.run_walk (.below s.1) ih count

/-- What the walk makes of a slot and how much it adds to the count do not depend on the count. -/
theorem run_walk_replacing (s : Slot) : ∀ count,
    (walk (replacing target old new) s.1 s.2).run count
      = (substituted target old new s.1 s.2, count + places target old new s) := by
  induction s using Slot.induction with
  | step s ih =>
    intro count
    by_cases h : IsMatch target old s
    -- the walk ends with the new node, so the slots below it do not matter
    · obtain ⟨x, rfl, hx⟩ := h
      rw [run_walk_of_match hx, substituted, places, replaceNodes, run_walk_of_match hx]
    · rw [run_walk_of_miss h ih, substituted, places, replaceNodes, run_walk_of_miss h ih,
        Nat.zero_add]

/-- A node equal to the old one becomes the new one. -/
theorem substituted_of_match {x : target.Node} (h : x == old) :
    substituted target old new target x = new := by
  rw [substituted, replaceNodes, run_walk_of_match h]

/-- A node equal to the old one is replaced at one place. -/
theorem places_of_match {x : target.Node} (h : x == old) :
    places target old new ⟨target, x⟩ = 1 := by
  rw [places, replaceNodes, run_walk_of_match h]

/-- In a slot without a match only what is in its children is replaced. -/
theorem map_substituted_of_miss {s : Slot} (h : ¬ IsMatch target old s) :
    s.map (substituted target old new) = s.mapChildren (substituted target old new) := by
  rw [Slot.map, substituted, replaceNodes, run_walk_of_miss h fun t _ => run_walk_replacing t,
    Slot.mapChildren]

/-- In a slot without a match nodes are replaced at the places in its children. -/
theorem places_of_miss {s : Slot} (h : ¬ IsMatch target old s) :
    places target old new s = (s.children.map (places target old new)).sum := by
  rw [places, replaceNodes, run_walk_of_miss h fun t _ => run_walk_replacing t, Nat.zero_add]

/-- The walk from a start makes what the walks from its slots make, and adds up their counts. -/
theorem WalkStart.counted_replacing (s : WalkStart) (count : Nat) (x : s.kind.Node) :
    s.counted (replacing target old new) count x
      = (s.mapSlots (substituted target old new) x,
        count + ((s.slots x).map (places target old new)).sum) := by
  rw [counted, ← foldl_add_sum]
  exact s.run_walk (fun t _ => run_walk_replacing t) count

/-! ## The outermost matches -/

/-- Slots in a row are replaced exactly if they are as the walks from them make them. -/
theorem replaced_row_iff {ss ts : List Slot} (hlength : ss.length = ts.length)
    (h : ∀ s ∈ ss, ∀ t : Slot, Replaced (IsMatch target old) ⟨target, new⟩ s.at? t.at?
      ↔ t = s.map (substituted target old new)) :
    Replaced (IsMatch target old) ⟨target, new⟩ (slotAt? ss) (slotAt? ts)
      ↔ ts = ss.map (Slot.map (substituted target old new)) := by
  rw [replaced_slotAt?_iff hlength]
  clear hlength
  induction ss generalizing ts with
  | nil => rw [List.forall₂_nil_left_iff, List.map_nil]
  | cons s ss ih =>
    obtain ⟨hs, hss⟩ := List.forall_mem_cons.1 h
    cases ts with
    | nil => simp
    | cons t ts => rw [List.forall₂_cons, hs, ih hss, List.map_cons, List.cons.injEq]

/-- A slot is replaced exactly if it is as the walk from it makes it. -/
theorem replaced_slot_iff (s : Slot) : ∀ t : Slot,
    Replaced (IsMatch target old) ⟨target, new⟩ s.at? t.at?
      ↔ t = s.map (substituted target old new) := by
  induction s using Slot.induction with
  | step s ih =>
    intro t
    by_cases h : IsMatch target old s
    · rw [replaced_iff_of_hit h]
      obtain ⟨x, rfl, hx⟩ := h
      rw [Slot.map, substituted_of_match hx]
    · rw [replaced_iff_of_miss h, map_substituted_of_miss h]
      constructor
      -- equal but for what is in the slots, both have as many slots, which are compared one by one
      · rintro ⟨hbare, hchildren⟩
        have hlength : s.children.length = t.children.length := by
          rw [← s.length_children_bare, ← hbare, t.length_children_bare]
        refine Slot.eq_of_children (hbare.trans s.bare_mapChildren.symm) ?_
        rw [s.children_mapChildren]
        exact (replaced_row_iff hlength ih).1 hchildren
      · rintro rfl
        have hchildren := s.children_mapChildren (f := substituted target old new)
        refine ⟨s.bare_mapChildren, (replaced_row_iff ?_ ih).2 hchildren⟩
        rw [hchildren, List.length_map]

/-- A tree is replaced exactly if it is as the walk makes it. -/
theorem WalkStart.replaced_iff (s : WalkStart) {x y : s.kind.Node} :
    s.Replaced (IsMatch target old) ⟨target, new⟩ x y
      ↔ y = s.mapSlots (substituted target old new) x := by
  have hrow : ∀ t ∈ s.slots x, ∀ u : Slot,
      QueryTree.Replaced (IsMatch target old) ⟨target, new⟩ t.at? u.at?
        ↔ u = t.map (substituted target old new) := fun t _ => replaced_slot_iff t
  constructor
  · rintro ⟨hbare, hslots⟩
    have hlength : (s.slots x).length = (s.slots y).length := by
      rw [← s.length_slots_bare x, ← hbare, s.length_slots_bare y]
    refine WalkStart.eq_of_slots (hbare.trans (s.bare_mapSlots x).symm) ?_
    rw [s.slots_mapSlots]
    exact (replaced_row_iff hlength hrow).1 hslots
  · rintro rfl
    have hslots := s.slots_mapSlots (f := substituted target old new) x
    refine ⟨s.bare_mapSlots x, (replaced_row_iff ?_ hrow).2 hslots⟩
    rw [hslots, List.length_map]

/-- If each of the slots in a row counts its outermost matches, all of them together do. -/
theorem sum_places {ss : List Slot} (h : ∀ s ∈ ss,
      (places target old new s : ℕ∞) = {p | IsOutermost (IsMatch target old) s.at? p}.encard) :
    (((ss.map (places target old new)).sum : ℕ) : ℕ∞)
      = {p | IsOutermost (IsMatch target old) (slotAt? ss) p}.encard := by
  rw [encard_outermost_slotAt?, Nat.cast_list_sum, List.map_map]
  exact congrArg List.sum (List.map_congr_left h)

/-- The walk from a slot counts the outermost matches. -/
theorem places_eq_encard (s : Slot) :
    (places target old new s : ℕ∞) = {p | IsOutermost (IsMatch target old) s.at? p}.encard := by
  induction s using Slot.induction with
  | step s ih =>
    by_cases h : IsMatch target old s
    · rw [encard_outermost_of_hit h]
      obtain ⟨x, rfl, hx⟩ := h
      rw [places_of_match hx, Nat.cast_one]
    · rw [encard_outermost_of_miss h, places_of_miss h]
      exact sum_places ih

/-- A conjunction that a join or an update holds itself is in no condition slot. -/
theorem Join.kind_of_mem_slots {j : Join} {t : Slot} (h : t ∈ j.slots) : t.1 ≠ .condition := by
  simp only [slots, List.mem_cons, List.not_mem_nil, or_false] at h
  rcases h with rfl | rfl | rfl <;> exact NodeKind.noConfusion

/-- No slot directly below an update holds a condition: its own condition stands as a conjunction.
-/
theorem Update.kind_of_mem_slots {u : Update} {t : Slot} (h : t ∈ u.slots) : t.1 ≠ .condition := by
  simp only [slots, List.mem_cons, List.mem_append, List.mem_map] at h
  rcases h with rfl | ((⟨c, -, rfl⟩ | ⟨o, -, rfl⟩) | ⟨g, -, rfl⟩) | ⟨j, -, rfl⟩
  · exact NodeKind.noConfusion
  · exact NodeKind.noConfusion
  · cases o <;> exact NodeKind.noConfusion
  · exact NodeKind.noConfusion
  · exact NodeKind.noConfusion

/-- Replacing `old` by `new` replaces each match that lies in no other match, whatever is in the new
node, changes nothing else, and adds the number of these matches to the count. The slots in which
matches are looked for are those that a walk offers. A conjunction held by a condition is in two of
them, one that a join or an update holds in one only, and the values in a list are in none. -/
theorem replacing_outermost (target : NodeKind) (old new : target.Node) (s : WalkStart)
    (x : s.kind.Node) (count : Nat) :
    (∀ y, s.Replaced (IsMatch target old) ⟨target, new⟩ x y
      ↔ y = (s.counted (replacing target old new) count x).1)
    ∧ ((s.counted (replacing target old new) count x).2 : ℕ∞)
      = count + {p | IsOutermost (IsMatch target old) (s.at? x) p}.encard
    ∧ ListsAll (s.at? x) ((s.walk recording x).run []).2
    ∧ (∀ g : Groups Condition, Condition.slots (.composite .and g) = [⟨.conjunction, g⟩])
    ∧ (∀ j : Join, ∀ t ∈ j.slots, t.1 ≠ .condition)
    ∧ (∀ u : Update, ∀ t ∈ u.slots, t.1 ≠ .condition)
    ∧ ∀ a : AnyOf, NodeKind.anyOf.slots a = [] := by
  have hcount : ((s.counted (replacing target old new) count x).2 : ℕ∞)
      = count + {p | IsOutermost (IsMatch target old) (s.at? x) p}.encard := by
    rw [s.counted_replacing, Nat.cast_add, sum_places fun t _ => places_eq_encard t]
    rfl
  refine ⟨fun y => ?_, hcount, s.listsAll_offered x, fun g => rfl,
    fun j t => Join.kind_of_mem_slots,
    fun u t => Update.kind_of_mem_slots, fun a => rfl⟩
  rw [s.counted_replacing]
  exact s.replaced_iff

end QueryTree
