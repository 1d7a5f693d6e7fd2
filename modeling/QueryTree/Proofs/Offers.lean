import QueryTree.Proofs.Positions
import QueryTree.Proofs.SlotWalks

/-! # What a walk offers

A visitor that records what it is offered and enters every node is offered the slot at each position
once, in the order of the positions: each slot before those below it, and the slots below a slot
from left to right. -/

namespace QueryTree

/-- Records the slots that it is offered, one behind the other, and enters every node. -/
def recording : Visitor (StateM (List Slot)) := fun k x => do
  modify (· ++ [⟨k, x⟩])
  return .enter

/-- The slots that the walk from a slot offers. -/
def offers (s : Slot) : List Slot :=
  ((walk recording s.1 s.2).run []).2

/-- The list holds the slots at all positions in the order of the positions. -/
def ListsAll (at? : List Nat → Option Slot) (slots : List Slot) : Prop :=
  ∃ ps : List (List Nat), ps.Pairwise (· < ·) ∧ (∀ p, p ∈ ps ↔ (at? p).isSome)
    ∧ slots.map some = ps.map at?

/-- Logging the offers of slots one after the other appends them all. -/
theorem foldl_append_offers (ss log : List Slot) :
    ss.foldl (fun log s => log ++ offers s) log = log ++ ss.flatMap offers := by
  induction ss generalizing log with
  | nil => simp
  | cons s ss ih => rw [List.foldl_cons, ih, List.flatMap_cons, List.append_assoc]

/-- A recorded walk logs the offers of its slots, if each slot does so. -/
theorem WalkStart.run_recording_of_slots (s : WalkStart) {x : s.kind.Node}
    (h : ∀ t ∈ s.slots x, ∀ log,
      (QueryTree.walk recording t.1 t.2).run log = (t.2, log ++ offers t)) (log : List Slot) :
    (s.walk recording x).run log = (x, log ++ (s.slots x).flatMap offers) := by
  have hwalk : (s.walk recording x).run log
      = (s.mapSlots (fun _ y => y) x, (s.slots x).foldl (fun log t => log ++ offers t) log) :=
    s.run_walk h log
  rw [hwalk, s.mapSlots_self, foldl_append_offers]

/-- A recorded walk logs a slot and then the offers below, if each slot below does so. -/
theorem run_walk_recording_of_children {s : Slot}
    (h : ∀ t ∈ s.children, ∀ log, (walk recording t.1 t.2).run log = (t.2, log ++ offers t))
    (log : List Slot) :
    (walk recording s.1 s.2).run log = (s.2, log ++ s :: s.children.flatMap offers) := by
  have hinside := WalkStart.run_recording_of_slots (.below s.1) h (log ++ [s])
  rw [List.append_assoc] at hinside
  exact hinside

/-- A walk that records changes nothing and adds the same slots to any log. -/
theorem run_walk_recording (s : Slot) : ∀ log,
    (walk recording s.1 s.2).run log = (s.2, log ++ offers s) := by
  induction s using Slot.induction with
  | step s ih =>
    intro log
    rw [offers, run_walk_recording_of_children ih, run_walk_recording_of_children ih,
      List.nil_append]

/-- A walk offers a slot, then what the walks from the slots below offer. -/
theorem offers_eq (s : Slot) : offers s = s :: s.children.flatMap offers := by
  rw [offers, run_walk_recording_of_children fun t _ => run_walk_recording t, List.nil_append]

/-! ## All positions in order -/

/-- A position is below a list of slots if it is below the slot its first index names. -/
theorem isSome_slotAt?_cons {ss : List Slot} {i : Nat} {p : List Nat} :
    (slotAt? ss (i :: p)).isSome ↔ ∃ s, ss[i]? = some s ∧ (s.at? p).isSome := by
  rw [slotAt?]
  cases ss[i]? <;> simp

/-- The positions in one more slot start with its index. -/
theorem isSome_slotAt?_append_singleton {ss : List Slot} {s : Slot} {p : List Nat} :
    (slotAt? (ss ++ [s]) p).isSome
      ↔ (slotAt? ss p).isSome ∨ ∃ q, (s.at? q).isSome ∧ ss.length :: q = p := by
  cases p with
  | nil => simp [slotAt?]
  | cons i q =>
    simp only [isSome_slotAt?_cons, getElem?_append_singleton_eq_some_iff, List.cons.injEq,
      or_and_right, exists_or]
    simp [and_comm]

/-- A position in slots in a row starts with the index of one of them. -/
theorem exists_of_isSome_slotAt? {ss : List Slot} {p : List Nat} (h : (slotAt? ss p).isSome) :
    ∃ i q, p = i :: q ∧ i < ss.length := by
  obtain ⟨t, ht⟩ := Option.isSome_iff_exists.1 h
  obtain ⟨i, q, u, rfl, hu⟩ := exists_of_slotAt? ht
  exact ⟨i, q, rfl, (List.getElem?_eq_some_iff.1 hu).1⟩

/-- A position that is there stays the same when a slot is appended. -/
theorem slotAt?_append_of_isSome {ss : List Slot} {s : Slot} {p : List Nat}
    (h : (slotAt? ss p).isSome) : slotAt? (ss ++ [s]) p = slotAt? ss p := by
  obtain ⟨t, ht⟩ := Option.isSome_iff_exists.1 h
  obtain ⟨i, q, u, rfl, hu⟩ := exists_of_slotAt? ht
  have hleft : (ss ++ [s])[i]? = some u := getElem?_append_singleton_eq_some_iff.2 (.inl hu)
  rw [slotAt?_cons hu, slotAt?_cons hleft]

/-- Positions that start with smaller indices stand before those that start with `n`. -/
theorem pairwise_append_map_cons {n : Nat} {ps qs : List (List Nat)} (hps : ps.Pairwise (· < ·))
    (hqs : qs.Pairwise (· < ·)) (hlt : ∀ p ∈ ps, ∃ i q, p = i :: q ∧ i < n) :
    (ps ++ qs.map (n :: ·)).Pairwise (· < ·) := by
  rw [List.pairwise_append, List.pairwise_map]
  refine ⟨hps, hqs.imp List.cons_lt_cons_self.2, fun p hp q hq => ?_⟩
  obtain ⟨i, r, rfl, hi⟩ := hlt p hp
  obtain ⟨r', -, rfl⟩ := List.mem_map.1 hq
  exact .rel hi

/-- The slots in a row are listed one after the other. -/
theorem listsAll_row {ss : List Slot} (h : ∀ s ∈ ss, ListsAll s.at? (offers s)) :
    ListsAll (slotAt? ss) (ss.flatMap offers) := by
  induction ss using List.reverseRecOn with
  | nil =>
    refine ⟨[], .nil, fun p => ?_, rfl⟩
    cases p <;> simp [slotAt?]
  | append_singleton ss s ih =>
    obtain ⟨ps, hps, hmem, hlist⟩ := ih fun t ht => h t (List.mem_append_left _ ht)
    obtain ⟨qs, hqs, hmem', hlist'⟩ := h s (by simp)
    -- all positions so far start with a smaller index than those in the last slot
    refine ⟨ps ++ qs.map (ss.length :: ·), pairwise_append_map_cons hps hqs fun p hp => ?_,
      fun p => ?_, ?_⟩
    · exact exists_of_isSome_slotAt? ((hmem p).1 hp)
    · rw [List.mem_append, hmem, List.mem_map, isSome_slotAt?_append_singleton]
      simp only [hmem']
    · have hfirst : ps.map (slotAt? (ss ++ [s])) = ps.map (slotAt? ss) :=
        List.map_congr_left fun p hp => slotAt?_append_of_isSome ((hmem p).1 hp)
      have hlast : (qs.map (ss.length :: ·)).map (slotAt? (ss ++ [s])) = qs.map s.at? := by
        rw [List.map_map]
        exact List.map_congr_left fun q _ => slotAt?_cons (by simp)
      rw [List.flatMap_append, List.flatMap_singleton, List.map_append, List.map_append, hlist,
        hlist', hfirst, hlast]

/-- The offers of a slot list every slot at a position in it, once each. -/
theorem listsAll_offers (s : Slot) : ListsAll s.at? (offers s) := by
  induction s using Slot.induction with
  | step s ih =>
    obtain ⟨ps, hps, hmem, hlist⟩ := listsAll_row ih
    have hbelow := fun p hp => exists_of_isSome_slotAt? ((hmem p).1 hp)
    refine ⟨[] :: ps, List.pairwise_cons.2 ⟨fun p hp => ?_, hps⟩, fun p => ?_, ?_⟩
    · obtain ⟨i, q, rfl, -⟩ := hbelow p hp
      exact .nil
    · cases p with
      | nil => exact iff_of_true List.mem_cons_self rfl
      | cons i q =>
        have hne : i :: q ≠ [] := List.cons_ne_nil i q
        rw [List.mem_cons, or_iff_right hne, hmem]
        rfl
    · have hsame : ps.map s.at? = ps.map (slotAt? s.children) := by
        refine List.map_congr_left fun p hp => ?_
        obtain ⟨i, q, rfl, -⟩ := hbelow p hp
        rfl
      rw [offers_eq, List.map_cons, List.map_cons, hlist, hsame]
      rfl

/-- The walk offers the slot at each position once. -/
theorem WalkStart.listsAll_offered (s : WalkStart) (x : s.kind.Node) :
    ListsAll (s.at? x) ((s.walk recording x).run []).2 := by
  rw [s.run_recording_of_slots fun t _ => run_walk_recording t]
  exact listsAll_row fun t _ => listsAll_offers t

end QueryTree
