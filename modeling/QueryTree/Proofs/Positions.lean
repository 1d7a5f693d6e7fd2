import Mathlib.Data.Set.Card
import QueryTree.Proofs.Slots

/-! # Positions in a tree

A position is a path of indices, which leads from a slot to one of the slots directly below it at
each step. `Replaced` says of two trees, position by position, that one is the other with what is
looked for replaced wherever it is outermost. The slots in a row can be treated one by one
(`replaced_slotAt?_iff`, `encard_outermost_slotAt?`), and so can the slots below a slot in which
nothing is found.
-/

namespace QueryTree

/-! ## Slots at positions -/

/-- The slot at a position below a slot, which is at the empty position itself. -/
def Slot.at? : Slot → List Nat → Option Slot
  | s, [] => some s
  | s, i :: p => s.children[i]?.bind fun t => t.at? p

/-- The slot at a position that starts in one of the slots in a row. -/
def slotAt? (slots : List Slot) : List Nat → Option Slot
  | [] => none
  | i :: p => slots[i]?.bind fun s => s.at? p

/-- The slot at a position that starts in one of the slots from which a walk sets out. -/
def WalkStart.at? (s : WalkStart) (x : s.kind.Node) : List Nat → Option Slot :=
  slotAt? (s.slots x)

section Hits

variable (hit : Slot → Prop) (at? : List Nat → Option Slot) (p : List Nat)

/-- What is looked for is at the position. -/
def IsHit : Prop := ∃ s ∈ at? p, hit s

/-- What is looked for is at the position and nowhere on the way to it. -/
def IsOutermost : Prop := IsHit hit at? p ∧ ∀ q, q <+: p → q ≠ p → ¬ IsHit hit at? q

/-- What is looked for is neither at the position nor on the way to it. -/
def IsApart : Prop := ∀ q, q <+: p → ¬ IsHit hit at? q

end Hits

/-- After a replacement `new` is at each position where what is looked for was outermost, and a
position apart from these leads to a slot as before, in which only what is in the slots directly
below it may have changed. -/
structure Replaced (hit : Slot → Prop) (new : Slot) (before after : List Nat → Option Slot) :
    Prop where
  puts : ∀ p, IsOutermost hit before p → after p = some new
  keeps : ∀ p s, IsApart hit before p → before p = some s →
    ∃ t, after p = some t ∧ t.bare = s.bare

/-- The tree `y` is the tree `x` after a replacement in the slots of a walk. -/
structure WalkStart.Replaced (s : WalkStart) (hit : Slot → Prop) (new : Slot)
    (x y : s.kind.Node) : Prop where
  bare : s.bare y = s.bare x
  slots : QueryTree.Replaced hit new (s.at? x) (s.at? y)

section Positions

variable {hit : Slot → Prop} {new s t : Slot} {ss ts : List Slot} {i : Nat} {p : List Nat}

/-- Nothing is found at the empty position of slots in a row, which names none of them. -/
theorem not_isHit_nil : ¬ IsHit hit (slotAt? ss) [] := by
  rintro ⟨s, hs, -⟩
  cases hs

/-- Below one of the slots in a row, something is found where it is found below this slot. -/
theorem isHit_cons (hs : ss[i]? = some s) :
    IsHit hit (slotAt? ss) (i :: p) ↔ IsHit hit s.at? p := by
  rw [IsHit, slotAt?, hs]
  rfl

/-- Below one of the slots in a row, what is outermost is outermost below this slot. -/
theorem isOutermost_cons (hs : ss[i]? = some s) :
    IsOutermost hit (slotAt? ss) (i :: p) ↔ IsOutermost hit s.at? p := by
  constructor
  · rintro ⟨hhit, hout⟩
    refine ⟨(isHit_cons hs).1 hhit, fun q hq hne h => ?_⟩
    exact hout (i :: q) (List.cons_prefix_cons.2 ⟨rfl, hq⟩) (by simpa using hne)
      ((isHit_cons hs).2 h)
  · rintro ⟨hhit, hout⟩
    refine ⟨(isHit_cons hs).2 hhit, fun q hq hne => ?_⟩
    cases q with
    | nil => exact not_isHit_nil
    | cons j q =>
      obtain ⟨rfl, hrest⟩ := List.cons_prefix_cons.1 hq
      rw [isHit_cons hs]
      exact hout q hrest (by simpa using hne)

/-- Below one of the slots in a row, a position is apart if it is so below this slot. -/
theorem isApart_cons (hs : ss[i]? = some s) :
    IsApart hit (slotAt? ss) (i :: p) ↔ IsApart hit s.at? p := by
  constructor
  · intro h q hq hhit
    exact h (i :: q) (List.cons_prefix_cons.2 ⟨rfl, hq⟩) ((isHit_cons hs).2 hhit)
  · intro h q hq
    cases q with
    | nil => exact not_isHit_nil
    | cons j q =>
      obtain ⟨rfl, hrest⟩ := List.cons_prefix_cons.1 hq
      rw [isHit_cons hs]
      exact h q hrest

/-- The first index of a position names one of the slots in a row. -/
theorem slotAt?_cons (hs : ss[i]? = some s) : slotAt? ss (i :: p) = s.at? p := by
  rw [slotAt?, hs]
  rfl

/-- A position that leads to a slot starts in one of the slots in a row. -/
theorem exists_of_slotAt? (h : slotAt? ss p = some t) : ∃ i q s, p = i :: q ∧ ss[i]? = some s := by
  cases p with
  | nil => cases h
  | cons i q =>
    obtain ⟨s, hs, -⟩ := Option.bind_eq_some_iff.1 h
    exact ⟨i, q, s, rfl, hs⟩

/-- Slots in a row are replaced one by one. -/
theorem replaced_slotAt?_iff (hlength : ss.length = ts.length) :
    Replaced hit new (slotAt? ss) (slotAt? ts)
      ↔ List.Forall₂ (fun s t => Replaced hit new s.at? t.at?) ss ts := by
  rw [List.forall₂_iff_get]
  constructor
  · intro h
    refine ⟨hlength, fun i hi hi' => ?_⟩
    have hs := List.getElem?_eq_getElem hi
    have ht := List.getElem?_eq_getElem hi'
    constructor
    · intro p hp
      have hnew := h.puts (i :: p) ((isOutermost_cons hs).2 hp)
      rwa [slotAt?_cons ht] at hnew
    · intro p a hp ha
      have hkept := h.keeps (i :: p) a ((isApart_cons hs).2 hp) (by rwa [slotAt?_cons hs])
      rwa [slotAt?_cons ht] at hkept
  · rintro ⟨-, h⟩
    -- what is found starts in one of the slots, and its counterpart is there as well
    have hstart : ∀ p a, slotAt? ss p = some a → ∃ i q s t, p = i :: q ∧ ss[i]? = some s
        ∧ ts[i]? = some t ∧ Replaced hit new s.at? t.at? := by
      intro p a ha
      obtain ⟨i, q, s, rfl, hs⟩ := exists_of_slotAt? ha
      obtain ⟨hi, rfl⟩ := List.getElem?_eq_some_iff.1 hs
      exact ⟨i, q, _, _, rfl, hs, List.getElem?_eq_getElem (hlength ▸ hi), h i hi _⟩
    constructor
    · intro p hp
      obtain ⟨a, ha, -⟩ := hp.1
      obtain ⟨i, q, s, t, rfl, hs, ht, hreplaced⟩ := hstart p a ha
      rw [slotAt?_cons ht]
      exact hreplaced.puts q ((isOutermost_cons hs).1 hp)
    · intro p a hp ha
      obtain ⟨i, q, s, t, rfl, hs, ht, hreplaced⟩ := hstart p a ha
      rw [slotAt?_cons hs] at ha
      rw [slotAt?_cons ht]
      exact hreplaced.keeps q a ((isApart_cons hs).1 hp) ha

/-- If what is looked for is in a slot itself, it is outermost there and nowhere else. -/
theorem isOutermost_at?_of_hit (h : hit s) : IsOutermost hit s.at? p ↔ p = [] := by
  have hnil : IsHit hit s.at? [] := ⟨s, rfl, h⟩
  constructor
  · intro hp
    by_contra hne
    exact hp.2 [] List.nil_prefix (Ne.symm hne) hnil
  · rintro rfl
    exact ⟨hnil, fun q hq hne => absurd (List.prefix_nil.1 hq) hne⟩

/-- No position is apart from what is found at the slot itself. -/
theorem not_isApart_of_hit (h : hit s) : ¬ IsApart hit s.at? p :=
  fun hp => hp [] List.nil_prefix ⟨s, rfl, h⟩

/-- If what is looked for is not in a slot itself, it is looked for in the slots below. -/
theorem isHit_at?_of_miss (h : ¬ hit s) : IsHit hit s.at? = IsHit hit (slotAt? s.children) := by
  funext p
  cases p with
  | nil =>
    have hnil : ¬ IsHit hit s.at? [] := by
      rintro ⟨a, ha, hhit⟩
      cases ha
      exact h hhit
    exact propext (iff_of_false hnil not_isHit_nil)
  | cons i p => rfl

/-- Below a slot that is not looked for, what is outermost is so among its children. -/
theorem isOutermost_at?_of_miss (h : ¬ hit s) :
    IsOutermost hit s.at? p ↔ IsOutermost hit (slotAt? s.children) p := by
  rw [IsOutermost, IsOutermost, isHit_at?_of_miss h]

/-- Below a slot that is not looked for, a position is apart if it is so among its children. -/
theorem isApart_at?_of_miss (h : ¬ hit s) :
    IsApart hit s.at? p ↔ IsApart hit (slotAt? s.children) p := by
  rw [IsApart, IsApart, isHit_at?_of_miss h]

/-- A slot that is looked for gives way to the new one as a whole. -/
theorem replaced_iff_of_hit (h : hit s) : Replaced hit new s.at? t.at? ↔ t = new := by
  constructor
  · intro hreplaced
    exact Option.some.inj (hreplaced.puts [] ((isOutermost_at?_of_hit h).2 rfl))
  · rintro rfl
    constructor
    · intro p hp
      obtain rfl := (isOutermost_at?_of_hit h).1 hp
      rfl
    · intro p a hp
      exact absurd hp (not_isApart_of_hit h)

/-- In a slot that is not looked for only what is in its children is replaced. -/
theorem replaced_iff_of_miss (h : ¬ hit s) :
    Replaced hit new s.at? t.at?
      ↔ t.bare = s.bare ∧ Replaced hit new (slotAt? s.children) (slotAt? t.children) := by
  have hnil : IsApart hit s.at? [] := by
    rw [isApart_at?_of_miss h]
    intro q hq
    rw [List.prefix_nil.1 hq]
    exact not_isHit_nil
  constructor
  · intro hreplaced
    refine ⟨?_, ⟨fun p hp => ?_, fun p a hp ha => ?_⟩⟩
    · obtain ⟨u, hu, hbare⟩ := hreplaced.keeps [] s hnil rfl
      obtain rfl := Option.some.inj hu
      exact hbare
    · have hnew := hreplaced.puts p ((isOutermost_at?_of_miss h).2 hp)
      cases p with
      | nil => exact absurd hp.1 not_isHit_nil
      | cons i p => exact hnew
    · cases p with
      | nil => cases ha
      | cons i p => exact hreplaced.keeps (i :: p) a ((isApart_at?_of_miss h).2 hp) ha
  · rintro ⟨hbare, hreplaced⟩
    refine ⟨fun p hp => ?_, fun p a hp ha => ?_⟩
    · have hbelow := (isOutermost_at?_of_miss h).1 hp
      cases p with
      | nil => exact absurd hbelow.1 not_isHit_nil
      | cons i p => exact hreplaced.puts (i :: p) hbelow
    · cases p with
      | nil =>
        obtain rfl := Option.some.inj ha
        exact ⟨t, rfl, hbare⟩
      | cons i p => exact hreplaced.keeps (i :: p) a ((isApart_at?_of_miss h).1 hp) ha

/-! ## The number of outermost positions -/

/-- There is one outermost position in a slot that is looked for. -/
theorem encard_outermost_of_hit (h : hit s) : {p | IsOutermost hit s.at? p}.encard = 1 := by
  have hroot : {p | IsOutermost hit s.at? p} = {[]} := by
    ext p
    exact isOutermost_at?_of_hit h
  rw [hroot, Set.encard_singleton]

/-- In a slot that is not looked for there are as many outermost positions as in its children. -/
theorem encard_outermost_of_miss (h : ¬ hit s) :
    {p | IsOutermost hit s.at? p}.encard
      = {p | IsOutermost hit (slotAt? s.children) p}.encard := by
  simp only [isOutermost_at?_of_miss h]

/-- What is outermost among slots in a row is so below the slot that its first index names. -/
theorem isOutermost_cons_iff :
    IsOutermost hit (slotAt? ss) (i :: p) ↔ ∃ s, ss[i]? = some s ∧ IsOutermost hit s.at? p := by
  constructor
  · intro hp
    obtain ⟨a, ha, -⟩ := hp.1
    obtain ⟨s, hs, -⟩ := Option.bind_eq_some_iff.1 ha
    exact ⟨s, hs, (isOutermost_cons hs).1 hp⟩
  · rintro ⟨s, hs, hp⟩
    exact (isOutermost_cons hs).2 hp

/-- What is in a list with one item appended is in the list, or is that item behind it. -/
theorem getElem?_append_singleton_eq_some_iff :
    (ss ++ [s])[i]? = some t ↔ ss[i]? = some t ∨ ss.length = i ∧ s = t := by
  rcases lt_trichotomy i ss.length with hi | rfl | hi
  · have hother : ¬ ss.length = i := by omega
    simp [List.getElem?_append_left hi, hother]
  · simp
  · have hother : ¬ ss.length = i := by omega
    have hout : ss[i]? = none := by simp; omega
    have hout' : (ss ++ [s])[i]? = none := by simp; omega
    simp [hout, hout', hother]

/-- The outermost positions in one more slot start with its index. -/
theorem outermost_append_singleton :
    {p | IsOutermost hit (slotAt? (ss ++ [s])) p}
      = {p | IsOutermost hit (slotAt? ss) p}
        ∪ (ss.length :: ·) '' {p | IsOutermost hit s.at? p} := by
  ext p
  simp only [Set.mem_union, Set.mem_image, Set.mem_ofPred_eq]
  cases p with
  | nil =>
    have hnil : ∀ ss, ¬ IsOutermost hit (slotAt? ss) [] := fun _ hp => not_isHit_nil hp.1
    simp [hnil]
  | cons i q =>
    simp only [isOutermost_cons_iff, getElem?_append_singleton_eq_some_iff, List.cons.injEq,
      or_and_right, exists_or]
    simp [and_comm]

/-- The outermost positions below slots in a row are counted slot by slot. -/
theorem encard_outermost_slotAt? :
    {p | IsOutermost hit (slotAt? ss) p}.encard
      = (ss.map fun s => {p | IsOutermost hit s.at? p}.encard).sum := by
  induction ss using List.reverseRecOn with
  | nil =>
    have hnone : {p | IsOutermost hit (slotAt? []) p} = ∅ := by
      ext p
      simp only [Set.mem_ofPred_eq, Set.mem_empty_iff_false, iff_false]
      intro hp
      obtain ⟨a, ha, -⟩ := hp.1
      obtain ⟨i, q, s, -, hs⟩ := exists_of_slotAt? ha
      cases hs
    rw [hnone, Set.encard_empty, List.map_nil, List.sum_nil]
  | append_singleton ss s ih =>
    have hdisjoint : Disjoint {p | IsOutermost hit (slotAt? ss) p}
        ((ss.length :: ·) '' {p | IsOutermost hit s.at? p}) := by
      rw [Set.disjoint_right]
      rintro - ⟨q, -, rfl⟩ hp
      obtain ⟨t, ht, -⟩ := isOutermost_cons_iff.1 hp
      simp at ht
    rw [outermost_append_singleton, Set.encard_union_eq hdisjoint,
      List.cons_injective.encard_image, ih, List.map_append, List.sum_append, List.map_singleton,
      List.sum_singleton]

end Positions

end QueryTree
