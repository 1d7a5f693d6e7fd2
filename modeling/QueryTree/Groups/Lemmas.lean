import QueryTree.Groups

/-!
# Lemmas on groups

`Groups.Tidy` says that the keys ascend and that every group has items. On tidy groups `get?` is a
faithful view: `get?_update` and `get?_erase` say what an operation on one group does to it, and two
tidy values with the same view are equal. An update leaves a group as it makes it, empty or not, so
that an operation keeps groups tidy depends on what it is given (`Tidy.merge`).
-/

namespace QueryTree.Groups

variable {α β : Type}

/-- The keys ascend, and every group has items. -/
structure Tidy (g : Groups α) : Prop where
  ascending : g.entries.Pairwise fun a b => compare a.1 b.1 = .lt
  nonempty : ∀ e ∈ g.entries, e.2 ≠ []

/-- A list of items as a group, which is missing if it has no items. -/
def nonempty? (items : List α) : Option (List α) :=
  if items.isEmpty then none else some items

/-- No groups are tidy groups. -/
theorem tidy_empty : (empty : Groups α).Tidy :=
  ⟨.nil, by simp [empty]⟩

/-- An updated entry has the key, and is made of the entry that was there or of no items. Every
other entry was there before. -/
theorem mem_updateEntries {key : GroupKey} {f : List α → List α}
    {entries : List (GroupKey × List α)} {e : GroupKey × List α}
    (h : e ∈ updateEntries key f entries) :
    e ∈ entries ∨ ∃ xs, e = (key, f xs) ∧ (xs = [] ∨ (key, xs) ∈ entries) := by
  induction entries with
  | nil => exact .inr ⟨[], List.mem_singleton.1 h, .inl rfl⟩
  | cons d rest ih =>
    obtain ⟨k, items⟩ := d
    unfold updateEntries at h
    split at h
    · rcases List.mem_cons.1 h with h | h
      · exact .inr ⟨[], h, .inl rfl⟩
      · exact .inl h
    · rename_i heq
      obtain rfl : key = k := Std.LawfulEqCmp.compare_eq_iff_eq.1 heq
      rcases List.mem_cons.1 h with h | h
      · exact .inr ⟨items, h, .inr List.mem_cons_self⟩
      · exact .inl (List.mem_cons_of_mem _ h)
    · rcases List.mem_cons.1 h with rfl | h
      · exact .inl List.mem_cons_self
      · exact (ih h).imp (List.mem_cons_of_mem _) fun ⟨xs, he, hxs⟩ =>
          ⟨xs, he, hxs.imp_right (List.mem_cons_of_mem _)⟩

/-- Updating one group keeps the keys ascending. -/
theorem pairwise_updateEntries {key : GroupKey} {f : List α → List α}
    {entries : List (GroupKey × List α)}
    (h : entries.Pairwise fun a b => compare a.1 b.1 = .lt) :
    (updateEntries key f entries).Pairwise fun a b => compare a.1 b.1 = .lt := by
  induction entries with
  | nil => exact List.pairwise_singleton _ _
  | cons d rest ih =>
    obtain ⟨k, items⟩ := d
    obtain ⟨hk, hr⟩ := List.pairwise_cons.1 h
    unfold updateEntries
    split
    · rename_i hlt
      exact List.pairwise_cons.2 ⟨List.forall_mem_cons.2
        ⟨hlt, fun e he => Std.TransCmp.lt_trans hlt (hk e he)⟩, h⟩
    · exact List.pairwise_cons.2 ⟨hk, hr⟩
    · rename_i hgt
      refine List.pairwise_cons.2 ⟨fun e he => ?_, ih hr⟩
      rcases mem_updateEntries he with he | ⟨xs, rfl, -⟩
      · exact hk e he
      · exact Std.OrientedCmp.gt_iff_lt.1 hgt

/-- An update that leaves items behind keeps groups tidy. -/
theorem Tidy.update {g : Groups α} (h : g.Tidy) (key : GroupKey) {f : List α → List α}
    (hf : ∀ xs, f xs ≠ []) : (g.update key f).Tidy := by
  refine ⟨pairwise_updateEntries h.ascending, fun e he => ?_⟩
  rcases mem_updateEntries he with he | ⟨xs, rfl, -⟩
  · exact h.nonempty e he
  · exact hf xs

/-- The items at a key in a list of entries. -/
def lookup? (entries : List (GroupKey × List α)) (key : GroupKey) : Option (List α) :=
  (entries.find? (·.1 == key)).map (·.2)

/-- The first entry of a key is the one that is found. -/
theorem lookup?_cons (k key : GroupKey) (items : List α) (rest : List (GroupKey × List α)) :
    lookup? ((k, items) :: rest) key = if k = key then some items else lookup? rest key := by
  unfold lookup?
  by_cases h : k = key
  · simp [h]
  · simp [h, List.find?_cons_of_neg]

/-- No key lies before itself. -/
theorem compare_ne_lt_self (k : GroupKey) : compare k k ≠ .lt := by
  rw [Std.ReflOrd.compare_self]
  decide

/-- No key lies behind itself. -/
theorem compare_ne_gt_self (k : GroupKey) : compare k k ≠ .gt := by
  rw [Std.ReflOrd.compare_self]
  decide

/-- Keys that all lie behind a key are not that key. -/
theorem lookup?_eq_none {entries : List (GroupKey × List α)} {key : GroupKey}
    (h : ∀ e ∈ entries, compare key e.1 = .lt) : lookup? entries key = none := by
  induction entries with
  | nil => rfl
  | cons d rest ih =>
    obtain ⟨k, items⟩ := d
    have hk : k ≠ key := by
      rintro rfl
      exact compare_ne_lt_self k (h (k, items) List.mem_cons_self)
    rw [lookup?_cons, if_neg hk]
    exact ih fun e he => h e (List.mem_cons_of_mem _ he)

/-- An update makes the entry of its key, of what was there or of no items, and leaves every other
entry as it was. -/
theorem lookup?_updateEntries {key k : GroupKey} {f : List α → List α}
    {entries : List (GroupKey × List α)}
    (h : entries.Pairwise fun a b => compare a.1 b.1 = .lt) :
    lookup? (updateEntries key f entries) k
      = if k = key then some (f ((lookup? entries key).getD [])) else lookup? entries k := by
  induction entries with
  | nil =>
    rw [updateEntries, lookup?_cons, lookup?, List.find?_nil]
    simp only [eq_comm (a := key)]
    rfl
  | cons d rest ih =>
    obtain ⟨k', items⟩ := d
    obtain ⟨hk, hr⟩ := List.pairwise_cons.1 h
    unfold updateEntries
    split
    · rename_i hlt
      have hnone : lookup? ((k', items) :: rest) key = none :=
        lookup?_eq_none (List.forall_mem_cons.2
          ⟨hlt, fun e he => Std.TransCmp.lt_trans hlt (hk e he)⟩)
      rw [lookup?_cons, hnone]
      simp only [eq_comm (a := key)]
      rfl
    · rename_i heq
      obtain rfl : key = k' := Std.LawfulEqCmp.compare_eq_iff_eq.1 heq
      rw [lookup?_cons, lookup?_cons, lookup?_cons, if_pos rfl]
      simp only [eq_comm (a := key)]
      split <;> rfl
    · rename_i hgt
      have hne : k' ≠ key := by
        rintro rfl
        exact compare_ne_gt_self k' hgt
      rw [lookup?_cons, ih hr, lookup?_cons, lookup?_cons, if_neg hne]
      by_cases hkk : k' = k
      · subst hkk
        simp [hne]
      · simp [hkk]

/-- An update of one group changes what `get?` says of that group, and of no other. -/
theorem get?_update {g : Groups α} (h : g.Tidy) (key k : GroupKey) (f : List α → List α) :
    (g.update key f).get? k
      = if k = key then some (f ((g.get? key).getD [])) else g.get? k :=
  lookup?_updateEntries h.ascending

/-- A removed group is gone, and no other is. -/
theorem get?_erase (g : Groups α) (key k : GroupKey) :
    (g.erase key).get? k = if k = key then none else g.get? k := by
  split
  · rename_i heq
    -- the filter left no entry with this key
    have hnone : (g.erase key).entries.find? (·.1 == k) = none := by
      simp [erase, List.find?_eq_none, heq]
    rw [get?, hnone, Option.map_none]
  · rename_i hne
    have hsame : ∀ e : GroupKey × List α, (e.1 != key && e.1 == k) = (e.1 == k) := by
      intro e
      by_cases hk : e.1 = k <;> simp [hk, hne]
    simp only [get?, erase, List.find?_filter, Bool.decide_and, Bool.decide_eq_true, hsame]

/-! ## Operations keep groups tidy -/

section Operations

variable {g h : Groups α} {key : GroupKey}

/-- Items that are made the only ones of a group have to be some items, or the group is empty. -/
theorem Tidy.insert (hg : g.Tidy) (key : GroupKey) {xs : List α} (hxs : xs ≠ []) :
    (g.insert key xs).Tidy :=
  hg.update key fun _ => hxs

/-- Appending no items to a missing group would make an empty one, so some items have to be given.
-/
theorem Tidy.appendTo (hg : g.Tidy) (key : GroupKey) {xs : List α} (hxs : xs ≠ []) :
    (g.appendTo key xs).Tidy :=
  hg.update key fun _ => List.append_ne_nil_of_right_ne_nil _ hxs

/-- A missing item makes no group, so adding an optional item keeps groups tidy in any case. -/
theorem Tidy.addTo (hg : g.Tidy) (key : GroupKey) (x? : Option α) : (g.addTo key x?).Tidy := by
  cases x? with
  | none => exact hg
  | some x => exact hg.appendTo key (List.cons_ne_nil x [])

/-- A group is removed with its entry, so no empty group stays behind. -/
theorem Tidy.erase (hg : g.Tidy) (key : GroupKey) : (g.erase key).Tidy :=
  ⟨hg.ascending.filter _, fun e he => hg.nonempty e (List.mem_filter.1 he).1⟩

/-- Setting a group to an item fills it, and setting it to nothing removes it. -/
theorem Tidy.set (hg : g.Tidy) (key : GroupKey) (x? : Option α) : (g.set key x?).Tidy := by
  cases x? with
  | none => exact hg.erase key
  | some x => exact hg.insert key (List.cons_ne_nil x [])

/-- Each item that is appended fills its group, and without items no group is made. -/
theorem Tidy.addAllTo (hg : g.Tidy) (key : GroupKey) (xs : List α) : (g.addAllTo key xs).Tidy := by
  induction xs generalizing g with
  | nil => exact hg
  | cons x rest ih => exact ih (hg.addTo key (some x))

/-- Extending by any number of items keeps groups tidy, by none as well. -/
theorem Tidy.extend (hg : g.Tidy) (xs : List α) : (g.extend xs).Tidy :=
  hg.addAllTo none xs

/-- Merging appends entry by entry, so it makes an empty group only of an empty group. -/
theorem Tidy.merge_of_nonempty (hg : g.Tidy) (h : Groups α) (hh : ∀ e ∈ h.entries, e.2 ≠ []) :
    (g.merge h).Tidy := by
  obtain ⟨entries⟩ := h
  induction entries generalizing g with
  | nil => exact hg
  | cons e rest ih =>
    obtain ⟨he, hrest⟩ := List.forall_mem_cons.1 hh
    exact ih (hg.appendTo e.1 he) hrest

/-- Merging tidy groups into tidy groups makes tidy groups. -/
theorem Tidy.merge (hg : g.Tidy) (hh : h.Tidy) : (g.merge h).Tidy :=
  hg.merge_of_nonempty h hh.nonempty

/-- A group without items is merged like any other, so the merged groups have to be tidy. -/
example : (empty : Groups Nat).merge ⟨[(none, [])]⟩ = ⟨[(none, [])]⟩ := rfl

end Operations

/-- Every item of a composite stands in one of its groups. -/
theorem mem_toList {g : Groups α} {x : α} : x ∈ g.toList ↔ ∃ e ∈ g.entries, x ∈ e.2 := by
  simp [toList]

/-- The groups of a list hold this list. -/
theorem toList_ofList (items : List α) : (ofList items).toList = items := by
  cases items <;> simp [ofList, toList, empty, insert, update, updateEntries]

/-- A list without items makes no group. -/
theorem tidy_ofList (items : List α) : (ofList items).Tidy := by
  cases items with
  | nil => exact tidy_empty
  | cons x xs => exact tidy_empty.insert none (List.cons_ne_nil x xs)

/-- Replacing items one by one replaces them in the list of all items. -/
theorem toList_map (f : α → β) (g : Groups α) : (g.map f).toList = g.toList.map f := by
  simp [map, toList, List.map_flatMap, List.flatMap_map]

/-- Replacing items twice is replacing them once by both functions. -/
theorem map_map {γ : Type} (f : α → β) (f' : β → γ) (g : Groups α) :
    (g.map f).map f' = g.map (f' ∘ f) := by
  simp [map]

theorem map_id (g : Groups α) : g.map id = g := by
  simp [map]

/-- Replacing items one by one keeps groups tidy. -/
theorem Tidy.map {g : Groups α} (h : g.Tidy) (f : α → β) : (g.map f).Tidy :=
  ⟨List.pairwise_map.2 h.ascending, fun e he => by
    obtain ⟨d, hd, rfl⟩ := List.mem_map.1 he
    simpa using h.nonempty d hd⟩

/-- Where there are no groups, there are no items. -/
theorem toList_of_isEmpty {g : Groups α} (h : g.isEmpty = true) : g.toList = [] := by
  rw [toList, List.isEmpty_iff.1 h, List.flatMap_nil]

/-- Tidy groups are empty exactly when they hold no item. -/
theorem Tidy.isEmpty_iff {g : Groups α} (h : g.Tidy) : g.isEmpty = true ↔ g.toList = [] := by
  obtain ⟨entries⟩ := g
  cases entries with
  | nil => simp [isEmpty, toList]
  | cons e rest =>
    have := h.nonempty e List.mem_cons_self
    simp [isEmpty, toList, this]

end QueryTree.Groups
