import QueryTree.Groups.Lemmas

/-! # Groups as lists by key

`items` reads groups as a function from keys to lists. `Tidy.ext` says that tidy groups are nothing
more than this function, so each operation is described by what it does to one list.
-/

namespace QueryTree.Groups

variable {α : Type} {g h : Groups α}

/-- The items under a key, none if there is no such group. -/
def items (g : Groups α) (key : GroupKey) : List α :=
  (g.get? key).getD []

/-- The group of a list is there if the list has items, and holds that list. -/
theorem nonempty?_eq_some_iff {xs ys : List α} : nonempty? xs = some ys ↔ xs = ys ∧ ys ≠ [] := by
  cases xs <;> simp [nonempty?]
  rintro rfl
  simp

/-- Among ascending keys, the items found at a key are those of its one entry. -/
theorem lookup?_eq_some_iff {entries : List (GroupKey × List α)} {key : GroupKey} {xs : List α}
    (hs : entries.Pairwise fun a b => compare a.1 b.1 = .lt) :
    lookup? entries key = some xs ↔ (key, xs) ∈ entries := by
  induction entries with
  | nil => simp [lookup?]
  | cons d rest ih =>
    obtain ⟨k, ys⟩ := d
    obtain ⟨hk, hr⟩ := List.pairwise_cons.1 hs
    rw [lookup?_cons, List.mem_cons, Prod.mk.injEq]
    split
    · rename_i heq
      subst heq
      -- an entry further back would have to lie behind itself
      have hnot : (k, xs) ∉ rest := fun hmem => compare_ne_lt_self k (hk _ hmem)
      simp [hnot, eq_comm]
    · rename_i hne
      rw [ih hr]
      simp [Ne.symm hne]

/-- The items of a group are those of its entry. -/
theorem Tidy.get?_eq_some_iff (hg : g.Tidy) {key : GroupKey} {xs : List α} :
    g.get? key = some xs ↔ (key, xs) ∈ g.entries :=
  lookup?_eq_some_iff hg.ascending

/-- A group is there exactly when it has items. -/
theorem Tidy.get?_eq (hg : g.Tidy) (key : GroupKey) : g.get? key = nonempty? (g.items key) := by
  unfold items
  cases hget : g.get? key with
  | none => rfl
  | some xs =>
    have hne : xs ≠ [] := hg.nonempty _ (hg.get?_eq_some_iff.1 hget)
    exact (nonempty?_eq_some_iff.2 ⟨rfl, hne⟩).symm

/-- A group is contained exactly when it has items. -/
theorem Tidy.contains_iff (hg : g.Tidy) (key : GroupKey) :
    g.contains key = true ↔ g.items key ≠ [] := by
  rw [contains, hg.get?_eq]
  cases g.items key <;> simp [nonempty?]

/-- The entries are the keys with items, each with all of them. -/
theorem Tidy.mem_entries_iff (hg : g.Tidy) {e : GroupKey × List α} :
    e ∈ g.entries ↔ e.2 = g.items e.1 ∧ e.2 ≠ [] := by
  rw [← hg.get?_eq_some_iff, hg.get?_eq, nonempty?_eq_some_iff, eq_comm]

/-- No key has two groups. -/
theorem Tidy.keys_nodup (hg : g.Tidy) : g.keys.Nodup := by
  refine List.pairwise_map.2 (hg.ascending.imp ?_)
  intro a b hab heq
  rw [heq] at hab
  exact compare_ne_lt_self _ hab

/-- No entry stands twice. -/
theorem Tidy.entries_nodup (hg : g.Tidy) : g.entries.Nodup := by
  refine hg.ascending.imp ?_
  rintro a _ hab rfl
  exact compare_ne_lt_self _ hab

/-- Tidy groups with the same items under every key are equal. -/
theorem Tidy.ext (hg : g.Tidy) (hh : h.Tidy) (heq : ∀ key, g.items key = h.items key) : g = h := by
  have hperm : g.entries.Perm h.entries := by
    refine (List.perm_ext_iff_of_nodup hg.entries_nodup hh.entries_nodup).2 fun e => ?_
    rw [hg.mem_entries_iff, hh.mem_entries_iff, heq]
  -- ascending keys leave one order only
  have hentries : g.entries = h.entries := by
    refine List.Perm.eq_of_pairwise ?_ hg.ascending hh.ascending hperm
    intro a b _ _ hab hba
    exact absurd hba (Std.OrientedCmp.not_lt_of_lt hab)
  cases g
  cases h
  exact congrArg Groups.mk hentries

@[simp] theorem items_empty (key : GroupKey) : (empty : Groups α).items key = [] := rfl

/-! ## What operations do to a list -/

/-- An update is applied to the items of its group and to no others. -/
theorem items_update (hg : g.Tidy) (key k : GroupKey) (f : List α → List α) :
    (g.update key f).items k = if k = key then f (g.items key) else g.items k := by
  unfold items
  rw [get?_update hg]
  split <;> rfl

/-- Inserted items take the place of those that the group had. -/
theorem items_insert (hg : g.Tidy) (key k : GroupKey) (xs : List α) :
    (g.insert key xs).items k = if k = key then xs else g.items k :=
  items_update hg key k _

/-- Appended items stand behind those that the group had. -/
theorem items_appendTo (hg : g.Tidy) (key k : GroupKey) (xs : List α) :
    (g.appendTo key xs).items k = if k = key then g.items k ++ xs else g.items k := by
  rw [appendTo, items_update hg]
  split
  · rename_i heq
    rw [heq]
  · rfl

/-- An added item stands last in its group, and a missing one changes nothing. -/
theorem items_addTo (hg : g.Tidy) (key k : GroupKey) (x? : Option α) :
    (g.addTo key x?).items k = if k = key then g.items k ++ x?.toList else g.items k := by
  cases x? with
  | none => simp [addTo]
  | some x => exact items_appendTo hg key k [x]

/-- A removed group has no items left. -/
theorem items_erase (g : Groups α) (key k : GroupKey) :
    (g.erase key).items k = if k = key then [] else g.items k := by
  unfold items
  rw [get?_erase]
  split <;> rfl

/-- A group that is set holds the item alone, or nothing if the item is missing. -/
theorem items_set (hg : g.Tidy) (key k : GroupKey) (x? : Option α) :
    (g.set key x?).items k = if k = key then x?.toList else g.items k := by
  cases x? with
  | none => exact items_erase g key k
  | some x => exact items_insert hg key k [x]

/-- Items that are appended one by one stand in their order behind those that were there. -/
theorem items_addAllTo (hg : g.Tidy) (key k : GroupKey) (xs : List α) :
    (g.addAllTo key xs).items k = if k = key then g.items k ++ xs else g.items k := by
  induction xs generalizing g with
  | nil => simp [addAllTo]
  | cons x rest ih =>
    have hrest := ih (hg.addTo key (some x))
    rw [items_addTo hg] at hrest
    refine hrest.trans ?_
    split <;> simp

/-- Behind groups without the key, making a group is appending to it. -/
theorem insert_eq_appendTo (hg : g.Tidy) {key : GroupKey} (hkey : g.items key = []) {xs : List α}
    (hxs : xs ≠ []) : g.insert key xs = g.appendTo key xs := by
  refine (hg.insert key hxs).ext (hg.appendTo key hxs) fun k => ?_
  rw [items_insert hg, items_appendTo hg]
  split
  · rename_i heq
    rw [heq, hkey, List.nil_append]
  · rfl

/-- Keys have no items after one group grew when they had none before, and the group is not among
them. -/
theorem items_appendTo_eq_nil_iff (hg : g.Tidy) {key : GroupKey} {xs : List α} (hxs : xs ≠ [])
    {keys : List GroupKey} :
    (∀ k ∈ keys, (g.appendTo key xs).items k = []) ↔ key ∉ keys ∧ ∀ k ∈ keys, g.items k = [] := by
  constructor
  · intro h
    have hkey : key ∉ keys := by
      intro hmem
      have := h key hmem
      rw [items_appendTo hg, if_pos rfl] at this
      exact hxs (List.append_eq_nil_iff.1 this).2
    refine ⟨hkey, fun k hk => ?_⟩
    have := h k hk
    rwa [items_appendTo hg, if_neg (ne_of_mem_of_not_mem hk hkey)] at this
  · rintro ⟨hkey, h⟩ k hk
    rw [items_appendTo hg, if_neg (ne_of_mem_of_not_mem hk hkey), h k hk]

/-- What entries in any order hold under a key, in the order of the entries. -/
def itemsAt (entries : List (GroupKey × List α)) (key : GroupKey) : List α :=
  (entries.filter (·.1 == key)).flatMap (·.2)

/-- An entry in front puts its items before those that follow under its key. -/
theorem itemsAt_cons (e : GroupKey × List α) (rest : List (GroupKey × List α)) (key : GroupKey) :
    itemsAt (e :: rest) key = if key = e.1 then e.2 ++ itemsAt rest key else itemsAt rest key := by
  unfold itemsAt
  by_cases hk : key = e.1
  · simp [hk]
  · simp [hk, Ne.symm hk]

/-- The keys of the entries with items, in the order of the entries. -/
def filledKeys (entries : List (GroupKey × List α)) : List GroupKey :=
  (entries.filter (!·.2.isEmpty)).map (·.1)

/-- The key of an entry with items is one of the filled keys. -/
theorem filledKeys_cons {xs : List α} (hxs : xs ≠ []) (key : GroupKey)
    (rest : List (GroupKey × List α)) :
    filledKeys ((key, xs) :: rest) = key :: filledKeys rest := by
  simp [filledKeys, hxs]

/-- In tidy groups every key is filled. -/
theorem Tidy.filledKeys_entries (hg : g.Tidy) : filledKeys g.entries = g.keys := by
  rw [filledKeys, List.filter_eq_self.2]
  · rfl
  · intro e he
    simp [hg.nonempty e he]

/-- The entries with items. -/
def filled (entries : List (GroupKey × List α)) : List (GroupKey × List α) :=
  entries.filter (!·.2.isEmpty)

theorem filled_cons_nil (key : GroupKey) (rest : List (GroupKey × List α)) :
    filled ((key, []) :: rest) = filled rest := rfl

/-- An entry with items is kept. -/
theorem filled_cons {xs : List α} (hxs : xs ≠ []) (key : GroupKey)
    (rest : List (GroupKey × List α)) : filled ((key, xs) :: rest) = (key, xs) :: filled rest := by
  simp [filled, hxs]

/-- The entries that are kept have items. -/
theorem nonempty_of_mem_filled {entries : List (GroupKey × List α)} :
    ∀ e ∈ filled entries, e.2 ≠ [] := by
  simp [filled]

/-- Entries without items hold nothing under any key. -/
theorem itemsAt_filled (entries : List (GroupKey × List α)) (key : GroupKey) :
    itemsAt (filled entries) key = itemsAt entries key := by
  induction entries with
  | nil => rfl
  | cons e rest ih =>
    obtain ⟨k, xs⟩ := e
    by_cases hxs : xs = []
    · subst hxs
      rw [filled_cons_nil, itemsAt_cons, ih]
      split <;> simp
    · rw [filled_cons hxs, itemsAt_cons, itemsAt_cons, ih]

/-- The entries that are left out hold no items. -/
theorem flatMap_filled (entries : List (GroupKey × List α)) :
    (filled entries).flatMap (·.2) = entries.flatMap (·.2) := by
  induction entries with
  | nil => rfl
  | cons e rest ih =>
    obtain ⟨k, xs⟩ := e
    by_cases hxs : xs = []
    · subst hxs
      exact ih
    · rw [filled_cons hxs, List.flatMap_cons, List.flatMap_cons, ih]

theorem merge_cons (g : Groups α) (e : GroupKey × List α) (rest : List (GroupKey × List α)) :
    g.merge ⟨e :: rest⟩ = (g.appendTo e.1 e.2).merge ⟨rest⟩ := rfl

/-- Under each key a merge appends what the merged entries hold there. -/
theorem items_merge_itemsAt (hg : g.Tidy) (h : Groups α) (hh : ∀ e ∈ h.entries, e.2 ≠ [])
    (key : GroupKey) : (g.merge h).items key = g.items key ++ itemsAt h.entries key := by
  obtain ⟨entries⟩ := h
  induction entries generalizing g with
  | nil => simp [merge, itemsAt]
  | cons e rest ih =>
    obtain ⟨he, hrest⟩ := List.forall_mem_cons.1 hh
    have hstep := ih (hg.appendTo e.1 he) hrest
    rw [merge_cons, hstep, items_appendTo hg, itemsAt_cons]
    split <;> simp

/-- What tidy groups hold under a key is what their entries hold under it. -/
theorem Tidy.itemsAt_entries (hg : g.Tidy) (key : GroupKey) :
    itemsAt g.entries key = g.items key := by
  obtain ⟨entries⟩ := g
  have hs := hg.ascending
  show itemsAt entries key = (lookup? entries key).getD []
  clear hg
  induction entries with
  | nil => rfl
  | cons e rest ih =>
    obtain ⟨hk, hr⟩ := List.pairwise_cons.1 hs
    rw [itemsAt_cons, lookup?_cons, ih hr]
    by_cases heq : key = e.1
    · subst heq
      rw [if_pos rfl, if_pos rfl, lookup?_eq_none hk]
      simp
    · rw [if_neg heq, if_neg (Ne.symm heq)]

/-- Merging tidy groups appends under every key. -/
theorem items_merge (hg : g.Tidy) (hh : h.Tidy) (key : GroupKey) :
    (g.merge h).items key = g.items key ++ h.items key := by
  rw [items_merge_itemsAt hg h hh.nonempty, hh.itemsAt_entries]

/-- Entries in another order fill the same keys. -/
theorem filledKeys_perm {a b : List (GroupKey × List α)} (h : a.Perm b) :
    (filledKeys a).Perm (filledKeys b) :=
  (h.filter _).map _

/-- If no filled key comes twice, the order of the entries does not matter. -/
theorem itemsAt_perm {a b : List (GroupKey × List α)} (h : a.Perm b)
    (hn : (filledKeys a).Nodup) (key : GroupKey) : itemsAt a key = itemsAt b key := by
  induction h with
  | nil => rfl
  | @cons e a b _ ih =>
    have htail : (filledKeys a).Nodup := by
      refine hn.sublist ?_
      exact ((List.sublist_cons_self e a).filter _).map _
    rw [itemsAt_cons, itemsAt_cons, ih htail]
  | swap d e rest =>
    rw [itemsAt_cons, itemsAt_cons, itemsAt_cons, itemsAt_cons]
    by_cases hd : key = d.1
    · by_cases he : key = e.1
      · -- of two entries under one key at most one has items
        have hone : e.2 = [] ∨ d.2 = [] := by
          by_cases he2 : e.2 = []
          · exact .inl he2
          · by_cases hd2 : d.2 = []
            · exact .inr hd2
            · obtain ⟨ke, xs⟩ := e
              obtain ⟨kd, ys⟩ := d
              rw [filledKeys_cons he2, filledKeys_cons hd2] at hn
              obtain rfl : ke = kd := he.symm.trans hd
              simp at hn
        rcases hone with hnil | hnil <;> simp [← hd, ← he, hnil]
      · rw [if_neg he, if_neg he]
    · rw [if_neg hd, if_neg hd]
  | trans h₁ _ ih₁ ih₂ =>
    rw [ih₁ hn, ih₂ ((filledKeys_perm h₁).nodup_iff.1 hn)]

/-- Appending to a group loses no item, whatever the groups were. -/
theorem toList_appendTo_perm (g : Groups α) (key : GroupKey) (xs : List α) :
    (g.appendTo key xs).toList.Perm (g.toList ++ xs) := by
  obtain ⟨entries⟩ := g
  show ((updateEntries key (· ++ xs) entries).flatMap (·.2)).Perm (entries.flatMap (·.2) ++ xs)
  induction entries with
  | nil => simp [updateEntries]
  | cons e rest ih =>
    obtain ⟨k, items⟩ := e
    unfold updateEntries
    split
    · exact List.perm_append_comm
    · rw [List.flatMap_cons, List.flatMap_cons, List.append_assoc, List.append_assoc]
      exact List.perm_append_comm.append_left items
    · rw [List.flatMap_cons, List.flatMap_cons, List.append_assoc]
      exact ih.append_left items

/-- Merging loses no item, in whatever order they come out. -/
theorem toList_merge_perm (g h : Groups α) :
    (g.merge h).toList.Perm (g.toList ++ h.toList) := by
  obtain ⟨entries⟩ := h
  induction entries generalizing g with
  | nil => simp [merge, toList]
  | cons e rest ih =>
    have hstep := (g.toList_appendTo_perm e.1 e.2).append_right (toList ⟨rest⟩)
    rw [List.append_assoc] at hstep
    exact (ih (g.appendTo e.1 e.2)).trans hstep

/-! ## Groups of entries in any order -/

/-- The groups that entries make, in whatever order they come. Entries without items make none. -/
def ofEntries (entries : List (GroupKey × List α)) : Groups α :=
  empty.merge ⟨filled entries⟩

/-- Entries make tidy groups, whatever their order and however many of them are empty. -/
theorem tidy_ofEntries (entries : List (GroupKey × List α)) : (ofEntries entries).Tidy :=
  tidy_empty.merge_of_nonempty _ nonempty_of_mem_filled

/-- A group of entries holds what all entries of its key hold. -/
theorem items_ofEntries (entries : List (GroupKey × List α)) (key : GroupKey) :
    (ofEntries entries).items key = itemsAt entries key := by
  have hmerged := items_merge_itemsAt tidy_empty ⟨filled entries⟩ nonempty_of_mem_filled key
  rw [itemsAt_filled, items_empty, List.nil_append] at hmerged
  exact hmerged

/-- Tidy groups are the groups of their own entries. -/
theorem Tidy.ofEntries_entries (hg : g.Tidy) : ofEntries g.entries = g :=
  (tidy_ofEntries g.entries).ext hg fun key => by rw [items_ofEntries, hg.itemsAt_entries]

/-- The groups of entries are told apart only by the items under each key. -/
theorem ofEntries_congr {a b : List (GroupKey × List α)}
    (h : ∀ key, itemsAt a key = itemsAt b key) : ofEntries a = ofEntries b :=
  (tidy_ofEntries a).ext (tidy_ofEntries b) fun key => by
    rw [items_ofEntries, items_ofEntries, h]

/-- Items appended one by one to no groups are those of a single entry. -/
theorem empty_addAllTo (key : GroupKey) (xs : List α) :
    empty.addAllTo key xs = ofEntries [(key, xs)] := by
  refine (tidy_empty.addAllTo key xs).ext (tidy_ofEntries _) fun k => ?_
  rw [items_addAllTo tidy_empty, items_ofEntries, itemsAt_cons]
  simp [itemsAt]

/-- The groups of entries hold the items of the entries, and no others. -/
theorem toList_ofEntries_perm (entries : List (GroupKey × List α)) :
    (ofEntries entries).toList.Perm (entries.flatMap (·.2)) := by
  have hmerged := toList_merge_perm (empty : Groups α) ⟨filled entries⟩
  rw [show toList ⟨filled entries⟩ = entries.flatMap (·.2) from flatMap_filled entries] at hmerged
  exact hmerged

/-- An item is in the groups of entries exactly when it is in one of the entries. -/
theorem mem_toList_ofEntries {entries : List (GroupKey × List α)} {x : α} :
    x ∈ (ofEntries entries).toList ↔ ∃ e ∈ entries, x ∈ e.2 := by
  rw [(toList_ofEntries_perm entries).mem_iff, List.mem_flatMap]

end QueryTree.Groups
