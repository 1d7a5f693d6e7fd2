import Mathlib.Algebra.BigOperators.Ring.Finset
import QueryTree.Proofs.OlderPayloads

/-! # Groups as they are read

The entries of a composite's payload may come in any order and may be empty, and older payloads hold
one list instead. A composite is refused only for an item that is no condition, for a key that is
filled twice, or for the name behind a list; otherwise every item of the payload ends up in the
group of its key, in the order of the payload (`reading_keeps_items`). -/

namespace QueryTree

/-- The member is a nested payload that reads as a condition. -/
def Member.HoldsCondition (m : Member) : Prop := ∃ c, m.Holds Condition.ofPayload c

/-! ## Lists of what is held -/

section Forall₂

variable {α β : Type} {holds : α → β → Prop}

/-- If every item holds something, a list of items holds a list. -/
theorem exists_forall₂ {as : List α} (h : ∀ a ∈ as, ∃ b, holds a b) :
    ∃ bs, List.Forall₂ holds as bs := by
  induction as with
  | nil => exact ⟨[], .nil⟩
  | cons a as ih =>
    obtain ⟨⟨b, hb⟩, has⟩ := List.forall_mem_cons.1 h
    obtain ⟨bs, hbs⟩ := ih has
    exact ⟨b :: bs, .cons hb hbs⟩

/-- In lists of what is held, each item holds something that stands in the other list. -/
theorem exists_holds_of_forall₂ {as : List α} {bs : List β} (h : List.Forall₂ holds as bs) {a : α}
    (ha : a ∈ as) : ∃ b ∈ bs, holds a b := by
  obtain ⟨b, hb, hab⟩ := exists_mem_of_forall₂ (List.Forall₂.flip h) ha
  exact ⟨b, hb, hab⟩

end Forall₂

/-! ## Entries in any order -/

namespace Groups

variable {α : Type} {entries : List (GroupKey × List α)} {key : GroupKey} {xs : List α}

/-- That no filled key comes twice says of any two entries with items that their keys differ. -/
theorem filledKeys_nodup_iff :
    (filledKeys entries).Nodup
      ↔ entries.Pairwise fun e f => e.2 ≠ [] → f.2 ≠ [] → e.1 ≠ f.1 := by
  rw [filledKeys, List.Nodup, List.pairwise_map, List.pairwise_filter]
  simp

/-- A key under which every entry is empty has no items. -/
theorem itemsAt_of_empty (h : ∀ xs, (key, xs) ∈ entries → xs = []) : itemsAt entries key = [] := by
  rw [itemsAt, List.flatMap_eq_nil_iff]
  rintro ⟨k, xs⟩ he
  obtain ⟨hmem, hk⟩ := List.mem_filter.1 he
  obtain rfl : k = key := by simpa using hk
  exact h xs hmem

/-- If no key is filled twice, a filled entry has all items under its key. -/
theorem itemsAt_of_mem (hn : (filledKeys entries).Nodup) (he : (key, xs) ∈ entries)
    (hne : xs ≠ []) : itemsAt entries key = xs := by
  obtain ⟨front, back, rfl⟩ := List.append_of_mem he
  -- brought to the front, the entry is followed by empty entries of its key only
  have hperm : (front ++ (key, xs) :: back).Perm ((key, xs) :: (front ++ back)) :=
    List.perm_middle
  have hother : ∀ ys, (key, ys) ∈ front ++ back → ys = [] := by
    intro ys hys
    have hkeys := ((filledKeys_perm hperm).nodup_iff.1 hn)
    rw [filledKeys_cons hne, List.nodup_cons] at hkeys
    by_contra hfilled
    refine hkeys.1 (List.mem_map.2 ⟨(key, ys), List.mem_filter.2 ⟨hys, ?_⟩, rfl⟩)
    simpa using hfilled
  rw [itemsAt_perm hperm hn, itemsAt_cons, if_pos rfl, itemsAt_of_empty hother, List.append_nil]

/-- A group of entries is there exactly when the entries hold items under its key. -/
theorem get?_ofEntries (entries : List (GroupKey × List α)) (key : GroupKey) :
    (ofEntries entries).get? key = nonempty? (itemsAt entries key) := by
  rw [(tidy_ofEntries entries).get?_eq, items_ofEntries]

/-- The groups of entries have as many items as the entries have together. -/
theorem size_ofEntries (entries : List (GroupKey × List α)) :
    (ofEntries entries).size = (entries.map (·.2.length)).sum := by
  rw [size, (toList_ofEntries_perm entries).length_eq, List.length_flatMap]

end Groups

/-! ## Entries of payloads -/

namespace Condition

variable {entries : List (GroupKey × List Member)} {read : List (GroupKey × List Condition)}

/-- An entry of a payload is empty exactly when what it holds is. -/
theorem entryHolds_nil_iff {e : GroupKey × List Member} {d : GroupKey × List Condition}
    (h : EntryHolds e d) : e.2 = [] ↔ d.2 = [] := by
  rw [← List.length_eq_zero_iff, h.2.length_eq, List.length_eq_zero_iff]

/-- The keys that a payload fills are those that its groups fill. -/
theorem filledKeys_of_holds (h : List.Forall₂ EntryHolds entries read) :
    Groups.filledKeys entries = Groups.filledKeys read := by
  induction h with
  | nil => rfl
  | @cons e d es ds hed _ ih =>
    simp only [Groups.filledKeys, List.filter_cons, Bool.not_eq_true', List.isEmpty_eq_false_iff,
      ne_eq, entryHolds_nil_iff hed] at ih ⊢
    split
    · rw [List.map_cons, List.map_cons, hed.1, ih]
    · exact ih

/-- Entries hold groups exactly if each of their items holds a condition. -/
theorem exists_holds_iff :
    (∃ read, List.Forall₂ EntryHolds entries read)
      ↔ ∀ e ∈ entries, ∀ m ∈ e.2, m.HoldsCondition := by
  constructor
  · rintro ⟨read, hread⟩ e he m hm
    obtain ⟨d, -, -, hitems⟩ := exists_holds_of_forall₂ hread he
    obtain ⟨c, -, hc⟩ := exists_holds_of_forall₂ hitems hm
    exact ⟨c, hc⟩
  · intro h
    refine exists_forall₂ fun e he => ?_
    obtain ⟨cs, hcs⟩ := exists_forall₂ (h e he)
    exact ⟨(e.1, cs), rfl, hcs⟩

/-- Every item of an entry holds one condition. -/
theorem lengths_of_holds (h : List.Forall₂ EntryHolds entries read) :
    read.map (·.2.length) = entries.map (·.2.length) := by
  induction h with
  | nil => rfl
  | cons hed _ ih => rw [List.map_cons, List.map_cons, ih, hed.2.length_eq]

/-- Groups are read from entries whose items are conditions and whose filled keys differ. -/
theorem groupsHeldBy_groups_iff {rest : List Member} {g : Groups Condition} :
    GroupsHeldBy (.groups entries) rest g
      ↔ ∃ read, List.Forall₂ EntryHolds entries read ∧ (Groups.filledKeys entries).Nodup
        ∧ g = Groups.ofEntries read := by
  constructor
  · rintro (⟨_, read, heq, hread, hnodup, rfl⟩ | ⟨_, _, _, heq, -⟩)
    · cases heq
      exact ⟨read, hread, filledKeys_of_holds hread ▸ hnodup, rfl⟩
    · cases heq
  · rintro ⟨read, hread, hnodup, rfl⟩
    exact .inl ⟨entries, read, rfl, hread, filledKeys_of_holds hread ▸ hnodup, rfl⟩

/-- An older list holds the groups whose one group has all its conditions, under the name behind it.
-/
theorem groupsHeldBy_items_iff {items rest : List Member} {g : Groups Condition} :
    GroupsHeldBy (.list items) rest g
      ↔ ∃ cs key, List.Forall₂ (Member.Holds ofPayload) items cs ∧ Member.TrailingText rest key
        ∧ g = Groups.empty.addAllTo key cs := by
  constructor
  · rintro (⟨_, _, heq, -⟩ | ⟨_, cs, key, heq, hcs, hkey, rfl⟩)
    · cases heq
    · cases heq
      exact ⟨cs, key, hcs, hkey, rfl⟩
  · rintro ⟨cs, key, hcs, hkey, rfl⟩
    exact .inr ⟨items, cs, key, rfl, hcs, hkey, rfl⟩

/-- The groups that entries are read as hold under each key what the filled entry of the key holds.
-/
theorem get?_of_holds (hread : List.Forall₂ EntryHolds entries read)
    (hnodup : (Groups.filledKeys entries).Nodup) {key : GroupKey} :
    (∀ items, (key, items) ∈ entries → items ≠ [] →
      ∃ cs, List.Forall₂ (Member.Holds ofPayload) items cs
        ∧ (Groups.ofEntries read).get? key = some cs)
    ∧ ((∀ items, (key, items) ∈ entries → items = []) →
      (Groups.ofEntries read).get? key = none) := by
  simp only [Groups.get?_ofEntries]
  constructor
  · intro items he hne
    obtain ⟨⟨k, cs⟩, hd, hkey, hitems⟩ := exists_holds_of_forall₂ hread he
    obtain rfl : key = k := hkey
    have hcs : cs ≠ [] := fun hnil => hne ((entryHolds_nil_iff ⟨rfl, hitems⟩).2 hnil)
    rw [filledKeys_of_holds hread] at hnodup
    refine ⟨cs, hitems, ?_⟩
    rw [Groups.itemsAt_of_mem hnodup hd hcs, Groups.nonempty?_eq_some_iff]
    exact ⟨rfl, hcs⟩
  · intro h
    rw [Groups.itemsAt_of_empty]
    · rfl
    · intro cs hd
      obtain ⟨⟨k, items⟩, he, hkey, hitems⟩ := exists_mem_of_forall₂ hread hd
      obtain rfl : k = key := hkey
      exact (entryHolds_nil_iff ⟨rfl, hitems⟩).1 (h items he)

end Condition

/-! ## Composites -/

/-- Items that are added to no groups are in their group, and nowhere else. -/
theorem Groups.get?_empty_addAllTo {α : Type} (key k : GroupKey) (xs : List α) :
    ((empty : Groups α).addAllTo key xs).get? k = if k = key then nonempty? xs else none := by
  rw [empty_addAllTo, get?_ofEntries, itemsAt_cons]
  split <;> simp [itemsAt, nonempty?]

/-- A payload of the kind is read as groups exactly if its members hold them. -/
theorem Groups.ofPayload_members_iff {op : Connective} {m : Member} {rest : List Member}
    {g : Groups Condition} :
    Groups.ofPayload op (.ofKind op.kind (m :: rest)) = .ok g
      ↔ Condition.GroupsHeldBy m rest g := by
  rw [Groups.ofPayload_eq_ok_iff]
  simp

/-- The members behind a list give one name. -/
theorem Member.trailingText_unique {rest : List Member} {text? other? : Option String}
    (h : TrailingText rest text?) (h' : TrailingText rest other?) : text? = other? := by
  have hread : ∀ key, TrailingText rest key → Condition.legacyKey "" rest = .ok key :=
    fun _ => Condition.legacyKey_eq_ok_iff.2
  exact Except.ok.inj ((hread _ h).symm.trans (hread _ h'))

/-- Entries are read exactly if all their items are conditions and no two filled ones have the same
key. Each group then has the items of the one filled entry of its key, in order, and no group has
others, whatever the order of the entries. An older list is read exactly if all its items are
conditions and a text, null or nothing is behind it; all items are then in the group that is named
there. -/
theorem reading_keeps_items (op : Connective) :
    (∀ (entries : List (GroupKey × List Member)) (rest : List Member),
      ((∃ g, Groups.ofPayload op (.ofKind op.kind (.groups entries :: rest)) = .ok g)
        ↔ (∀ e ∈ entries, ∀ m ∈ e.2, m.HoldsCondition)
          ∧ entries.Pairwise fun e f => e.2 ≠ [] → f.2 ≠ [] → e.1 ≠ f.1)
      ∧ ∀ g, Groups.ofPayload op (.ofKind op.kind (.groups entries :: rest)) = .ok g →
        (∀ key items, (key, items) ∈ entries → items ≠ [] →
          ∃ cs, List.Forall₂ (Member.Holds Condition.ofPayload) items cs ∧ g.get? key = some cs)
        ∧ (∀ key, (∀ items, (key, items) ∈ entries → items = []) → g.get? key = none)
        ∧ g.size = (entries.map (·.2.length)).sum
        ∧ ∀ entries', entries.Perm entries' →
          Groups.ofPayload op (.ofKind op.kind (.groups entries' :: rest)) = .ok g)
    ∧ ∀ items rest : List Member,
      ((∃ g, Groups.ofPayload op (.ofKind op.kind (.list items :: rest)) = .ok g)
        ↔ (∀ m ∈ items, m.HoldsCondition) ∧ ∃ key, Member.TrailingText rest key)
      ∧ ∀ g key, Groups.ofPayload op (.ofKind op.kind (.list items :: rest)) = .ok g →
        Member.TrailingText rest key →
          (∃ cs, List.Forall₂ (Member.Holds Condition.ofPayload) items cs
            ∧ g.get? key = Groups.nonempty? cs)
          ∧ (∀ k, k ≠ key → g.get? k = none) ∧ g.size = items.length := by
  simp only [Groups.ofPayload_members_iff]
  refine ⟨fun entries rest => ⟨?_, fun g hg => ?_⟩, fun items rest => ⟨?_, fun g key hg hkey => ?_⟩⟩
  · rw [← Condition.exists_holds_iff, ← Groups.filledKeys_nodup_iff]
    simp only [Condition.groupsHeldBy_groups_iff]
    constructor
    · rintro ⟨g, read, hread, hnodup, -⟩
      exact ⟨⟨read, hread⟩, hnodup⟩
    · rintro ⟨⟨read, hread⟩, hnodup⟩
      exact ⟨_, read, hread, hnodup, rfl⟩
  · have hperm : ∀ entries', entries.Perm entries' →
        Condition.GroupsHeldBy (.groups entries') rest g :=
      fun entries' h => Condition.groupsHeldBy_perm h hg
    obtain ⟨read, hread, hnodup, rfl⟩ := Condition.groupsHeldBy_groups_iff.1 hg
    refine ⟨fun key => (Condition.get?_of_holds hread hnodup).1,
      fun key => (Condition.get?_of_holds hread hnodup).2, ?_, hperm⟩
    rw [Groups.size_ofEntries, Condition.lengths_of_holds hread]
  · simp only [Condition.groupsHeldBy_items_iff]
    constructor
    · rintro ⟨g, cs, key, hcs, hkey, -⟩
      refine ⟨fun m hm => ?_, key, hkey⟩
      obtain ⟨c, -, hc⟩ := exists_holds_of_forall₂ hcs hm
      exact ⟨c, hc⟩
    · rintro ⟨hitems, key, hkey⟩
      obtain ⟨cs, hcs⟩ := exists_forall₂ hitems
      exact ⟨_, cs, key, hcs, hkey, rfl⟩
  · obtain ⟨cs, key', hcs, hkey', rfl⟩ := Condition.groupsHeldBy_items_iff.1 hg
    obtain rfl : key' = key := Member.trailingText_unique hkey' hkey
    refine ⟨⟨cs, hcs, ?_⟩, fun k hk => ?_, ?_⟩
    · rw [Groups.get?_empty_addAllTo, if_pos rfl]
    · rw [Groups.get?_empty_addAllTo, if_neg hk]
    · rw [Groups.empty_addAllTo, Groups.size_ofEntries, hcs.length_eq]
      simp

end QueryTree
