import QueryTree.Proofs.GroupView

/-! # Histories of groups

Groups are built by steps, and groups to merge are built in the same way. `partsAt` picks out of a
history what is about one group, and `replay` is the list that these parts make: the group holds
this list, whatever else happens, and can be taken back without a trace.
-/

namespace QueryTree.Groups

variable {α : Type}

/-- A step in the making of groups. What is merged is given by its own history. -/
inductive Step (α : Type) where
  | add (item? : Option α)
  | addNamed (name : String) (item? : Option α)
  | addTo (key : GroupKey) (item? : Option α)
  | setNamed (name : String) (item? : Option α)
  | removeNamed (name : String)
  | remove (key : GroupKey)
  | extend (items : List α)
  | merge (history : List (Step α))

/-- A change of one list. -/
inductive ListEdit (α : Type) where
  | append (items : List α)
  | replace (items : List α)

/-- The list after a change. -/
def ListEdit.apply (xs : List α) : ListEdit α → List α
  | .append items => xs ++ items
  | .replace items => items

/-- The list that changes in order make of the empty one. -/
def replay (edits : List (ListEdit α)) : List α :=
  edits.foldl ListEdit.apply []

namespace Step

/-- The group that a step is about, and how it changes. A merge is about many groups. -/
def change? : Step α → Option (GroupKey × ListEdit α)
  | add item? => some (none, .append item?.toList)
  | addNamed name item? => some (some name, .append item?.toList)
  | addTo key item? => some (key, .append item?.toList)
  | setNamed name item? => some (some name, .replace item?.toList)
  | removeNamed name => some (some name, .replace [])
  | remove key => some (key, .replace [])
  | extend items => some (none, .append items)
  | merge _ => none

/-- A property holds of every step if a merge takes it over from the history of what is merged. -/
@[elab_as_elim]
theorem induction {motive : Step α → Prop}
    (change : ∀ s key edit, change? s = some (key, edit) → motive s)
    (merge : ∀ history, (∀ s ∈ history, motive s) → motive (.merge history))
    (s : Step α) : motive s := by
  refine Step.rec (motive_1 := motive) (motive_2 := fun history => ∀ s ∈ history, motive s)
    ?_ ?_ ?_ ?_ ?_ ?_ ?_ merge (by simp) ?_ s
  case refine_8 =>
    intro s rest hs hrest t ht
    rcases List.mem_cons.1 ht with rfl | ht
    · exact hs
    · exact hrest t ht
  all_goals
    intros
    exact change _ _ _ rfl

end Step

mutual

/-- The groups after a step. -/
def step (g : Groups α) : Step α → Groups α
  | .add item? => g.add item?
  | .addNamed name item? => g.addTo (some name) item?
  | .addTo key item? => g.addTo key item?
  | .setNamed name item? => g.set (some name) item?
  | .removeNamed name => (g.remove (some name)).2
  | .remove key => (g.remove key).2
  | .extend items => g.extend items
  | .merge history => g.merge (run empty history)
termination_by structural s => s

/-- The groups after a history of steps. -/
def run (g : Groups α) : List (Step α) → Groups α
  | [] => g
  | s :: rest => run (step g s) rest
termination_by structural history => history

end

/-- The groups that a history makes out of nothing. -/
def ofHistory (history : List (Step α)) : Groups α :=
  run empty history

section Parts

variable (key : GroupKey)

mutual

/-- What a step does to the group under the key, if it is about this group. -/
def partAt : Step α → Option (ListEdit α)
  | .merge history =>
    match partsAt history with
    | [] => none
    | edits => some (.append (replay edits))
  | s => (s.change?.filter (·.1 == key)).map (·.2)
termination_by structural s => s

/-- What a history does to the group under the key. -/
def partsAt : List (Step α) → List (ListEdit α)
  | [] => []
  | s :: rest => (partAt s).toList ++ partsAt rest
termination_by structural history => history

end

mutual

/-- The step without what it does to the group under the key: nothing if it is about this group, and
a merge with the part for this group deleted. -/
def deletePart : Step α → List (Step α)
  | .merge history => [.merge (deleteParts history)]
  | s => if s.change?.any (·.1 == key) then [] else [s]
termination_by structural s => s

/-- The history without what it does to the group under the key. -/
def deleteParts : List (Step α) → List (Step α)
  | [] => []
  | s :: rest => deletePart s ++ deleteParts rest
termination_by structural history => history

end

end Parts

/-! ## One step -/

/-- A step that is about one group changes the list of this group and no other. -/
theorem items_step_of_change {s : Step α} {target : GroupKey} {edit : ListEdit α}
    (hs : s.change? = some (target, edit)) {g : Groups α} (hg : g.Tidy) (key : GroupKey) :
    (step g s).items key = if key = target then edit.apply (g.items key) else g.items key := by
  cases s with
  | add item? =>
    cases hs
    exact items_addTo hg none key item?
  | addNamed name item? =>
    cases hs
    exact items_addTo hg (some name) key item?
  | addTo target item? =>
    cases hs
    exact items_addTo hg target key item?
  | setNamed name item? =>
    cases hs
    exact items_set hg (some name) key item?
  | removeNamed name =>
    cases hs
    exact items_erase g (some name) key
  | remove target =>
    cases hs
    exact items_erase g target key
  | extend items =>
    cases hs
    exact items_addAllTo hg none key items
  | merge history => cases hs

/-- A step that is about one group keeps groups tidy. -/
theorem tidy_step_of_change {s : Step α} {target : GroupKey} {edit : ListEdit α}
    (hs : s.change? = some (target, edit)) {g : Groups α} (hg : g.Tidy) : (step g s).Tidy := by
  cases s with
  | add item? => exact hg.addTo none item?
  | addNamed name item? => exact hg.addTo (some name) item?
  | addTo target item? => exact hg.addTo target item?
  | setNamed name item? => exact hg.set (some name) item?
  | removeNamed name => exact hg.erase (some name)
  | remove target => exact hg.erase target
  | extend items => exact hg.extend items
  | merge history => cases hs

/-- The part of a step about one group is its change there, and nothing anywhere else. -/
theorem partAt_eq_of_change {s : Step α} {target : GroupKey} {edit : ListEdit α}
    (hs : s.change? = some (target, edit)) (key : GroupKey) :
    partAt key s = if target = key then some edit else none := by
  have hpart : partAt key s = (s.change?.filter (·.1 == key)).map (·.2) := by
    cases s with
    | merge => cases hs
    | _ => rfl
  rw [hpart, hs, Option.filter_some]
  by_cases hk : target = key <;> simp [hk]

/-- Without its part, a step about the group is gone, and any other step stays. -/
theorem deletePart_eq_of_change {s : Step α} {target : GroupKey} {edit : ListEdit α}
    (hs : s.change? = some (target, edit)) (key : GroupKey) :
    deletePart key s = if target = key then [] else [s] := by
  have hpart : deletePart key s = if s.change?.any (·.1 == key) then [] else [s] := by
    cases s with
    | merge => cases hs
    | _ => rfl
  rw [hpart, hs]
  by_cases hk : target = key <;> simp [hk]

/-- The part of a merge appends the list that the merged history makes under the key. -/
theorem foldl_partAt_merge (key : GroupKey) (history : List (Step α)) (xs : List α) :
    (partAt key (.merge history)).toList.foldl ListEdit.apply xs
      = xs ++ replay (partsAt key history) := by
  rw [partAt]
  split
  · rename_i hnil
    rw [hnil]
    simp [replay]
  · rfl

/-- A history keeps groups tidy if each of its steps does. -/
theorem tidy_run_of_step {history : List (Step α)}
    (hsteps : ∀ s ∈ history, ∀ g : Groups α, g.Tidy → (step g s).Tidy) {g : Groups α}
    (hg : g.Tidy) : (run g history).Tidy := by
  induction history generalizing g with
  | nil => exact hg
  | cons s rest ih =>
    obtain ⟨hs, hrest⟩ := List.forall_mem_cons.1 hsteps
    exact ih hrest (hs g hg)

/-- Every step keeps groups tidy. What is merged was made by steps as well, so it is tidy, and a
merge makes no empty group of it. -/
theorem tidy_step {g : Groups α} (hg : g.Tidy) (s : Step α) : (step g s).Tidy := by
  induction s using Step.induction generalizing g with
  | change s target edit hs => exact tidy_step_of_change hs hg
  | merge history ih => exact hg.merge (tidy_run_of_step (fun s hs _ hg => ih s hs hg) tidy_empty)

/-- Every history keeps groups tidy. -/
theorem tidy_run {g : Groups α} (hg : g.Tidy) (history : List (Step α)) :
    (run g history).Tidy :=
  tidy_run_of_step (fun s _ _ hg => tidy_step hg s) hg

/-- The groups of a history are tidy. -/
theorem tidy_ofHistory (history : List (Step α)) : (ofHistory history).Tidy :=
  tidy_run tidy_empty history

/-! ## A whole history -/

/-- If each step changes a list by its part, a history changes it by all its parts in order. -/
theorem items_run_of_step {history : List (Step α)} {key : GroupKey}
    (hsteps : ∀ s ∈ history, ∀ g : Groups α, g.Tidy →
      (step g s).items key = (partAt key s).toList.foldl ListEdit.apply (g.items key))
    {g : Groups α} (hg : g.Tidy) :
    (run g history).items key = (partsAt key history).foldl ListEdit.apply (g.items key) := by
  induction history generalizing g with
  | nil => rfl
  | cons s rest ih =>
    rw [run, ih (fun t ht => hsteps t (List.mem_cons_of_mem _ ht)) (tidy_step hg s),
      hsteps s List.mem_cons_self g hg, partsAt, List.foldl_append]

/-- A step changes the list under a key by its part about this key, and by nothing else. -/
theorem items_step {g : Groups α} (hg : g.Tidy) (key : GroupKey) (s : Step α) :
    (step g s).items key = (partAt key s).toList.foldl ListEdit.apply (g.items key) := by
  induction s using Step.induction generalizing g with
  | change s target edit hs =>
    rw [items_step_of_change hs hg, partAt_eq_of_change hs]
    by_cases hk : key = target
    · subst hk
      simp
    · simp [hk, Ne.symm hk]
  | merge history ih =>
    have hrun : (run empty history).items key = replay (partsAt key history) :=
      items_run_of_step (fun s hs g hg => ih s hs hg) tidy_empty
    rw [step, items_merge hg (tidy_run tidy_empty history), hrun, foldl_partAt_merge]

/-- A group holds the list that the parts of the history about it make. -/
theorem items_ofHistory (history : List (Step α)) (key : GroupKey) :
    (ofHistory history).items key = replay (partsAt key history) :=
  items_run_of_step (fun s _ _ hg => items_step hg key s) tidy_empty

/-- The parts of two histories in a row are those of the first and then those of the second. -/
theorem partsAt_append (key : GroupKey) (history next : List (Step α)) :
    partsAt key (history ++ next) = partsAt key history ++ partsAt key next := by
  induction history with
  | nil => rfl
  | cons s rest ih => rw [List.cons_append, partsAt, ih, partsAt, List.append_assoc]

/-- If each step loses its part and no other, so does the history. -/
theorem partsAt_deleteParts_of_deletePart {history : List (Step α)} {key k : GroupKey}
    (hsteps : ∀ s ∈ history, partsAt k (deletePart key s)
      = if k = key then [] else (partAt k s).toList) :
    partsAt k (deleteParts key history) = if k = key then [] else partsAt k history := by
  induction history with
  | nil => simp [deleteParts, partsAt]
  | cons s rest ih =>
    rw [deleteParts, partsAt_append, hsteps s List.mem_cons_self,
      ih fun t ht => hsteps t (List.mem_cons_of_mem _ ht)]
    split
    · rfl
    · rw [partsAt]

/-- A step without its part about a group keeps its part about every other group. -/
theorem partsAt_deletePart (key k : GroupKey) (s : Step α) :
    partsAt k (deletePart key s) = if k = key then [] else (partAt k s).toList := by
  induction s using Step.induction with
  | change s target edit hs =>
    rw [deletePart_eq_of_change hs, partAt_eq_of_change hs]
    by_cases ht : target = key
    · by_cases hk : k = key
      · simp [ht, hk, partsAt]
      · simp [ht, hk, Ne.symm hk, partsAt]
    · rw [if_neg ht, partsAt, partsAt, partAt_eq_of_change hs, List.append_nil]
      by_cases hk : k = key
      · subst hk
        simp [ht]
      · simp [hk]
  | merge history ih =>
    have hrest := partsAt_deleteParts_of_deletePart ih
    rw [deletePart, partsAt, partsAt, List.append_nil, partAt, partAt, hrest]
    by_cases hk : k = key
    · simp [hk]
    · simp [hk]

/-- Deleting the parts about one group deletes these and keeps the parts about all others. -/
theorem partsAt_deleteParts (key k : GroupKey) (history : List (Step α)) :
    partsAt k (deleteParts key history) = if k = key then [] else partsAt k history :=
  partsAt_deleteParts_of_deletePart fun s _ => partsAt_deletePart key k s

/-- Erasing a group at the end makes the groups of the history without the parts about it. -/
theorem erase_ofHistory (history : List (Step α)) (key : GroupKey) :
    (ofHistory history).erase key = ofHistory (deleteParts key history) := by
  have hg := tidy_ofHistory history
  refine (hg.erase key).ext (tidy_ofHistory _) fun k => ?_
  rw [items_erase, items_ofHistory, items_ofHistory, partsAt_deleteParts]
  split <;> rfl

/-- Group isolation. A group holds what the parts of the history about it make, and is there exactly
when this is not empty. Removing it at the end tells whether it was there, and leaves the groups of
the history without its parts, in which all other groups keep their items and their order. -/
theorem group_of_history (history : List (Step α)) (key : GroupKey) :
    (ofHistory history).get? key = nonempty? (replay (partsAt key history))
      ∧ (ofHistory history).remove key
        = (!(replay (partsAt key history)).isEmpty, ofHistory (deleteParts key history))
      ∧ (ofHistory (deleteParts key history)).entries
        = (ofHistory history).entries.filter (·.1 != key) := by
  have hg := tidy_ofHistory history
  have hget : (ofHistory history).get? key = nonempty? (replay (partsAt key history)) := by
    rw [hg.get?_eq, items_ofHistory]
  refine ⟨hget, ?_, ?_⟩
  · rw [remove, contains, hget, erase_ofHistory]
    cases replay (partsAt key history) <;> rfl
  · rw [← erase_ofHistory, erase]

end QueryTree.Groups
