import Mathlib.Data.List.Induction
import Mathlib.Data.List.ReduceOption
import QueryTree.Condition.Combine
import QueryTree.Proofs.GroupView

/-! # Combining as a monoid

Missing conditions and composites without groups leave the other side of a combination as it is, and
every other pair makes a composite, in which each group is the group of the left side and then that
of the right side. The groups a condition adds are the same before and after it was combined with
something missing, so the order in which conditions are combined in pairs does not matter.
-/

namespace QueryTree

namespace Groups

variable {α : Type} {f g h : Groups α}

/-- It does not matter which two of three groups in a row are merged first. -/
theorem merge_assoc (hf : f.Tidy) (hg : g.Tidy) (hh : h.Tidy) :
    (f.merge g).merge h = f.merge (g.merge h) := by
  have hfg := hf.merge hg
  have hgh := hg.merge hh
  refine (hfg.merge hh).ext (hf.merge hgh) fun key => ?_
  rw [items_merge hfg hh, items_merge hf hg, items_merge hf hgh, items_merge hg hh,
    List.append_assoc]

/-- What one side of a merge holds is held afterwards. -/
theorem isEmpty_merge_of_left (hf : f.Tidy) (g : Groups α) (hne : f.isEmpty = false) :
    (f.merge g).isEmpty = false := by
  have hitem : f.toList ≠ [] := by
    intro hnil
    rw [hf.isEmpty_iff.2 hnil] at hne
    cases hne
  rw [Bool.eq_false_iff]
  intro hempty
  have hmerged := toList_of_isEmpty hempty
  have hperm := toList_merge_perm f g
  rw [hmerged, List.nil_perm, List.append_eq_nil_iff] at hperm
  exact hitem hperm.1

/-- The items of a list are all in the default group. -/
theorem items_ofList (xs : List α) (key : GroupKey) :
    (ofList xs).items key = if key = none then xs else [] := by
  cases xs with
  | nil => rw [ite_self]; rfl
  | cons x rest => exact items_insert tidy_empty none key (x :: rest)

end Groups

namespace Condition

/-- The groups of a composite are tidy. Of the conditions in them nothing is asked. -/
def Tidy : Condition → Prop
  | composite _ g => g.Tidy
  | _ => True

/-- There is no condition, or only a composite without groups. -/
def Missing (c : Option Condition) : Prop :=
  c = none ∨ ∃ op, c = some (composite op .empty)

/-- What a condition adds to a group of a composite: one of the same connective adds its own group,
any other condition adds itself to the default group. -/
def addedTo (op : Connective) (key : GroupKey) : Condition → List Condition
  | composite op' g =>
    if op' = op then g.items key else if key = none then [composite op' g] else []
  | c => if key = none then [c] else []

/-- What conditions make under a connective, none of which is missing: nothing without conditions, a
condition that is alone is itself, and several are a composite, each group of which is what the
conditions in order add to it. -/
def Combines (op : Connective) : List Condition → Option Condition → Prop
  | [], made => made = none
  | [c], made => made = some c
  | cs, made => ∃ g : Groups Condition, made = some (composite op g) ∧ g.Tidy
      ∧ ∀ key, g.items key = cs.flatMap (addedTo op key)

/-- The conditions in a list that are not missing. -/
def presentIn (items : List (Option Condition)) : List Condition :=
  items.reduceOption.filter (!·.isAbsent)

variable {op : Connective} {a b c : Option Condition}

/-! ## Two conditions -/

/-- The absent conditions are the composites without groups. -/
theorem isAbsent_iff {c : Condition} : c.isAbsent = true ↔ ∃ op, c = composite op .empty := by
  cases c with
  | composite op g =>
    obtain ⟨entries⟩ := g
    simp [isAbsent, Groups.isEmpty, Groups.empty]
  | _ => simp [isAbsent]

/-- What is missing is what is not present. -/
theorem missing_iff : Missing c ↔ present? c = none := by
  cases c with
  | none => simp [Missing, present?]
  | some c => simp [Missing, present?, Option.filter_some, isAbsent_iff]

/-- A condition that is not absent is present. -/
theorem present?_some {c : Condition} (h : c.isAbsent = false) : present? (some c) = some c := by
  rw [present?, Option.filter_some, h]
  rfl

/-- What is present stays present. -/
theorem present?_present? (c : Option Condition) : present? (present? c) = present? c := by
  simp [present?, Option.filter_filter]

/-- What is not missing is a condition that is not absent. -/
theorem exists_of_not_missing (h : ¬ Missing c) : ∃ d, c = some d ∧ d.isAbsent = false := by
  have hpresent : present? c ≠ none := fun hnone => h (missing_iff.2 hnone)
  obtain ⟨d, hd⟩ := Option.ne_none_iff_exists'.1 hpresent
  obtain ⟨hc, habsent⟩ := Option.filter_eq_some_iff.1 hd
  exact ⟨d, hc, by simpa using habsent⟩

/-! ## What one condition adds -/

/-- A composite of the connective adds its own groups. -/
theorem contribution_composite (op : Connective) (g : Groups Condition) :
    contribution op (composite op g) = g := by
  rw [contribution, if_pos rfl]

/-- A condition with tidy groups adds tidy groups. -/
theorem Tidy.contribution {c : Condition} (h : c.Tidy) (op : Connective) :
    (c.contribution op).Tidy := by
  cases c with
  | composite op' g =>
    rw [Condition.contribution]
    split
    · exact h
    · exact Groups.tidy_ofList _
  | _ => exact Groups.tidy_ofList _

/-- Under each key the contribution of a condition is what it adds to the group. -/
theorem items_contribution (op : Connective) (key : GroupKey) (c : Condition) :
    (c.contribution op).items key = c.addedTo op key := by
  cases c with
  | composite op' g =>
    rw [contribution, addedTo]
    split
    · rfl
    · exact Groups.items_ofList _ _
  | _ => exact Groups.items_ofList _ _

/-- A condition that is not absent adds something. -/
theorem isEmpty_contribution {c : Condition} (h : c.isAbsent = false) (op : Connective) :
    (c.contribution op).isEmpty = false := by
  cases c with
  | composite op' g =>
    rw [contribution]
    split
    · exact h
    · rfl
  | _ => rfl

/-! ## Two conditions -/

/-- With nothing on the left, a combination is the right side, or nothing if that is missing as
well. -/
theorem combine_of_missing_left (h : Missing a) (b : Option Condition) :
    combine op a b = present? b := by
  rw [combine, missing_iff.1 h]

/-- With nothing on the right, a combination is the left side, or nothing if that is missing as
well. -/
theorem combine_of_missing_right (a : Option Condition) (h : Missing b) :
    combine op a b = present? a := by
  rw [combine, missing_iff.1 h]
  cases present? a <;> rfl

/-- It does not matter whether a missing left side is taken for nothing before or in the
combination. -/
theorem combine_present?_left (a b : Option Condition) :
    combine op (present? a) b = combine op a b := by
  rw [combine, combine, present?_present?]

/-- It does not matter whether a missing right side is taken for nothing before or in the
combination. -/
theorem combine_present?_right (a b : Option Condition) :
    combine op a (present? b) = combine op a b := by
  rw [combine, combine, present?_present?]

/-- Two conditions that are not absent make a composite of what both of them add. -/
theorem combine_some {l r : Condition} (hl : l.isAbsent = false) (hr : r.isAbsent = false) :
    combine op (some l) (some r)
      = some (composite op ((l.contribution op).merge (r.contribution op))) := by
  rw [combine, present?_some hl, present?_some hr]

/-- The composite of two conditions has groups. -/
theorem isAbsent_merged {l : Condition} (ht : l.Tidy) (hl : l.isAbsent = false) (r : Condition) :
    (composite op ((l.contribution op).merge (r.contribution op))).isAbsent = false :=
  Groups.isEmpty_merge_of_left (ht.contribution op) _ (isEmpty_contribution hl op)

/-- A combination is never a composite without groups. -/
theorem present?_combine (ha : ∀ d ∈ a, d.Tidy) :
    present? (combine op a b) = combine op a b := by
  by_cases hma : Missing a
  · rw [combine_of_missing_left hma, present?_present?]
  by_cases hmb : Missing b
  · rw [combine_of_missing_right a hmb, present?_present?]
  obtain ⟨l, rfl, hl⟩ := exists_of_not_missing hma
  obtain ⟨r, rfl, hr⟩ := exists_of_not_missing hmb
  rw [combine_some hl hr]
  exact present?_some (isAbsent_merged (ha l rfl) hl r)

/-- It does not matter which two of three conditions in a row are combined first. -/
theorem combine_assoc (ha : ∀ d ∈ a, d.Tidy) (hb : ∀ d ∈ b, d.Tidy) (hc : ∀ d ∈ c, d.Tidy) :
    combine op (combine op a b) c = combine op a (combine op b c) := by
  by_cases hma : Missing a
  · rw [combine_of_missing_left hma, combine_of_missing_left hma, combine_present?_left,
      present?_combine hb]
  by_cases hmb : Missing b
  · rw [combine_of_missing_right a hmb, combine_of_missing_left hmb, combine_present?_left,
      combine_present?_right]
  by_cases hmc : Missing c
  · rw [combine_of_missing_right _ hmc, combine_of_missing_right b hmc, combine_present?_right,
      present?_combine ha]
  obtain ⟨l, rfl, hl⟩ := exists_of_not_missing hma
  obtain ⟨m, rfl, hm⟩ := exists_of_not_missing hmb
  obtain ⟨r, rfl, hr⟩ := exists_of_not_missing hmc
  -- both composites are of the connective, so they add all that was merged into them
  rw [combine_some hl hm, combine_some hm hr,
    combine_some (isAbsent_merged (ha l rfl) hl m) hr,
    combine_some hl (isAbsent_merged (hb m rfl) hm r), contribution_composite,
    contribution_composite]
  rw [Groups.merge_assoc ((ha l rfl).contribution op) ((hb m rfl).contribution op)
    ((hc r rfl).contribution op)]

/-! ## Lists of conditions -/

/-- The condition has added to each group what the conditions in the list add, in their order. It is
the only one of them, or a composite of several. -/
structure MadeOf (op : Connective) (cs : List Condition) (made : Condition) : Prop where
  tidy : made.Tidy
  present : made.isAbsent = false
  adds : ∀ key, made.addedTo op key = cs.flatMap (addedTo op key)
  shape : cs = [made] ∨ 2 ≤ cs.length ∧ ∃ g, made = composite op g

/-- A condition is made of itself. -/
theorem MadeOf.single {c : Condition} (ht : c.Tidy) (hc : c.isAbsent = false) :
    MadeOf op [c] c :=
  ⟨ht, hc, fun key => by rw [List.flatMap_singleton], .inl rfl⟩

/-- One more condition adds to each group behind what is there. -/
theorem MadeOf.combine {cs : List Condition} {made c : Condition} (h : MadeOf op cs made)
    (ht : c.Tidy) (hc : c.isAbsent = false) :
    ∃ next, Condition.combine op (some made) (some c) = some next
      ∧ MadeOf op (cs ++ [c]) next := by
  have hmade := h.tidy.contribution op
  refine ⟨_, combine_some h.present hc, hmade.merge (ht.contribution op),
    isAbsent_merged h.tidy h.present c, ?_, ?_⟩
  · intro key
    have hgroup : (composite op ((made.contribution op).merge (c.contribution op))).addedTo op key
        = ((made.contribution op).merge (c.contribution op)).items key := if_pos rfl
    rw [hgroup, Groups.items_merge hmade (ht.contribution op), items_contribution,
      items_contribution, h.adds, List.flatMap_append, List.flatMap_singleton]
  · have hlength : 1 ≤ cs.length := by
      rcases h.shape with hone | ⟨hmany, -⟩
      · simp [hone]
      · omega
    refine .inr ⟨?_, _, rfl⟩
    rw [List.length_append, List.length_singleton]
    omega

/-- What a list makes is what combining the list gives. -/
theorem MadeOf.combines {cs : List Condition} {made : Condition} (h : MadeOf op cs made) :
    Combines op cs (some made) := by
  rcases h.shape with hone | ⟨hmany, g, rfl⟩
  · rw [hone]
    rfl
  · have hitems : ∀ key, g.items key = cs.flatMap (addedTo op key) := by
      intro key
      have hgroup : (composite op g).addedTo op key = g.items key := if_pos rfl
      rw [← hgroup, h.adds]
    match cs, hmany, hitems with
    | _ :: _ :: _, _, hitems => exact ⟨g, rfl, h.tidy, hitems⟩

/-- The present conditions of two lists in a row stand in a row. -/
theorem presentIn_append (items next : List (Option Condition)) :
    presentIn (items ++ next) = presentIn items ++ presentIn next := by
  rw [presentIn, List.reduceOption_append, List.filter_append]
  rfl

/-- A missing condition is not among the present ones. -/
theorem presentIn_missing (h : Missing c) : presentIn [c] = [] := by
  rcases h with rfl | ⟨op, rfl⟩ <;> rfl

/-- A condition that is not absent is among the present ones. -/
theorem presentIn_some {d : Condition} (h : d.isAbsent = false) : presentIn [some d] = [d] := by
  simp [presentIn, List.reduceOption, h]

/-- Combining one condition after the other makes one of all that are present, if there are any. -/
theorem foldl_combine (op : Connective) (items : List (Option Condition))
    (ht : ∀ c ∈ items, ∀ d ∈ c, d.Tidy) :
    (presentIn items = [] ∧ items.foldl (combine op) none = none)
      ∨ ∃ made, items.foldl (combine op) none = some made ∧ MadeOf op (presentIn items) made := by
  induction items using List.reverseRecOn with
  | nil => exact .inl ⟨rfl, rfl⟩
  | append_singleton items c ih =>
    have htail : ∀ d ∈ c, d.Tidy := ht c (by simp)
    have hmade := ih fun b hb => ht b (List.mem_append_left _ hb)
    rw [List.foldl_append, List.foldl_cons, List.foldl_nil, presentIn_append]
    by_cases hmc : Missing c
    · rw [presentIn_missing hmc, List.append_nil, combine_of_missing_right _ hmc]
      rcases hmade with ⟨hnil, hfold⟩ | ⟨made, hfold, hmade⟩
      · rw [hfold]
        exact .inl ⟨hnil, rfl⟩
      · rw [hfold, present?_some hmade.present]
        exact .inr ⟨made, rfl, hmade⟩
    · obtain ⟨d, rfl, hd⟩ := exists_of_not_missing hmc
      rw [presentIn_some hd]
      rcases hmade with ⟨hnil, hfold⟩ | ⟨made, hfold, hmade⟩
      · rw [hnil, hfold, combine_of_missing_left (.inl rfl), present?_some hd]
        exact .inr ⟨d, rfl, .single (htail d rfl) hd⟩
      · obtain ⟨next, hnext, hmade⟩ := hmade.combine (htail d rfl) hd
        rw [hfold, hnext]
        exact .inr ⟨next, rfl, hmade⟩

/-- Combining from the left, starting with nothing, combines the present conditions. -/
theorem combines_foldl (items : List (Option Condition)) (ht : ∀ c ∈ items, ∀ d ∈ c, d.Tidy) :
    Combines op (presentIn items) (items.foldl (combine op) none) := by
  rcases foldl_combine op items ht with ⟨hnil, hfold⟩ | ⟨made, hfold, hmade⟩
  · rw [hnil, hfold]
    rfl
  · rw [hfold]
    exact hmade.combines

/-- Under either connective, combining is associative, what is missing is neutral on both sides, and
no combination is a composite without groups. Combining a list of conditions one after the other
makes nothing if all are missing, the one that is present if there is only one, and otherwise a
composite, each group of which is what those that are present add to it in their order. -/
theorem combine_monoid (op : Connective) :
    (∀ a b c : Option Condition, (∀ d ∈ a, d.Tidy) → (∀ d ∈ b, d.Tidy) → (∀ d ∈ c, d.Tidy) →
      combine op (combine op a b) c = combine op a (combine op b c))
    ∧ (∀ e x : Option Condition, Missing e →
      (¬ Missing x → combine op e x = x ∧ combine op x e = x)
        ∧ (Missing x → combine op e x = none ∧ combine op x e = none))
    ∧ (∀ a b : Option Condition, (∀ d ∈ a, d.Tidy) → (∀ d ∈ b, d.Tidy) →
      ∀ op', combine op a b ≠ some (composite op' .empty))
    ∧ ∀ items : List (Option Condition), (∀ c ∈ items, ∀ d ∈ c, d.Tidy) →
      Combines op (presentIn items) (items.foldl (combine op) none) := by
  refine ⟨fun a b c ha hb hc => combine_assoc ha hb hc, fun e x he => ⟨fun hx => ?_, fun hx => ?_⟩,
    fun a b ha _ op' habsent => ?_, combines_foldl⟩
  · obtain ⟨d, rfl, hd⟩ := exists_of_not_missing hx
    rw [combine_of_missing_left he, combine_of_missing_right _ he, present?_some hd]
    exact ⟨rfl, rfl⟩
  · rw [combine_of_missing_left he, combine_of_missing_right _ he, missing_iff.1 hx]
    exact ⟨rfl, rfl⟩
  · have hpresent : present? (combine op a b) = combine op a b := present?_combine ha
    rw [habsent] at hpresent
    cases hpresent

/-- The price of an item is below this number. -/
def pricedBelow (limit : Int64) : Condition :=
  compare ⟨⟨.less, .plain⟩, .column ⟨.named "items", "price", none⟩, .value (.integer limit)⟩

/-- Limits that several callers add: alone, in the default group and in groups of their own, and
nothing at all. -/
def priceLimits : List (Option Condition) :=
  [some (composite .or .empty), some (pricedBelow 9), none,
    some (composite .and ⟨[(none, [pricedBelow 8]), (some "sale", [pricedBelow 7])]⟩),
    some (composite .and ⟨[(some "sale", [pricedBelow 6])]⟩)]

/-- The limits have tidy groups. -/
theorem tidy_of_mem_priceLimits : ∀ c ∈ priceLimits, ∀ d ∈ c, d.Tidy := by
  have hboth : (composite .and
      ⟨[(none, [pricedBelow 8]), (some "sale", [pricedBelow 7])]⟩).Tidy :=
    ⟨List.pairwise_pair.2 rfl, by simp⟩
  have hsale : (composite .and ⟨[(some "sale", [pricedBelow 6])]⟩).Tidy :=
    ⟨List.pairwise_singleton .., by simp⟩
  have hempty : (composite .or .empty).Tidy := Groups.tidy_empty
  have hleaf : (pricedBelow 9).Tidy := trivial
  simp [priceLimits, hboth, hsale, hempty, hleaf]

/-- Limits in two groups, one of them missing, are conjoined group by group and in order. -/
theorem priceLimits_conjoined :
    (∀ c ∈ priceLimits, ∀ d ∈ c, d.Tidy)
      ∧ ∃ g, priceLimits.foldl conjoin none = some (composite .and g)
        ∧ g.items none = [pricedBelow 9, pricedBelow 8]
        ∧ g.items (some "sale") = [pricedBelow 7, pricedBelow 6] := by
  obtain ⟨-, -, -, hfold⟩ := combine_monoid .and
  obtain ⟨g, hg, -, hitems⟩ := hfold priceLimits tidy_of_mem_priceLimits
  exact ⟨tidy_of_mem_priceLimits, g, hg, hitems none, hitems (some "sale")⟩

end Condition

end QueryTree
