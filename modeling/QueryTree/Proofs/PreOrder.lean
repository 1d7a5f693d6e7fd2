import Mathlib.Data.List.Sort
import QueryTree.Proofs.GroupView
import QueryTree.Proofs.Offers
import QueryTree.Proofs.Renaming

/-! # Visitors that only look

A visitor that puts no node anywhere decides about each slot whether the walk goes on below it, and
may decide by all that it was offered before. The walk leaves the tree as it is and offers the slots
in the order of their positions, those below a skipped slot left out (`walk_preorder`).
-/

namespace QueryTree

/-- The walk goes on below the node. -/
def Answer.enters {α : Type} : Answer α → Bool
  | enter => true
  | _ => false

/-- Does what the visitor does, and records each slot it is offered and whether the walk goes on
below it. -/
def tracing {σ : Type} (visit : Visitor (StateM σ)) :
    Visitor (StateM (σ × List (Slot × Bool))) := fun k x st =>
  let (answer, next) := (visit k x).run st.1
  (answer, next, st.2 ++ [(⟨k, x⟩, answer.enters)])

/-- The visitor puts no node in the place of another one. -/
def OnlyLooks {σ : Type} (visit : Visitor (StateM σ)) : Prop :=
  ∀ k x st y, ((visit k x).run st).1 ≠ .put y

/-- There is a slot at the position, and every slot on the way to it was entered. -/
def IsOffered (at? : List Nat → Option Slot) (entered : List Nat → Prop) (p : List Nat) : Prop :=
  (at? p).isSome ∧ ∀ q, q <+: p → q ≠ p → (at? q).isSome → entered q

/-- The trace holds the slots in the order of their positions, each with whether it was entered, and
leaves out those below a slot that was not. -/
def Traces (at? : List Nat → Option Slot) (seen : List (Slot × Bool)) : Prop :=
  ∃ marks : List (List Nat × Bool), (marks.map (·.1)).Pairwise (· < ·)
    ∧ (∀ p, (∃ b, (p, b) ∈ marks) ↔ IsOffered at? (fun q => (q, true) ∈ marks) p)
    ∧ seen.map (fun e => (some e.1, e.2)) = marks.map fun m => (at? m.1, m.2)

/-! ## Traces, slot by slot -/

section Traces

variable {s : Slot} {ss : List Slot} {i : Nat} {p : List Nat} {entered entered' : List Nat → Prop}

/-- Whether a position is offered depends only on which of the slots above it were entered. -/
theorem isOffered_congr {at? : List Nat → Option Slot}
    (h : ∀ q, (at? q).isSome → (entered q ↔ entered' q)) :
    IsOffered at? entered p ↔ IsOffered at? entered' p :=
  and_congr_right fun _ => forall_congr' fun q => forall₃_congr fun _ _ hslot => h q hslot

/-- The empty position of slots in a row is not offered. -/
theorem not_isOffered_nil : ¬ IsOffered (slotAt? ss) entered [] := by
  rintro ⟨h, -⟩
  cases h

/-- On the way into one of the slots in a row no other one is met. -/
theorem isOffered_cons (hs : ss[i]? = some s) :
    IsOffered (slotAt? ss) entered (i :: p) ↔ IsOffered s.at? (fun q => entered (i :: q)) p := by
  constructor
  · rintro ⟨hp, h⟩
    rw [slotAt?_cons hs] at hp
    refine ⟨hp, fun q hq hne hslot => ?_⟩
    refine h (i :: q) (List.cons_prefix_cons.2 ⟨rfl, hq⟩) (by simpa using hne) ?_
    rwa [slotAt?_cons hs]
  · rintro ⟨hp, h⟩
    refine ⟨by rwa [slotAt?_cons hs], fun q hq hne hslot => ?_⟩
    cases q with
    | nil => cases hslot
    | cons j q =>
      obtain ⟨rfl, hrest⟩ := List.cons_prefix_cons.1 hq
      rw [slotAt?_cons hs] at hslot
      exact h q hrest (by simpa using hne) hslot

/-- A slot is met first on the way to what is below it. -/
theorem isOffered_below :
    IsOffered s.at? entered (i :: p)
      ↔ entered [] ∧ IsOffered (slotAt? s.children) entered (i :: p) := by
  constructor
  · rintro ⟨hp, h⟩
    refine ⟨h [] List.nil_prefix (List.cons_ne_nil i p).symm rfl, hp, fun q hq hne hslot => ?_⟩
    cases q with
    | nil => cases hslot
    | cons j q => exact h (j :: q) hq hne hslot
  · rintro ⟨hentered, hp, h⟩
    refine ⟨hp, fun q hq hne hslot => ?_⟩
    cases q with
    | nil => exact hentered
    | cons j q => exact h (j :: q) hq hne hslot

/-- The slot from which a walk sets out is offered. -/
theorem isOffered_self : IsOffered s.at? entered [] := by
  refine ⟨rfl, fun q hq hne _ => ?_⟩
  exact (hne (List.prefix_nil.1 hq)).elim

/-- Without slots the trace is empty. -/
theorem traces_nil : Traces (slotAt? []) [] := by
  refine ⟨[], .nil, fun p => iff_of_false (by simp) ?_, rfl⟩
  rintro ⟨hp, -⟩
  cases p <;> cases hp

/-- The trace of a skipped slot. -/
theorem traces_skipped : Traces s.at? [(s, false)] := by
  refine ⟨[([], false)], List.pairwise_singleton _ _, fun p => ?_, rfl⟩
  cases p with
  | nil => exact iff_of_true ⟨false, List.mem_cons_self⟩ isOffered_self
  | cons i p =>
    have hskipped :
        ¬ IsOffered s.at? (fun q => (q, true) ∈ [(([] : List Nat), false)]) (i :: p) := by
      rw [isOffered_below]
      simp
    exact iff_of_false (by simp) hskipped

/-- The trace of an entered slot. -/
theorem traces_entered {seen : List (Slot × Bool)} (h : Traces (slotAt? s.children) seen) :
    Traces s.at? ((s, true) :: seen) := by
  obtain ⟨marks, hmarks, hmem, htrace⟩ := h
  have hbelow : ∀ m ∈ marks, ∃ i q, m.1 = i :: q ∧ i < s.children.length := fun m hm =>
    exists_of_isSome_slotAt? ((hmem m.1).1 ⟨m.2, hm⟩).1
  refine ⟨([], true) :: marks, List.pairwise_cons.2 ⟨?_, hmarks⟩, fun p => ?_, ?_⟩
  · refine List.forall_mem_map.2 fun m hm => ?_
    obtain ⟨i, q, heq, -⟩ := hbelow m hm
    rw [heq]
    exact .nil
  · cases p with
    | nil => exact iff_of_true ⟨true, List.mem_cons_self⟩ isOffered_self
    | cons i p =>
      have hsame :
          IsOffered (slotAt? s.children) (fun q => (q, true) ∈ ([], true) :: marks) (i :: p)
          ↔ IsOffered (slotAt? s.children) (fun q => (q, true) ∈ marks) (i :: p) := by
        refine isOffered_congr fun q hslot => ?_
        obtain ⟨j, q, rfl, -⟩ := exists_of_isSome_slotAt? hslot
        simp
      rw [isOffered_below, and_iff_right List.mem_cons_self, hsame, ← hmem]
      simp
  · have hsame : marks.map (fun m => (s.at? m.1, m.2))
        = marks.map fun m => (slotAt? s.children m.1, m.2) := by
      refine List.map_congr_left fun m hm => ?_
      obtain ⟨i, q, heq, -⟩ := hbelow m hm
      rw [heq]
      rfl
    rw [List.map_cons, List.map_cons, htrace, hsame]
    rfl

/-- A position among slots in a row is offered if it is so below the slot its first index names. -/
theorem isOffered_cons_iff :
    IsOffered (slotAt? ss) entered (i :: p)
      ↔ ∃ s, ss[i]? = some s ∧ IsOffered s.at? (fun q => entered (i :: q)) p := by
  constructor
  · intro h
    obtain ⟨t, ht⟩ := Option.isSome_iff_exists.1 h.1
    obtain ⟨_, _, s, heq, hs⟩ := exists_of_slotAt? ht
    obtain ⟨rfl, rfl⟩ := List.cons.inj heq
    exact ⟨s, hs, (isOffered_cons hs).1 h⟩
  · rintro ⟨s, hs, h⟩
    exact (isOffered_cons hs).2 h

/-- What is offered in one more slot starts with its index. -/
theorem isOffered_append_singleton :
    IsOffered (slotAt? (ss ++ [s])) entered p
      ↔ IsOffered (slotAt? ss) entered p
        ∨ ∃ q, IsOffered s.at? (fun r => entered (ss.length :: r)) q ∧ ss.length :: q = p := by
  cases p with
  | nil => simp [not_isOffered_nil]
  | cons i q =>
    simp only [isOffered_cons_iff, getElem?_append_singleton_eq_some_iff, List.cons.injEq,
      or_and_right, exists_or]
    refine or_congr_right ⟨?_, ?_⟩
    · rintro ⟨_, ⟨rfl, rfl⟩, h⟩
      exact ⟨q, h, rfl, rfl⟩
    · rintro ⟨_, h, rfl, rfl⟩
      exact ⟨s, ⟨rfl, rfl⟩, h⟩

/-- The trace of one more slot stands behind those of the slots before it. -/
theorem traces_append_singleton {seen seen' : List (Slot × Bool)}
    (h : Traces (slotAt? ss) seen) (h' : Traces s.at? seen') :
    Traces (slotAt? (ss ++ [s])) (seen ++ seen') := by
  obtain ⟨marks, hmarks, hmem, htrace⟩ := h
  obtain ⟨marks', hmarks', hmem', htrace'⟩ := h'
  have hbelow : ∀ m ∈ marks, ∃ i q, m.1 = i :: q ∧ i < ss.length := fun m hm =>
    exists_of_isSome_slotAt? ((hmem m.1).1 ⟨m.2, hm⟩).1
  refine ⟨marks ++ marks'.map fun m => (ss.length :: m.1, m.2), ?_, fun p => ?_, ?_⟩
  · have hpositions := pairwise_append_map_cons hmarks hmarks' (List.forall_mem_map.2 hbelow)
    simpa [Function.comp_def] using hpositions
  · have hfirst : IsOffered (slotAt? ss)
          (fun q => (q, true) ∈ marks ++ marks'.map fun m => (ss.length :: m.1, m.2)) p
        ↔ IsOffered (slotAt? ss) (fun q => (q, true) ∈ marks) p := by
      refine isOffered_congr fun q hslot => ?_
      obtain ⟨i, r, rfl, hi⟩ := exists_of_isSome_slotAt? hslot
      simp [hi.ne']
    have hlast : ∀ q, IsOffered s.at? (fun r => (ss.length :: r, true) ∈
          marks ++ marks'.map fun m => (ss.length :: m.1, m.2)) q
        ↔ IsOffered s.at? (fun r => (r, true) ∈ marks') q := by
      refine fun q => isOffered_congr fun r _ => ?_
      have hnot : (ss.length :: r, true) ∉ marks := by
        intro hm
        obtain ⟨i, _, heq, hi⟩ := hbelow _ hm
        exact hi.ne (List.cons.inj heq).1.symm
      simp [hnot]
    rw [isOffered_append_singleton, hfirst, ← hmem]
    simp only [hlast, ← hmem']
    simp only [List.mem_append, List.mem_map, exists_or]
    refine or_congr_right ⟨?_, ?_⟩
    · rintro ⟨b, ⟨q, _⟩, hm, heq⟩
      obtain ⟨rfl, rfl⟩ := Prod.mk.inj heq
      exact ⟨q, ⟨_, hm⟩, rfl⟩
    · rintro ⟨q, ⟨b, hm⟩, rfl⟩
      exact ⟨b, (q, b), hm, rfl⟩
  · have hbefore : marks.map (fun m => (slotAt? (ss ++ [s]) m.1, m.2))
        = marks.map fun m => (slotAt? ss m.1, m.2) := by
      refine List.map_congr_left fun m hm => ?_
      rw [slotAt?_append_of_isSome ((hmem m.1).1 ⟨m.2, hm⟩).1]
    have hinside : (marks'.map fun m => (ss.length :: m.1, m.2)).map
        (fun m => (slotAt? (ss ++ [s]) m.1, m.2)) = marks'.map fun m => (s.at? m.1, m.2) := by
      rw [List.map_map]
      exact List.map_congr_left fun m _ => congrArg (·, m.2) (slotAt?_cons (by simp))
    rw [List.map_append, List.map_append, htrace, htrace', hbefore, hinside]

end Traces

/-! ## Walks that only look -/

section OnlyLooks

variable {σ : Type} {visit : Visitor (StateM σ)}

/-- The state that the walk from a slot leads to. -/
def leaves (visit : Visitor (StateM σ)) (s : Slot) (st : σ) : σ :=
  ((walk visit s.1 s.2).run st).2

/-- The state that the walks from slots in a row lead to, one after the other. -/
def leavesAll (visit : Visitor (StateM σ)) (ss : List Slot) (st : σ) : σ :=
  ss.foldl (fun st s => leaves visit s st) st

/-- The last of the slots in a row is walked from the state that the others lead to. -/
theorem leavesAll_append_singleton (ss : List Slot) (s : Slot) (st : σ) :
    leavesAll visit (ss ++ [s]) st = leaves visit s (leavesAll visit ss st) := by
  rw [leavesAll, List.foldl_append]
  rfl

/-- The visitor is asked about the slots of the trace one after the other, and answers as the trace
says. -/
def Answers (visit : Visitor (StateM σ)) (seen : List (Slot × Bool)) (st st' : σ) : Prop :=
  (seen.mapM fun e => Answer.enters <$> visit e.1.1 e.1.2).run st = (seen.map (·.2), st')

/-- With no slot to ask about, the state stays. -/
theorem answers_nil (st : σ) : Answers visit [] st st := rfl

/-- One trace is answered after another from the state it leads to. -/
theorem Answers.append {seen seen' : List (Slot × Bool)} {st st' st'' : σ}
    (h : Answers visit seen st st') (h' : Answers visit seen' st' st'') :
    Answers visit (seen ++ seen') st st'' := by
  rw [Answers] at h h'
  rw [Answers, List.mapM_append, StateT.run_bind, h, List.map_append]
  change (StateT.run (_ >>= _) st') = _
  rw [StateT.run_bind, h']
  rfl

/-- A trace of one slot is answered by one question. -/
theorem answers_singleton {s : Slot} {answer : Answer s.1.Node} {st st' : σ}
    (h : (visit s.1 s.2).run st = (answer, st')) : Answers visit [(s, answer.enters)] st st' := by
  have hrun : (Answer.enters <$> visit s.1 s.2).run st = (answer.enters, st') := by
    rw [StateT.run_map, h]
    rfl
  rw [Answers, List.mapM_cons, StateT.run_bind, hrun]
  rfl

/-- Tracing answers as the visitor does and notes the slot with the answer. -/
theorem run_tracing (s : Slot) (st : σ) (log : List (Slot × Bool)) :
    (tracing visit s.1 s.2).run (st, log)
      = (((visit s.1 s.2).run st).1, ((visit s.1 s.2).run st).2,
        log ++ [(s, ((visit s.1 s.2).run st).1.enters)]) := rfl

/-- Tracing puts no node in the place of another one, if the visitor does not. -/
theorem onlyLooks_tracing (h : OnlyLooks visit) : OnlyLooks (tracing visit) :=
  fun k x st y => h k x st.1 y

/-- A walk from a slot that is entered is the walk of what is below. -/
theorem run_walk_of_enter {s : Slot} {st st' : σ} (h : (visit s.1 s.2).run st = (.enter, st')) :
    (walk visit s.1 s.2).run st = (Walk.inside visit s.1 s.2).run st' := by
  rw [walk, Walk.offer, StateT.run_bind, h]
  rfl

/-- A walk from a slot that is skipped leaves the node and what is below as they are. -/
theorem run_walk_of_skip {s : Slot} {st st' : σ} (h : (visit s.1 s.2).run st = (.skip, st')) :
    (walk visit s.1 s.2).run st = (s.2, st') := by
  rw [walk, Walk.offer, StateT.run_bind, h]
  rfl

/-- A visitor that only looks lets the walk go on or skips. -/
theorem OnlyLooks.enters_or_skips (h : OnlyLooks visit) (s : Slot) (st : σ) :
    ∃ st', (visit s.1 s.2).run st = (.enter, st') ∨ (visit s.1 s.2).run st = (.skip, st') := by
  cases hrun : (visit s.1 s.2).run st with
  | mk answer st' =>
    cases answer with
    | enter => exact ⟨st', .inl rfl⟩
    | skip => exact ⟨st', .inr rfl⟩
    | put y => exact (h s.1 s.2 st y (by rw [hrun])).elim

/-- Slots whose nodes stay make up a tree that stays. -/
theorem WalkStart.run_walk_of_kept (s : WalkStart) {x : s.kind.Node}
    (h : ∀ t ∈ s.slots x, ∀ st, (QueryTree.walk visit t.1 t.2).run st = (t.2, leaves visit t st))
    (st : σ) :
    (s.walk visit x).run st = (x, leavesAll visit (s.slots x) st) := by
  have hwalk : (s.walk visit x).run st
      = (s.mapSlots (fun _ y => y) x, leavesAll visit (s.slots x) st) :=
    s.run_walk h st
  rwa [s.mapSlots_self] at hwalk

/-- A walk that only looks changes nothing but the state. -/
theorem OnlyLooks.run_walk (h : OnlyLooks visit) (s : Slot) :
    ∀ st, (walk visit s.1 s.2).run st = (s.2, leaves visit s st) := by
  induction s using Slot.induction with
  | step s ih =>
    intro st
    have hkept : ((walk visit s.1 s.2).run st).1 = s.2 := by
      obtain ⟨st', henter | hskip⟩ := h.enters_or_skips s st
      · rw [run_walk_of_enter henter]
        exact congrArg Prod.fst (WalkStart.run_walk_of_kept (.below s.1) ih st')
      · rw [run_walk_of_skip hskip]
    exact Prod.ext hkept rfl

/-- The walk leaves the tree as it is. -/
theorem OnlyLooks.run_walk_start (h : OnlyLooks visit) (s : WalkStart) (x : s.kind.Node) (st : σ) :
    (s.walk visit x).run st = (x, leavesAll visit (s.slots x) st) :=
  s.run_walk_of_kept (fun t _ => h.run_walk t) st

/-- A slot that is entered leaves the state that its children lead to. -/
theorem OnlyLooks.leaves_of_enter (h : OnlyLooks visit) {s : Slot} {st st' : σ}
    (henter : (visit s.1 s.2).run st = (.enter, st')) :
    leaves visit s st = leavesAll visit s.children st' := by
  rw [leaves, run_walk_of_enter henter]
  exact congrArg Prod.snd (h.run_walk_start (.below s.1) s.2 st')

/-- A slot that is skipped leaves the state that the answer led to. -/
theorem leaves_of_skip {s : Slot} {st st' : σ} (hskip : (visit s.1 s.2).run st = (.skip, st')) :
    leaves visit s st = st' := by
  rw [leaves, run_walk_of_skip hskip]

/-- From the state a walk makes the step `plain`, and with tracing the step `traced`, which adds the
trace of the walk to any other. -/
def Records (visit : Visitor (StateM σ)) (at? : List Nat → Option Slot) (plain : σ → σ)
    (traced : σ × List (Slot × Bool) → σ × List (Slot × Bool)) (st : σ) : Prop :=
  ∃ seen, Traces at? seen ∧ Answers visit seen st (plain st)
    ∧ ∀ log, traced (st, log) = (plain st, log ++ seen)

/-- The slots in a row are traced one after the other. -/
theorem records_row {ss : List Slot}
    (h : ∀ s ∈ ss, ∀ st, Records visit s.at? (leaves visit s) (leaves (tracing visit) s) st)
    (st : σ) :
    Records visit (slotAt? ss) (leavesAll visit ss) (leavesAll (tracing visit) ss) st := by
  induction ss using List.reverseRecOn with
  | nil => exact ⟨[], traces_nil, answers_nil st, fun log => by simp [leavesAll]⟩
  | append_singleton ss s ih =>
    obtain ⟨seen, htraces, hanswers, hlog⟩ := ih fun t ht => h t (List.mem_append_left _ ht)
    obtain ⟨seen', htraces', hanswers', hlog'⟩ := h s (by simp) (leavesAll visit ss st)
    refine ⟨seen ++ seen', traces_append_singleton htraces htraces', ?_, fun log => ?_⟩
    · rw [leavesAll_append_singleton]
      exact hanswers.append hanswers'
    · rw [leavesAll_append_singleton, leavesAll_append_singleton, hlog, hlog', List.append_assoc]

/-- Tracing adds to a walk that only looks the trace of its slots, and changes nothing else. -/
theorem OnlyLooks.records (h : OnlyLooks visit) (s : Slot) :
    ∀ st, Records visit s.at? (leaves visit s) (leaves (tracing visit) s) st := by
  induction s using Slot.induction with
  | step s ih =>
    intro st
    -- tracing answers alike, and the slot is logged before what is below it
    obtain ⟨st', henter | hskip⟩ := h.enters_or_skips s st
    · obtain ⟨seen, htraces, hanswers, hlog⟩ := records_row ih st'
      have htraced : ∀ log, (tracing visit s.1 s.2).run (st, log)
          = (.enter, st', log ++ [(s, true)]) := by
        intro log
        rw [run_tracing, henter]
        rfl
      refine ⟨(s, true) :: seen, traces_entered htraces, ?_, fun log => ?_⟩
      · rw [h.leaves_of_enter henter]
        exact (answers_singleton henter).append hanswers
      · rw [h.leaves_of_enter henter, (onlyLooks_tracing h).leaves_of_enter (htraced log), hlog,
          List.append_assoc]
        rfl
    · have htraced : ∀ log, (tracing visit s.1 s.2).run (st, log)
          = (.skip, st', log ++ [(s, false)]) := by
        intro log
        rw [run_tracing, hskip]
        rfl
      refine ⟨[(s, false)], traces_skipped, ?_, fun log => ?_⟩
      · rw [leaves_of_skip hskip]
        exact answers_singleton hskip
      · rw [leaves_of_skip hskip, leaves_of_skip (htraced log)]

end OnlyLooks

/-! ## The first slot below a slot -/

/-- A position below a position is followed from the slot that is there. -/
theorem Slot.at?_append {s t : Slot} {p : List Nat} (h : s.at? p = some t) (q : List Nat) :
    s.at? (p ++ q) = t.at? q := by
  induction p generalizing s with
  | nil =>
    obtain rfl := Option.some.inj h
    rfl
  | cons i p ih =>
    obtain ⟨u, hu, hrest⟩ := Option.bind_eq_some_iff.1 h
    rw [List.cons_append, Slot.at?, hu]
    exact ih hrest

/-- So it is below slots in a row. -/
theorem slotAt?_append {ss : List Slot} {t : Slot} {p : List Nat} (h : slotAt? ss p = some t)
    (q : List Nat) : slotAt? ss (p ++ q) = t.at? q := by
  obtain ⟨i, r, s, rfl, hs⟩ := exists_of_slotAt? h
  rw [slotAt?_cons hs] at h
  rw [List.cons_append, slotAt?_cons hs, Slot.at?_append h]

/-- The first position below a position comes after it. -/
theorem lt_append_zero (p : List Nat) : p < p ++ [0] := by
  induction p with
  | nil => exact .nil
  | cons i p ih => exact List.cons_lt_cons_self.2 ih

/-- No position stands between a position and the first one below it. -/
theorem not_lt_append_zero {p c : List Nat} (h : p < c) : ¬ c < p ++ [0] := by
  induction p generalizing c with
  | nil =>
    cases c with
    | nil => exact (lt_irrefl _ h).elim
    | cons x c => simp [List.cons_lt_cons_iff]
  | cons a p ih =>
    cases c with
    | nil => cases h
    | cons x c =>
      rw [List.cons_append, List.cons_lt_cons_iff]
      rcases List.cons_lt_cons_iff.1 h with hlt | ⟨rfl, hlt⟩
      · rintro (hx | ⟨rfl, -⟩)
        · exact lt_asymm hlt hx
        · exact lt_irrefl _ hlt
      · rintro (hx | ⟨-, hc⟩)
        · exact lt_irrefl _ hx
        · exact ih hlt hc

/-- In an ordered list of positions the next one is that with none in between. -/
theorem getElem?_succ_of_pairwise {ps : List (List Nat)} (hps : ps.Pairwise (· < ·)) {i : Nat}
    {p q : List Nat} (hp : ps[i]? = some p) (hq : q ∈ ps) (hlt : p < q)
    (hgap : ∀ c, p < c → ¬ c < q) : ps[i + 1]? = some q := by
  rw [List.pairwise_iff_getElem] at hps
  obtain ⟨hi, rfl⟩ := List.getElem?_eq_some_iff.1 hp
  obtain ⟨j, hj, rfl⟩ := List.getElem_of_mem hq
  rcases lt_trichotomy j (i + 1) with hlt' | rfl | hgt
  · rcases Nat.lt_or_eq_of_le (Nat.le_of_lt_succ hlt') with hji | rfl
    · exact (lt_asymm hlt (hps j i hj hi hji)).elim
    · exact (lt_irrefl _ hlt).elim
  · exact List.getElem?_eq_getElem hj
  · have hnext := hps i (i + 1) hi (by omega) (Nat.lt_succ_self i)
    exact (hgap _ hnext (hps _ j (by omega) hj hgt)).elim

/-- An entered slot is followed by the first slot below it. -/
theorem Traces.next_below {ss : List Slot} {seen : List (Slot × Bool)}
    (h : Traces (slotAt? ss) seen) {i : Nat} {s t : Slot} (hi : seen[i]? = some (s, true))
    (ht : s.children[0]? = some t) : ∃ b, seen[i + 1]? = some (t, b) := by
  obtain ⟨marks, hmarks, hmem, htrace⟩ := h
  have hget : ∀ j : ℕ, (seen[j]?).map (fun e => (some e.1, e.2))
      = (marks[j]?).map fun m => (slotAt? ss m.1, m.2) := by
    intro j
    rw [← List.getElem?_map, htrace, List.getElem?_map]
  obtain ⟨⟨p, b⟩, hm, hslot⟩ := Option.map_eq_some_iff.1 ((hget i).symm.trans (by rw [hi]; rfl))
  obtain ⟨hs, rfl⟩ := Prod.mk.inj hslot
  have hbelow : slotAt? ss (p ++ [0]) = some t := by
    rw [slotAt?_append hs, Slot.at?, ht]
    rfl
  have hoffered : IsOffered (slotAt? ss) (fun q => (q, true) ∈ marks) (p ++ [0]) := by
    refine ⟨Option.isSome_of_mem hbelow, fun q hq hne hsome => ?_⟩
    rcases List.prefix_concat_iff.1 hq with rfl | hq
    · exact (hne rfl).elim
    · by_cases heq : q = p
      · rw [heq]
        exact List.mem_of_getElem? hm
      · exact ((hmem p).1 ⟨true, List.mem_of_getElem? hm⟩).2 q hq heq hsome
  obtain ⟨b, hb⟩ := (hmem _).2 hoffered
  have hnext : (marks.map (·.1))[i + 1]? = some (p ++ [0]) := by
    refine getElem?_succ_of_pairwise hmarks (by rw [List.getElem?_map, hm]; rfl)
      (List.mem_map_of_mem hb) (lt_append_zero p) fun c hc => not_lt_append_zero hc
  rw [List.getElem?_map] at hnext
  obtain ⟨m, hm', heq⟩ := Option.map_eq_some_iff.1 hnext
  have hlast := hget (i + 1)
  rw [hm', Option.map_some, heq, hbelow] at hlast
  obtain ⟨e, he, hpair⟩ := Option.map_eq_some_iff.1 hlast
  obtain ⟨he1, -⟩ := Prod.mk.inj hpair
  exact ⟨e.2, he.trans (congrArg some (Prod.ext (Option.some.inj he1) rfl))⟩

/-! ## Groups and tables -/

/-- The default key stands before all names. -/
theorem exists_names_of_ascending {keys : List GroupKey}
    (h : keys.Pairwise fun a b => compare a b = .lt) :
    ∃ names : List String, names.Pairwise (fun a b => compare a b = .lt)
      ∧ (keys = names.map some ∨ keys = none :: names.map some) := by
  induction keys with
  | nil => exact ⟨[], .nil, .inl rfl⟩
  | cons key keys ih =>
    obtain ⟨hkey, hkeys⟩ := List.pairwise_cons.1 h
    obtain ⟨names, hnames, rfl | rfl⟩ := ih hkeys
    · cases key with
      | none => exact ⟨names, hnames, .inr rfl⟩
      | some name =>
        refine ⟨name :: names, List.pairwise_cons.2 ⟨fun n hn => ?_, hnames⟩, .inl rfl⟩
        exact hkey (some n) (List.mem_map_of_mem hn)
    · -- nothing stands before the default key
      have hnone := hkey none List.mem_cons_self
      cases key <;> cases hnone

/-- The slots below groups in the order of their keys are those of the default group, then those of
each named group, in the order of the names. -/
theorem Groups.slots_of_ascending {g : Groups Condition}
    (hg : g.entries.Pairwise fun a b => compare a.1 b.1 = .lt) :
    ∃ names : List String, names.Pairwise (fun a b => compare a b = .lt)
      ∧ (∀ name, name ∈ names ↔ g.contains (some name))
      ∧ g.slots = (g.items none ++ names.flatMap fun name => g.items (some name)).map
        (⟨.condition, ·⟩) := by
  have hmem : ∀ key, key ∈ g.keys ↔ g.contains key := by
    intro key
    rw [contains, get?, Option.isSome_map, List.find?_isSome, keys, List.mem_map]
    simp only [beq_iff_eq]
  have hlist : g.toList = g.keys.flatMap g.items := by
    rw [toList, keys, List.flatMap_map]
    refine List.flatMap_congr fun e he => ?_
    have hget : g.get? e.1 = some e.2 := (lookup?_eq_some_iff hg).2 he
    rw [items, hget, Option.getD_some]
  obtain ⟨names, hnames, hkeys⟩ := exists_names_of_ascending (List.pairwise_map.2 hg)
  change g.keys = _ ∨ g.keys = _ at hkeys
  refine ⟨names, hnames, fun name => ?_, congrArg (List.map _) ?_⟩
  · rw [← hmem]
    rcases hkeys with hkeys | hkeys <;> simp [hkeys]
  · rcases hkeys with hkeys | hkeys
    · have hnone : ¬ g.contains none := by
        rw [← hmem, hkeys]
        simp
      have hdefault : g.items none = [] := by
        rw [items, Option.not_isSome_iff_eq_none.1 hnone, Option.getD_none]
      rw [hlist, hkeys, hdefault, List.flatMap_map, List.nil_append]
    · rw [hlist, hkeys, List.flatMap_cons, List.flatMap_map]

instance : Std.TransCmp Table.cmp :=
  inferInstanceAs (Std.TransCmp (compareLex (compareOn Table.name)
    (compareLex (compareOn Table.alias?) (compareOn Table.source?))))

/-- Inserting a table keeps the tables ordered and without repetitions. -/
theorem pairwise_insertTable {t : Table} {ts : List Table}
    (h : ts.Pairwise fun a b => a.cmp b = .lt) :
    (insertTable t ts).Pairwise fun a b => a.cmp b = .lt := by
  induction ts with
  | nil => exact List.pairwise_singleton _ _
  | cons u ts ih =>
    obtain ⟨hu, hts⟩ := List.pairwise_cons.1 h
    rw [insertTable]
    split
    · next hlt =>
      refine List.pairwise_cons.2 ⟨List.forall_mem_cons.2 ⟨hlt, fun v hv => ?_⟩, h⟩
      exact Std.TransCmp.lt_trans hlt (hu v hv)
    · exact h
    · next hgt =>
      refine List.pairwise_cons.2 ⟨fun v hv => ?_, ih hts⟩
      rcases mem_insertTable.1 hv with rfl | hv
      · exact Std.OrientedCmp.gt_iff_lt.1 hgt
      · exact hu v hv

/-- Inserting tables one after the other keeps them ordered and without repetitions. -/
theorem pairwise_foldl_insertTable (ts : List Table) {seen : List Table}
    (h : seen.Pairwise fun a b => a.cmp b = .lt) :
    (ts.foldl (fun seen t => insertTable t seen) seen).Pairwise fun a b => a.cmp b = .lt := by
  induction ts generalizing seen with
  | nil => exact h
  | cons t ts ih => exact ih (pairwise_insertTable h)

/-- Collecting lists each table of a node once, in the order of tables, and leaves the node as it
is. -/
theorem run_collecting (k : NodeKind) (x : k.Node) :
    (walk collecting k x).run [] = (x, tablesIn k x)
      ∧ (∀ t, t ∈ tablesIn k x ↔ t ∈ k.tables x)
      ∧ (tablesIn k x).Pairwise fun a b => a.cmp b = .lt := by
  have hlooks : OnlyLooks collecting := by
    intro k x st y hput
    cases k <;> cases hput
  have hrun := touchesTables_collecting.run_walk_slot ⟨k, x⟩ []
  refine ⟨hlooks.run_walk ⟨k, x⟩ [], fun t => ?_, ?_⟩
  · rw [← List.mem_toFinset, toFinset_tablesIn, List.mem_toFinset]
  · rw [tablesIn, hrun]
    exact pairwise_foldl_insertTable _ .nil

/-- A visitor that only looks leaves the tree as it is. It is offered each slot once, before those
below it and from left to right, but none below a slot that it skips. A conjunction held by a
condition is offered right after the condition, and of grouped conditions those of the default group
are offered first, then those of the names in order. In this way collecting finds each table of a
node. -/
theorem walk_preorder :
    (∀ {σ : Type} {visit : Visitor (StateM σ)}, OnlyLooks visit →
      ∀ (s : WalkStart) (x : s.kind.Node) (st : σ), ∃ (st' : σ) (seen : List (Slot × Bool)),
        (s.walk visit x).run st = (x, st')
        ∧ (s.walk (tracing visit) x).run (st, []) = (x, st', seen)
        ∧ Traces (s.at? x) seen
        ∧ Answers visit seen st st'
        ∧ ∀ (i : ℕ) (g : Groups Condition),
          seen[i]? = some (⟨.condition, .composite .and g⟩, true) →
            ∃ b, seen[i + 1]? = some (⟨.conjunction, g⟩, b))
    ∧ (∀ g : Groups Condition, g.entries.Pairwise (fun a b => compare a.1 b.1 = .lt) →
      ∃ names : List String, names.Pairwise (fun a b => compare a b = .lt)
        ∧ (∀ name, name ∈ names ↔ g.contains (some name))
        ∧ g.slots = (g.items none ++ names.flatMap fun name => g.items (some name)).map
          (⟨.condition, ·⟩))
    ∧ ∀ (k : NodeKind) (x : k.Node),
      (walk collecting k x).run [] = (x, tablesIn k x)
        ∧ (∀ t, t ∈ tablesIn k x ↔ t ∈ k.tables x)
        ∧ (tablesIn k x).Pairwise fun a b => a.cmp b = .lt := by
  refine ⟨fun {σ visit} hlooks s x st => ?_, fun g hg => Groups.slots_of_ascending hg,
    run_collecting⟩
  obtain ⟨seen, htraces, hanswers, hlog⟩ := records_row (fun t _ => hlooks.records t) st
  refine ⟨leavesAll visit (s.slots x) st, seen, hlooks.run_walk_start s x st, ?_, htraces, hanswers,
    fun i g hi => htraces.next_below hi rfl⟩
  rw [(onlyLooks_tracing hlooks).run_walk_start, hlog, List.nil_append]

/-- Lets the walk go on below so many slots, and then skips. -/
def enteringFirst : Visitor (StateM ℕ) := fun _ _ => do
  match ← get with
  | 0 => return .skip
  | n + 1 =>
    set n
    return .enter

/-- Entering only the first slots puts nothing into the tree. -/
theorem onlyLooks_enteringFirst : OnlyLooks enteringFirst := by
  intro k x n y hput
  cases n <;> cases hput

/-- Open orders in the default group, those of a large amount in a group of their own. -/
def Groups.openLarge : Groups Condition :=
  ⟨[(none, [.compare ⟨⟨.equals, .plain⟩, .column ⟨.named "orders", "open", none⟩,
      .value (.boolean true)⟩]),
    (some "large", [.compare ⟨⟨.greater, .plain⟩, .column ⟨.named "orders", "amount", none⟩,
      .value (.integer 1000)⟩])]⟩

/-- The conjunction is seen twice before its conditions, of which the default group comes first. -/
theorem Groups.openLarge_seen :
    ∃ (isOpen isLarge : Condition) (seen : List (Slot × Bool)),
      (walk (tracing enteringFirst) .condition (.composite .and openLarge)).run (2, [])
        = (.composite .and openLarge, 0, seen)
      ∧ seen = [(⟨.condition, .composite .and openLarge⟩, true), (⟨.conjunction, openLarge⟩, true),
        (⟨.condition, isOpen⟩, false), (⟨.condition, isLarge⟩, false)]
      ∧ openLarge.items none = [isOpen]
      ∧ Traces ((WalkStart.offering .condition).at? (.composite .and openLarge)) seen
      ∧ ∃ names : List String, openLarge.slots
        = (openLarge.items none ++ names.flatMap fun name => openLarge.items (some name)).map
          (⟨.condition, ·⟩) := by
  obtain ⟨hwalks, hgroups, -⟩ := walk_preorder
  obtain ⟨st', seen, -, hseen, htraces, -⟩ :=
    hwalks onlyLooks_enteringFirst (.offering .condition) (.composite .and openLarge) 2
  obtain ⟨names, -, -, hslots⟩ := hgroups openLarge (by decide)
  have hrun : ((WalkStart.offering .condition).walk (tracing enteringFirst)
      (.composite .and openLarge)).run (2, []) = (.composite .and openLarge, 0, _) := rfl
  obtain ⟨rfl, rfl⟩ := Prod.mk.inj (Prod.mk.inj (hseen.symm.trans hrun)).2
  exact ⟨_, _, _, hseen, rfl, rfl, htraces, names, hslots⟩

end QueryTree
