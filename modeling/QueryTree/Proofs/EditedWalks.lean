import Mathlib.Computability.StateTransition
import QueryTree.Proofs.Offers
import QueryTree.Proofs.SlotRules
import QueryTree.Proofs.WalkRelation
import QueryTree.Walk.Editor

/-! # Walks into what was put there

An editor may put a larger node into a slot and send the walk on below it. The slots still to be
offered stand in a row, and each call takes the first of them away and puts those below in its place
(`Editor.advance`). Calls made and slots to go are never more than the slots of the tree and of what
was put there (`Editor.outlay_of_reaches`), and a walk gives up only behind more writes than its
budget (`Editor.follows_walk`), so that an editor that writes only so many times comes to the end of
the walk.
-/

namespace QueryTree

/-- The number of slots that a walk offers from a slot on if nothing is put anywhere. -/
def Slot.count (s : Slot) : ℕ := (offers s).length

/-- The slots of a tree are its own and those of the trees directly below it. -/
theorem Slot.count_eq (s : Slot) : s.count = (s.children.map count).sum + 1 := by
  rw [count, offers_eq, List.length_cons, List.length_flatMap]
  rfl

/-- A call of an editor: the node that it was offered, and what it did with the slot. -/
structure Call where
  kind : NodeKind
  offered : kind.Node
  edit : Edit kind.Node

namespace Call

/-- The slot after the call. -/
def slot (c : Call) : Slot := ⟨c.kind, c.edit.replacement?.getD c.offered⟩

/-- What was put into the slot, if anything. -/
def written (c : Call) : List Slot := c.edit.replacement?.toList.map (⟨c.kind, ·⟩)

/-- The slots that the walk goes on with below the slot. -/
def below (c : Call) : List Slot := if c.edit.enter then c.slot.children else []

/-- The slots a call leaves to walk are fewer than those of the slot it was made at. -/
theorem count_below (c : Call) : (c.below.map Slot.count).sum + 1 ≤ c.slot.count := by
  rw [c.slot.count_eq, below]
  split
  · exact Nat.le_refl _
  · simp

/-- The slot after the call is the slot before it, or one that was put there. -/
theorem count_slot (c : Call) :
    c.slot.count ≤ Slot.count ⟨c.kind, c.offered⟩ + (c.written.map Slot.count).sum := by
  rw [slot, written]
  cases c.edit.replacement? <;> simp

end Call

/-- A walk on its way: the slots still to be offered, in order, the state of the editor, and the
calls so far. -/
structure Progress (σ : Type) where
  pending : List Slot
  state : σ
  calls : List Call

namespace Progress

variable {σ : Type}

/-- A walk before its first call. -/
def start (k : NodeKind) (x : k.Node) (st : σ) : Progress σ := ⟨[⟨k, x⟩], st, []⟩

/-- What was put anywhere so far, in order. -/
def written (p : Progress σ) : List Slot := p.calls.flatMap Call.written

/-- The calls so far, and those that the slots to go ask for if nothing more is put anywhere. -/
def outlay (p : Progress σ) : ℕ := p.calls.length + (p.pending.map Slot.count).sum

end Progress

/-! ## Calls in order -/

namespace Editor

variable {σ : Type} (editor : Editor (StateM σ))

/-- The walk goes on by one call, unless no slot is left to be offered. -/
def advance : Progress σ → Option (Progress σ)
  | ⟨[], _, _⟩ => none
  | ⟨⟨k, x⟩ :: rest, st, calls⟩ =>
    let (edit, next) := (editor k x).run st
    let call : Call := ⟨k, x, edit⟩
    some ⟨call.below ++ rest, next, calls ++ [call]⟩

/-- The editor that also keeps its calls. -/
def logging : Editor (StateM (σ × List Call)) := fun k x st =>
  let (edit, next) := (editor k x).run st.1
  (edit, next, st.2 ++ [⟨k, x, edit⟩])

variable {editor} {k : NodeKind} {x : k.Node} {st next : σ} {edit : Edit k.Node}

/-- One step calls the editor at the first slot and puts the slots below before the others. -/
theorem advance_of_call (h : (editor k x).run st = (edit, next)) (rest : List Slot)
    (calls : List Call) :
    editor.advance ⟨⟨k, x⟩ :: rest, st, calls⟩
      = some ⟨(Call.mk k x edit).below ++ rest, next, calls ++ [⟨k, x, edit⟩]⟩ := by
  rw [advance, h]

/-- The logging editor calls the editor and notes the call. -/
theorem run_logging (h : (editor k x).run st = (edit, next)) (calls : List Call) :
    (editor.logging k x).run (st, calls) = (edit, next, calls ++ [⟨k, x, edit⟩]) := by
  change (((editor k x).run st).1, ((editor k x).run st).2,
    calls ++ [⟨k, x, ((editor k x).run st).1⟩]) = _
  rw [h]

/-- A call and the slots behind it ask for no more than the slots before it, but for those that the
call put there. -/
theorem outlay_of_advance {p q : Progress σ} (h : editor.advance p = some q) :
    q.outlay + (p.written.map Slot.count).sum ≤ p.outlay + (q.written.map Slot.count).sum := by
  obtain ⟨pending, st, calls⟩ := p
  cases pending with
  | nil => cases h
  | cons s rest =>
    obtain ⟨k, x⟩ := s
    rcases hcall : (editor k x).run st with ⟨edit, next⟩
    obtain rfl := Option.some.inj ((advance_of_call hcall rest calls).symm.trans h)
    have hbelow := (Call.mk k x edit).count_below
    have hslot : (Call.mk k x edit).slot.count
        ≤ Slot.count ⟨k, x⟩ + ((Call.mk k x edit).written.map Slot.count).sum :=
      (Call.mk k x edit).count_slot
    simp only [Progress.outlay, Progress.written, List.map_cons, List.map_append, List.sum_cons,
      List.sum_append, List.length_append, List.length_singleton, List.flatMap_append,
      List.flatMap_singleton]
    omega

/-- A walk on its way makes no more calls, and has no more slots to go, than the tree and all that
was put there have slots. -/
theorem outlay_of_reaches {p q : Progress σ} (h : StateTransition.Reaches editor.advance p q) :
    q.outlay + (p.written.map Slot.count).sum ≤ p.outlay + (q.written.map Slot.count).sum := by
  induction h with
  | refl => exact Nat.le_refl _
  | tail _ hstep ih =>
    have hnext := outlay_of_advance hstep
    omega

/-! ## Computations that give up -/

section GivesUp

variable {α β : Type} {x : OptionT (StateM σ) α} {f : α → OptionT (StateM σ) β} {t u : σ}

/-- A computation continues with the value the first part gives. -/
theorem run_bind_of_some {a : α} (h : x.run.run t = (some a, u)) :
    (x >>= f).run.run t = (f a).run.run u := by
  rw [OptionT.run_bind, Option.elimM, StateT.run_bind, h]
  rfl

/-- A computation that ran out of budget stays so. -/
theorem run_bind_of_none (h : x.run.run t = (none, u)) : (x >>= f).run.run t = (none, u) := by
  rw [OptionT.run_bind, Option.elimM, StateT.run_bind, h]
  rfl

end GivesUp

/-- What is left of a walk from a node behind the call about the node. -/
def afterCall (editor : Editor (StateM σ)) (budget : ℕ) {k : NodeKind} (x : k.Node)
    (edit : Edit k.Node) : OptionT (StateM σ) k.Node :=
  match edit.replacement?, edit.enter with
  | none, true => Walk.inside (editor.visitor budget) k x
  | none, false => pure x
  | some y, false => pure y
  | some y, true =>
    match budget with
    | 0 => OptionT.fail
    | budget + 1 => Walk.inside (editor.visitor budget) k y

/-- A budgeted walk is one call of the editor and what follows from its edit. -/
theorem run_walk_of_call (h : (editor k x).run st = (edit, next)) (budget : ℕ) :
    (walk (editor.visitor budget) k x).run.run st
      = (editor.afterCall budget x edit).run.run next := by
  have hlift : (OptionT.lift (editor k x)).run.run st = (some edit, next) := by
    rw [OptionT.run_lift, StateT.run_bind, h]
    rfl
  obtain ⟨replacement?, enter⟩ := edit
  rw [walk, Walk.offer, visitor, bind_assoc, run_bind_of_some hlift, afterCall]
  cases replacement? with
  | none => cases enter <;> rfl
  | some y =>
    cases enter with
    | false => rfl
    | true =>
      cases budget with
      | zero => rfl
      | succ budget => simp

/-- From the state the computation goes through the slots as the calls of the walk do, and to their
end if it makes a result. Otherwise it gives up on the way, behind more than `budget` writes. -/
def FollowsFrom (editor : Editor (StateM σ)) (budget : ℕ) {α : Type}
    (x : OptionT (StateM (σ × List Call)) α) (slots : List Slot) (st : σ) (calls : List Call) :
    Prop :=
  ∃ (result : Option α) (next : σ) (made : List Call),
    x.run.run (st, calls) = (result, next, calls ++ made)
    ∧ (result = none → budget < (made.flatMap Call.written).length)
    ∧ ∀ rest, ∃ pending, (result.isSome → pending = rest)
      ∧ StateTransition.Reaches editor.advance ⟨slots ++ rest, st, calls⟩
        ⟨pending, next, calls ++ made⟩

/-- Computations that follow the calls of a walk from every state: a rule that sequences keep. -/
def following (editor : Editor (StateM σ)) (budget : ℕ) :
    SlotRule (OptionT (StateM (σ × List Call))) where
  Holds x slots := ∀ st calls, editor.FollowsFrom budget x slots st calls
  holds_pure a st calls :=
    ⟨some a, st, [], by rw [List.append_nil]; rfl, nofun, fun rest =>
      ⟨rest, fun _ => rfl, by rw [List.append_nil]; exact .refl⟩⟩
  holds_bind {α β x f slots afterwards} hx hf st calls := by
    obtain ⟨result, next, made, hrun, hwrites, hreach⟩ := hx st calls
    cases result with
    | none =>
      refine ⟨none, next, made, run_bind_of_none hrun, fun _ => hwrites rfl, fun rest => ?_⟩
      obtain ⟨pending, -, hreach⟩ := hreach (afterwards ++ rest)
      rw [List.append_assoc]
      exact ⟨pending, nofun, hreach⟩
    | some a =>
      obtain ⟨result, last, made', hrun', hwrites', hreach'⟩ := hf a next (calls ++ made)
      refine ⟨result, last, made ++ made', ?_, fun hnone => ?_, fun rest => ?_⟩
      · rw [run_bind_of_some hrun, hrun', List.append_assoc]
      · have hmore := hwrites' hnone
        rw [List.flatMap_append, List.length_append]
        omega
      · obtain ⟨_, hpending, hreach⟩ := hreach (afterwards ++ rest)
        obtain rfl := hpending rfl
        obtain ⟨pending, hend, hreach'⟩ := hreach' rest
        rw [List.append_assoc, ← List.append_assoc calls]
        exact ⟨pending, hend, hreach.trans hreach'⟩

/-- A walk follows its calls if what is left behind the first call does, with the budget that the
call leaves. -/
theorem followsFrom_of_call {budget left : ℕ} {calls : List Call}
    (hcall : (editor k x).run st = (edit, next))
    (h : editor.FollowsFrom left (editor.logging.afterCall budget x edit)
      (Call.mk k x edit).below next (calls ++ [⟨k, x, edit⟩]))
    (hleft : budget ≤ left + (Call.mk k x edit).written.length) :
    editor.FollowsFrom budget (walk (editor.logging.visitor budget) k x) [⟨k, x⟩] st calls := by
  obtain ⟨result, last, made, hrun, hwrites, hreach⟩ := h
  rw [List.append_assoc] at hrun
  refine ⟨result, last, [⟨k, x, edit⟩] ++ made, ?_, fun hnone => ?_, fun rest => ?_⟩
  · rw [run_walk_of_call (run_logging hcall calls), hrun]
  · have hmore := hwrites hnone
    rw [List.flatMap_append, List.length_append, List.flatMap_singleton]
    omega
  · obtain ⟨pending, hend, hreach⟩ := hreach rest
    rw [← List.append_assoc]
    exact ⟨pending, hend, .head (advance_of_call hcall rest calls) hreach⟩

/-- A walk follows its calls if the walks from the slots below do, and with less budget the walks
from all that can be put there. -/
theorem follows_slot {budget : ℕ} {s : Slot}
    (hbelow : ∀ t ∈ s.children, (editor.following budget).OnSlot (editor.logging.visitor budget) t)
    (hput : ∀ left, budget = left + 1 →
      ∀ t, (editor.following left).OnSlot (editor.logging.visitor left) t) :
    (editor.following budget).OnSlot (editor.logging.visitor budget) s := by
  obtain ⟨k, x⟩ := s
  intro st calls
  rcases hcall : (editor k x).run st with ⟨⟨replacement?, enter⟩, next⟩
  cases replacement? with
  | none =>
    refine followsFrom_of_call hcall ?_ (Nat.le_add_right _ _)
    cases enter with
    | true => exact SlotRule.holds_inside k hbelow next _
    | false => exact (editor.following budget).holds_pure x next _
  | some y =>
    cases enter with
    | false =>
      refine followsFrom_of_call hcall ?_ (Nat.le_add_right _ _)
      exact (editor.following budget).holds_pure y next _
    | true =>
      cases budget with
      | zero =>
        -- the budget is used up, and this call is the write that goes beyond it
        refine ⟨none, next, [⟨k, x, some y, true⟩], ?_, fun _ => Nat.one_pos, fun rest => ?_⟩
        · rw [run_walk_of_call (run_logging hcall calls)]
          rfl
        · exact ⟨_, nofun, .single (advance_of_call hcall rest calls)⟩
      | succ left =>
        have hinside : editor.FollowsFrom left (Walk.inside (editor.logging.visitor left) k y)
            (Slot.children ⟨k, y⟩) next (calls ++ [⟨k, x, some y, true⟩]) :=
          SlotRule.holds_inside k (fun t _ => hput left rfl t) next _
        exact followsFrom_of_call hcall hinside (Nat.le_refl _)

/-- A walk follows its calls from every slot, and gives up only behind more writes than its
budget. -/
theorem follows_walk (editor : Editor (StateM σ)) (budget : ℕ) (s : Slot) :
    (editor.following budget).OnSlot (editor.logging.visitor budget) s := by
  induction budget generalizing s with
  | zero =>
    induction s using Slot.induction with
    | step s ih => exact follows_slot ih nofun
  | succ budget hbudget =>
    induction s using Slot.induction with
    | step s ih =>
      refine follows_slot ih fun left hleft => ?_
      obtain rfl := Nat.succ.inj hleft
      exact hbudget

/-! ## Budgets and logs -/

/-- What a visitor answers about a node that was put there and is to be entered. -/
def entering {m : Type → Type} [Monad m] (editor : Editor m) :
    (budget : ℕ) → (k : NodeKind) → k.Node → OptionT m (Answer k.Node)
  | 0, _, _ => OptionT.fail
  | budget + 1, k, y => do
    let z ← Walk.inside (editor.visitor budget) k y
    return .put z

/-- Visitors are related if their editors and what they answer about entered nodes are. -/
theorem rel_visitor {m n : Type → Type} [Monad m] [Monad n]
    {R : MonadRel (OptionT m) (OptionT n)} {editor : Editor m} {editor' : Editor n}
    {budget budget' : ℕ}
    (hcall : ∀ k x, R.Rel (OptionT.lift (editor k x)) (OptionT.lift (editor' k x)))
    (hentering : ∀ k y, R.Rel (editor.entering budget k y) (editor'.entering budget' k y))
    (k : NodeKind) (x : k.Node) :
    R.Rel (editor.visitor budget k x) (editor'.visitor budget' k x) := by
  rw [visitor, visitor]
  refine R.rel_bind (hcall k x) fun edit => ?_
  obtain ⟨replacement?, enter⟩ := edit
  cases replacement? with
  | none => cases enter <;> exact R.rel_pure _
  | some y =>
    cases enter with
    | false => exact R.rel_pure _
    | true =>
      have hput := hentering k y
      cases budget <;> cases budget' <;> exact hput

/-- Where the first computation makes a result, the second one makes the same. -/
def agreeing (σ : Type) : MonadRel (OptionT (StateM σ)) (OptionT (StateM σ)) where
  Rel x y := ∀ st a next, x.run.run st = (some a, next) → y.run.run st = (some a, next)
  rel_pure _ _ _ _ h := h
  rel_bind {α β x y f g} hxy hfg st b last h := by
    rcases hx : x.run.run st with ⟨result, next⟩
    cases result with
    | none =>
      rw [run_bind_of_none hx] at h
      cases h
    | some a =>
      rw [run_bind_of_some hx] at h
      rw [run_bind_of_some (hxy st a next hx)]
      exact hfg a next b last h

/-- Visitors with a larger budget agree with those with a smaller one where these end. -/
theorem agreeing_visitor {budget budget' : ℕ} (h : budget ≤ budget') (k : NodeKind) (x : k.Node) :
    (agreeing σ).Rel (editor.visitor budget k x) (editor.visitor budget' k x) := by
  induction budget generalizing budget' k x with
  | zero =>
    refine rel_visitor (fun _ _ _ _ _ hcall => hcall) (fun k y st a next hgiven => ?_) k x
    cases hgiven
  | succ budget ih =>
    refine rel_visitor (fun _ _ _ _ _ hcall => hcall) (fun k y => ?_) k x
    obtain ⟨left, rfl⟩ := Nat.exists_eq_succ_of_ne_zero (Nat.ne_zero_of_lt h)
    have hinside := Walk.rel_inside (R := agreeing σ) (ih (Nat.le_of_succ_le_succ h)) k y
    exact (agreeing σ).rel_bind hinside fun _ => (agreeing σ).rel_pure _

/-- With a larger budget a walk makes the same. -/
theorem run_walk?_of_le {budget budget' : ℕ} (h : budget ≤ budget') {y : k.Node}
    (hrun : (editor.walk? budget k x).run st = (some y, next)) :
    (editor.walk? budget' k x).run st = (some y, next) :=
  Walk.rel_walk (R := agreeing σ) (agreeing_visitor h) k x st y next hrun

/-- The second computation does without the calls what the first one does. -/
def forgetting (σ : Type) : MonadRel (OptionT (StateM (σ × List Call))) (OptionT (StateM σ)) where
  Rel x y := ∀ st calls result next calls',
    x.run.run (st, calls) = (result, next, calls') → y.run.run st = (result, next)
  rel_pure _ _ _ _ _ _ h := by
    cases h
    rfl
  rel_bind {α β x y f g} hxy hfg st calls result last calls' h := by
    rcases hx : x.run.run (st, calls) with ⟨made, next, calls''⟩
    have hy := hxy st calls made next calls'' hx
    cases made with
    | none =>
      rw [run_bind_of_none hx] at h
      cases h
      exact run_bind_of_none hy
    | some a =>
      rw [run_bind_of_some hx] at h
      rw [run_bind_of_some hy]
      exact hfg a next calls'' result last calls' h

/-- The visitor of the logging editor does what that of the editor does, its notes left out. -/
theorem forgetting_visitor (budget : ℕ) (k : NodeKind) (x : k.Node) :
    (forgetting σ).Rel (editor.logging.visitor budget k x) (editor.visitor budget k x) := by
  have hcall : ∀ k x, (forgetting σ).Rel (OptionT.lift (editor.logging k x))
      (OptionT.lift (editor k x)) := by
    intro k x st calls result next calls' h
    cases h
    rfl
  induction budget generalizing k x with
  | zero =>
    refine rel_visitor hcall (fun k y st calls result next calls' h => ?_) k x
    cases h
    rfl
  | succ budget ih =>
    refine rel_visitor hcall (fun k y => ?_) k x
    have hinside := Walk.rel_inside (R := forgetting σ) ih k y
    exact (forgetting σ).rel_bind hinside fun _ => (forgetting σ).rel_pure _

/-- A logged walk shows the result and the state of the walk itself. -/
theorem run_walk?_of_logging {budget : ℕ} {calls calls' : List Call} {result : Option k.Node}
    (h : (editor.logging.walk? budget k x).run (st, calls) = (result, next, calls')) :
    (editor.walk? budget k x).run st = (result, next) :=
  Walk.rel_walk (R := forgetting σ) (forgetting_visitor budget) k x st calls result next calls' h

/-! ## Walks end -/

/-- However large the nodes are that an editor puts anywhere, and though it may enter all of them:
if it writes at most `n` times on the way, its walk ends, after no more calls than the tree and all
that was put there have slots. With any budget of at least `n` the walk makes the tree that it makes
without a bound, by the same calls. -/
theorem walk_ends (editor : Editor (StateM σ)) (k : NodeKind) (x : k.Node) (st : σ) (n : ℕ)
    (hwrites : ∀ p, StateTransition.Reaches editor.advance (.start k x st) p →
      p.written.length ≤ n) :
    ∃ (y : k.Node) (p : Progress σ),
      p ∈ StateTransition.eval editor.advance (.start k x st)
      ∧ p.calls.length ≤ Slot.count ⟨k, x⟩ + (p.written.map Slot.count).sum
      ∧ ∀ budget ≥ n, (editor.walk? budget k x).run st = (some y, p.state)
        ∧ (editor.logging.walk? budget k x).run (st, []) = (some y, p.state, p.calls) := by
  obtain ⟨result, next, made, hrun, hgivesUp, hfollows⟩ := editor.follows_walk n ⟨k, x⟩ st []
  obtain ⟨pending, hend, hreach⟩ := hfollows []
  cases result with
  | none =>
    have hmore : n < (made.flatMap Call.written).length := hgivesUp rfl
    have hless : (made.flatMap Call.written).length ≤ n := hwrites _ hreach
    omega
  | some y =>
    obtain rfl := hend rfl
    refine ⟨y, ⟨[], next, made⟩, StateTransition.mem_eval.2 ⟨hreach, rfl⟩, ?_, fun budget hn => ?_⟩
    · have hbound := outlay_of_reaches hreach
      simpa [Progress.outlay, Progress.written] using hbound
    · have hlogged : (editor.logging.walk? budget k x).run (st, []) = (some y, next, made) :=
        run_walk?_of_le hn hrun
      exact ⟨run_walk?_of_logging hlogged, hlogged⟩

end Editor

/-! ## An editor that makes the tree grow -/

/-- Puts the negation of a condition in the condition's place so many times, and enters every
node. -/
def Editor.negatingFirst : Editor (StateM ℕ)
  | .condition, c => do
    match ← get with
    | 0 => return ⟨none, true⟩
    | n + 1 =>
      set n
      return ⟨some (.negation c), true⟩
  | _, _ => return ⟨none, true⟩

/-- However long the editor runs, the nodes it wrote and what is left to write make up one number.
-/
theorem Editor.written_negatingFirst {p q : Progress ℕ}
    (h : StateTransition.Reaches negatingFirst.advance p q) :
    q.written.length + q.state = p.written.length + p.state := by
  have hwrite : ∀ {k x st edit next}, (negatingFirst k x).run st = (edit, next) →
      (Call.mk k x edit).written.length + next = st := by
    intro k x st edit next hcall
    cases k with
    | condition => cases st <;> cases hcall <;> simp [Call.written, Nat.add_comm]
    | _ =>
      cases hcall
      exact Nat.zero_add _
  induction h with
  | refl => rfl
  | @tail q r _ hstep ih =>
    obtain ⟨pending, st, calls⟩ := q
    cases pending with
    | nil => cases hstep
    | cons s rest =>
      obtain ⟨k, x⟩ := s
      rcases hcall : (negatingFirst k x).run st with ⟨edit, next⟩
      obtain rfl := Option.some.inj ((advance_of_call hcall rest calls).symm.trans hstep)
      have hsum := hwrite hcall
      simp only [Progress.written, List.flatMap_append, List.flatMap_singleton,
        List.length_append] at ih ⊢
      omega

/-- An editor in state zero does below a node what recording does, without the record. -/
def Editor.resting : MonadRel (OptionT (StateM ℕ)) (StateM (List Slot)) where
  Rel x y := ∀ log, x.run.run 0 = (some (y.run log).1, 0)
  rel_pure _ _ := rfl
  rel_bind {α β x y f g} hxy hfg log := by
    rw [run_bind_of_some (hxy log)]
    exact hfg _ (y.run log).2

/-- Once it has written as often as it may, `negatingFirst` changes nothing. -/
theorem Editor.run_walk_negatingFirst_zero (budget : ℕ) (k : NodeKind) (x : k.Node) :
    (walk (negatingFirst.visitor budget) k x).run.run 0 = (some x, 0) := by
  have hvisit : ∀ k x, resting.Rel (negatingFirst.visitor budget k x) (recording k x) := by
    intro k x log
    rw [visitor]
    cases k <;> rfl
  have hwalk := Walk.rel_walk hvisit k x []
  rw [run_walk_recording ⟨k, x⟩] at hwalk
  exact hwalk

/-- `negatingFirst` puts a condition under as many negations as it may write. -/
theorem Editor.run_walk?_negatingFirst {n budget : ℕ} (h : n ≤ budget) (c : Condition) :
    (negatingFirst.walk? budget .condition c).run n = (some (Condition.negation^[n] c), 0) := by
  induction n generalizing budget with
  | zero => exact run_walk_negatingFirst_zero budget .condition c
  | succ n ih =>
    obtain ⟨left, rfl⟩ := Nat.exists_eq_succ_of_ne_zero (Nat.ne_zero_of_lt h)
    have hcall : (walk (negatingFirst.visitor (left + 1)) .condition c).run.run (n + 1)
        = (negatingFirst.afterCall (left + 1) c ⟨some (Condition.negation c), true⟩).run.run n :=
      run_walk_of_call rfl (left + 1)
    -- below the negation that was put there, the condition itself is offered again
    have hbelow : Walk.insideCondition (negatingFirst.visitor left) (.negation c)
        = walk (negatingFirst.visitor left) .condition c >>= fun d => pure (.negation d) := by
      rw [Walk.insideCondition, map_eq_pure_bind]
      rfl
    refine hcall.trans ?_
    rw [Function.iterate_succ_apply']
    exact (congrArg (fun x => x.run.run n) hbelow).trans
      (run_bind_of_some (ih (Nat.le_of_succ_le_succ h)))

/-- The order is open. -/
def Condition.isOpen : Condition :=
  .compare ⟨⟨.equals, .plain⟩, .column ⟨.named "orders", "open", none⟩, .value (.boolean true)⟩

/-- The calls about the condition when it may be negated twice. -/
def Editor.negatingFirstCalls : List Call :=
  [⟨.condition, Condition.isOpen, some (.negation Condition.isOpen), true⟩,
    ⟨.condition, Condition.isOpen, some (.negation Condition.isOpen), true⟩,
    ⟨.condition, Condition.isOpen, none, true⟩,
    ⟨.column, ⟨.named "orders", "open", none⟩, none, true⟩,
    ⟨.table, .named "orders", none, true⟩, ⟨.value, .boolean true, none, true⟩]

/-- A condition that is put under two negations is offered three times, and then its operands
are. -/
theorem Editor.negatingFirst_ends :
    (∀ p, StateTransition.Reaches negatingFirst.advance (.start .condition Condition.isOpen 2) p →
      p.written.length ≤ 2)
    ∧ ∃ p : Progress ℕ,
      p ∈ StateTransition.eval negatingFirst.advance (.start .condition Condition.isOpen 2)
      ∧ p.calls.map (·.kind) = [.condition, .condition, .condition, .column, .table, .value]
      ∧ p.written
        = [⟨.condition, .negation Condition.isOpen⟩, ⟨.condition, .negation Condition.isOpen⟩]
      ∧ p.calls.length ≤ Slot.count ⟨.condition, Condition.isOpen⟩ + (p.written.map Slot.count).sum
      ∧ (negatingFirst.walk? 2 .condition Condition.isOpen).run 2
        = (some (.negation (.negation Condition.isOpen)), p.state) := by
  have hwrites : ∀ p,
      StateTransition.Reaches negatingFirst.advance (.start .condition Condition.isOpen 2) p →
        p.written.length ≤ 2 := by
    intro p hp
    have hsum : p.written.length + p.state = 0 + 2 := written_negatingFirst hp
    omega
  obtain ⟨y, p, heval, hbound, hruns⟩ :=
    walk_ends negatingFirst .condition Condition.isOpen 2 2 hwrites
  obtain ⟨hrun, -⟩ := hruns 2 (Nat.le_refl 2)
  have hmade := run_walk?_negatingFirst (Nat.le_refl 2) Condition.isOpen
  obtain rfl : p = ⟨[], 0, negatingFirstCalls⟩ := by
    refine Part.mem_unique heval (StateTransition.mem_eval.2 ⟨?_, rfl⟩)
    exact .head rfl (.head rfl (.head rfl (.head rfl (.head rfl (.head rfl .refl)))))
  refine ⟨hwrites, _, heval, rfl, rfl, hbound, ?_⟩
  rw [hrun] at hmade ⊢
  exact hmade

end QueryTree
