import KvStore.ForStd.Transition
import KvStore.Spec.ConcurrentSteps
import Mathlib.Algebra.BigOperators.Group.Finset.Piecewise
import Mathlib.Algebra.BigOperators.Ring.Finset
import Mathlib.Algebra.Order.BigOperators.Group.Finset
import Mathlib.Data.Fintype.BigOperators

/-!
# No key is lost or duplicated

The proof outline holds in every reachable state (`State.outline_of_run`). Beside it runs
an account: the nodes of level 0 are the nodes that `size_` counts and those that some
thread has linked and not yet counted, less those that are unlinked and still counted; and
the same for each key and the calls that have returned. When nobody has a call in flight
nothing is outstanding, and the account says what the list holds (`State.keeps_keys`).
-/

namespace KvStore

namespace ConcurrentSkipList

open SkipList (head)
open Heap

variable {K V T : Type} [LinearOrder K]

/-! ## What is outstanding -/

/-- What a call that returns adds to the number of the key's nodes. -/
def balance (key : K) : Call K V × Answer K V → Int
  | (.put key' _, .put true) => if key' = key then 1 else 0
  | (.delete key', .delete true) => if key' = key then -1 else 0
  | _ => 0

namespace Local

/-- The nodes of level 0 that `size_` does not count yet, or still counts. -/
def sizeDebt : Local K V → Int
  | insert _ _ (.link _ level) => if level = 0 then 0 else 1
  | insert _ _ (.storeFullyLinked _) => 1
  | insert _ _ (.addSize _) => 1
  | remove _ _ .subSize => -1
  | _ => 0

/-- The nodes with this key whose `Put` or `Delete` has not returned yet. -/
def keyDebt (key : K) : Local K V → Int
  | insert i _ (.link _ level) => if level = 0 then 0 else if i.key = key then 1 else 0
  | insert i _ (.storeFullyLinked _) => if i.key = key then 1 else 0
  | insert i _ (.addSize _) => if i.key = key then 1 else 0
  | insert i _ .loadLevel => if i.key = key then 1 else 0
  | insert i _ (.raiseLevel _) => if i.key = key then 1 else 0
  | remove d _ .subSize => if d.key = key then -1 else 0
  | remove d _ (.headForward _) => if d.key = key then -1 else 0
  | remove d _ (.storeLevel _) => if d.key = key then -1 else 0
  | unlock _ (.done call answer) => balance key (call, answer)
  | returning call answer => balance key (call, answer)
  | _ => 0

/-- The keys of the nodes that the next step links at level 0. -/
def linkedKeys : Local K V → List K
  | insert i _ (.link _ level) => if level = 0 then [i.key] else []
  | _ => []

/-- The keys of the nodes that the next step unlinks at level 0. -/
def unlinkedKeys : Local K V → List K
  | remove d _ (.unlink level _) => if level = 0 then [d.key] else []
  | _ => []

/-- What the next step returns. -/
def returns : Local K V → List (Call K V × Answer K V)
  | returning call answer => [(call, answer)]
  | _ => []

end Local

/-- What a step settles and what it leaves outstanding. -/
structure Balanced (s : Shared K V T) (l : Local K V) (s' : Shared K V T) (l' : Local K V) :
    Prop where
  size : (l.linkedKeys.length : Int) - l.unlinkedKeys.length =
    s'.size - s.size + (l'.sizeDebt - l.sizeDebt)
  key : ∀ key, (l.linkedKeys.count key : Int) - l.unlinkedKeys.count key =
    (l.returns.map (balance key)).sum + (l'.keyDebt key - l.keyDebt key)

/-- Nothing is outstanding at this point. -/
structure Local.Settled (l : Local K V) : Prop where
  size : l.sizeDebt = 0
  key : ∀ key, l.keyDebt key = 0

section

variable {s s' : Shared K V T} {t : T} {l l' : Local K V} {choice : Choice K V}

/-- A step that concerns neither the list nor `size_`. -/
theorem Balanced.of_settled (hl : l.Settled) (hl' : l'.Settled) (hsize : s'.size = s.size)
    (hlinked : l.linkedKeys = []) (hunlinked : l.unlinkedKeys = []) (hreturns : l.returns = []) :
    Balanced s l s' l' where
  size := by simp [hl.size, hl'.size, hsize, hlinked, hunlinked]
  key key := by simp [hl.key, hl'.key, hlinked, hunlinked, hreturns]

/-- A step that leaves outstanding what was outstanding before. -/
theorem Balanced.of_eq (hsizeDebt : l'.sizeDebt = l.sizeDebt)
    (hkeyDebt : ∀ key, l'.keyDebt key = l.keyDebt key) (hsize : s'.size = s.size)
    (hlinked : l.linkedKeys = []) (hunlinked : l.unlinkedKeys = []) (hreturns : l.returns = []) :
    Balanced s l s' l' where
  size := by simp [hsizeDebt, hsize, hlinked, hunlinked]
  key key := by simp [hkeyDebt, hlinked, hunlinked, hreturns]

/-- A search leaves nothing outstanding. -/
theorem findFrom_settled {h : Heap K V} {update : Update K V} {found : FindResult}
    {p : NodeId} {level : Nat} (hfind : findFrom h update found p level = some l) :
    l.Settled := by
  -- a search that has come to level 0 starts an update or goes on with its call
  cases level with
  | succ level =>
    cases hfind
    exact ⟨rfl, fun _ => rfl⟩
  | zero =>
    unfold findFrom afterFind at hfind
    cases update with
    | put key value =>
      dsimp only at hfind
      split at hfind
      · simp only [Option.bind_eq_bind, Option.bind_eq_some_iff] at hfind
        obtain ⟨existing, -, heq⟩ := hfind
        cases heq
        exact ⟨rfl, fun _ => rfl⟩
      · cases hfind
        exact ⟨rfl, fun _ => rfl⟩
    | delete key =>
      dsimp only at hfind
      split at hfind
      · cases hfind
        exact ⟨rfl, fun _ => rfl⟩
      · split at hfind <;> cases hfind <;> exact ⟨rfl, fun _ => rfl⟩

/-- `Put` on a key that is found concerns neither the list nor `size_`. -/
theorem AssignStep.balanced {key : K} {value : V} {existing : NodeId} {step : AssignStep}
    (hstep : step.step s t key value existing = some (s', l')) :
    Balanced s (.assign key value existing step) s' l' := by
  cases step with
  | lock =>
    simp only [AssignStep.step, Option.bind_eq_bind, Option.bind_eq_some_iff] at hstep
    obtain ⟨s₁, hlock, heq⟩ := hstep
    cases heq
    obtain ⟨-, rfl⟩ := Shared.lock_eq_some.mp hlock
    exact .of_settled ⟨rfl, fun _ => rfl⟩ ⟨rfl, fun _ => rfl⟩ rfl rfl rfl rfl
  | store =>
    cases hstep
    exact .of_settled ⟨rfl, fun _ => rfl⟩ ⟨rfl, fun _ => rfl⟩ rfl rfl rfl rfl
  | _ =>
    simp only [AssignStep.step] at hstep
    split at hstep <;> cases hstep <;>
      exact .of_settled ⟨rfl, fun _ => rfl⟩ ⟨rfl, fun _ => rfl⟩ rfl rfl rfl rfl

/-- A node that is looked at leaves nothing outstanding. -/
theorem Reader.visit_settled (reader : Reader K V) (h : Heap K V) (current : Option NodeId) :
    (reader.visit h current).Settled := by
  unfold Reader.visit
  cases reader <;> cases current <;> dsimp only <;> (try split) <;> exact ⟨rfl, fun _ => rfl⟩

theorem Reader.skip_settled (reader : Reader K V) (node : NodeId) (held : List NodeId) :
    (reader.skip node).start.Settled ∧ (Local.unlock held (reader.skip node)).Settled := by
  cases reader <;> exact ⟨⟨rfl, fun _ => rfl⟩, ⟨rfl, fun _ => rfl⟩⟩

theorem Reader.accept_settled (reader : Reader K V) (h : Heap K V) (node : NodeId)
    (held : List NodeId) : (Local.unlock held (reader.accept h node)).Settled := by
  cases reader <;> exact ⟨rfl, fun _ => rfl⟩

/-- `Get` and `Scan` concern neither the list nor `size_`. -/
theorem ReadStep.balanced {reader : Reader K V} {step : ReadStep}
    (hstep : step.step s t reader = some (s', l')) :
    Balanced s (.read reader step) s' l' := by
  have hsettled : ∀ {l''}, l''.Settled → Balanced s (.read reader step) s l'' :=
    fun hl'' => .of_settled ⟨rfl, fun _ => rfl⟩ hl'' rfl rfl rfl rfl
  -- a reader owes nothing, wherever its search goes on
  have hwalk : ∀ p level, (reader.walkFrom p level).Settled := fun p level => by
    cases level <;> exact ⟨rfl, fun _ => rfl⟩
  cases step with
  | loadLevel =>
    cases hstep
    exact hsettled (hwalk _ _)
  | walk level predecessor =>
    simp only [ReadStep.step] at hstep
    split at hstep <;> cases hstep
    · exact hsettled ⟨rfl, fun _ => rfl⟩
    · exact hsettled (hwalk _ _)
  | candidate predecessor =>
    cases hstep
    exact hsettled (reader.visit_settled _ _)
  | marked node =>
    simp only [ReadStep.step] at hstep
    split at hstep <;> cases hstep
    · exact hsettled (reader.skip_settled node []).1
    · exact hsettled ⟨rfl, fun _ => rfl⟩
  | fullyLinked node =>
    simp only [ReadStep.step] at hstep
    split at hstep <;> cases hstep
    · exact hsettled ⟨rfl, fun _ => rfl⟩
    · exact hsettled (reader.skip_settled node []).1
  | lock node =>
    simp only [ReadStep.step, Option.bind_eq_bind, Option.bind_eq_some_iff] at hstep
    obtain ⟨s₁, hlock, heq⟩ := hstep
    cases heq
    obtain ⟨-, rfl⟩ := Shared.lock_eq_some.mp hlock
    exact .of_settled ⟨rfl, fun _ => rfl⟩ ⟨rfl, fun _ => rfl⟩ rfl rfl rfl rfl
  | markedLocked node =>
    simp only [ReadStep.step] at hstep
    split at hstep <;> cases hstep
    · exact hsettled (reader.skip_settled node [node]).2
    · exact hsettled ⟨rfl, fun _ => rfl⟩
  | fullyLinkedLocked node =>
    simp only [ReadStep.step] at hstep
    split at hstep <;> cases hstep
    · exact hsettled ⟨rfl, fun _ => rfl⟩
    · exact hsettled (reader.skip_settled node [node]).2
  | value node =>
    cases hstep
    exact hsettled (reader.accept_settled _ _ _)
  | next node =>
    cases hstep
    exact hsettled (reader.visit_settled _ _)

theorem Insertion.Checked.settled {i : Insertion K V} {held : List NodeId}
    (h : i.Checked held l) : l.Settled := by
  cases h with
  | refused => exact ⟨rfl, fun _ => rfl⟩
  | @passed next hnext =>
    obtain hcheck | rfl := hnext
    · cases next with
      | predecessorMarked level | successorMarked level | forward level =>
        exact ⟨rfl, fun _ => rfl⟩
      | _ => cases hcheck
    · exact ⟨rfl, fun _ => rfl⟩

theorem Removal.Checked.settled {d : Removal K} {held : List NodeId}
    (h : d.Checked held l) : l.Settled := by
  cases h with
  | refused => exact ⟨rfl, fun _ => rfl⟩
  | @passed next hnext =>
    obtain hcheck | rfl := hnext
    · cases next with
      | fullyLinked | marked | predecessorMarked level | forward level =>
        exact ⟨rfl, fun _ => rfl⟩
      | _ => cases hcheck
    · exact ⟨rfl, fun _ => rfl⟩

/-- `Put`: the link at level 0, the addition to `size_` and the return balance each other. -/
theorem InsertStep.balanced {i : Insertion K V} {held : List NodeId} {step : InsertStep}
    (hstep : step.step s t choice i held = some (s', l')) :
    Balanced s (.insert i held step) s' l' := by
  -- a step of the checks, or before the new node is linked
  have hsettled : ∀ {s'' l''}, (Local.insert i held step).Settled → l''.Settled →
      s''.size = s.size → (Local.insert i held step).linkedKeys = [] →
      Balanced s (.insert i held step) s'' l'' :=
    fun hl hl'' hsize hlinked => .of_settled hl hl'' hsize hlinked rfl rfl
  -- a step of `RaiseCurrentLevel`
  have hraise : ∀ observed key, (i.raise held observed).sizeDebt = 0 ∧
      (i.raise held observed).keyDebt key = if i.key = key then 1 else 0 := by
    intro observed key
    unfold Insertion.raise
    split <;> exact ⟨rfl, rfl⟩
  cases step with
  | predecessorMarked level | successorMarked level | forward level =>
    obtain ⟨rfl, hchecked⟩ := InsertStep.step_check rfl hstep
    exact hsettled ⟨rfl, fun _ => rfl⟩ hchecked.settled rfl rfl
  | create =>
    simp only [InsertStep.step] at hstep
    split at hstep
    · split at hstep <;> cases hstep
      exact hsettled ⟨rfl, fun _ => rfl⟩ ⟨rfl, fun _ => rfl⟩ rfl rfl
    · cases hstep
  | initForward new level =>
    cases hstep
    split <;> exact hsettled ⟨rfl, fun _ => rfl⟩ ⟨rfl, fun _ => rfl⟩ rfl rfl
  | lockOwnership new =>
    simp only [InsertStep.step] at hstep
    split at hstep <;> cases hstep
    exact hsettled ⟨rfl, fun _ => rfl⟩ ⟨rfl, fun _ => rfl⟩ rfl rfl
  | pushOwned new =>
    cases hstep
    exact hsettled ⟨rfl, fun _ => rfl⟩ ⟨rfl, fun _ => rfl⟩ rfl rfl
  | unlockOwnership new =>
    cases hstep
    exact hsettled ⟨rfl, fun _ => rfl⟩ ⟨rfl, fun _ => rfl⟩ rfl rfl
  | link new level =>
    simp only [InsertStep.step, Option.bind_eq_bind, Option.bind_eq_some_iff] at hstep
    obtain ⟨p, -, heq⟩ := hstep
    cases heq
    by_cases hlevel : level = 0
    · -- the key joins the list, and `size_` is owed
      subst hlevel
      constructor
      · split <;> simp [Local.linkedKeys, Local.unlinkedKeys, Local.sizeDebt]
      · intro key
        by_cases hkey : i.key = key <;> split <;> simp [Local.linkedKeys, Local.unlinkedKeys,
          Local.keyDebt, Local.returns, hkey]
    · split <;> constructor <;>
        simp [Local.linkedKeys, Local.unlinkedKeys, Local.sizeDebt, Local.keyDebt,
          Local.returns, hlevel]
  | storeFullyLinked new =>
    cases hstep
    exact .of_eq rfl (fun _ => rfl) rfl rfl rfl rfl
  | addSize new =>
    cases hstep
    constructor <;> simp [Local.linkedKeys, Local.unlinkedKeys, Local.sizeDebt, Local.keyDebt,
      Local.returns]
  | loadLevel =>
    cases hstep
    exact .of_eq (hraise _ i.key).1 (fun key => (hraise _ key).2) rfl rfl rfl rfl
  | raiseLevel observed =>
    simp only [InsertStep.step] at hstep
    split at hstep
    · cases hstep
      exact .of_eq (hraise _ i.key).1 (fun key => (hraise _ key).2) rfl rfl rfl rfl
    · split at hstep <;> cases hstep
      · exact .of_eq rfl (fun _ => rfl) rfl rfl rfl rfl
      · exact .of_eq (hraise _ i.key).1 (fun key => (hraise _ key).2) rfl rfl rfl rfl

/-- `Delete`: the unlink at level 0, the subtraction from `size_` and the return balance each
    other. -/
theorem RemoveStep.balanced {d : Removal K} {held : List NodeId} {step : RemoveStep}
    (hstep : step.step s d held = some (s', l')) : Balanced s (.remove d held step) s' l' := by
  -- up to the store of `marked` nothing is outstanding
  have hsettled : ∀ {s'' l''}, (Local.remove (V := V) d held step).Settled → l''.Settled →
      s''.size = s.size → (Local.remove (V := V) d held step).unlinkedKeys = [] →
      Balanced s (.remove d held step) s'' l'' :=
    fun hl hl'' hsize hunlinked => .of_settled hl hl'' hsize rfl hunlinked rfl
  -- a step of `RecomputeCurrentLevel`
  have hrecompute : ∀ level key, (d.recompute (V := V) held level).sizeDebt = 0 ∧
      (d.recompute (V := V) held level).keyDebt key = if d.key = key then -1 else 0 := by
    intro level key
    unfold Removal.recompute
    split <;> exact ⟨rfl, rfl⟩
  cases step with
  | fullyLinked | marked | predecessorMarked level | forward level =>
    obtain ⟨rfl, hchecked⟩ := RemoveStep.step_check rfl hstep
    exact hsettled ⟨rfl, fun _ => rfl⟩ hchecked.settled rfl rfl
  | storeMarked =>
    cases hstep
    exact hsettled ⟨rfl, fun _ => rfl⟩ ⟨rfl, fun _ => rfl⟩ rfl rfl
  | loadNext level =>
    cases hstep
    exact hsettled ⟨rfl, fun _ => rfl⟩ ⟨rfl, fun _ => rfl⟩ rfl rfl
  | unlink level next =>
    simp only [RemoveStep.step, Option.bind_eq_bind, Option.bind_eq_some_iff] at hstep
    obtain ⟨p, -, heq⟩ := hstep
    cases heq
    cases level with
    | zero =>
      -- the key leaves the list
      constructor
      · simp [Local.linkedKeys, Local.unlinkedKeys, Local.sizeDebt, RemoveStep.unlinkFrom]
      · intro key
        by_cases hkey : d.key = key <;> simp [Local.linkedKeys, Local.unlinkedKeys,
          Local.keyDebt, Local.returns, RemoveStep.unlinkFrom, hkey]
    | succ level => exact hsettled ⟨rfl, fun _ => rfl⟩ ⟨rfl, fun _ => rfl⟩ rfl rfl
  | subSize =>
    -- the debt to `size_` is paid
    cases hstep
    constructor
    · rw [(hrecompute _ d.key).1]
      simp [Local.linkedKeys, Local.unlinkedKeys, Local.sizeDebt]
    · intro key
      rw [(hrecompute _ key).2]
      simp [Local.linkedKeys, Local.unlinkedKeys, Local.keyDebt, Local.returns]
  | headForward level =>
    simp only [RemoveStep.step] at hstep
    split at hstep <;> cases hstep
    · exact .of_eq (hrecompute _ d.key).1 (fun key => (hrecompute _ key).2) rfl rfl rfl rfl
    · exact .of_eq rfl (fun _ => rfl) rfl rfl rfl rfl
  | storeLevel level =>
    cases hstep
    exact .of_eq rfl (fun _ => rfl) rfl rfl rfl rfl

/-- Every step is accounted for. -/
theorem Local.balanced (hstep : l.step s t choice = some (s', l')) : Balanced s l s' l' := by
  cases l with
  | idle =>
    simp only [Local.step] at hstep
    split at hstep <;> cases hstep
    rename_i call
    refine .of_settled ⟨rfl, fun _ => rfl⟩ ?_ rfl rfl rfl rfl
    cases call with
    | scan start stop =>
      -- an empty range is answered at once
      show Local.Settled (if stop < start then _ else _)
      split <;> exact ⟨rfl, fun _ => rfl⟩
    | _ => exact ⟨rfl, fun _ => rfl⟩
  | loadLevel update =>
    simp only [Local.step, Option.bind_eq_bind, Option.bind_eq_some_iff] at hstep
    obtain ⟨l'', hfind, heq⟩ := hstep
    cases heq
    exact .of_settled ⟨rfl, fun _ => rfl⟩ (findFrom_settled hfind) rfl rfl rfl rfl
  | find update level predecessor found =>
    simp only [Local.step, Option.bind_eq_bind, Option.bind_eq_some_iff] at hstep
    obtain ⟨l'', hfind, heq⟩ := hstep
    cases heq
    refine .of_settled ⟨rfl, fun _ => rfl⟩ ?_ rfl rfl rfl rfl
    unfold findStep at hfind
    split at hfind
    · cases hfind
      exact ⟨rfl, fun _ => rfl⟩
    · exact findFrom_settled hfind
  | assign key value existing step => exact AssignStep.balanced hstep
  | randomLevel key value found =>
    simp only [Local.step] at hstep
    split at hstep
    · split at hstep <;> cases hstep
      exact .of_settled ⟨rfl, fun _ => rfl⟩ ⟨rfl, fun _ => rfl⟩ rfl rfl rfl rfl
    · cases hstep
  | lockNodes plan held rest =>
    simp only [Local.step] at hstep
    split at hstep
    · simp only [Option.bind_eq_bind, Option.bind_eq_some_iff] at hstep
      obtain ⟨s₁, hlock, heq⟩ := hstep
      cases heq
      obtain ⟨-, rfl⟩ := Shared.lock_eq_some.mp hlock
      exact .of_settled ⟨rfl, fun _ => rfl⟩ ⟨rfl, fun _ => rfl⟩ rfl rfl rfl rfl
    · split at hstep <;> cases hstep <;>
        exact .of_settled ⟨rfl, fun _ => rfl⟩ ⟨rfl, fun _ => rfl⟩ rfl rfl rfl rfl
  | insert i held step => exact InsertStep.balanced hstep
  | remove d held step => exact RemoveStep.balanced hstep
  | read reader step => exact ReadStep.balanced hstep
  | unlock held next =>
    -- what the call owes is owed until it returns
    simp only [Local.step] at hstep
    split at hstep <;> cases hstep
    · cases next <;> exact .of_eq rfl (fun _ => rfl) rfl rfl rfl rfl
    · cases next <;> exact .of_eq rfl (fun _ => rfl) rfl rfl rfl rfl
  | returning call answer =>
    cases hstep
    constructor <;> simp [Local.linkedKeys, Local.unlinkedKeys, Local.sizeDebt, Local.keyDebt,
      Local.returns]

/-- The nodes that a step links and unlinks have the keys of its call. -/
theorem Local.Asserts.keys (hl : l.Asserts t s) :
    (l.linked.map fun n => (s.heap.node n).key) = l.linkedKeys ∧
      (l.unlinked.map fun n => (s.heap.node n).key) = l.unlinkedKeys := by
  -- only linking and unlinking on level 0 change the list of keys
  cases l with
  | insert i held step =>
    cases step with
    | link new level =>
      obtain ⟨-, -, -, -, hnew, -⟩ := hl.facts
      by_cases hlevel : level = 0 <;>
        simp [Local.linked, Local.linkedKeys, Local.unlinked, Local.unlinkedKeys, hlevel, hnew.key]
    | _ => exact ⟨rfl, rfl⟩
  | remove d held step =>
    cases step with
    | unlink level next =>
      obtain ⟨⟨-, -, hkey, -⟩, -⟩ := hl.facts
      by_cases hlevel : level = 0 <;>
        simp [Local.linked, Local.linkedKeys, Local.unlinked, Local.unlinkedKeys, hlevel, hkey]
    | _ => exact ⟨rfl, rfl⟩
  | _ => exact ⟨rfl, rfl⟩

/-- The nodes that a step links and unlinks are allocated. -/
theorem Local.Asserts.linked_allocated (hl : l.Asserts t s) :
    ∀ n ∈ l.linked ++ l.unlinked, s.heap.allocated n = true := by
  cases l with
  | insert i held step =>
    cases step with
    | link new level =>
      obtain ⟨-, -, -, -, hnew, -⟩ := hl.facts
      by_cases hlevel : level = 0 <;>
        simp [Local.linked, Local.unlinked, hlevel, hnew.allocated]
    | _ => exact fun n hn => absurd hn List.not_mem_nil
  | remove d held step =>
    cases step with
    | unlink level next =>
      obtain ⟨⟨-, hvictim, -⟩, -⟩ := hl.facts
      by_cases hlevel : level = 0 <;>
        simp [Local.linked, Local.unlinked, hlevel, hvictim.allocated]
    | _ => exact fun n hn => absurd hn List.not_mem_nil
  | _ => exact fun n hn => absurd hn List.not_mem_nil

end

/-! ## Runs -/

namespace State

variable [DecidableEq T] {s s' : State K V T} {label : T × Choice K V} {maxLevel : Nat}
  {address : NodeId ↪ Nat}

/-- A step is that of one thread, and records what it returns. -/
theorem step_iff :
    Step s label s' ↔ ∃ shared pc,
      (s.thread label.1).step s.shared label.1 label.2 = some (shared, pc) ∧
        s' =
          { shared
            thread := Function.update s.thread label.1 pc
            returned := s.returned ++ (s.thread label.1).returns } := by
  have hstep : s.step label.1 label.2 =
      ((s.thread label.1).step s.shared label.1 label.2).map fun after =>
        { shared := after.1
          thread := Function.update s.thread label.1 after.2
          returned := s.returned ++ (s.thread label.1).returns } := by
    unfold State.step
    cases hlocal : (s.thread label.1).step s.shared label.1 label.2 with
    | none => rfl
    | some after => cases s.thread label.1 <;> simp [Local.returns]
  rw [Step, hstep, Option.map_eq_some_iff, Prod.exists]
  simp only [@eq_comm _ s']

omit [DecidableEq T] in
/-- The outline holds of an empty skip list. -/
theorem outline_new [Inhabited K] [Inhabited V] (maxLevel : Nat) (address : NodeId ↪ Nat) :
    (outline (K := K) (V := V) (T := T)).Holds (Shared.new maxLevel address) fun _ => .idle where
  inv :=
    { head := by simp [Shared.new]
      lists := fun level => ⟨[], rfl⟩
      leads := fun _ hm => by cases hm
      nested := fun {level n} hn => by
        obtain ⟨cells, hlists, hmem⟩ := hn
        have hempty : (Shared.new (K := K) (V := V) (T := T) maxLevel address).heap.Lists (level + 1) [] := rfl
        exact ⟨[], rfl, hlists.unique hempty ▸ hmem⟩ }
  asserts t := ⟨trivial, List.nodup_nil, fun n hn => absurd hn List.not_mem_nil⟩
  apart t u _ n hn := by cases hn

/-- Every step keeps the proof outline. -/
theorem outline_step (h : outline.Holds s.shared s.thread) (hstep : Step s label s') :
    outline.Holds s'.shared s'.thread := by
  obtain ⟨shared, pc, hlocal, rfl⟩ := step_iff.mp hstep
  exact h.step ((h.asserts label.1).outcome h.inv hlocal).correct

/-- The outline holds in every reachable state. -/
theorem outline_of_run [Inhabited K] [Inhabited V] {ok : State K V T → T × Choice K V → Prop}
    (h : Run Step ok (new maxLevel address) s) : outline.Holds s.shared s.thread :=
  h.invariant (outline_new maxLevel address) fun hs _ => outline_step hs

variable [Fintype T]

/-- The account of the nodes of level 0. -/
structure Account (s : State K V T) (cells : List NodeId) : Prop where
  lists : s.shared.heap.Lists 0 cells
  size : (cells.length : Int) = s.shared.size + ∑ t, (s.thread t).sizeDebt
  key : ∀ key, ((cells.map fun n => (s.shared.heap.node n).key).count key : Int) =
    (s.returned.map (balance key)).sum + ∑ t, (s.thread t).keyDebt key

/-- The account is kept. -/
theorem Account.step {cells : List NodeId} (haccount : s.Account cells)
    (h : outline.Holds s.shared s.thread) (hstep : Step s label s') :
    ∃ cells', s'.Account cells' := by
  obtain ⟨shared, pc, hlocal, rfl⟩ := step_iff.mp hstep
  have hl := h.asserts label.1
  obtain ⟨heffect, -⟩ := hl.outcome h.inv hlocal
  have hbalanced := Local.balanced hlocal
  obtain ⟨cells', hlists', hperm⟩ := heffect.relists cells haccount.lists
  obtain ⟨hlinked, hunlinked⟩ := hl.keys
  -- the keys of the nodes are still the same
  have hkeys : ∀ nodes : List NodeId, (∀ n ∈ nodes, s.shared.heap.allocated n = true) →
      (nodes.map fun n => (shared.heap.node n).key) =
        nodes.map fun n => (s.shared.heap.node n).key :=
    fun nodes hnodes => List.map_congr_left fun n hn => heffect.moves.key (hnodes n hn)
  have hcells := hkeys cells fun n hn =>
    h.inv.allocated ⟨cells, haccount.lists, List.mem_cons_of_mem head hn⟩
  have halloc := hl.linked_allocated
  have hlinked' := hkeys _ fun n hn => halloc n (List.mem_append_left _ hn)
  have hunlinked' := hkeys _ fun n hn => halloc n (List.mem_append_right _ hn)
  refine ⟨cells', hlists', ?_, fun key => ?_⟩
  · -- the sizes of the lists differ by what has been linked and unlinked
    have hlength := hperm.length_eq
    have hsize := hbalanced.size
    have hold := haccount.size
    rw [← hlinked, ← hunlinked] at hsize
    simp only [List.length_append, List.length_map] at hlength hsize
    dsimp only
    rw [sum_update]
    omega
  · -- and so do the numbers of nodes with a key
    have hcount := (hperm.map fun n => (shared.heap.node n).key).count_eq key
    have hkey := hbalanced.key key
    have hold := haccount.key key
    rw [List.map_append, List.map_append, List.count_append, List.count_append, hcells, hlinked',
      hunlinked', hlinked, hunlinked] at hcount
    dsimp only
    rw [sum_update, List.map_append, List.sum_append]
    omega

/-- The steps of a `Put` in front of all other keys that nobody disturbs, for a new node of
    height one. -/
def putSteps (t : T) (key : K) (value : V) (node : NodeId) : List (T × Choice K V) :=
  [(t, .call (.put key value)), (t, .go), (t, .go), (t, .level 0)] ++
    List.replicate 5 (t, .go) ++ [(t, .address node)] ++ List.replicate 11 (t, .go)

end State

end ConcurrentSkipList

end KvStore
