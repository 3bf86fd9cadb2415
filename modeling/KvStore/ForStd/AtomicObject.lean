import KvStore.ForStd.Transition
import Mathlib.Logic.Function.Basic

/-!
# An object that clients use atomically

Clients make calls on an object, and each call takes effect in one step between the request
and its answer. A client may also give a call up without an answer: then it is open whether
the call takes effect, and it may do so later, but only once. A distributed object is
linearizable if everything that its clients can see in a run can be seen in a run of the
atomic object.
-/

namespace AtomicObject

variable {σ Op Res T : Type}

/-- Where the call of a client is. -/
inductive Phase (Op Res : Type) where
  | idle
  | called (op : Op)
  | done (op : Op) (result : Res)
  /-- Given up before it has taken effect. -/
  | orphaned (op : Op)

/-- A step of a client, or of the object on its behalf. -/
inductive Action (Op : Type) where
  | call (op : Op)
  | commit
  | answer
  | fail
  /-- A call that has been given up will not take effect. -/
  | drop

/-- What a client sees. -/
inductive Event (Op Res : Type) where
  | call (op : Op)
  | answer (op : Op) (result : Res)
  | fail (op : Op)
  deriving DecidableEq

structure State (σ Op Res T : Type) where
  object : σ
  phase : T → Phase Op Res := fun _ => .idle

variable [DecidableEq T]

/-- The state with another phase of one client. -/
def State.withPhase (a : State σ Op Res T) (t : T) (phase : Phase Op Res) : State σ Op Res T :=
  { a with phase := Function.update a.phase t phase }

/-- The steps, when `exec` is what a call does to the object and what it returns. -/
inductive Step (exec : σ → Op → σ × Res) (a : State σ Op Res T) :
    T × Action Op → State σ Op Res T → Prop where
  | call {t : T} (op : Op) (hidle : a.phase t = .idle) :
      Step exec a (t, .call op) (a.withPhase t (.called op))
  | commit {t : T} {op : Op} (hcalled : a.phase t = .called op) :
      Step exec a (t, .commit)
        { a.withPhase t (.done op (exec a.object op).2) with object := (exec a.object op).1 }
  | commitOrphaned {t : T} {op : Op} (horphaned : a.phase t = .orphaned op) :
      Step exec a (t, .commit) { a.withPhase t .idle with object := (exec a.object op).1 }
  | answer {t : T} {op : Op} {result : Res} (hdone : a.phase t = .done op result) :
      Step exec a (t, .answer) (a.withPhase t .idle)
  | fail {t : T} {op : Op} (hcalled : a.phase t = .called op) :
      Step exec a (t, .fail) (a.withPhase t (.orphaned op))
  | failDone {t : T} {op : Op} {result : Res} (hdone : a.phase t = .done op result) :
      Step exec a (t, .fail) (a.withPhase t .idle)
  | drop {t : T} {op : Op} (horphaned : a.phase t = .orphaned op) :
      Step exec a (t, .drop) (a.withPhase t .idle)

omit [DecidableEq T] in
/-- What is seen of a step. -/
def emits (a : State σ Op Res T) (label : T × Action Op) : List (T × Event Op Res) :=
  match label.2, a.phase label.1 with
  | .call op, _ => [(label.1, .call op)]
  | .answer, .done op result => [(label.1, .answer op result)]
  | .fail, .called op | .fail, .done op _ => [(label.1, .fail op)]
  | _, _ => []

variable {a : State σ Op Res T} {t u : T} {phase : Phase Op Res}

@[simp] theorem object_withPhase : (a.withPhase t phase).object = a.object := rfl

@[simp] theorem phase_withPhase_self : (a.withPhase t phase).phase t = phase :=
  Function.update_self ..

@[simp] theorem phase_withPhase_of_ne (h : u ≠ t) : (a.withPhase t phase).phase u = a.phase u :=
  Function.update_of_ne h ..

end AtomicObject
