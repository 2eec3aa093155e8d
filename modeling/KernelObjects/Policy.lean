import KernelObjects.Refusal

/-
# Job policy

A policy says what happens when a process meets one of fourteen conditions, and how much slack its
timers have.  An action that was set explicitly stays: a later request in relative mode is skipped
where it conflicts, and in absolute mode it fails as a whole.  A request is checked to its end
before anything of it is kept.
-/

namespace KernelObjects

/-! ## 1. Conditions, actions and modes -/

/-- What a process may run into. -/
inductive Condition where
  | badHandle | wrongObject | vmarWx
  /-- In a request: every condition on the creation of an object, this one included. -/
  | newAny
  | newVmo | newChannel | newEvent | newEventPair | newPort | newSocket | newFifo | newTimer
  | newProcess | newProfile
  deriving DecidableEq, Repr

namespace Condition

/-- All conditions, in the order of their numbers. -/
def all : List Condition :=
  [badHandle, wrongObject, vmarWx, newAny, newVmo, newChannel, newEvent, newEventPair, newPort,
    newSocket, newFifo, newTimer, newProcess, newProfile]

/-- The condition's number. -/
def raw : Condition → Nat
  | badHandle => 0
  | wrongObject => 1
  | vmarWx => 2
  | newAny => 3
  | newVmo => 4
  | newChannel => 5
  | newEvent => 6
  | newEventPair => 7
  | newPort => 8
  | newSocket => 9
  | newFifo => 10
  | newTimer => 11
  | newProcess => 12
  | newProfile => 13

/-- Conditions are numbered in the order of `all`. -/
def ofRaw? (n : Nat) : Option Condition := all[n]?

/-- Whether this is one of the conditions on the creation of an object. -/
def isNewObject (c : Condition) : Bool := newAny.raw ≤ c.raw

theorem ofRaw?_raw (c : Condition) : ofRaw? c.raw = some c := by cases c <;> rfl

/-- The conditions that a request for this one covers. -/
def covered : Condition → List Condition
  | newAny => all.filter isNewObject
  | c => [c]

end Condition

/-- What happens when a condition is met. -/
inductive Action where
  | allow | deny | allowException | denyException | kill
  deriving DecidableEq, Repr

namespace Action

def all : List Action := [allow, deny, allowException, denyException, kill]

/-- The action's number. -/
def raw : Action → Nat
  | allow => 0
  | deny => 1
  | allowException => 2
  | denyException => 3
  | kill => 4

/-- Actions are numbered in the order of `all`. -/
def ofRaw? (n : Nat) : Option Action := all[n]?

theorem ofRaw?_raw (a : Action) : ofRaw? a.raw = some a := by cases a <;> rfl

/-- Whether the guarded operation goes ahead. -/
def isAllowed : Action → Bool
  | allow | allowException => true
  | _ => false

/-- Whether the process is told by an exception. -/
def raisesException : Action → Bool
  | allowException | denyException => true
  | _ => false

end Action

/-- How a request treats conditions that were set before. -/
inductive PolicyMode where
  /-- Conflicting entries are skipped. -/
  | relative
  /-- A conflict fails the request. -/
  | absolute
  deriving DecidableEq, Repr

namespace PolicyMode

def raw : PolicyMode → Nat
  | relative => 0
  | absolute => 1

def ofRaw? : Nat → Option PolicyMode
  | 0 => some relative
  | 1 => some absolute
  | _ => none

end PolicyMode

/-- Where a timer may fire within its slack. -/
inductive SlackMode where
  | center | early | late
  deriving DecidableEq, Repr

namespace SlackMode

def raw : SlackMode → Nat
  | center => 0
  | early => 1
  | late => 2

def ofRaw? : Nat → Option SlackMode
  | 0 => some center
  | 1 => some early
  | 2 => some late
  | _ => none

end SlackMode

/-- The slack of timers: an amount in nanoseconds and a place within it. -/
structure Slack where
  amount : Int := 0
  mode : SlackMode := .center
  deriving DecidableEq, Repr

/-! ## 2. Policies and requests -/

/-- One entry of a request, in numbers that may name nothing. -/
structure PolicyEntry where
  condition : Nat
  action : Nat
  deriving DecidableEq, Repr

/-- The entry that asks for an action on a condition. -/
def PolicyEntry.of (c : Condition) (a : Action) : PolicyEntry := ⟨c.raw, a.raw⟩

/-- The policy of a job, copied into its children. -/
structure Policy where
  /-- The action that was set explicitly on a condition, if one was. -/
  rule : Condition → Option Action
  slack : Slack

namespace Policy

/-- Everything is allowed, nothing was set, and timers have no slack. -/
def initial : Policy := ⟨fun _ => none, {}⟩

/-- The action on a condition; what was never set is allowed. -/
def action (p : Policy) (c : Condition) : Action := (p.rule c).getD .allow

/-- Whether a request has set the action of a condition, even if to the default. -/
def isExplicit (p : Policy) (c : Condition) : Bool := (p.rule c).isSome

/-- Sets the action on a condition, whatever was there. -/
def set (p : Policy) (c : Condition) (a : Action) : Policy :=
  { p with rule := fun d => if d = c then some a else p.rule d }

/-- Sets one condition as far as its earlier action and the mode allow. -/
def request (mode : PolicyMode) (p : Policy) (c : Condition) (a : Action) : Outcome Policy :=
  match p.rule c with
  | none => .ok (p.set c a)
  | some b =>
    if b = a then .ok p
    else match mode with
      | .absolute => .error .alreadyExists
      | .relative => .ok p

/-- Sets a list of conditions to one action. -/
def requestAll (mode : PolicyMode) (a : Action) : List Condition → Policy → Outcome Policy
  | [], p => .ok p
  | c :: cs, p => (p.request mode c a).bind (requestAll mode a cs)

/-- One entry of a request: the condition is looked up before the action. -/
def applyEntry (mode : PolicyMode) (p : Policy) (e : PolicyEntry) : Outcome Policy :=
  match Condition.ofRaw? e.condition with
  | none => .error .invalidArgs
  | some c =>
    match Action.ofRaw? e.action with
    | none => .error .notSupported
    | some a => requestAll mode a c.covered p

/-- The entries of a request, one after the other, up to the first that fails. -/
def applyEntries (mode : PolicyMode) : List PolicyEntry → Policy → Outcome Policy
  | [], p => .ok p
  | e :: es, p => (p.applyEntry mode e).bind (applyEntries mode es)

/-- A whole request: refused when it is empty or names no mode, else its entries in turn. -/
def amend (p : Policy) (mode : Nat) (entries : List PolicyEntry) : Outcome Policy :=
  if entries.isEmpty then .error .invalidArgs
  else match PolicyMode.ofRaw? mode with
    | none => .error .invalidArgs
    | some m => applyEntries m entries p

/-- Asks for more timer slack: the amount never shrinks and the mode is replaced. -/
def widenSlack (p : Policy) (amount : Int) (mode : Nat) : Outcome Policy :=
  if amount < 0 then .error .invalidArgs
  else match SlackMode.ofRaw? mode with
    | none => .error .invalidArgs
    | some m => .ok { p with slack := ⟨max p.slack.amount amount, m⟩ }

@[simp] theorem rule_set (p : Policy) (c d : Condition) (a : Action) :
    (p.set c a).rule d = if d = c then some a else p.rule d := rfl

end Policy

end KernelObjects
