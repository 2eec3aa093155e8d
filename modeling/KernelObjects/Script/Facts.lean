import KernelObjects.Script.Session

/-
# Commands that look at rules, limits and counters

Most of these touch nothing; reading the configuration settles it, and taking a koid uses it up.
-/

namespace KernelObjects.Script

/-- A set of numbers that stand for something. -/
inductive RawKind where
  | objectType | condition | action | policyMode | slackMode | rangeOp | cachePolicy
  deriving DecidableEq, Repr

/-- A command that looks at rules, limits or counters. -/
inductive FactCommand where
  | require (held required : Rights)
  | attenuate (held requested : Rights)
  | raw (kind : RawKind) (n : Nat)
  | status (e : Refusal)
  | constants
  | page (offset : Nat)
  | freshKoid
  | validateConfig (c : Config)
  | installConfig (c : Config)
  | config
  | defaultConfig
  | newCounter (name : Option String)
  | addCounter (ref : String) (delta : Nat)
  | counters

namespace FactCommand

/-- What a number stands for. -/
def meaning (kind : RawKind) (n : Nat) : Reply :=
  match kind with
  | .objectType => .objectType (ObjectType.ofRaw n)
  | .condition => (Condition.ofRaw? n).elim (.perhaps none) .condition
  | .action => (Action.ofRaw? n).elim (.perhaps none) .action
  | .policyMode => .perhaps ((PolicyMode.ofRaw? n).map PolicyMode.raw)
  | .slackMode => .perhaps ((SlackMode.ofRaw? n).map SlackMode.raw)
  | .rangeOp => .perhaps ((RangeOp.ofRaw? n).map RangeOp.raw)
  | .cachePolicy => .perhaps ((CachePolicy.ofRaw? n).map CachePolicy.raw)

/-- The name of the counters that scripts make. -/
def counterName : String := "test.counter"

def run (c : FactCommand) (s : Session) : Session × Reply :=
  match c with
  | require held required => (s, .ofUnit (held.require required))
  | attenuate held requested =>
    (s, .ofOutcome (fun r => .number r.bits.toNat) (held.attenuate requested))
  | raw kind n => (s, meaning kind n)
  | status e => (s, .status e)
  | constants => (s, .constants)
  | page offset => (s, .page (Page.floor offset) (Page.ceil? offset))
  | freshKoid =>
    let (k, t) := s.system.freshKoid
    ({ s with system := t }, .number k)
  | validateConfig c => (s, .ofUnit c.validate)
  | installConfig c => s.attempt (fun t => t.installConfig c) fun _ => .done
  | config =>
    let (c, t) := s.system.settledConfig
    ({ s with system := t }, .config c)
  | defaultConfig => (s, .config {})
  | newCounter name => (s.keep name (.counter (Counter.fresh counterName)), .done)
  | addCounter ref delta =>
    s.given (s.counter ref) fun c =>
      let c := c.add delta
      (s.rebind ref (.counter c), .counter c)
  | counters => (s, .counters s.system.counters)

end FactCommand

end KernelObjects.Script
