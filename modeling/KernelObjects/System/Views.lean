import KernelObjects.System.Memory

/-
# Views: VM objects as seen through handles

A view checks option bits, operation numbers and rights before it asks its VM object to act.
-/

namespace KernelObjects

/-- An operation on a range of a VM object, by number. -/
inductive RangeOp where
  | commit | decommit | lock | unlock | cacheSync | cacheInvalidate | cacheClean
  | cacheCleanInvalidate
  deriving DecidableEq, Repr

namespace RangeOp

def raw : RangeOp → Nat
  | commit => 1
  | decommit => 2
  | lock => 3
  | unlock => 4
  | cacheSync => 6
  | cacheInvalidate => 7
  | cacheClean => 8
  | cacheCleanInvalidate => 9

def all : List RangeOp :=
  [commit, decommit, lock, unlock, cacheSync, cacheInvalidate, cacheClean, cacheCleanInvalidate]

/-- Operations are numbered with gaps, so the number is looked up in the list of all. -/
def ofRaw? (n : Nat) : Option RangeOp := all.find? fun op => op.raw = n

/-- The right that the operation needs.  Invalidating a cache may lose writes, so it counts as a
write; locking is not offered at all. -/
def needed : RangeOp → Option Rights
  | commit | decommit | cacheInvalidate => some .write
  | cacheSync | cacheClean | cacheCleanInvalidate => some .read
  | lock | unlock => none

end RangeOp

/-- The option bit that asks for a copy-on-write child. -/
def copyOnWriteBit : BitVec 32 := 1

/-- The option bit that asks for a child of fixed size. -/
def fixedSizeBit : BitVec 32 := 4

/-- Whether a child of the given options is resizable.  The options have to ask for copy-on-write
and may ask for a fixed size; no other bit may be set. -/
def childIsResizable (options : BitVec 32) : Outcome Bool :=
  if options &&& copyOnWriteBit = 0 then .error .invalidArgs
  else if options &&& ~~~ (copyOnWriteBit ||| fixedSizeBit) ≠ 0 then .error .invalidArgs
  else .ok (options &&& fixedSizeBit = 0)

namespace System

/-- Creates a copy-on-write child of a VM object for its view. -/
def createChild (s : System) (v : VmoId) (options : BitVec 32) (offset size : Nat)
    (copyName : Bool) : Outcome VmoId × System :=
  match childIsResizable options with
  | .error e => (.error e, s)
  | .ok resizable => s.cloneVmo v { resizable, offset, size, copyName }

/-- Does an operation on a range, whose right has been checked. -/
def performRangeOp (s : System) (v : VmoId) (op : RangeOp) (offset length : Nat) :
    Outcome Unit × System :=
  match op with
  | .commit => s.commitRange v offset length
  | .decommit => s.decommitRange v offset length
  | .lock | .unlock => (.error .notSupported, s)
  | .cacheSync | .cacheInvalidate | .cacheClean | .cacheCleanInvalidate =>
    (s.maintainCache v offset length, s)

/-- Does the operation of a number on a range for a holder of the given rights. -/
def rangeOp (s : System) (v : VmoId) (raw offset length : Nat) (rights : Rights) :
    Outcome Unit × System :=
  match RangeOp.ofRaw? raw with
  | none => (.error .invalidArgs, s)
  | some op =>
    match op.needed with
    | none => s.performRangeOp v op offset length
    | some needed =>
      match rights.require needed with
      | .error e => (.error e, s)
      | .ok _ => s.performRangeOp v op offset length

end System

end KernelObjects
