import KernelObjects.Name
import KernelObjects.Reference
import KernelObjects.Memory.Span

/-
# VM objects and their families

A VM object is a range of memory that can be mapped, or a copy-on-write clone of a window of
another one.  What never changes about an object, its name and its watcher stand in its own record
(`Vmo`).  All that changes under the lock which an object shares with its clones, its clones'
clones and so on stands in the record of the *family* (`Member`), under the object's id: a caller
that holds the lock of another family finds nothing there.
-/

namespace KernelObjects

/-! ## 1. Cache policies -/

/-- How mappings of a VM object are cached. -/
inductive CachePolicy where
  | cached | uncached | uncachedDevice | writeCombining
  deriving DecidableEq, Repr

namespace CachePolicy

def raw : CachePolicy → Nat
  | cached => 0
  | uncached => 1
  | uncachedDevice => 2
  | writeCombining => 3

def ofRaw? : Nat → Option CachePolicy
  | 0 => some cached
  | 1 => some uncached
  | 2 => some uncachedDevice
  | 3 => some writeCombining
  | _ => none

end CachePolicy

/-! ## 2. Members of a family -/

/-- The identity of a family. -/
abbrev FamilyId := Nat

/-- What a family keeps of one of its members. -/
structure Member where
  /-- The koid of the view that claimed the object, or zero. -/
  userId : Koid := 0
  /-- The number of bytes, a whole number of pages. -/
  size : Nat
  /-- Where the object's window into its parent starts. -/
  parentOffset : Nat
  /-- The recorded clones. -/
  clones : List VmoId := []
  /-- The mappings that were registered, also those that are gone. -/
  mappings : List MappingId := []
  /-- The pages that have memory. -/
  committed : PageSet := ∅
  cachePolicy : CachePolicy := .cached

/-- The members of a family by id. -/
abbrev Family := Store Member

namespace Member

/-- The window of the parent that the object is a clone of. -/
def window (m : Member) : Span := Span.ofLength m.parentOffset m.size

/-- Gives memory to the pages that a range touches. -/
def commit (m : Member) (offset length : Nat) : Outcome Member :=
  (Page.covering m.size offset length).map fun pages =>
    { m with committed := m.committed.insertFrom pages.1 pages.2 }

/-- Takes the memory from the pages that a range touches. -/
def decommit (m : Member) (offset length : Nat) : Outcome Member :=
  (Page.covering m.size offset length).map fun pages =>
    { m with committed := m.committed.eraseFrom pages.1 pages.2 }

/-- Changes the size; pages past a new end lose their memory. -/
def resize (m : Member) (size : Nat) : Member :=
  if size < m.size then
    { m with size := size, committed := m.committed.below (size / Page.size) }
  else { m with size := size }

/-- Cache maintenance needs a range that is not empty and lies inside the object. -/
def checkCacheRange (m : Member) (offset length : Nat) : Outcome Unit :=
  if length = 0 then .error .invalidArgs
  else match Word.add? offset length with
    | none => .error .outOfRange
    | some stop => if stop ≤ m.size then .ok () else .error .outOfRange

/-- A list without one entry, whose place the last entry takes; `none` if it was not listed. -/
def removeSwapping (xs : List VmoId) (x : VmoId) : Option (List VmoId) :=
  (xs.idxOf? x).map fun i => (xs.set i (xs.getLastD x)).dropLast

/-- Forgets a clone; `none` if it was not recorded. -/
def forgetClone (m : Member) (clone : VmoId) : Option Member :=
  (removeSwapping m.clones clone).map fun rest => { m with clones := rest }

end Member

/-! ## 3. VM objects -/

/-- Who is told when an object gets its first clone or loses its last one. -/
inductive Watcher where
  /-- The view of the object. -/
  | view (koid : Koid)
  /-- A listener of somebody else. -/
  | listener (id : ListenerId)
  deriving DecidableEq, Repr

/-- A VM object, apart from what its family keeps of it. -/
structure Vmo where
  family : FamilyId
  /-- The object that this one is a clone of. -/
  parent : Option VmoId
  /-- Option bits, kept as they were given. -/
  options : BitVec 32
  name : Name
  watcher : Option Watcher := none

namespace Vmo

/-- The option bit that lets the size change. -/
def resizableBit : BitVec 32 := 2

/-- Whether the object may change its size, which is settled when it is created. -/
def isResizable (v : Vmo) : Bool := v.options &&& resizableBit = resizableBit

/-- Whether the object was made by cloning; clones have a parent for as long as they are there. -/
def isClone (v : Vmo) : Bool := v.parent.isSome

end Vmo

/-- What is asked of a new clone: the window into the parent and a few traits. -/
structure CloneRequest where
  resizable : Bool
  offset : Nat
  size : Nat
  copyName : Bool
  deriving DecidableEq, Repr

end KernelObjects
