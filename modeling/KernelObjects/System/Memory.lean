import KernelObjects.System.Create
import KernelObjects.Memory.Propagation

/-
# Working with VM objects and mappings

Operations that change pages tell the mappings which parts of their windows to unmap, in the object
itself and in all clones that see the change.  Some operations are done under a lock that the caller
holds; the caller names the family whose lock that is, and an object of another family is not found
there.
-/

namespace KernelObjects.System

/-! ## 1. What is known of an object -/

/-- A number that the family keeps of an object, or zero. -/
def memberNat (s : System) (v : VmoId) (f : Member → Nat) : Nat := ((s.member v).map f).getD 0

/-- The size of a VM object in bytes. -/
def vmoSize (s : System) (v : VmoId) : Nat := s.memberNat v Member.size

/-- The koid that the object is stamped with, zero if none. -/
def userId (s : System) (v : VmoId) : Koid := s.memberNat v Member.userId

/-- The user id of the parent, or zero. -/
def parentUserId (s : System) (v : VmoId) : Koid :=
  match s.vmos[v]?.bind Vmo.parent with
  | none => 0
  | some p => s.userId p

/-- How many clones the list of an object has. -/
def cloneCount (s : System) (v : VmoId) : Nat := s.memberNat v fun m => m.clones.length

/-- How many pages of an object have memory. -/
def committedPages (s : System) (v : VmoId) : Nat := s.memberNat v fun m => m.committed.size

/-- How mappings of the object are cached. -/
def cachePolicy (s : System) (v : VmoId) : CachePolicy :=
  ((s.member v).map Member.cachePolicy).getD .cached

/-- The registered mappings of a VM object that are still there. -/
def liveMappings (s : System) (v : VmoId) : List Mapping :=
  match s.member v with
  | none => []
  | some m => m.mappings.filterMap fun i => s.mappings[i]?

/-- Whether some mapping lies in a user address space. -/
def isMappedByUser (s : System) (v : VmoId) : Bool :=
  (s.liveMappings v).any fun m => m.space.isUser

/-- The number of address spaces that map the object, at least one. -/
def shareCount (s : System) (v : VmoId) : Nat :=
  let live := s.liveMappings v
  if live.length < 2 then 1 else (live.map fun m => m.space.id).eraseDups.length

/-! ## 2. Mappings -/

/-- Opens an address space. -/
def openSpace (s : System) (isUser : Bool) : AddressSpace × System :=
  (⟨s.nextSpace, isUser⟩, { s with nextSpace := s.nextSpace + 1 })

/-- Makes a mapping and takes the first reference to it. -/
def createMapping (s : System) (space : AddressSpace) (object offset size : Nat) :
    MappingId × System :=
  let (m, s) := s.freshId
  let s := { s with mappings := s.mappings.insert m { space, object, offset, size } }
  (m, s.retain (.mapping m))

/-- Registers a mapping with a VM object. -/
def addMapping (s : System) (family : FamilyId) (v : VmoId) (m : MappingId) : System :=
  s.modifyMember family v fun o => { o with mappings := o.mappings ++ [m] }

/-- Forgets a mapping, and with it every one that is gone. -/
def removeMapping (s : System) (family : FamilyId) (v : VmoId) (m : MappingId) : System :=
  s.modifyMember family v fun o =>
    { o with mappings := o.mappings.filter fun i => s.mappings.contains i && i ≠ m }

/-- Unmaps a span of its object from a mapping; answers whether the mapping showed some of it. -/
def unmapSpan (s : System) (m : MappingId) (span : Span) : Bool × System :=
  ((s.mappings[m]?.map fun r => r.meets span).getD false,
    { s with mappings := s.mappings.modify m fun r => r.unmap span })

/-- Unmaps a span of a member of a family, widened to whole pages, from its mappings. -/
def unmapReach (family : Family) (s : System) (r : Reach) : System :=
  match family[r.vmo]? with
  | none => s
  | some o => o.mappings.foldl (fun s m => (s.unmapSpan m r.span.pageHull).2) s

/-- Tells the mappings of an object and of its clones that a range of the object changed.  This
stands for a loop that may have no end, and a call that does not return, where lists of clones
were written by hand (`ChangeEnds`); so do the calls below that tell of a range. -/
def rangeChanged (s : System) (family : FamilyId) (v : VmoId) (offset length : Nat) : System :=
  match s.families[family]? with
  | none => s
  | some f => (f.affected v (Span.ofLength offset length)).foldl (unmapReach f) s

/-! ## 3. Pages and size -/

/-- Gives memory to the pages that a range touches. -/
def commitRange (s : System) (v : VmoId) (offset length : Nat) : Outcome Unit × System :=
  match s.member v with
  | none => (.error .badState, s)
  | some m =>
    match m.commit offset length with
    | .error e => (.error e, s)
    | .ok m => (.ok (), s.modifyMember (s.familyOf v) v fun _ => m)

/-- Takes the memory from the pages that a range touches, and tells of the range.  A clone has no
pages of its own to give back. -/
def decommitRange (s : System) (v : VmoId) (offset length : Nat) : Outcome Unit × System :=
  if (s.vmos[v]?.bind Vmo.parent).isSome then (.error .notSupported, s)
  else match s.member v with
    | none => (.error .badState, s)
    | some m =>
      match m.decommit offset length with
      | .error e => (.error e, s)
      | .ok m =>
        let family := s.familyOf v
        (.ok (), (s.modifyMember family v fun _ => m).rangeChanged family v offset length)

/-- Changes the size of an object, rounded up to pages.  What lies past a new end is told of, and so
unmapped. -/
def resize (s : System) (v : VmoId) (size : Nat) : Outcome Unit × System :=
  if !(s.vmos[v]?.map Vmo.isResizable).getD false then (.error .notSupported, s)
  else match Page.ceil? size with
    | none => (.error .outOfRange, s)
    | some size =>
      match s.member v with
      | none => (.error .badState, s)
      | some m =>
        let family := s.familyOf v
        let s := s.modifyMember family v fun m => m.resize size
        (.ok (), if size < m.size then s.rangeChanged family v size (m.size - size) else s)

/-! ## 4. Caches -/

/-- Maintains the caches for a range.  Caches are coherent here, so only the range is checked. -/
def maintainCache (s : System) (v : VmoId) (offset length : Nat) : Outcome Unit :=
  match s.member v with
  | none => if length = 0 then .error .invalidArgs else .error .outOfRange
  | some m => m.checkCacheRange offset length

/-- Chooses how later mappings are cached.  Only an object that has no parent, no pages, no mapping
and no clone may change that. -/
def setCachePolicy (s : System) (v : VmoId) (raw : Nat) : Outcome Unit × System :=
  match CachePolicy.ofRaw? raw with
  | none => (.error .invalidArgs, s)
  | some policy =>
    if (s.vmos[v]?.bind Vmo.parent).isSome then (.error .badState, s)
    else match s.member v with
      | none => (.error .badState, s)
      | some m =>
        if !m.committed.isEmpty || !(s.liveMappings v).isEmpty || !m.clones.isEmpty then
          (.error .badState, s)
        else
          (.ok (), s.modifyMember (s.familyOf v) v fun m => { m with cachePolicy := policy })

/-! ## 5. Listeners and the list of all -/

/-- Makes a listener and takes the reference that keeps it there. -/
def createListener (s : System) (label : String) : ListenerId × System :=
  let (o, s) := s.freshId
  (o, { s with listeners := s.listeners.insert o label }.retain (.listener o))

/-- The VM objects on the list of all, oldest first: ids only grow. -/
def liveVmos (s : System) : List VmoId := s.vmoList.keys

/-- The VM objects on the list of all that are still there. -/
def vmosToVisit (s : System) : List VmoId := s.liveVmos.filter fun v => s.vmos.contains v

/-- Visits VM objects in turn; answers whether the walk goes on. -/
def visitVmos {σ : Type} (f : VmoId → System → σ → Bool × System × σ) :
    List VmoId → System → σ → Bool × System × σ
  | [], s, own => (true, s, own)
  | v :: vs, s, own =>
    match f v s own with
    | (true, s, own) => visitVmos f vs s own
    | (false, s, own) => (false, s, own)

/-- Visits every VM object that is alive now, oldest first, and holds all of them until it is done.
A visit may change the system and may stop the walk.  The objects are listed beforehand; `enough`
says for which lengths of the list there is memory. -/
def eachVmo {σ : Type} (s : System) (enough : Nat → Bool)
    (f : VmoId → System → σ → Bool × System × σ) (own : σ) : Outcome Bool × System × σ :=
  if enough s.vmoList.size then
    let live := s.vmosToVisit
    let (finished, s, own) := visitVmos f live (s.retainAll (live.map .vmo)) own
    (.ok finished, s.releaseAll (live.map .vmo), own)
  else (.error .noMemory, s, own)

end KernelObjects.System
