import KernelObjects.System.State

/-
# Families of VM objects in the state

Reading and changing what a family keeps of its members.  Every access names the family: whoever
holds the lock of a family can reach its members and no others.
-/

namespace KernelObjects.System

/-- What a family keeps of one of its members. -/
def memberIn (s : System) (family : FamilyId) (v : VmoId) : Option Member :=
  s.families[family]?.bind fun f => f[v]?

/-- The family of a VM object. -/
def familyOf (s : System) (v : VmoId) : FamilyId := (s.vmos[v]?.map Vmo.family).getD 0

/-- What the family of a VM object keeps of it. -/
def member (s : System) (v : VmoId) : Option Member :=
  s.vmos[v]?.bind fun o => s.memberIn o.family v

/-- Changes what a family keeps of a member. -/
def modifyMember (s : System) (family : FamilyId) (v : VmoId) (f : Member → Member) : System :=
  { s with families := s.families.modify family fun g => g.modify v f }

/-- Changes the own record of a VM object. -/
def modifyVmo (s : System) (v : VmoId) (f : Vmo → Vmo) : System :=
  { s with vmos := s.vmos.modify v f }

/-- Records a clone of a member of a family; gives the number of clones after that, or zero if the
family does not know the object. -/
def recordClone (s : System) (family : FamilyId) (v clone : VmoId) : Nat × System :=
  match s.memberIn family v with
  | none => (0, s)
  | some m =>
    (m.clones.length + 1,
      s.modifyMember family v fun m => { m with clones := m.clones ++ [clone] })

/-- Stamps an object with a user id, which may be done once. -/
def setUserId (s : System) (v : VmoId) (id : Koid) : Outcome Unit × System :=
  match s.member v with
  | none => (.error .badState, s)
  | some m =>
    if m.userId = 0 then
      (.ok (), s.modifyMember (s.familyOf v) v fun m => { m with userId := id })
    else (.error .badState, s)

/-- Puts a watcher in the place of the earlier one. -/
def setWatcher (s : System) (v : VmoId) (watcher : Option Watcher) : System :=
  s.modifyVmo v fun o => { o with watcher }

end KernelObjects.System
