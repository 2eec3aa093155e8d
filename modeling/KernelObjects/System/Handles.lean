import KernelObjects.System.Release

/-
# Making, finding and moving handles

Only an arena makes handles, and only closing a handle deletes it.  In between a handle has one
owner: whoever made it, or a table.  A table writes its process into the handles it takes in, and a
value counts in a table only if the handle behind it carries that process.
-/

namespace KernelObjects.System

/-! ## 1. Making handles -/

/-- Makes a handle to an object.  Fails if every slot of the arena is taken, which is counted, or if
a new slot is needed and there is no memory for it. -/
def makeHandle (s : System) (arena : ArenaId) (k : Koid) (rights : Rights) (mayGrow : Bool) :
    Outcome HandleId × System :=
  match s.arenas[arena]? with
  | none => (.error .noMemory, s)
  | some a =>
    if a.isFull then (.error .noMemory, s.bump .arenaExhausted)
    else if a.free.isEmpty && !mayGrow then (.error .noMemory, s)
    else
      let (h, s) := s.freshId
      let (base, a) := a.insert h
      let s := { s with
        arenas := s.arenas.insert arena a
        handles := s.handles.insert h { base, object := k, rights, arena }
        objects := s.objects.modify k fun o => { o with handles := o.handles + 1 } }
      (.ok h, s.retainAll [.object k, .handle h, .handle h])

/-- Turns a kernel handle into a handle.  The object is not told, unless no handle can be made:
then the kernel handle is dropped like any other.  Here and in duplications the list of slots can
always grow; `makeHandle` also says what happens if it cannot. -/
def makeFromKernel (s : System) (arena : ArenaId) (kernel : Option Koid) (rights : Rights) :
    Outcome HandleId × System :=
  match kernel with
  | none => (.error .invalidArgs, s)
  | some k =>
    match s.makeHandle arena k rights true with
    | (.ok h, s) => (.ok h, s.release (.object k))
    | (.error e, s) => (.error e, (s.zeroHandles k).release (.object k))

/-- Makes a second handle to the object of a handle, in the same arena, with rights as given. -/
def duplicateHandle (s : System) (h : HandleId) (rights : Rights) : Outcome HandleId × System :=
  match s.handles[h]? with
  | none => (.error .badHandle, s)
  | some r => s.makeHandle r.arena r.object rights true

/-- The handle of a value in an arena. -/
def findHandle (s : System) (arena : ArenaId) (value : Nat) : Option HandleId :=
  s.arenas[arena]?.bind fun a => a.find? value

/-- Drops the ownership of a handle. -/
def close (s : System) (h : HandleId) : System := s.settle [.close h]

/-- Writes a process into a handle. -/
def setProcess (s : System) (process : Nat) (h : HandleId) : System :=
  { s with handles := s.handles.modify h fun r => { r with process } }

/-! ## 2. Tables -/

/-- Opens an empty table for a process. -/
def openTable (s : System) (process : Nat) (arena : ArenaId) : TableId × System :=
  let (t, s) := s.freshId
  (t, { s with tables := s.tables.insert t { process, arena } })

/-- Changes what a table owns. -/
def setOwned (s : System) (t : TableId) (owned : Store HandleId) : System :=
  { s with tables := s.tables.modify t fun table => { table with owned } }

/-- Moves a handle into a table and gives the value that the process sees.  A handle that the table
owned under the same base value is closed. -/
def tableAdd (s : System) (t : TableId) (h : HandleId) : Nat × System :=
  match s.tables[t]?, s.handles[h]? with
  | some table, some r =>
    let s := (s.setProcess table.process h).setOwned t (table.owned.insert r.base h)
    (table.masked r.base,
      match table.owned[r.base]? with
      | none => s
      | some old => s.close old)
  | _, _ => (0, s)

/-- The handle behind a value of the process. -/
def tableGet (s : System) (t : TableId) (value : Nat) : Outcome HandleId :=
  match s.tables[t]? with
  | none => .error .badHandle
  | some table =>
    match s.findHandle table.arena (table.masked value) with
    | none => .error .badHandle
    | some h =>
      match s.handles[h]? with
      | none => .error .badHandle
      | some r => if r.process = table.process then .ok h else .error .badHandle

/-- Moves a handle out of a table.  It belongs to no process after that. -/
def tableRemove (s : System) (t : TableId) (value : Nat) : Outcome HandleId × System :=
  match s.tables[t]? with
  | none => (.error .badHandle, s)
  | some table =>
    let base := table.masked value
    match table.owned[base]? with
    | none => (.error .badHandle, s)
    | some h =>
      if s.handles[h]?.map Handle.process = some table.process then
        (.ok h, (s.setOwned t (table.owned.erase base)).setProcess noProcess h)
      else (.error .badHandle, s)

/-- The rights of a duplicate of a handle, if the handle may be duplicated. -/
def duplicateRights (held requested : Rights) : Outcome Rights :=
  match held.require .duplicate with
  | .error e => .error e
  | .ok _ => held.attenuate requested

/-- Duplicates a handle inside a table and gives the value of the duplicate.  The source is held
until that is done. -/
def tableDuplicate (s : System) (t : TableId) (value : Nat) (requested : Rights) :
    Outcome Nat × System :=
  match s.tableGet t value with
  | .error e => (.error e, s)
  | .ok h =>
    match s.handles[h]? with
    | none => (.error .badHandle, s)
    | some r =>
      match duplicateRights r.rights requested with
      | .error e => (.error e, s)
      | .ok rights =>
        match s.makeHandle r.arena r.object rights true with
        | (.error e, s) => (.error e, s)
        | (.ok d, s) =>
          let (seen, s) := (s.retain (.handle h)).tableAdd t d
          (.ok seen, s.release (.handle h))

/-- The object behind a value of the process and the rights to it, if the object is of the given
type and the rights suffice. -/
def tableGetTyped (s : System) (t : TableId) (value : Nat) (type : ObjectType)
    (required : Rights) : Outcome (Koid × Rights) :=
  match s.tableGet t value with
  | .error e => .error e
  | .ok h =>
    match s.handles[h]? with
    | none => .error .badHandle
    | some r =>
      if s.typeOf r.object ≠ type then .error .wrongType
      else match r.rights.require required with
        | .error e => .error e
        | .ok _ => .ok (r.object, r.rights)

/-- Closes every handle of a table in the order of their base values.  All of them leave the table
and their process before the first is closed.  Gives their number. -/
def tableClear (s : System) (t : TableId) : Nat × System :=
  match s.tables[t]? with
  | none => (0, s)
  | some table =>
    let owned := table.owned.values
    let s := owned.foldl (setProcess · noProcess ·) (s.setOwned t ∅)
    (owned.length, s.settle (owned.map Task.close))

/-- The number of handles in a table. -/
def tableCount (s : System) (t : TableId) : Nat := (s.tables[t]?.map fun u => u.owned.size).getD 0

end KernelObjects.System
