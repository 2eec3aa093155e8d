import KernelObjects.Script.Session

/-
# Commands on arenas, handles and tables

A command that names no arena uses the shared one, which comes into being on its first use.
-/

namespace KernelObjects.Script

open Session (Numeral)

/-- A command on arenas or handles. -/
inductive HandleCommand where
  | newArena (capacity : Nat) (name : Option String)
  | arenaInfo (arena : Option String)
  | make (object : String) (rights : Rights) (arena name : Option String) (noGrowth : Bool)
  /-- Turns a kernel handle into a handle; the kernel handle is used up even if that fails. -/
  | makeFromKernel (kernel : String) (rights : Rights) (arena name : Option String)
  | duplicate (handle : String) (rights : Rights) (name : Option String)
  | find (value : Numeral) (arena name : Option String)
  | info (handle : String)
  | hasRights (handle : String) (rights : Rights)
  | setProcess (handle : String) (process : Nat)
  /-- Makes and closes a handle a number of times. -/
  | churn (object : String) (rights : Rights) (times : Nat) (arena : Option String)

/-- A command on tables. -/
inductive TableCommand where
  | new (process : Nat) (arena name : Option String)
  | info (table : String)
  | mask (table handle : String)
  | add (table owner : String) (name : Option String)
  | get (table : String) (value : Numeral) (name : Option String)
  | remove (table : String) (value : Numeral) (name : Option String)
  | duplicate (table : String) (value : Numeral) (rights : Rights) (name : Option String)
  | getTyped (table : String) (value : Numeral) (rights : Rights) (type : ObjectType)
      (name : Option String)
  | clear (table : String)

/-- The base value of a handle. -/
def baseOf (t : System) (h : HandleId) : Nat := (t.handles[h]?.map Handle.base).getD 0

namespace HandleCommand

/-- Makes and closes a handle a number of times; gives the last value. -/
def repeatedly (arena : ArenaId) (k : Koid) (rights : Rights) :
    Nat → Nat → System → Outcome Nat × System
  | 0, last, t => (.ok last, t)
  | n + 1, _, t =>
    match t.makeHandle arena k rights true with
    | (.error e, t) => (.error e, t)
    | (.ok h, t) => repeatedly arena k rights n (baseOf t h) (t.close h)

def run (c : HandleCommand) (s : Session) : Session × Reply :=
  match c with
  | newArena capacity name =>
    let (a, t) := s.system.freshId
    let arena := Arena.ofCapacity capacity
    let t := { t with arenas := t.arenas.insert a arena }
    (({ s with system := t } : Session).keep name (.arena a), .number arena.capacity)
  | arenaInfo arena =>
    s.given (s.arena arena) fun a =>
      let s := s.openArena a
      (s, (s.system.arenaInfo a).elim .done .arena)
  | make object rights arena name noGrowth =>
    s.given (s.object object) fun k => s.given (s.arena arena) fun a =>
      (s.openArena a).holding [.object k] fun s =>
        s.attemptKeeping (fun t => t.makeHandle a k rights (!noGrowth)) name .owner
          fun t h => .number (baseOf t h)
  | makeFromKernel kernel rights arena name =>
    s.given (s.arena arena) fun a => s.given (s.kernel kernel) fun (_, held) =>
      ((s.forget kernel).openArena a).attemptKeeping
        (fun t => t.makeFromKernel a held rights) name .owner fun t h => .number (baseOf t h)
  | duplicate handle rights name =>
    s.given (s.handle handle) fun h => s.holding [.handle h] fun s =>
      s.attemptKeeping (fun t => t.duplicateHandle h rights) name .owner
        fun t h => .number (baseOf t h)
  | find value arena name =>
    s.given (s.value value) fun v => s.given (s.arena arena) fun a =>
      let s := s.openArena a
      match s.system.findHandle a v with
      | none => (s, .perhaps none)
      | some h =>
        let koid := s.system.handles[h]?.map Handle.object
        ((s.act fun t => t.retain (.handle h)).keep name (.handle h), .perhaps koid)
  | info handle =>
    s.given (s.handle handle) fun h =>
      (s, (s.system.handleInfo h (s.owner handle).toBool).elim .done .handle)
  | hasRights handle rights =>
    s.given (s.handle handle) fun h =>
      (s, .flag ((s.system.handles[h]?.map fun r => r.hasRights rights).getD false))
  | setProcess handle process =>
    s.given (s.handle handle) fun h => (s.act fun t => t.setProcess process h, .done)
  | churn object rights times arena =>
    s.given (s.arena arena) fun a => s.given (s.object object) fun k =>
      (s.openArena a).holding [.object k] fun s =>
        s.attempt (repeatedly a k rights times 0) .number

end HandleCommand

namespace TableCommand

/-- Describes a handle that was found. -/
def foundReply (t : System) (h : HandleId) : Reply :=
  match t.handles[h]? with
  | none => .done
  | some r => .found r.object r.rights r.process

/-- Describes a handle that left its table. -/
def removedReply (t : System) (h : HandleId) : Reply :=
  match t.handles[h]? with
  | none => .done
  | some r => .removed r.base r.process

def run (c : TableCommand) (s : Session) : Session × Reply :=
  match c with
  | new process arena name =>
    s.given (s.arena arena) fun a =>
      let s := s.openArena a
      let (t, system) := s.system.openTable process a
      (({ s with system } : Session).keep name (.table t), .done)
  | info table =>
    s.given (s.table table) fun (t, _) =>
      (s, .table ((s.system.tables[t]?.map Table.process).getD 0) (s.system.tableCount t))
  | mask table handle =>
    s.given (s.table table) fun (t, _) => s.given (s.handle handle) fun h =>
      (s, .number ((s.system.tables[t]?.map fun u => u.masked (baseOf s.system h)).getD 0))
  | add table owner name =>
    s.given (s.table table) fun (t, refs) => s.given (s.owner owner) fun h =>
      (s.forget owner).holding refs fun s =>
        let (v, system) := s.system.tableAdd t h
        (({ s with system } : Session).keep name (.value v), .number v)
  | get table value name =>
    s.given (s.table table) fun (t, refs) => s.given (s.value value) fun v =>
      s.holding refs fun s =>
        match s.system.tableGet t v with
        | .error e => (s, .refused e)
        | .ok h =>
          ((s.act fun u => u.retain (.handle h)).keep name (.handle h), foundReply s.system h)
  | remove table value name =>
    s.given (s.table table) fun (t, refs) => s.given (s.value value) fun v =>
      s.holding refs fun s =>
        s.attemptKeeping (fun u => u.tableRemove t v) name .owner removedReply
  | duplicate table value rights name =>
    s.given (s.table table) fun (t, refs) => s.given (s.value value) fun v =>
      s.holding refs fun s =>
        s.attemptKeeping (fun u => u.tableDuplicate t v rights) name .value fun _ w => .number w
  | getTyped table value rights type name =>
    s.given (s.table table) fun (t, refs) => s.given (s.value value) fun v =>
      s.holding refs fun s =>
        match s.system.tableGetTyped t v type rights with
        | .error e => (s, .refused e)
        | .ok (k, held) =>
          ((s.act fun u => u.retain (.object k)).keep name (.object k),
            .number held.bits.toNat)
  | clear table =>
    s.given (s.table table) fun (t, refs) => s.holding refs fun s =>
      let (n, system) := s.system.tableClear t
      ({ s with system }, .number n)

end TableCommand

end KernelObjects.Script
