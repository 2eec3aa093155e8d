import KernelObjects.Script.Session

/-
# Commands on VM objects, mappings and views

Commands that are done under a lock name a *guard*, the object whose family's lock is taken; without
one it is the object itself.
-/

namespace KernelObjects.Script

/-- A command on VM objects. -/
inductive VmoCommand where
  | create (size : Nat) (options : BitVec 32) (name : Option String)
  | clone (vmo : String) (ask : CloneRequest) (name : Option String)
  /-- Clones a number of times, each time the last clone; only its own clone holds each. -/
  | cloneChain (vmo : String) (times size : Nat) (name : Option String)
  | info (vmo : String)
  | resize (vmo : String) (size : Nat)
  | commit (vmo : String) (offset length : Nat)
  | decommit (vmo : String) (offset length : Nat)
  | maintainCache (vmo : String) (offset length : Nat)
  | setCachePolicy (vmo : String) (raw : Nat)
  | setUserId (vmo : String) (id : Koid)
  /-- Makes a listener watch the object; without a name for it, nobody watches any more. -/
  | observe (vmo label : String) (name : Option String)
  | recordClone (vmo child : String) (guard : Option String)
  | forgetClone (vmo : String) (id : VmoId)

/-- A command on address spaces and mappings. -/
inductive MappingCommand where
  | newSpace (isUser : Bool) (name : Option String)
  | new (space : String) (object offset size : Nat) (name : Option String)
  | info (mapping : String)
  | add (vmo mapping : String) (guard : Option String)
  | remove (vmo mapping : String) (guard : Option String)
  | unmap (mapping : String) (offset length : Nat)
  | rangeChanged (vmo : String) (offset length : Nat) (guard : Option String)

/-- A command on views. -/
inductive ViewCommand where
  | create (vmo : String) (kernelName name : Option String)
  | child (view : String) (options : BitVec 32) (offset size : Nat) (copyName : Bool)
      (name : Option String)
  | rangeOp (view : String) (op offset length : Nat) (rights : Rights)
  | info (view : String) (rights : Rights)

/-- The family whose lock is taken. -/
def guardFamily (s : Session) (vmo : VmoId) : Option String → Session.Found FamilyId
  | none => .ok (s.system.familyOf vmo)
  | some name => (s.vmo name).map s.system.familyOf

/-- The VM object of a view. -/
def viewed (t : System) (k : Koid) : VmoId := (t.views[k]?.map View.vmo).getD 0

namespace VmoCommand

/-- Clones the last clone a number of times, giving back each one once it is cloned. -/
def chain (size : Nat) : Nat → VmoId → System → Outcome VmoId × System
  | 0, v, t => (.ok v, t)
  | n + 1, v, t =>
    match t.cloneVmo v { resizable := false, offset := 0, size, copyName := false } with
    | (.error e, t) => (.error e, t.release (.vmo v))
    | (.ok c, t) => chain size n c (t.release (.vmo v))

/-- Runs a change of a VM object and answers with the number of committed pages. -/
def pagesAfter (s : Session) (v : VmoId) (f : System → Outcome Unit × System) : Session × Reply :=
  match f s.system with
  | (.error e, t) => ({ s with system := t }, .refused e)
  | (.ok _, t) => ({ s with system := t }, .number (t.committedPages v))

def run (c : VmoCommand) (s : Session) : Session × Reply :=
  match c with
  | create size options name =>
    s.attemptKeeping (fun t => t.createVmo size options) name .vmo fun _ v => .number v
  | clone vmo ask name =>
    s.given (s.vmo vmo) fun v => s.holding [.vmo v] fun s =>
      s.attemptKeeping (fun t => t.cloneVmo v ask) name .vmo fun _ c => .number c
  | cloneChain vmo times size name =>
    s.given (s.vmo vmo) fun v => s.holding [.vmo v] fun s =>
      s.attemptKeeping (fun t => chain size times v (t.retain (.vmo v))) name .vmo
        fun _ c => .number c
  | info vmo => s.given (s.vmo vmo) fun v => (s, (s.system.vmoInfo v).elim .done .vmo)
  | resize vmo size =>
    s.given (s.vmo vmo) fun v =>
      match s.system.resize v size with
      | (.error e, t) => ({ s with system := t }, .refused e)
      | (.ok _, t) => ({ s with system := t }, .number (t.vmoSize v))
  | commit vmo offset length =>
    s.given (s.vmo vmo) fun v => pagesAfter s v fun t => t.commitRange v offset length
  | decommit vmo offset length =>
    s.given (s.vmo vmo) fun v => pagesAfter s v fun t => t.decommitRange v offset length
  | maintainCache vmo offset length =>
    s.given (s.vmo vmo) fun v => (s, .ofUnit (s.system.maintainCache v offset length))
  | setCachePolicy vmo raw =>
    s.given (s.vmo vmo) fun v => s.attempt (fun t => t.setCachePolicy v raw) fun _ => .done
  | setUserId vmo id =>
    s.given (s.vmo vmo) fun v => s.attempt (fun t => t.setUserId v id) fun _ => .done
  | observe vmo label name =>
    s.given (s.vmo vmo) fun v => s.holding [.vmo v] fun s =>
      match name with
      | none => (s.act fun t => t.setWatcher v none, .done)
      | some n =>
        let (o, t) := s.system.createListener label
        let t := t.setWatcher v (some (.listener o))
        (({ s with system := t } : Session).put n (.listener o), .done)
  | recordClone vmo child guard =>
    s.given (s.vmo vmo) fun v => s.given (s.vmo child) fun c =>
      s.given (guardFamily s v guard) fun f =>
        let (n, t) := s.system.recordClone f v c
        ({ s with system := t }, .number n)
  | forgetClone vmo id =>
    s.given (s.vmo vmo) fun v => (s.act fun t => t.forgetClone v id, .done)

end VmoCommand

namespace MappingCommand

def run (c : MappingCommand) (s : Session) : Session × Reply :=
  match c with
  | newSpace isUser name =>
    let (a, t) := s.system.openSpace isUser
    (({ s with system := t } : Session).keep name (.space a), .space a)
  | new space object offset size name =>
    s.given (s.space space) fun a =>
      let (m, t) := s.system.createMapping a object offset size
      (({ s with system := t } : Session).keep name (.mapping m), .done)
  | info mapping =>
    s.given (s.mapping mapping) fun m => (s, s.system.mappings[m]?.elim .done .mapping)
  | add vmo mapping guard =>
    s.given (s.vmo vmo) fun v => s.given (s.mapping mapping) fun m =>
      s.given (guardFamily s v guard) fun f =>
        let s := s.act fun t => t.addMapping f v m
        (s, .number (s.system.liveMappings v).length)
  | remove vmo mapping guard =>
    s.given (s.vmo vmo) fun v => s.given (s.mapping mapping) fun m =>
      s.given (guardFamily s v guard) fun f =>
        let s := s.act fun t => t.removeMapping f v m
        (s, .number (s.system.liveMappings v).length)
  | unmap mapping offset length =>
    s.given (s.mapping mapping) fun m =>
      let (met, t) := s.system.unmapSpan m (Span.ofLength offset length)
      ({ s with system := t }, .flag met)
  | rangeChanged vmo offset length guard =>
    s.given (s.vmo vmo) fun v => s.given (guardFamily s v guard) fun f =>
      (s.act fun t => t.rangeChanged f v offset length, .done)

end MappingCommand

namespace ViewCommand

def run (c : ViewCommand) (s : Session) : Session × Reply :=
  match c with
  | create vmo kernelName name =>
    s.given (s.vmo vmo) fun v => s.holding [.vmo v] fun s =>
      s.create (fun t => t.createView v) kernelName name
  | child view options offset size copyName name =>
    s.given (s.view view) fun k => s.holding [.object k] fun s =>
      s.attemptKeeping (fun t => t.createChild (viewed t k) options offset size copyName) name .vmo
        fun _ c => .number c
  | rangeOp view op offset length rights =>
    s.given (s.view view) fun k =>
      let v := viewed s.system k
      VmoCommand.pagesAfter s v fun t => t.rangeOp v op offset length rights
  | info view rights =>
    s.given (s.view view) fun k =>
      (s, (s.system.viewInfo (viewed s.system k) rights).elim .done .view)

end ViewCommand

end KernelObjects.Script
