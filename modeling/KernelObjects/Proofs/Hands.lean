import KernelObjects.Proofs.Upkeep

/-
# What handles show

Handles, tables, arenas, the numbers of handles and the calls to objects that lost their last one:
that is the side of the state that whoever works with handles can see (`System.hands`).  Most of
what jobs, processes, VM objects and ports go through happens on the other side.  For each such
function a lemma here says that it leaves this side alone, so a property of handles has to follow
only the few functions that make, move, stamp and close them.

Three families of changes are settled once for all of their members:

* upkeep of a job (`Upkeep.hands`), which is about records of jobs, signals and the trace;

* edits (`Edit.hands`), of which only those of tables and of handles can be seen;

* destruction (`hands_destroyObject`), which takes the count of what is destroyed and nothing
  else.

The calls are read off the trace.  Of its entries only the calls for the last handle are kept, so
a function that logs something else does not show.  `Still` puts this together with `Inert`: a
change that is neither seen in handles nor read by counts and trees.
-/

namespace KernelObjects

/-- The object that an event tells of its last handle, or of its kernel handle, being gone. -/
def Event.told? : Event → Option Koid
  | zeroHandles k _ => some k
  | _ => none

/-- The side of the state that handles show. -/
structure Hands where
  handles : Store Handle
  tables : Store Table
  arenas : Store Arena
  /-- The number of handles that an object counts. -/
  counts : Koid → Nat
  /-- The objects that were told that nobody holds them any more, latest first. -/
  told : List Koid

namespace System

/-- The objects that were told that their last handle or their kernel handle is gone, latest
first. -/
def told (s : System) : List Koid := s.trace.filterMap Event.told?

/-- What a state shows to whoever works with handles. -/
def hands (s : System) : Hands := ⟨s.handles, s.tables, s.arenas, s.handleCount, s.told⟩

section Frame

variable (s : System)

/-! ## 1. Small changes -/

/-- Only that an object was told is part of what shows; other entries of the trace are not. -/
theorem hands_log {e : Event} (h : e.told? = none) : (s.log e).hands = s.hands := by
  unfold hands told log
  rw [List.filterMap_cons_none h]
  rfl

@[simp] theorem hands_bump (m : Meter) : (s.bump m).hands = s.hands := rfl

@[simp] theorem hands_modifyProcess (k : Koid) (f : Process → Process) :
    (s.modifyProcess k f).hands = s.hands := rfl

/-- Objects that count the same handles show the same. -/
theorem hands_objects {objects : Store Object}
    (h : ∀ k : Nat, objects[k]?.map Object.handles = s.objects[k]?.map Object.handles) :
    ({ s with objects } : System).hands = s.hands := by
  have hcounts : handleCount { s with objects } = s.handleCount :=
    funext fun k => congrArg (·.getD 0) (h k)
  unfold hands
  rw [hcounts]
  rfl

@[simp] theorem hands_signal (k : Koid) (clear set : Signals) :
    (s.signal k clear set).hands = s.hands :=
  s.hands_objects (Store.map_modify fun _ _ => rfl)

@[simp] theorem hands_unbindSlot (slot : Option PortId) : (s.unbindSlot slot).hands = s.hands := by
  cases slot <;> rfl

@[simp] theorem hands_unregister (k : Koid) : (s.unregister k).hands = s.hands := rfl

@[simp] theorem hands_setWatcher (v : VmoId) (w : Option Watcher) :
    (s.setWatcher v w).hands = s.hands := rfl

end Frame

end System

/-! ## 2. Upkeep and edits -/

/-- Upkeep of jobs does not show. -/
theorem Upkeep.hands {k : Koid} {s t : System} (h : Upkeep k s t) : t.hands = s.hands := by
  induction h with
  | refl | job | killed | died | halted => rfl
  | trans _ _ ih ih' => exact ih'.trans ih
  | shown => exact System.hands_signal _ _ _ _
  | unbound slot => exact System.hands_unbindSlot _ slot

/-- Only an edit of a table or of a handle shows. -/
theorem Edit.hands {a : Topic} {s t : System} (h : Edit a s t) (ha : a ≠ .tables) :
    t.hands = s.hands := by
  induction h with
  | refl | config | space | job | process | vmo | member | unmapped => rfl
  | trans _ _ ih ih' => exact (ih' ha).trans (ih ha)
  | owned | owner => exact absurd rfl ha

namespace System

section Frame

variable (s : System)

@[simp] theorem hands_attach (k : Koid) (add : Job → Job) :
    (s.attach k add).2.hands = s.hands := by
  unfold attach
  split
  · rfl
  · split
    · exact (s.modifyJob k add).hands_signal _ _ _
    · rfl

/-! ## 3. VM objects and mappings -/

@[simp] theorem hands_tellWatcher (v : VmoId) (b : Bool) : (s.tellWatcher v b).hands = s.hands := by
  unfold tellWatcher
  split
  · rfl
  · split
    · cases b
      · exact (hands_signal _ _ _ _).trans (s.hands_log rfl)
      · exact (hands_signal _ _ _ _).trans (s.hands_log rfl)
    · rfl
  · split
    · rfl
    · cases b
      · exact s.hands_log rfl
      · exact s.hands_log rfl

/-- A clone that is forgotten may be told to a watcher, which changes signals and the trace only. -/
@[simp] theorem hands_forgetClone (v c : VmoId) : (s.forgetClone v c).hands = s.hands := by
  obtain ⟨families, hdropped, -⟩ := s.dropClone_eq v c
  obtain he | he := s.forgetClone_cases v c
  · rw [he, hdropped]
    rfl
  · rw [he, hands_tellWatcher, hdropped]
    rfl

/-! ## 4. Things that are destroyed

The number of handles goes with the object that counts them; an object that is not there counts
none. -/

@[simp] theorem hands_destroyVmo (v : VmoId) : (s.destroyVmo v).1.hands = s.hands := by
  unfold destroyVmo
  split
  · rfl
  · dsimp only
    rw [hands_log _ rfl]
    split
    · rfl
    · exact hands_forgetClone _ _ _

/-- A destroyed object is gone from the counts, and handles show nothing else of it. -/
theorem hands_destroyObject (k : Koid) :
    (s.destroyObject k).1.hands = ({ s with objects := s.objects.erase k } : System).hands := by
  unfold destroyObject
  dsimp only
  split
  · dsimp only
    rw [hands_log _ rfl, hands_bump, hands_unregister]
    split
    · rfl
    · exact (detachJob_upkeep _ _ _).hands
  · dsimp only
    rw [hands_log _ rfl, hands_bump, (detachProcess_upkeep _ _ _).hands]
    rfl
  · rfl
  · rfl
  · rfl

/-- An object that is told shows in the calls, and in nothing else. -/
theorem hands_zeroHandles (k : Koid) :
    (s.zeroHandles k).hands = { s.hands with told := k :: s.told } := by
  unfold zeroHandles
  dsimp only
  split
  · rfl
  · exact hands_setWatcher _ _ _

end Frame

end System

/-- A change that neither handles nor anything that counts and trees depend on shows. -/
structure Still (s t : System) : Prop extends Inert s t where
  hands : t.hands = s.hands

namespace Still

theorem refl (s : System) : Still s s := ⟨.refl s, rfl⟩

theorem trans {s t u : System} (h : Still s t) (h' : Still t u) : Still s u :=
  ⟨h.toInert.trans h'.toInert, h'.hands.trans h.hands⟩

end Still

/-- Edits of tables are seen in handles, and those of sizes and of lists of clones in trees; the
others are still. -/
theorem Edit.still {a : Topic} {s t : System} (h : Edit a s t)
    (ha : a ∉ [Topic.tables, .sizes, .clones]) : Still s t := by
  refine ⟨h.inert ha, h.hands ?_⟩
  rintro rfl
  exact ha (by decide)

end KernelObjects
