import KernelObjects.Proofs.Operations

/-
# Runs of operations

A *client* is everybody outside of the object layer.  `Op` lists what a client can do, `World.act`
does it and books what the client holds after that, and a state is *reachable* if some list of
operations leads there from the state before anything happened.

A client can take a reference to anything that is there (`share`), since every look-up hands out
references; it can give back only what it holds (`drop`).  An operation that consumes something
needs it to be held.  Walks that call the client back, over the children of a job or over all VM
objects, are not listed: they take references, call the client, who does further operations, and
give the references back (`walk_keeps`).

Every operation is a run of stages and so of moves, and what all moves keep holds in every
reachable state.  Three notions of a state come from that, from the narrow to the wide:

* `World.Reachable`: operations lead there, with the two liberties under control;

* `World.Ran`: operations lead there that keep to a rule, each in the state in which it is done,
  and the dues may be put in any order.  The rule may speak of the state, so a walk can be
  followed whose visitor keeps to it;

* `World.Passed`: moves lead there, so it may be the midst of an operation.

A result is stated for the widest of them for which it is true.  A rule is a condition on what
clients ask for, never on what the object layer does.
-/

namespace KernelObjects

/-! ## 1. Operations

What clients ask for, one constructor for each call that changes something.  Calls that only look
something up are not listed; what they answer is a function of the state. -/

/-- What a client can do. -/
inductive Op where
  | createRootJob (hasHaltHandler : Bool)
  | createJob (parent : Koid)
  | createProcess (job : Koid) (name : Name)
  | createWitness (label : String) (signals : Signals)
  | createVmo (size : Nat) (options : BitVec 32)
  | cloneVmo (v : VmoId) (ask : CloneRequest)
  | createView (v : VmoId)
  | createListener (label : String)
  | createMapping (space : AddressSpace) (object offset size : Nat)
  | newArena (capacity : Nat)
  | openSharedArena
  | openTable (process : Nat) (arena : ArenaId)
  | openSpace (isUser : Bool)
  | openPort (kind : PortKind) (key : Nat)
  /-- Takes a reference to something that is there. -/
  | share (r : Ref)
  /-- Gives back something that is held: a reference, a handle or a table. -/
  | drop (t : Task)
  | makeHandle (arena : ArenaId) (k : Koid) (rights : Rights) (mayGrow : Bool)
  /-- Uses up a kernel handle, empty or not. -/
  | makeFromKernel (arena : ArenaId) (kernel : Option Koid) (rights : Rights)
  | duplicateHandle (h : HandleId) (rights : Rights)
  | setProcess (process : Nat) (h : HandleId)
  /-- Moves a handle that is held into a table. -/
  | tableAdd (t : TableId) (h : HandleId)
  | tableRemove (t : TableId) (value : Nat)
  | tableDuplicate (t : TableId) (value : Nat) (rights : Rights)
  | tableClear (t : TableId)
  | killJob (refuses : Allocator) (code : Int) (k : Koid)
  | killProcess (code : Int) (k : Koid)
  | enforcePolicy (k : Koid) (c : Condition)
  | amendPolicy (k : Koid) (change : Policy → Outcome Policy)
  | attachProcess (k process : Koid)
  | detachProcess (k process : Koid)
  | setKillOnOom (k : Koid) (mark : Bool)
  | bindPort (k : Koid) (p : PortId)
  | unbindPort (p : PortId)
  | resetPort (refuses : Allocator) (k : Koid) (debugger : Bool)
  | report (k : Koid) (p : PortId) (type : Nat) (hasMemory : Bool)
  | dropReports (p : PortId) (k : Koid)
  | signal (k : Koid) (clear set : Signals)
  | zeroHandles (k : Koid)
  | nameJob (k : Koid) (name : Name)
  | nameProcess (k : Koid) (name : Name)
  | nameVmo (v : VmoId) (name : Name)
  | commit (v : VmoId) (offset length : Nat)
  | decommit (v : VmoId) (offset length : Nat)
  | resize (v : VmoId) (size : Nat)
  | setCachePolicy (v : VmoId) (raw : Nat)
  | setUserId (v : VmoId) (id : Koid)
  | setWatcher (v : VmoId) (watcher : Option Watcher)
  | recordClone (family : FamilyId) (v clone : VmoId)
  | forgetClone (v clone : VmoId)
  | addMapping (family : FamilyId) (v : VmoId) (m : MappingId)
  | removeMapping (family : FamilyId) (v : VmoId) (m : MappingId)
  | unmapSpan (m : MappingId) (span : Span)
  | rangeChanged (family : FamilyId) (v : VmoId) (offset length : Nat)
  | settledConfig
  | installConfig (c : Config)

/-- Whether an operation lists a process in a job by hand. -/
def Op.Attaches : Op → Prop
  | attachProcess _ _ => True
  | _ => False

/-- Whether an operation writes into a list of clones without cloning. -/
def Op.Rewires : Op → Prop
  | recordClone _ _ _ | forgetClone _ _ => True
  | _ => False

instance (s : System) (r : Ref) : Decidable (s.Present r) := by
  cases r <;> unfold System.Present <;> infer_instance

namespace World

/-- Does an operation that changes nothing of what is held. -/
def doing (w : World) (s : System) : World := { w with system := s }

/-- Does an operation.  One that needs something that is not held or not there does nothing. -/
def act (w : World) : Op → World
  | .createRootJob hasHaltHandler =>
    let (k, s) := w.system.createRootJob hasHaltHandler
    ⟨s, .release (.object k) :: w.dues⟩
  | .createJob parent => w.after (w.system.createJob parent) fun k => .release (.object k)
  | .createProcess job name =>
    w.after (w.system.createProcess job name) fun k => .release (.object k)
  | .createWitness label signals =>
    let (k, s) := w.system.createWitness label signals
    ⟨s, .release (.object k) :: w.dues⟩
  | .createVmo size options => w.after (w.system.createVmo size options) fun v => .release (.vmo v)
  | .cloneVmo v ask => w.after (w.system.cloneVmo v ask) fun c => .release (.vmo c)
  | .createView v => w.after (w.system.createView v) fun k => .release (.object k)
  | .createListener label =>
    let (o, s) := w.system.createListener label
    ⟨s, .release (.listener o) :: w.dues⟩
  | .createMapping space object offset size =>
    let (m, s) := w.system.createMapping space object offset size
    ⟨s, .release (.mapping m) :: w.dues⟩
  | .newArena capacity =>
    let (a, s) := w.system.freshId
    w.doing { s with arenas := s.arenas.insert a (Arena.ofCapacity capacity) }
  | .openSharedArena => w.doing w.system.openSharedArena
  | .openTable process arena =>
    let (t, s) := w.system.openTable process arena
    ⟨s, .closeTable t :: w.dues⟩
  | .openSpace isUser => w.doing (w.system.openSpace isUser).2
  | .openPort kind key => w.doing (w.system.openPort kind key).2
  | .share r =>
    if w.system.Present r then ⟨w.system.retain r, .release r :: w.dues⟩ else w
  | .drop t => if t ∈ w.dues then ⟨w.system.settle [t], w.dues.erase t⟩ else w
  | .makeHandle arena k rights mayGrow =>
    if w.system.Present (.object k) then
      w.after (w.system.makeHandle arena k rights mayGrow) fun h => .close h
    else w
  | .makeFromKernel arena kernel rights =>
    match kernel with
    | none => w.after (w.system.makeFromKernel arena none rights) fun h => .close h
    | some k =>
      if .release (.object k) ∈ w.dues then
        { w with dues := w.dues.erase (.release (.object k)) }.after
          (w.system.makeFromKernel arena (some k) rights) fun h => .close h
      else w
  | .duplicateHandle h rights => w.after (w.system.duplicateHandle h rights) fun h => .close h
  | .setProcess process h => w.doing (w.system.setProcess process h)
  | .tableAdd t h =>
    if .close h ∈ w.dues ∧ w.system.tables.contains t then
      ⟨(w.system.tableAdd t h).2, w.dues.erase (.close h)⟩
    else w
  | .tableRemove t value => w.after (w.system.tableRemove t value) fun h => .close h
  | .tableDuplicate t value rights => w.doing (w.system.tableDuplicate t value rights).2
  | .tableClear t => w.doing (w.system.tableClear t).2
  | .killJob refuses code k => w.doing (w.system.killJob refuses code k).2
  | .killProcess code k => w.doing (w.system.killProcess code k)
  | .enforcePolicy k c => w.doing (w.system.enforcePolicy k c).2
  | .amendPolicy k change => w.doing (w.system.amendPolicy k change).2
  | .attachProcess k process => w.doing (w.system.attachProcess k process).2
  | .detachProcess k process => w.doing (w.system.detachProcess k process)
  | .setKillOnOom k mark => w.doing (w.system.setKillOnOom k mark)
  | .bindPort k p => w.doing (w.system.bindPort k p).2
  | .unbindPort p => w.doing (w.system.unbindPort p)
  | .resetPort refuses k debugger => w.doing (w.system.resetPort refuses k debugger).2
  | .report k p type hasMemory => w.doing (w.system.report k p type hasMemory).2
  | .dropReports p k => w.doing (w.system.dropReports p k)
  | .signal k clear set => w.doing (w.system.signal k clear set)
  | .zeroHandles k => w.doing (w.system.zeroHandles k)
  | .nameJob k name => w.doing (w.system.modifyJob k fun j => { j with name })
  | .nameProcess k name => w.doing (w.system.modifyProcess k fun p => { p with name })
  | .nameVmo v name => w.doing (w.system.modifyVmo v fun o => { o with name })
  | .commit v offset length => w.doing (w.system.commitRange v offset length).2
  | .decommit v offset length => w.doing (w.system.decommitRange v offset length).2
  | .resize v size => w.doing (w.system.resize v size).2
  | .setCachePolicy v raw => w.doing (w.system.setCachePolicy v raw).2
  | .setUserId v id => w.doing (w.system.setUserId v id).2
  | .setWatcher v watcher => w.doing (w.system.setWatcher v watcher)
  | .recordClone family v clone => w.doing (w.system.recordClone family v clone).2
  | .forgetClone v clone => w.doing (w.system.forgetClone v clone)
  | .addMapping family v m => w.doing (w.system.addMapping family v m)
  | .removeMapping family v m => w.doing (w.system.removeMapping family v m)
  | .unmapSpan m span => w.doing (w.system.unmapSpan m span).2
  | .rangeChanged family v offset length => w.doing (w.system.rangeChanged family v offset length)
  | .settledConfig => w.doing w.system.settledConfig.2
  | .installConfig c => w.doing (w.system.installConfig c).2

/-- Does operations one after the other, from the state before anything happened. -/
def run (ops : List Op) : World := ops.foldl act {}

end World

/-- What an operation is about that does nothing but edit. -/
def Op.topic : Op → Option Topic
  | openSpace _ | settledConfig | installConfig _ => some .settings
  | setKillOnOom _ _ | nameJob _ _ | nameProcess _ _ | nameVmo _ _ => some .labels
  | amendPolicy _ _ => some .policies
  | bindPort _ _ => some .slots
  | report _ _ _ _ | dropReports _ _ => some .reports
  | setProcess _ _ => some .tables
  | setUserId _ _ => some .stamps
  | setWatcher _ _ => some .watchers
  | recordClone _ _ _ => some .clones
  | addMapping _ _ _ | removeMapping _ _ _ | unmapSpan _ _ | rangeChanged _ _ _ _ => some .windows
  | commit _ _ _ | decommit _ _ _ => some .pages
  | resize _ _ => some .sizes
  | setCachePolicy _ _ => some .caches
  | _ => none

/-- **Each operation with a topic edits no more than its topic.** -/
theorem World.act_edit {op : Op} {a : Topic} (h : op.topic = some a) (w : World) :
    Edit a w.system (w.act op).system := by
  -- Operations without a topic drop out here; one equation for each of the others.
  cases op <;> cases h
  case openSpace => exact .space
  case settledConfig => exact w.system.settledConfig_edit
  case installConfig => exact w.system.installConfig_edit _
  case setKillOnOom => exact w.system.setKillOnOom_edit _ _
  case nameJob => exact .job fun _ _ => .name _
  case nameProcess => exact .process fun _ _ => .name _
  case nameVmo => exact .vmo fun _ _ => .name _
  case amendPolicy => exact w.system.amendPolicy_edit _ _
  case bindPort => exact w.system.bindPort_edit _ _
  case report => exact w.system.report_edit _ _ _ _
  case dropReports => exact w.system.dropReports_edit _ _
  case setProcess => exact .owner _ _
  case setUserId => exact w.system.setUserId_edit _ _
  case setWatcher => exact w.system.setWatcher_edit _ _
  case recordClone => exact w.system.recordClone_edit _ _ _
  case addMapping => exact w.system.addMapping_edit _ _ _
  case removeMapping => exact w.system.removeMapping_edit _ _ _
  case unmapSpan => exact .unmapped _ _
  case rangeChanged => exact w.system.rangeChanged_edit _ _ _ _
  case commit => exact w.system.commitRange_edit _ _ _
  case decommit => exact w.system.decommitRange_edit _ _ _
  case resize => exact w.system.resize_edit _ _
  case setCachePolicy => exact w.system.setCachePolicy_edit _ _

/-- Such an operation leaves alone what is held. -/
theorem World.act_of_topic {op : Op} {a : Topic} (h : op.topic = some a) (w : World) :
    w.act op = w.doing (w.act op).system := by
  cases op <;> cases h <;> rfl

/-- What an operation does by hand in a state. -/
def Op.liberties (s : System) : Op → Liberties
  | makeFromKernel _ (some k) _ => { tells := (· = k) }
  | setProcess _ _ => { stamps := True }
  | tableAdd t h =>
    { adopts := fun table r => s.tables[t]? = some table ∧ s.handles[h]? = some r }
  | attachProcess _ _ => { attaches := True }
  | detachProcess _ _ => { detaches := True }
  | zeroHandles k => { tells := (· = k) }
  | recordClone _ _ _ | forgetClone _ _ => { rewires := True }
  | _ => {}

/-! ## 2. Operations are runs of stages -/

/-- **Every operation is a run of stages.** -/
theorem World.act_stages {w : World} (h : Accounted w.system w.dues) (op : Op) :
    Stages (op.liberties w.system) w (w.act op) := by
  have edited : ∀ {a : Topic}, op.topic = some a → a ∉ [Topic.tables, .sizes, .clones] →
      Stages (op.liberties w.system) w (w.act op) := by
    intro a ha hne
    rw [w.act_of_topic ha]
    exact ((w.act_edit ha).still hne).stages w.dues
  -- one case for each operation; those with a topic are single edits
  cases op with
  | createRootJob hasHaltHandler => exact System.createRootJob_stages _ _ _
  | createJob parent => exact System.createJob_stages h parent
  | createProcess job name => exact System.createProcess_stages h job name
  | createWitness label signals =>
    have hborn : Stage (Op.liberties w.system (.createWitness label signals)) w
        ⟨w.system.withWitness signals { label }, [Ref.object w.system.nextKoid].map .release ++
          w.dues⟩ :=
      .beside (fun _ _ => .witness) rfl rfl (h.hands_born rfl rfl rfl rfl rfl)
    exact hborn.run
  | createVmo size options => exact System.createVmo_stages w.system size options w.dues
  | cloneVmo v ask => exact System.cloneVmo_stages _ _ _ _
  | createView v => exact System.createView_stages h v
  | createListener label =>
    have hborn : Stage (Op.liberties w.system (.createListener label)) w
        ⟨(w.system.createListener label).2, [Ref.listener w.system.nextId].map .release ++
          w.dues⟩ :=
      .beside (fun _ _ => .listener) rfl rfl rfl
    exact hborn.run
  | createMapping space object offset size =>
    have hborn : Stage (Op.liberties w.system (.createMapping space object offset size)) w
        ⟨(w.system.createMapping space object offset size).2,
          [Ref.mapping w.system.nextId].map .release ++ w.dues⟩ :=
      .beside (fun _ _ => .mapping) rfl rfl rfl
    exact hborn.run
  | newArena capacity =>
    have hstill : Still w.system w.system.freshId.2 := ⟨w.system.inert_freshId, rfl⟩
    refine .tail (hstill.stages w.dues) (.arena ?_ (Nat.lt_succ_self _) capacity)
    exact Store.contains_eq_false_iff.1 (Bool.eq_false_iff.2 fun hc =>
      Nat.lt_irrefl _ (h.bounded.arena hc))
  | openSharedArena => exact System.openSharedArena_stages h
  | openTable process arena => exact Stage.run (.table (.inr rfl))
  | openPort kind key => exact Still.stages ⟨System.inert_openPort _ _ _, rfl⟩ _
  | share r =>
    rw [act]
    split
    · exact Stage.run (.share ‹_›)
    · exact .refl
  | drop t =>
    rw [act]
    split
    · rename_i ht
      exact .trans (System.reorder_stages _ (List.perm_cons_erase ht)) (Stage.run .drop)
    · exact .refl
  | makeHandle arena k rights mayGrow =>
    rw [act]
    split
    · exact System.makeHandle_stages _ _ _ _ ‹_› _
    · exact .refl
  | makeFromKernel arena kernel rights =>
    cases kernel with
    | none => exact .refl
    | some k =>
      rw [act]
      split
      · rename_i hk
        have hperm := List.perm_cons_erase hk
        refine .trans (System.reorder_stages _ hperm) (System.makeFromKernel_stages _ _ rfl ?_)
        exact h.congr_owed fun r => owed_perm hperm.symm r
      · exact .refl
  | duplicateHandle a rights => exact System.duplicateHandle_stages h a rights
  | setProcess process a => exact Stage.run (.stamp trivial process a)
  | tableAdd t a =>
    rw [act]
    split
    · rename_i ht
      have hperm := List.perm_cons_erase ht.1
      have hthere : w.system.Present (.handle a) :=
        h.present_of_owed (owed_pos ht.1 (by simp [Task.holds]))
      obtain ⟨table, htable⟩ := Store.contains_iff.1 ht.2
      obtain ⟨r, hr⟩ := Store.contains_iff.1 hthere
      exact .trans (System.reorder_stages _ hperm)
        (System.tableAdd_stages (L := Op.liberties w.system (.tableAdd t a)) _ ⟨htable, hr⟩ htable
          hr _)
    · exact .refl
  | tableRemove t value => exact System.tableRemove_stages _ _ _ _
  | tableDuplicate t value rights => exact System.tableDuplicate_stages h t value rights
  | tableClear t => exact Stage.run (.clear t)
  | killJob refuses code k => exact System.killJob_stages _ refuses code k _
  | killProcess code k => exact Stage.run (.kill code k)
  | enforcePolicy k c => exact System.enforcePolicy_stages _ _ _ _
  | attachProcess k p => exact Stage.run (.attach trivial k p)
  | detachProcess k p => exact Stage.run (.detach trivial k p)
  | unbindPort p => exact Still.stages ⟨System.inert_unbindPort _ _, rfl⟩ _
  | resetPort refuses k debugger => exact System.resetPort_stages _ _ _ _ _
  | signal k clear set => exact (System.still_signal _ _ _ _).stages _
  | zeroHandles k => exact Stage.run (.tell rfl)
  | resize v size => exact System.resize_stages _ _ _ _
  | recordClone f v c => exact System.recordClone_stages trivial _ _ _ _ _
  | forgetClone v c => exact System.forgetClone_stages trivial _ _ _ _
  | openSpace | settledConfig | installConfig | setKillOnOom | nameJob | nameProcess | nameVmo
  | amendPolicy | bindPort | report | dropReports | setUserId | setWatcher | addMapping
  | removeMapping | unmapSpan | rangeChanged | commit | decommit | setCachePolicy =>
    exact edited rfl (by decide)

/-- **Every operation is a run of moves**, with liberties only where it takes them. -/
theorem World.act_moves {A C : Prop} {w : World} (h : Accounted w.system w.dues) (op : Op)
    (hA : op.Attaches → A) (hC : op.Rewires → C) : Moves A C w (w.act op) := by
  refine (act_stages h op).moves (fun hL => hA ?_) fun hL => hC ?_
  · unfold Op.liberties at hL
    split at hL <;> first | exact hL.elim | trivial
  · unfold Op.liberties at hL
    split at hL <;> first | exact hL.elim | trivial

/-! ## 3. Reachable states

The two liberties are conditions on the operations of the whole run. -/

namespace World

/-- A state that operations lead to.  Processes are listed by hand only under `A`, and lists of
clones are written by hand only under `C`. -/
def Reachable (A C : Prop) (w : World) : Prop :=
  ∃ ops : List Op, (∀ op ∈ ops, (op.Attaches → A) ∧ (op.Rewires → C)) ∧ run ops = w

theorem reachable_run (ops : List Op) : Reachable True True (run ops) :=
  ⟨ops, fun _ _ => ⟨fun _ => trivial, fun _ => trivial⟩, rfl⟩

/-- A state between two operations or in the midst of one. -/
def Passed (A C : Prop) (w : World) : Prop := ∃ v, Reachable A C v ∧ Moves A C v w

variable {A C : Prop} {w : World}

/-- Whatever operations do is a run of moves, and the account stays in order. -/
theorem Reachable.moves_accounted (h : Reachable A C w) :
    Moves A C {} w ∧ Accounted w.system w.dues := by
  obtain ⟨ops, hops, rfl⟩ := h
  induction ops using List.reverseRecOn with
  | nil => exact ⟨.refl, accounted_initial⟩
  | append_singleton ops op ih =>
    obtain ⟨hmoves, hacc⟩ := ih fun o ho => hops o (List.mem_append_left _ ho)
    have hop := hops op (List.mem_append_right _ (List.mem_singleton_self op))
    have hstep : Moves A C (run ops) (run (ops ++ [op])) := by
      unfold run
      rw [List.foldl_append]
      exact act_moves hacc op hop.1 hop.2
    exact ⟨hmoves.trans hstep, hstep.accounted hacc⟩

/-- What hands reach, they reach by moves, -/
theorem Reachable.moves (h : Reachable A C w) : Moves A C {} w := h.moves_accounted.1

/-- **In every reachable state the account is in order.** -/
theorem Reachable.accounted (h : Reachable A C w) : Accounted w.system w.dues :=
  h.moves_accounted.2

theorem Passed.moves (h : Passed A C w) : Moves A C {} w := by
  obtain ⟨v, hv, hw⟩ := h
  exact hv.moves.trans hw

/-- and passing through it is no more than that. -/
theorem Reachable.passed (h : Reachable A C w) : Passed A C w := ⟨w, h, .refl⟩

theorem Passed.trans {w' : World} (h : Passed A C w) (hm : Moves A C w w') : Passed A C w' := by
  obtain ⟨v, hv, hw⟩ := h
  exact ⟨v, hv, hw.trans hm⟩

/-- **The books balance in every state that is passed through.** -/
theorem Passed.accounted (h : Passed A C w) : Accounted w.system w.dues := by
  obtain ⟨v, hv, hw⟩ := h
  exact hw.accounted hv.accounted

end World

/-- What holds before anything happened and is kept by every move, as long as the account is in
order, holds in every state that is passed. -/
theorem World.Passed.keeps {A C : Prop} {I : World → Prop} {w : World} (h : Passed A C w)
    (h0 : I {}) (hkeep : ∀ v v', Accounted v.system v.dues → Move A C v v' → I v → I v') : I w := by
  suffices hboth : Accounted w.system w.dues ∧ I w from hboth.2
  have hmoves := h.moves
  induction hmoves with
  | refl => exact ⟨accounted_initial, h0⟩
  | tail hrun hmove ih =>
    obtain ⟨hacc, hi⟩ := ih ⟨{}, ⟨[], by simp, rfl⟩, hrun⟩
    exact ⟨Moves.accounted (.single hmove) hacc, hkeep _ _ hacc hmove hi⟩

/-! ## 4. Runs that keep to a rule

A rule may look at the state in which an operation is done.  Most rules look at the operation
only. -/

/-- A state that operations lead to of which every one keeps to a rule in the state in which it is
done. -/
inductive World.Ran (P : System → Op → Prop) : World → Prop
  | start : Ran P {}
  | act {w : World} {op : Op} (h : Ran P w) (hop : P w.system op) : Ran P (w.act op)
  /-- The dues stand in no order. -/
  | reorder {s : System} {d e : List Task} (h : Ran P ⟨s, d⟩) (hp : d.Perm e) : Ran P ⟨s, e⟩

/-- Whether operations that are done one after the other keep to a rule. -/
def World.Keep (P : System → Op → Prop) : World → List Op → Prop
  | _, [] => True
  | w, op :: ops => P w.system op ∧ Keep P (w.act op) ops

/-- Everything keeps to no rule. -/
theorem World.keep_any (ops : List Op) (w : World) : w.Keep (fun _ _ => True) ops := by
  induction ops generalizing w with
  | nil => trivial
  | cons op ops ih => exact ⟨trivial, ih _⟩

namespace World.Ran

variable {P : System → Op → Prop} {w : World}

/-- A list of operations after a run makes a longer run. -/
theorem foldl {ops : List Op} (h : Ran P w) (hops : w.Keep P ops) :
    Ran P (ops.foldl World.act w) := by
  induction ops generalizing w with
  | nil => exact h
  | cons op ops ih => exact ih (h.act hops.1) hops.2

/-- Who keeps to a rule keeps to a weaker one. -/
theorem mono {Q : System → Op → Prop} (h : Ran P w) (hPQ : ∀ s op, P s op → Q s op) : Ran Q w := by
  induction h with
  | start => exact .start
  | act _ hop ih => exact ih.act (hPQ _ _ hop)
  | reorder _ hp ih => exact ih.reorder hp

/-- Who keeps to the rule lists processes by hand only under `A`, and writes lists of clones by hand
only under `C`. -/
theorem passed_of {A C : Prop} (h : Ran P w)
    (hP : ∀ s op, P s op → (op.Attaches → A) ∧ (op.Rewires → C)) : Passed A C w := by
  induction h with
  | start => exact Reachable.passed ⟨[], by simp, rfl⟩
  | act _ hop ih => exact ih.trans (act_moves ih.accounted _ (hP _ _ hop).1 (hP _ _ hop).2)
  | reorder _ hp ih => exact ih.trans (System.reorder_moves _ hp)

theorem passed (h : Ran P w) : Passed True True w :=
  h.passed_of fun _ _ _ => ⟨fun _ => trivial, fun _ => trivial⟩

/-- What holds before anything happened and is kept by every stage of an operation that keeps to the
rule holds after all such operations. -/
theorem keeps {I : World → Prop} (h : Ran P w) (h0 : I {})
    (hreorder : ∀ s d e, d.Perm e → I ⟨s, d⟩ → I ⟨s, e⟩)
    (hstage : ∀ s op v v', P s op → Passed True True v → Stage (op.liberties s) v v' → I v → I v') :
    I w := by
  induction h with
  | start => exact h0
  | reorder _ hp ih => exact hreorder _ _ _ hp ih
  | @act w op h hop ih =>
    suffices hall : ∀ v, Stages (op.liberties w.system) w v → Passed True True v ∧ I v from
      (hall _ (act_stages h.passed.accounted op)).2
    intro v hv
    induction hv with
    | refl => exact ⟨h.passed, ih⟩
    | tail _ hstep ih =>
      exact ⟨ih.1.trans (hstep.moves (fun _ => trivial) fun _ => trivial),
        hstage _ _ _ _ hop ih.1 hstep ih.2⟩

end World.Ran

end KernelObjects
