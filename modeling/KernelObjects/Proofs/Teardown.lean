import KernelObjects.Proofs.CloneSignals
import KernelObjects.Proofs.CommittedPages

/-
# How chains of clones are torn down

The last reference to a clone takes the clone with it, and the clone its reference to its
original.  So whole chains may go at once, from the clone upwards, as far as nobody else refers to
what comes next (`System.Goes`).  There are three ways to say what is done then.  The run over
tasks gives back one reference after the other (`System.release`).  A destructor that gives back
the reference to the parent from within runs once for every object, each inside of the one before
(`System.tearDown`).  And a loop takes each parent out of its last reference, detaches it by hand
and lets its destructor run on what is left of it (`System.dropLooping`).  They come to the same:
what was detached is not detached again (`System.detach_again`).

`World.Midst.torn_down` says what a chain leaves, in any state between two operations or in the
midst of one.  An entry of a list of clones that was made by hand may outlive its clone; where
cloning alone enters clones in lists, each object that goes has no clones at that time, and is on
no list any more.

The loop is there for the depth of the chain.  A chain may be as long as there are objects, and a
destructor inside of a destructor needs room for each of them; the loop has run one destructor to
its end before it comes to the next object.  That nothing else is different about it is what the
comparison shows.

How far a chain goes is a question about reference counts, and each object that goes changes the
count of the next one only.  So it can be answered at the start (`Goes.congr`), and the notices to
those who watch can be listed before the first object goes.
-/

namespace KernelObjects

/-! ## 1. Destructors

The three ways, each as a function on states.  They terminate since a parent is older than its
clones; where lists were written by hand that is still so, as parents are not. -/

/-- A VM object that goes, and the states before and after. -/
structure Fall where
  vmo : VmoId
  before : System
  after : System

namespace System

/-- Takes a VM object out of its last reference, so that nobody finds it any more. -/
def unwrapped (s : System) (v : VmoId) : System :=
  { s with refs := s.refs.release (.vmo v), vmos := s.vmos.erase v }

/-- Takes a VM object off the list of all, off its parent's list and out of its family, as far as
it is there.  A debug build asserts on the way that the object has no clones, which may fail where
clones were entered by hand; this is a build without assertions.  Where cloning alone enters
clones in lists the assertion holds (`Fall.Childless`). -/
def detach (s : System) (v : VmoId) (family : FamilyId) (parent : Option VmoId) : System :=
  let s := { s with vmoList := s.vmoList.erase v }
  let s := match parent with
    | none => s
    | some p => s.forgetClone p v
  match s.memberIn family v with
  | none => s
  | some _ =>
    ({ s with families := s.families.modify family fun f => f.erase v }).log (.vmoDestroyed v)

/-- The state after a VM object went whose last reference was given back. -/
def fallen (s : System) (v : VmoId) (o : Vmo) : System :=
  (s.unwrapped v).detach v o.family o.parent

theorem refs_detach (s : System) (v : VmoId) (f : FamilyId) (parent : Option VmoId) :
    (s.detach v f parent).refs = s.refs := by
  unfold detach
  cases parent with
  | none =>
    dsimp only
    split <;> rfl
  | some p =>
    dsimp only
    split
    · exact refs_forgetClone _ _ _
    · exact refs_forgetClone _ _ _

theorem size_refs_fallen {s : System} {v : VmoId} (h : s.refCount (.vmo v) = 1) (f : FamilyId)
    (parent : Option VmoId) : ((s.unwrapped v).detach v f parent).refs.size < s.refs.size := by
  rw [refs_detach]
  exact RefCounts.size_release_lt h

/-- **The recursive destructor.**  Gives back a reference to a VM object.  If it was the last one,
the object is detached, and its own reference to its parent is given back from within. -/
def tearDown (s : System) (v : VmoId) : List Fall × System :=
  if _ : s.refCount (.vmo v) = 1 then
    match s.vmos[v]? with
    | none => ([], s.unwrapped v)
    | some o =>
      match o.parent with
      | none => ([⟨v, s, (s.unwrapped v).detach v o.family none⟩],
          (s.unwrapped v).detach v o.family none)
      | some p =>
        let t := (s.unwrapped v).detach v o.family (some p)
        (⟨v, s, t⟩ :: (t.tearDown p).1, (t.tearDown p).2)
  else ([], { s with refs := s.refs.release (.vmo v) })
termination_by s.refs.size
decreasing_by all_goals exact size_refs_fallen ‹_› _ _

/-- **The loop.**  As long as there is a parent and the reference to it is its last one, the
parent is taken out of it and detached; then what is left of it is dropped, and its destructor
detaches it once more. -/
def sweepUp (s : System) : Option VmoId → System
  | none => s
  | some v =>
    if _ : s.refCount (.vmo v) = 1 then
      match s.vmos[v]? with
      | none => s.unwrapped v
      | some o =>
        (((s.unwrapped v).detach v o.family o.parent).detach v o.family none).sweepUp o.parent
    else { s with refs := s.refs.release (.vmo v) }
termination_by s.refs.size
decreasing_by
  rw [refs_detach]
  exact size_refs_fallen ‹_› _ _

/-- Gives back a reference to a VM object.  If it was the last one, the object is detached, and the
loop goes on with its parent. -/
def dropLooping (s : System) (v : VmoId) : System :=
  if s.refCount (.vmo v) = 1 then
    match s.vmos[v]? with
    | none => s.unwrapped v
    | some o => (s.fallen v o).sweepUp o.parent
  else { s with refs := s.refs.release (.vmo v) }

variable {s t : System} {v p u : VmoId} {o : Vmo} {d : List Task}

/-! ### One step of each -/

/-- Somebody else refers to the object: one reference less, and nothing goes. -/
theorem tearDown_of_many (h : s.refCount (.vmo v) ≠ 1) :
    s.tearDown v = ([], { s with refs := s.refs.release (.vmo v) }) := by
  rw [tearDown, dif_neg h]

/-- The last reference to a founder takes it along, and that is all. -/
theorem tearDown_of_root (h : s.refCount (.vmo v) = 1) (ho : s.vmos[v]? = some o)
    (hp : o.parent = none) : s.tearDown v = ([⟨v, s, s.fallen v o⟩], s.fallen v o) := by
  rw [tearDown, dif_pos h, ho]
  dsimp only
  rw [fallen, hp]

/-- The last reference to a clone takes it along, and the recursion goes on with its parent. -/
theorem tearDown_of_clone (h : s.refCount (.vmo v) = 1) (ho : s.vmos[v]? = some o)
    (hp : o.parent = some p) : s.tearDown v =
      (⟨v, s, s.fallen v o⟩ :: ((s.fallen v o).tearDown p).1, ((s.fallen v o).tearDown p).2) := by
  rw [tearDown, dif_pos h, ho]
  dsimp only
  rw [fallen, hp]

theorem memberIn_forgetClone_isSome (s : System) (v c : VmoId) (f : FamilyId) (u : VmoId) :
    ((s.forgetClone v c).memberIn f u).isSome = (s.memberIn f u).isSome := by
  obtain ⟨objects, trace, he, -⟩ := s.forgetClone_eq v c
  rw [he]
  show ((s.dropClone v c).memberIn f u).isSome = _
  obtain ⟨hd, -⟩ | ⟨o, m, m', -, -, -, hd⟩ := s.dropClone_cases v c
  · rw [hd]
  · rw [hd, memberIn_modifyMember]
    split
    · rw [Option.isSome_map]
    · rfl

theorem vmoList_forgetClone (s : System) (v c : VmoId) :
    (s.forgetClone v c).vmoList = s.vmoList := by
  obtain ⟨objects, trace, he, -⟩ := s.forgetClone_eq v c
  obtain ⟨families, hf, -⟩ := s.dropClone_eq v c
  rw [he, hf]

/-- What is detached is in no list of all and in no family. -/
theorem detach_gone (s : System) (v : VmoId) (f : FamilyId) (parent : Option VmoId) :
    (s.detach v f parent).vmoList[v]? = none ∧ (s.detach v f parent).memberIn f v = none := by
  obtain ⟨x, hx, hlist⟩ : ∃ x : System, s.detach v f parent = (match x.memberIn f v with
      | none => x
      | some _ => ({ x with families := x.families.modify f fun g => g.erase v }).log
          (.vmoDestroyed v)) ∧ x.vmoList[v]? = none := by
    have herased : (s.vmoList.erase v)[v]? = none := by rw [Store.getElem?_erase, if_pos rfl]
    cases parent with
    | none => exact ⟨_, rfl, herased⟩
    | some p => exact ⟨_, rfl, by rw [vmoList_forgetClone]; exact herased⟩
  rw [hx]
  cases hm : x.memberIn f v with
  | none => exact ⟨hlist, hm⟩
  | some m =>
    refine ⟨hlist, ?_⟩
    show memberIn { x with families := x.families.modify f fun g => g.erase v } f v = none
    rw [memberIn_modifyFamily, if_pos rfl]
    cases x.families[f]? with
    | none => rfl
    | some g => rw [Option.bind_some, Store.getElem?_erase, if_pos rfl]

/-- **What was detached is not detached again.** -/
theorem detach_again (s : System) (v : VmoId) (f : FamilyId) (parent : Option VmoId) :
    (s.detach v f parent).detach v f none = s.detach v f parent := by
  obtain ⟨hlist, hmember⟩ := s.detach_gone v f parent
  generalize s.detach v f parent = t at hlist hmember
  unfold detach
  dsimp only
  rw [Store.erase_of_none hlist]
  show (match t.memberIn f v with
    | none => t
    | some _ => _) = t
  rw [hmember]

/-- What the destructor of a VM object does to a state where the object has a member. -/
theorem fallen_eq (hl : s.Lodged) (ho : s.vmos[v]? = some o) :
    s.fallen v o = (destroyVmo { s with refs := s.refs.release (.vmo v) } v).1 := by
  obtain ⟨k, hk, -⟩ := hl.member (vmoKin_of_get ho)
  have hmember : (s.memberIn o.family v).isSome := by
    rw [← Option.isSome_map (f := Member.kin)]
    exact Option.isSome_iff_exists.2 ⟨k, hk⟩
  -- with a member, the log is written as well
  have hgone : ∀ x : System, (x.memberIn o.family v).isSome →
      (match x.memberIn o.family v with
      | none => x
      | some _ => ({ x with families := x.families.modify o.family fun f => f.erase v }).log
          (.vmoDestroyed v)) =
        ({ x with families := x.families.modify o.family fun f => f.erase v }).log
          (.vmoDestroyed v) := by
    intro x hx
    obtain ⟨m, hm⟩ := Option.isSome_iff_exists.1 hx
    rw [hm]
  unfold destroyVmo
  dsimp only
  rw [ho]
  dsimp only
  unfold fallen detach
  cases o.parent with
  | none => exact hgone _ hmember
  | some p =>
    refine hgone _ ?_
    rw [memberIn_forgetClone_isSome]
    exact hmember

/-- The last reference to a VM object is given back by destroying it. -/
theorem perform_of_last (h : s.refCount (.vmo v) = 1) : s.perform (.release (.vmo v)) =
    destroyVmo { s with refs := s.refs.release (.vmo v) } v := by
  unfold perform
  dsimp only
  rw [h]
  rfl

/-- The same steps of the run over tasks: a founder, -/
theorem release_of_root (hl : s.Lodged) (h : s.refCount (.vmo v) = 1)
    (ho : s.vmos[v]? = some o) (hp : o.parent = none) :
    s.release (.vmo v) = s.fallen v o := by
  have hnext : (destroyVmo { s with refs := s.refs.release (.vmo v) } v).2 = [] := by
    unfold destroyVmo
    dsimp only
    rw [ho]
    dsimp only
    rw [hp]
  unfold release
  rw [settle, perform_of_last h, hnext, ← fallen_eq hl ho]
  exact settle.eq_1 _

/-- and a clone, whose parent is given back next. -/
theorem release_of_clone (hl : s.Lodged) (h : s.refCount (.vmo v) = 1)
    (ho : s.vmos[v]? = some o) (hp : o.parent = some p) :
    s.release (.vmo v) = (s.fallen v o).release (.vmo p) := by
  have hnext : (destroyVmo { s with refs := s.refs.release (.vmo v) } v).2 =
      [.release (.vmo p)] := by
    unfold destroyVmo
    dsimp only
    rw [ho]
    dsimp only
    rw [hp]
  unfold release
  rw [settle, perform_of_last h, hnext, ← fallen_eq hl ho]
  rfl

/-- A round of the loop is the destructor of the object that it comes to. -/
theorem sweepUp_some (s : System) (v : VmoId) : s.sweepUp (some v) = s.dropLooping v := by
  rw [sweepUp]
  unfold dropLooping
  split
  · cases s.vmos[v]? with
    | none => rfl
    | some o =>
      dsimp only
      rw [detach_again, fallen]
  · rfl

theorem dropLooping_of_many (h : s.refCount (.vmo v) ≠ 1) :
    s.dropLooping v = { s with refs := s.refs.release (.vmo v) } := if_neg h

/-- The same steps of the loop: a founder, -/
theorem dropLooping_of_root (h : s.refCount (.vmo v) = 1) (ho : s.vmos[v]? = some o)
    (hp : o.parent = none) : s.dropLooping v = s.fallen v o := by
  rw [dropLooping, if_pos h, ho]
  dsimp only
  rw [hp, sweepUp]

/-- and a clone. -/
theorem dropLooping_of_clone (h : s.refCount (.vmo v) = 1) (ho : s.vmos[v]? = some o)
    (hp : o.parent = some p) : s.dropLooping v = (s.fallen v o).dropLooping p := by
  rw [dropLooping, if_pos h, ho]
  dsimp only
  rw [hp, sweepUp_some]

/-! ## 2. One object goes

What is left after a single object went, field by field, and who was told. -/

/-- What is not said of a VM object that goes stays as it was. -/
theorem fallen_frame (s : System) (v : VmoId) (o : Vmo) :
    ∃ (families : Store Family) (objects : Store Object) (trace : List Event), s.fallen v o =
        { s with
          refs := s.refs.release (.vmo v)
          vmos := s.vmos.erase v
          vmoList := s.vmoList.erase v
          families
          objects
          trace } ∧
      ∀ k : Nat, objects[k]?.map Object.handles = s.objects[k]?.map Object.handles := by
  -- The state after the object left its store and the list of all: up to there nothing is told
  -- and no other object is touched.
  set x : System := { s.unwrapped v with vmoList := s.vmoList.erase v }
  obtain ⟨y, hfallen, families, objects, trace, rfl, hobjects⟩ : ∃ y : System,
      s.fallen v o = (match y.memberIn o.family v with
        | none => y
        | some _ => ({ y with families := y.families.modify o.family fun f => f.erase v }).log
            (.vmoDestroyed v)) ∧
      ∃ (families : Store Family) (objects : Store Object) (trace : List Event),
        y = { x with families, objects, trace } ∧
        ∀ k : Nat, objects[k]?.map Object.handles = s.objects[k]?.map Object.handles := by
    unfold fallen
    cases o.parent with
    | none => exact ⟨x, rfl, s.families, s.objects, s.trace, rfl, fun _ => rfl⟩
    | some p =>
      obtain ⟨objects, trace, he, hobjects⟩ := x.forgetClone_eq p v
      obtain ⟨families, hf, -⟩ := x.dropClone_eq p v
      rw [hf] at he hobjects
      exact ⟨x.forgetClone p v, rfl, families, objects, trace, he, hobjects⟩
  rw [hfallen]
  split
  · exact ⟨_, _, _, rfl, hobjects⟩
  · exact ⟨_, _, _, rfl, hobjects⟩

theorem vmos_fallen (s : System) (v : VmoId) (o : Vmo) :
    (s.fallen v o).vmos = s.vmos.erase v := by
  obtain ⟨families, objects, trace, he, -⟩ := s.fallen_frame v o
  rw [he]

theorem vmoList_fallen (s : System) (v : VmoId) (o : Vmo) :
    (s.fallen v o).vmoList = s.vmoList.erase v := by
  obtain ⟨families, objects, trace, he, -⟩ := s.fallen_frame v o
  rw [he]

theorem vmos_fallen_of_ne (h : u ≠ v) : (s.fallen v o).vmos[u]? = s.vmos[u]? := by
  rw [vmos_fallen, Store.getElem?_erase, if_neg h.symm]

theorem refCount_fallen (s : System) (v : VmoId) (o : Vmo) (r : Ref) :
    (s.fallen v o).refCount r = if Ref.vmo v = r then s.refCount r - 1 else s.refCount r := by
  unfold refCount
  rw [fallen, refs_detach]
  exact RefCounts.count_release _ _ _

theorem refCount_fallen_of_ne (h : u ≠ v) :
    (s.fallen v o).refCount (.vmo u) = s.refCount (.vmo u) := by
  rw [refCount_fallen, if_neg fun he => h (Ref.vmo.inj he).symm]

/-! ### Who is told -/

/-- Whoever watches an object is there as long as these are. -/
theorem target_congr (hv : t.vmos[u]? = s.vmos[u]?) (hw : t.views = s.views)
    (hl : t.listeners = s.listeners) : t.broods.target u = s.broods.target u := by
  have hwatcher : t.broods.watcher u = s.broods.watcher u := congrArg (Option.map Vmo.watcher) hv
  have hlook : ∀ k, (t.broods.look k).isSome = (s.broods.look k).isSome := by
    intro k
    show (t.views[k]?.map _).isSome = (s.views[k]?.map _).isSome
    rw [Option.isSome_map, Option.isSome_map, hw]
  have hlistener : t.broods.listener = s.broods.listener := by
    show (fun o : Nat => t.listeners[o]?) = fun o : Nat => s.listeners[o]?
    rw [hl]
  unfold Broods.target
  simp only [hwatcher, hlook, hlistener]

end System

theorem Member.removeSwapping_eq_nil_iff {xs : List VmoId} {c : VmoId} :
    removeSwapping xs c = some [] ↔ xs = [c] := by
  constructor
  · intro h
    obtain ⟨a, rfl⟩ := List.length_eq_one_iff.1 (Broods.length_removeSwapping h)
    rw [List.mem_singleton.1 (of_removeSwapping h).1]
  · rintro rfl
    simp [removeSwapping]

/-- A clone that is taken off a list is told of if the list had nothing else. -/
theorem Broods.edge_forgot (b : Broods) (v c : VmoId) :
    b.edge (.forgot v c) = if b.clones v = [c] then b.callTo v false else [] := by
  show (if (b.clones v).length = 1 ∧ ((b.apply (.forgot v c)).clones v).length = 0
    then b.callTo v false else []) = _
  cases hrest : Member.removeSwapping (b.clones v) c with
  | none =>
    have happly : b.apply (.forgot v c) = b := by
      dsimp only [apply]
      rw [hrest]
    have hmany : b.clones v ≠ [c] := fun h => by
      rw [Member.removeSwapping_eq_nil_iff.2 h] at hrest
      cases hrest
    rw [happly, if_neg (by omega), if_neg hmany]
  | some rest =>
    have hlist := clones_forgot (v := v) hrest
    rw [if_pos rfl] at hlist
    have hlength := length_removeSwapping hrest
    rw [hlist]
    refine if_congr ?_ rfl rfl
    rw [← Member.removeSwapping_eq_nil_iff, hrest, Option.some_inj, hlength,
      List.length_eq_zero_iff]
    refine and_iff_right_of_imp fun h => ?_
    rw [h]
    rfl

namespace System

variable {s t : System} {v p u : VmoId} {o : Vmo} {d : List Task}

/-- What is written when a clone is taken off a list. -/
theorem trace_forgetClone (s : System) (v c : VmoId) : (s.forgetClone v c).trace =
    (if s.broods.clones v = [c] then s.broods.callTo v false else []) ++ s.trace := by
  have htell : ∀ x : System, ∃ new, (x.tellWatcher v false).trace = new ++ x.trace ∧
      new.filter Event.isCloneCall = new := by
    intro x
    unfold tellWatcher
    split
    · exact ⟨[], rfl, rfl⟩
    · split
      · exact ⟨[_], rfl, rfl⟩
      · exact ⟨[], rfl, rfl⟩
    · split
      · exact ⟨[], rfl, rfl⟩
      · exact ⟨[_], rfl, rfl⟩
  obtain ⟨new, hnew, hcalls⟩ : ∃ new, (s.forgetClone v c).trace = new ++ s.trace ∧
      new.filter Event.isCloneCall = new := by
    obtain ⟨families, hdropped, -⟩ := s.dropClone_eq v c
    obtain he | he := s.forgetClone_cases v c
    · exact ⟨[], by rw [he, hdropped]; rfl, rfl⟩
    · obtain ⟨new, hnew, hcalls⟩ := htell (s.dropClone v c)
      exact ⟨new, by rw [he, hnew, hdropped], hcalls⟩
  -- broods show all that is new
  have hshown : new ++ s.broods.calls =
      (s.broods.edge (.forgot v c)).reverse ++ s.broods.calls := by
    rw [← (s.broods.answers _).calls, ← broods_forgetClone]
    show _ = (s.forgetClone v c).trace.filter Event.isCloneCall
    rw [hnew, List.filter_append, hcalls]
    rfl
  rw [hnew, List.append_cancel_right hshown, Broods.edge_forgot]
  split
  · rw [Broods.callTo]
    cases s.broods.target v <;> rfl
  · rfl

/-- What is told when a VM object goes: its parent's watcher hears of it if nothing else is on the
parent's list. -/
def farewell (s : System) (v : VmoId) : List Event :=
  (match s.originalOf v with
    | none => []
    | some p => if s.broods.clones p = [v] then s.broods.callTo p false else []) ++
  [.vmoDestroyed v]

/-- What broods show of a state in which a VM object was just taken out of its last reference and
off the list of all. -/
theorem broods_unwrapped (s : System) (v : VmoId) :
    ({ s.unwrapped v with vmoList := s.vmoList.erase v } : System).broods =
      s.broods.apply (.died v) :=
  broods_eraseVmo { s with refs := s.refs.release (.vmo v) } v

/-- An object that is gone leaves its family, and the others stay. -/
theorem member_leaveFamily (hv : s.vmos[v]? = none) (f : FamilyId) :
    ({ s with families := s.families.modify f fun g => g.erase v } : System).member = s.member := by
  funext u
  unfold member
  refine Option.bind_congr fun x hx => s.memberIn_eraseMember f ?_ x.family
  rintro rfl
  rw [hv] at hx
  cases hx

/-- A parent that drops a clone changes its own member only. -/
theorem member_dropClone (s : System) (p c u : VmoId) : (s.dropClone p c).member u =
    if p = u then (s.member u).map fun m => (m.forgetClone c).getD m else s.member u := by
  obtain ⟨he, hkeep⟩ | ⟨o, m, m', ho, hm, hforget, he⟩ := s.dropClone_cases p c
  · rw [he]
    split
    · rename_i hu
      subst hu
      cases hm : s.member p with
      | none => rfl
      | some m => rw [Option.map_some, hkeep m hm, Option.getD_none]
    · rfl
  · rw [he, member_modifyMember ho]
    split
    · rename_i hu
      subst hu
      rw [show s.member p = some m from Option.bind_eq_some_iff.2 ⟨o, ho, hm⟩, Option.map_some,
        Option.map_some, hforget, Option.getD_some]
    · rfl

/-- **What is left of families** after a VM object went: its parent's list is shorter by an entry,
if there was one. -/
theorem member_fallen (hl : s.Lodged) (ho : s.vmos[v]? = some o) (hp : o.parent ≠ some v)
    (u : VmoId) : (s.fallen v o).member u =
      if v = u then none
      else if o.parent = some u then (s.member u).map fun m => (m.forgetClone v).getD m
      else s.member u := by
  set x : System := { s.unwrapped v with vmoList := s.vmoList.erase v }
  have hgone : x.vmos[v]? = none := by
    show (s.vmos.erase v)[v]? = none
    rw [Store.getElem?_erase, if_pos rfl]
  have hx : x.member u = if v = u then none else s.member u := by
    show ((s.vmos.erase v)[u]?.bind fun o => s.memberIn o.family u) = _
    rw [Store.getElem?_erase]
    split <;> rfl
  rw [fallen_eq hl ho]
  unfold destroyVmo
  dsimp only
  rw [ho]
  dsimp only
  -- An object without parent leaves nobody's list.  Otherwise the parent forgets it first, and
  -- that the family forgets it afterwards changes no other member.
  cases hparent : o.parent with
  | none =>
    refine (congrFun (member_leaveFamily hgone o.family) u).trans (hx.trans ?_)
    exact if_congr Iff.rfl rfl (if_neg (Option.some_ne_none u).symm).symm
  | some p =>
    rw [hparent] at hp
    have hgone' : (x.forgetClone p v).vmos[v]? = none := by
      rw [vmos_forgetClone]
      exact hgone
    refine (congrFun (member_leaveFamily hgone' o.family) u).trans ?_
    obtain ⟨objects, trace, he, -⟩ := x.forgetClone_eq p v
    rw [he]
    refine (x.member_dropClone p v u).trans ?_
    rw [hx]
    obtain rfl | hu := eq_or_ne v u
    · rw [if_pos rfl, if_neg fun he => hp (congrArg some he), if_pos rfl]
    · rw [if_neg hu, if_neg hu]
      exact if_congr Option.some_inj.symm rfl rfl

/-- The list of clones that a member keeps. -/
theorem clones_of_member (s : System) (u : VmoId) :
    s.broods.clones u = (s.member u).elim [] Member.clones := by
  show ((s.member u).map Member.nest).elim [] Member.Nest.clones = _
  cases s.member u <;> rfl

/-- What lists say after an object went: its own is gone, and that of its parent has one entry
less of it. -/
theorem clones_fallen (hl : s.Lodged) (ho : s.vmos[v]? = some o) (hp : o.parent ≠ some v)
    (u : VmoId) : (s.fallen v o).broods.clones u =
      if v = u then []
      else if o.parent = some u
        then (Member.removeSwapping (s.broods.clones u) v).getD (s.broods.clones u)
      else s.broods.clones u := by
  rw [clones_of_member, clones_of_member, member_fallen hl ho hp]
  split
  · rfl
  · split
    · cases s.member u with
      | none => rfl
      | some m =>
        rw [Option.map_some, Option.elim_some, Option.elim_some]
        unfold Member.forgetClone
        cases Member.removeSwapping m.clones v <;> rfl
    · rfl

/-- **What is told when a VM object goes.** -/
theorem trace_fallen (hl : s.Lodged) (ho : s.vmos[v]? = some o) (hp : o.parent ≠ some v) :
    (s.fallen v o).trace = (s.farewell v).reverse ++ s.trace := by
  rw [fallen_eq hl ho]
  unfold destroyVmo farewell
  dsimp only
  rw [ho, originalOf_of_get ho]
  dsimp only
  rw [List.reverse_append, List.reverse_singleton, List.singleton_append, List.cons_append]
  refine congrArg (Event.vmoDestroyed v :: ·) ?_
  cases hparent : o.parent with
  | none => rfl
  | some p =>
    rw [hparent] at hp
    have hne : v ≠ p := fun he => hp (congrArg some he.symm)
    have hlist : (s.broods.apply (.died v)).clones p = s.broods.clones p := by
      rw [Broods.clones_died, if_neg hne]
    -- Whoever watches the parent is found in records that the end of the clone does not touch.
    have htarget : ({ s.unwrapped v with vmoList := s.vmoList.erase v } : System).broods.target p =
        s.broods.target p := by
      refine target_congr ?_ rfl rfl
      show (s.vmos.erase v)[p]? = _
      rw [Store.getElem?_erase, if_neg hne]
    refine (trace_forgetClone { s.unwrapped v with vmoList := s.vmoList.erase v } p v).trans ?_
    rw [Broods.callTo, htarget, broods_unwrapped, hlist]
    refine congrArg (· ++ s.trace) ?_
    dsimp only
    split
    · rw [Broods.callTo]
      cases s.broods.target p <;> rfl
    · rfl

/-! ## 3. How far a chain goes

Up from a clone as long as the reference that it gives back is the last one.  The state that is
asked is that before anything went, as a count at a parent drops only when its turn comes. -/

/-- **How far a tear-down gets** that starts with giving back a reference to an object: what goes,
from the object upwards, and the first that stays, if any.  What goes next has no reference but that
of what went before. -/
inductive Goes (s : System) : VmoId → List VmoId → Option VmoId → Prop
  | stays {v : VmoId} (h : 1 < s.refCount (.vmo v)) : Goes s v [] (some v)
  | root {v : VmoId} {o : Vmo} (h : s.refCount (.vmo v) = 1) (ho : s.vmos[v]? = some o)
      (hp : o.parent = none) : Goes s v [v] none
  | clone {v p : VmoId} {o : Vmo} {vs : List VmoId} {q : Option VmoId}
      (h : s.refCount (.vmo v) = 1) (ho : s.vmos[v]? = some o) (hp : o.parent = some p)
      (rest : Goes s p vs q) : Goes s v (v :: vs) q

namespace Goes

variable {vs us : List VmoId} {q r : Option VmoId}

/-- A tear-down gets as far as it gets. -/
theorem unique (h : s.Goes v vs q) (h' : s.Goes v us r) : us = vs ∧ r = q := by
  induction h generalizing us r with
  | stays h =>
    -- Whether it stays, is the last or has a parent is read off one state, so two tear-downs take
    -- the same step.
    cases h' with
    | stays => exact ⟨rfl, rfl⟩
    | root h' | clone h' => omega
  | root h ho hp =>
    cases h' with
    | stays h' => omega
    | root => exact ⟨rfl, rfl⟩
    | clone h' ho' hp' =>
      rw [ho] at ho'
      cases ho'
      rw [hp] at hp'
      cases hp'
  | clone h ho hp _ ih =>
    cases h' with
    | stays h' => omega
    | root h' ho' hp' =>
      rw [ho] at ho'
      cases ho'
      rw [hp] at hp'
      cases hp'
    | clone h' ho' hp' rest' =>
      rw [ho] at ho'
      cases ho'
      rw [hp] at hp'
      cases hp'
      obtain ⟨rfl, rfl⟩ := ih rest'
      exact ⟨rfl, rfl⟩

/-- What goes, and what stays, is no younger than the object. -/
theorem le (h : s.Goes v vs q) (hy : s.ClonesYounger) :
    (∀ u ∈ vs, u ≤ v) ∧ ∀ u, q = some u → u ≤ v := by
  induction h with
  | stays => exact ⟨by simp, fun u hu => by cases hu; exact Nat.le_refl _⟩
  | root => exact ⟨by simp, by simp⟩
  | clone h ho hp _ ih =>
    have hlt := Nat.le_of_lt (hy ho hp)
    refine ⟨fun u hu => ?_, fun u hu => Nat.le_trans (ih.2 u hu) hlt⟩
    rcases List.mem_cons.1 hu with rfl | hu
    · exact Nat.le_refl _
    · exact Nat.le_trans (ih.1 u hu) hlt

/-- Only what is no younger than the object counts. -/
theorem congr (h : s.Goes v vs q) (hy : s.ClonesYounger) (hv : ∀ u ≤ v, t.vmos[u]? = s.vmos[u]?)
    (hr : ∀ u ≤ v, t.refCount (.vmo u) = s.refCount (.vmo u)) : t.Goes v vs q := by
  induction h with
  | stays h => exact .stays (by rwa [hr _ (Nat.le_refl _)])
  | root h ho hp =>
    exact .root ((hr _ (Nat.le_refl _)).trans h) ((hv _ (Nat.le_refl _)).trans ho) hp
  | clone h ho hp _ ih =>
    have hlt := Nat.le_of_lt (hy ho hp)
    exact .clone ((hr _ (Nat.le_refl _)).trans h) ((hv _ (Nat.le_refl _)).trans ho) hp
      (ih (fun u hu => hv u (Nat.le_trans hu hlt)) fun u hu => hr u (Nat.le_trans hu hlt))

/-- What went before does not count. -/
theorem fallen (h : s.Goes p vs q) (hy : s.ClonesYounger) (ho : s.vmos[v]? = some o)
    (hp : o.parent = some p) : (s.fallen v o).Goes p vs q := by
  have hne : ∀ u ≤ p, u ≠ v := fun u hu => Nat.ne_of_lt (Nat.lt_of_le_of_lt hu (hy ho hp))
  exact h.congr hy (fun u hu => vmos_fallen_of_ne (hne u hu)) fun u hu =>
    refCount_fallen_of_ne (hne u hu)

end Goes

/-- A tear-down of what is alive ends. -/
theorem exists_goes (hacc : Accounted s d) (hy : s.ClonesYounger) :
    ∀ {v : Nat}, s.Alive v → ∃ vs q, s.Goes v vs q := by
  intro v
  induction v using Nat.strongRecOn with
  | ind v ih =>
    intro hv
    obtain ⟨o, ho⟩ := (alive_iff hacc).1 hv
    rcases Nat.lt_or_ge 1 (s.refCount (.vmo v)) with hmany | hle
    · exact ⟨_, _, .stays hmany⟩
    · have hone : s.refCount (.vmo v) = 1 := Nat.le_antisymm hle hv
      cases hp : o.parent with
      | none => exact ⟨_, _, .root hone ho hp⟩
      | some p =>
        have halive : s.Alive p := (hacc.present _).1 (hacc.present_of_held (held_of_clone ho hp))
        obtain ⟨vs, q, hgoes⟩ := ih p (hy ho hp) halive
        exact ⟨_, _, .clone hone ho hp hgoes⟩

end System

/-! ## 4. In the midst of a run

A chain may start anywhere in an operation, so what is asked of the state is kept by moves. -/

namespace World

variable {P : System → Op → Prop} {w : World} {s : System} {d : List Task} {v p : VmoId} {o : Vmo}

/-- A state between two operations that keep to a rule, or in the midst of one.  Lists of clones are
written by hand by operations that do nothing else. -/
def Midst (P : System → Op → Prop) (w : World) : Prop :=
  ∃ u : World, u.Ran P ∧ Moves True False u w

theorem Ran.midst (h : w.Ran P) : w.Midst P := ⟨w, h, .refl⟩

namespace Midst

theorem trans {w' : World} (h : w.Midst P) (hm : Moves True False w w') : w'.Midst P := by
  obtain ⟨u, hu, hw⟩ := h
  exact ⟨u, hu, hw.trans hm⟩

theorem passed (h : w.Midst P) : Passed True True w := by
  obtain ⟨u, hu, hw⟩ := h
  exact hu.passed.trans (hw.mono id False.elim)

theorem lodged (h : w.Midst P) : w.system.Lodged := by
  obtain ⟨u, hu, hw⟩ := h
  exact hw.lodged hu.passed.accounted hu.lodged

theorem cloned (h : w.Midst P) (hP : ∀ s op, P s op → op.ListsByCloning) :
    w.system.Cloned False := by
  obtain ⟨u, hu, hw⟩ := h
  exact hw.cloned hu.passed.accounted (hu.mono hP).cloned

theorem parent_ne (h : Midst P ⟨s, d⟩) (ho : s.vmos[v]? = some o) : o.parent ≠ some v :=
  fun hp => Nat.lt_irrefl v (h.passed.clonesYounger ho hp)

/-- The next of a chain is given back in the midst of the same operation. -/
theorem fallen (h : Midst P ⟨s, .release (.vmo v) :: d⟩) (hone : s.refCount (.vmo v) = 1)
    (ho : s.vmos[v]? = some o) (hp : o.parent = some p) :
    Midst P ⟨s.fallen v o, .release (.vmo p) :: d⟩ := by
  have hmoves := (System.destroyVmo_declines (K := fun _ => True) (P := fun _ => True) hone d).moves
    (A := True) (C := False)
  have hnext : (System.destroyVmo { s with refs := s.refs.release (.vmo v) } v).2 =
      [.release (.vmo p)] := by
    unfold System.destroyVmo
    dsimp only
    rw [ho]
    dsimp only
    rw [hp]
  rw [hnext, ← System.fallen_eq h.lodged ho] at hmoves
  exact h.trans hmoves

end Midst

/-! ## 5. Chains

By induction on the chain, from the object that was given back upwards.  A step is the fall of one
object, followed by the rest of the chain in the state that it left. -/

variable {vs : List VmoId} {q : Option VmoId}

/-- What holds of each object that goes when it goes holds of all falls. -/
theorem Midst.forall_falls {Q : Fall → Prop}
    (hQ : ∀ {s v o d}, Midst P ⟨s, .release (.vmo v) :: d⟩ → s.refCount (.vmo v) = 1 →
      s.vmos[v]? = some o → Q ⟨v, s, s.fallen v o⟩)
    (h : Midst P ⟨s, .release (.vmo v) :: d⟩) (hg : s.Goes v vs q) :
    ∀ f ∈ (s.tearDown v).1, Q f := by
  induction vs generalizing s v with
  | nil =>
    cases hg with
    | stays hmany =>
      rw [System.tearDown_of_many (Nat.ne_of_gt hmany)]
      simp
  | cons u vs ih =>
    cases hg with
    | root hone ho hp =>
      rw [System.tearDown_of_root hone ho hp]
      intro f hf
      rw [List.mem_singleton.1 hf]
      exact hQ h hone ho
    | clone hone ho hp rest =>
      rw [System.tearDown_of_clone hone ho hp]
      intro f hf
      rcases List.mem_cons.1 hf with rfl | hf
      · exact hQ h hone ho
      · exact ih (h.fallen hone ho hp) (rest.fallen h.passed.clonesYounger ho hp) f hf

end World

/-! ### Each that goes -/

/-- What holds of a VM object that goes, when it goes. -/
structure Fall.Clean (f : Fall) : Prop where
  /-- Its last reference was given back. -/
  last : f.before.refCount (.vmo f.vmo) = 1
  /-- It leaves the list of all, -/
  listed : f.before.vmoList.contains f.vmo ∧ f.after.vmoList = f.before.vmoList.erase f.vmo
  /-- its family, -/
  family : (f.before.member f.vmo).isSome ∧
    f.after.memberIn (f.before.familyOf f.vmo) f.vmo = none
  /-- and its parent's list, which loses an entry of it if there was one.  Nothing else that
  families keep changes. -/
  members : ∀ u, f.after.member u = if f.vmo = u then none
    else if f.before.originalOf f.vmo = some u
      then (f.before.member u).map fun m => (m.forgetClone f.vmo).getD m
    else f.before.member u
  /-- The watcher of its parent is told before it is gone, if the parent's list had nothing else. -/
  told : f.after.trace = (f.before.farewell f.vmo).reverse ++ f.before.trace

/-- What holds besides if clones are entered in lists by cloning only. -/
structure Fall.Childless (f : Fall) : Prop where
  /-- It has no clones, -/
  clones : f.before.broods.clones f.vmo = []
  /-- and no entry of it is left: there was one, or it was taken off by hand. -/
  parent : ∀ p, f.before.originalOf f.vmo = some p → (f.before.broods.clones p).Nodup ∧
    f.vmo ∉ f.after.broods.clones p

namespace World

variable {P : System → Op → Prop} {w : World} {s : System} {d : List Task} {v p : VmoId} {o : Vmo}
variable {vs : List VmoId} {q : Option VmoId}

/-- An object that goes leaves the list of all and its family, in which it was. -/
theorem Midst.clean (h : Midst P ⟨s, .release (.vmo v) :: d⟩) (hone : s.refCount (.vmo v) = 1)
    (ho : s.vmos[v]? = some o) : (Fall.mk v s (s.fallen v o)).Clean where
  last := hone
  listed := by
    refine ⟨?_, s.vmoList_fallen v o⟩
    show s.vmoList.contains v = true
    rw [h.passed.vmosListed v]
    exact Store.contains_iff.2 ⟨o, ho⟩
  family := by
    refine ⟨?_, ?_⟩
    · obtain ⟨k, hk, -⟩ := h.lodged.member (System.vmoKin_of_get ho)
      obtain ⟨m, hm, -⟩ := Option.map_eq_some_iff.1 hk
      exact Option.isSome_iff_exists.2 ⟨m, Option.bind_eq_some_iff.2 ⟨o, ho, hm⟩⟩
    · show (s.fallen v o).memberIn (s.familyOf v) v = none
      rw [System.familyOf_of_get ho]
      exact (System.detach_gone _ _ _ _).2
  members u := by
    show (s.fallen v o).member u = if v = u then none else if s.originalOf v = some u then _ else _
    rw [System.originalOf_of_get ho]
    exact System.member_fallen h.lodged ho (h.parent_ne ho) u
  told := System.trace_fallen h.lodged ho (h.parent_ne ho)

/-- As long as clones enter lists by cloning only, an object that goes lists nobody, and its
parent does not list it any more. -/
theorem Midst.childless (h : Midst P ⟨s, .release (.vmo v) :: d⟩)
    (hP : ∀ s op, P s op → op.ListsByCloning) (hone : s.refCount (.vmo v) = 1)
    (ho : s.vmos[v]? = some o) : (Fall.mk v s (s.fallen v o)).Childless := by
  have hcloned : s.Cloned False := h.cloned hP
  have hlisted : ∀ {u c : VmoId}, c ∈ s.broods.clones u →
      ∃ x, s.vmos[c]? = some x ∧ x.parent = some u := by
    intro u c hc
    rw [System.clones_of_member] at hc
    cases hm : s.member u with
    | none =>
      rw [hm] at hc
      cases hc
    | some m =>
      rw [hm] at hc
      obtain ⟨a, -, ha⟩ := Option.bind_eq_some_iff.1 hm
      obtain ⟨k, hk, hp⟩ := hcloned.clone (System.memberKin_of_get ha) hc
      obtain ⟨x, hx, rfl⟩ := Option.map_eq_some_iff.1 hk
      exact ⟨x, hx, hp⟩
  constructor
  case clones =>
    -- a clone on the list would hold the object
    by_contra hne
    obtain ⟨c, hc⟩ := List.exists_mem_of_ne_nil _ hne
    obtain ⟨x, hx, hp⟩ := hlisted hc
    have hheld := held_of_clone hx hp
    rw [h.passed.accounted.held_eq_zero hone] at hheld
    exact Nat.lt_irrefl 0 hheld
  case parent =>
    intro p hp
    rw [System.originalOf_of_get ho] at hp
    have hnodup : (s.broods.clones p).Nodup := by
      rw [System.clones_of_member]
      cases hm : s.member p with
      | none => exact List.nodup_nil
      | some m =>
        obtain ⟨a, -, ha⟩ := Option.bind_eq_some_iff.1 hm
        exact hcloned.nodup (System.memberKin_of_get ha)
    refine ⟨hnodup, ?_⟩
    show v ∉ (s.fallen v o).broods.clones p
    have hne : v ≠ p := fun he => h.parent_ne ho (he ▸ hp)
    rw [System.clones_fallen h.lodged ho (h.parent_ne ho), if_neg hne, if_pos hp]
    by_cases hv : v ∈ s.broods.clones p
    · obtain ⟨rest, hrest, hperm⟩ := Member.removeSwapping_perm hv
      rw [hrest, Option.getD_some, hperm.mem_iff]
      exact fun hin => (hnodup.mem_erase_iff.1 hin).1 rfl
    · rw [Member.removeSwapping_eq_none_iff.2 hv]
      exact hv

end World

/-! ### The whole chain -/

/-- What it means to give back a reference to a VM object that takes a chain along. -/
structure System.TornDown (s : System) (v : VmoId) (vs : List VmoId) (q : Option VmoId) : Prop where
  /-- The run over tasks comes to what the recursive destructor does, -/
  recursive : (s.tearDown v).2 = s.release (.vmo v)
  /-- and to what the loop does. -/
  looping : s.dropLooping v = s.release (.vmo v)
  /-- What goes falls in that order, -/
  falls : (s.tearDown v).1.map Fall.vmo = vs
  /-- and that is all that is told. -/
  told : (s.release (.vmo v)).trace = (vs.flatMap s.farewell).reverse ++ s.trace
  vmos : ∀ u : Nat, (s.release (.vmo v)).vmos[u]? = if u ∈ vs then none else s.vmos[u]?
  vmoList : ∀ u : Nat, (s.release (.vmo v)).vmoList[u]? = if u ∈ vs then none else s.vmoList[u]?
  /-- What stays has one reference less. -/
  refs : ∀ r : Ref, (s.release (.vmo v)).refCount r =
    if r ∈ (vs ++ q.toList).map Ref.vmo then s.refCount r - 1 else s.refCount r
  /-- Nothing else changes but signals of views that watch. -/
  rest : ∃ (refs : RefCounts) (vmos : Store Vmo) (vmoList : Store Unit) (families : Store Family)
      (objects : Store Object) (trace : List Event), s.release (.vmo v) =
        { s with refs, vmos, vmoList, families, objects, trace } ∧
      ∀ k : Nat, objects[k]?.map Object.handles = s.objects[k]?.map Object.handles

namespace World

variable {P : System → Op → Prop} {w : World} {s : System} {d : List Task} {v p u : VmoId} {o : Vmo}
variable {vs : List VmoId} {q : Option VmoId}

/-- What is told of the rest of a chain does not depend on what went before. -/
theorem Midst.farewell_fallen (h : Midst P ⟨s, d⟩) (ho : s.vmos[v]? = some o)
    (hp : o.parent = some p) (hu : u ≤ p) : (s.fallen v o).farewell u = s.farewell u := by
  have hy : s.ClonesYounger := h.passed.clonesYounger
  have hkept : ∀ a ≤ p, (s.fallen v o).vmos[a]? = s.vmos[a]? := fun a ha =>
    System.vmos_fallen_of_ne (Nat.ne_of_lt (Nat.lt_of_le_of_lt ha (hy ho hp)))
  have horiginal : (s.fallen v o).originalOf u = s.originalOf u := by
    rw [System.originalOf, System.originalOf, hkept u hu]
  unfold System.farewell
  rw [horiginal]
  refine congrArg (· ++ _) ?_
  cases hparent : s.originalOf u with
  | none => rfl
  | some a =>
    obtain ⟨x, hx, hxa⟩ := Option.bind_eq_some_iff.1 hparent
    have hlt : a < p := Nat.lt_of_lt_of_le (hy hx hxa) hu
    have hlist : (s.fallen v o).broods.clones a = s.broods.clones a := by
      rw [System.clones_fallen h.lodged ho (h.parent_ne ho),
        if_neg (Nat.ne_of_gt (Nat.lt_trans hlt (hy ho hp))), hp,
        if_neg fun he => Nat.ne_of_gt hlt (Option.some.inj he)]
    have htarget : (s.fallen v o).broods.target a = s.broods.target a := by
      obtain ⟨families, objects, trace, he, -⟩ := s.fallen_frame v o
      exact System.target_congr (hkept a (Nat.le_of_lt hlt)) (by rw [he]) (by rw [he])
    dsimp only
    rw [hlist, Broods.callTo, Broods.callTo, htarget]

theorem tornDown_of_many (hmany : 1 < s.refCount (.vmo v)) : s.TornDown v [] (some v) := by
  have hne : s.refCount (.vmo v) ≠ 1 := Nat.ne_of_gt hmany
  have hrelease := System.release_of_many hmany
  have hrecursive := System.tearDown_of_many hne
  constructor
  case recursive => rw [hrecursive, hrelease]
  case looping => rw [System.dropLooping_of_many hne, hrelease]
  case falls => rw [hrecursive]; rfl
  case told => rw [hrelease]; rfl
  case vmos => rw [hrelease]; simp
  case vmoList => rw [hrelease]; simp
  case refs =>
    intro r
    rw [hrelease]
    refine (RefCounts.count_release _ _ _).trans (if_congr ?_ rfl rfl)
    simp [eq_comm]
  case rest => exact ⟨_, _, _, _, _, _, hrelease, fun _ => rfl⟩

theorem Midst.tornDown_of_root (h : Midst P ⟨s, .release (.vmo v) :: d⟩)
    (hone : s.refCount (.vmo v) = 1) (ho : s.vmos[v]? = some o) (hp : o.parent = none) :
    s.TornDown v [v] none := by
  have hrelease := System.release_of_root h.lodged hone ho hp
  have hrecursive := System.tearDown_of_root hone ho hp
  -- The chain has one link, and each clause is what its end does.
  constructor
  case recursive => rw [hrecursive, hrelease]
  case looping => rw [System.dropLooping_of_root hone ho hp, hrelease]
  case falls => rw [hrecursive]; rfl
  case told =>
    rw [hrelease, List.flatMap_singleton]
    exact System.trace_fallen h.lodged ho (h.parent_ne ho)
  case vmos =>
    intro u
    rw [hrelease, System.vmos_fallen, Store.getElem?_erase]
    exact if_congr (by simp [eq_comm]) rfl rfl
  case vmoList =>
    intro u
    rw [hrelease, System.vmoList_fallen, Store.getElem?_erase]
    exact if_congr (by simp [eq_comm]) rfl rfl
  case refs =>
    intro r
    rw [hrelease, System.refCount_fallen]
    exact if_congr (by simp [eq_comm]) rfl rfl
  case rest =>
    obtain ⟨families, objects, trace, he, hobjects⟩ := s.fallen_frame v o
    exact ⟨_, _, _, _, _, _, hrelease.trans he, hobjects⟩

/-- **A step up a chain.** -/
theorem Midst.tornDown_of_clone (h : Midst P ⟨s, .release (.vmo v) :: d⟩)
    (hone : s.refCount (.vmo v) = 1) (ho : s.vmos[v]? = some o) (hp : o.parent = some p)
    (hg : s.Goes p vs q) (hrest : (s.fallen v o).TornDown p vs q) : s.TornDown v (v :: vs) q := by
  have hy : s.ClonesYounger := h.passed.clonesYounger
  have hrelease := System.release_of_clone h.lodged hone ho hp
  have hrecursive := System.tearDown_of_clone hone ho hp
  obtain ⟨hgone, hstays⟩ := hg.le hy
  have hlt := hy ho hp
  have hgets : ∀ {α : Type} (x : Option α) (u : Nat),
      (if u ∈ vs then none else if v = u then none else x) = if u ∈ v :: vs then none else x := by
    intro α x u
    rw [← ite_or]
    exact if_congr (by rw [List.mem_cons, or_comm, eq_comm]) rfl rfl
  constructor
  case recursive => rw [hrecursive, hrelease, hrest.recursive]
  case looping => rw [System.dropLooping_of_clone hone ho hp, hrelease, hrest.looping]
  case falls => rw [hrecursive, List.map_cons, hrest.falls]
  -- whoever watches the rest of the chain is the same before the first object goes and after it
  case told =>
    have hsame : vs.flatMap (s.fallen v o).farewell = vs.flatMap s.farewell :=
      List.flatMap_congr fun u hu => h.farewell_fallen ho hp (hgone u hu)
    rw [hrelease, hrest.told, hsame, System.trace_fallen h.lodged ho (h.parent_ne ho),
      List.flatMap_cons, List.reverse_append, List.append_assoc]
  case vmos =>
    intro u
    rw [hrelease, hrest.vmos, System.vmos_fallen, Store.getElem?_erase, hgets]
  case vmoList =>
    intro u
    rw [hrelease, hrest.vmoList, System.vmoList_fallen, Store.getElem?_erase, hgets]
  case refs =>
    intro r
    -- what goes later is older, so it is not the object itself
    have hnot : Ref.vmo v ∉ (vs ++ q.toList).map Ref.vmo := by
      intro hv
      obtain ⟨u, hu, he⟩ := List.mem_map.1 hv
      cases he
      rcases List.mem_append.1 hu with hu | hu
      · exact Nat.not_le_of_lt hlt (hgone v hu)
      · exact Nat.not_le_of_lt hlt (hstays v (Option.mem_toList.1 hu))
    rw [hrelease, hrest.refs, System.refCount_fallen, List.cons_append, List.map_cons]
    obtain rfl | hr := eq_or_ne (Ref.vmo v) r
    · rw [if_neg hnot, if_pos rfl, if_pos List.mem_cons_self]
    · rw [if_neg hr]
      exact if_congr (by rw [List.mem_cons, or_iff_right hr.symm]) rfl rfl
  case rest =>
    obtain ⟨families, objects, trace, he, hobjects⟩ := s.fallen_frame v o
    obtain ⟨refs, vmos, vmoList, families', objects', trace', he', hobjects'⟩ := hrest.rest
    rw [he] at he' hobjects'
    refine ⟨refs, vmos, vmoList, families', objects', trace', ?_, fun k =>
      (hobjects' k).trans (hobjects k)⟩
    rw [hrelease, he, he']

/-- **A chain is torn down as far as it goes**, by induction on the chain. -/
theorem Midst.tornDown (h : Midst P ⟨s, .release (.vmo v) :: d⟩) (hg : s.Goes v vs q) :
    s.TornDown v vs q := by
  induction vs generalizing s v with
  | nil =>
    cases hg with
    | stays hmany => exact tornDown_of_many hmany
  | cons x vs ih =>
    cases hg with
    | root hone ho hp => exact h.tornDown_of_root hone ho hp
    | clone hone ho hp rest =>
      exact h.tornDown_of_clone hone ho hp rest
        (ih (h.fallen hone ho hp) (rest.fallen h.passed.clonesYounger ho hp))

/-- **How a chain of clones is torn down**, when the reference to an object is given back, at any
time.  It goes as far up as nobody else refers to what comes next, one object after the other, and
in the end all is as if each destructor had run inside of the one before.  As long as clones are
entered in lists by cloning only, each has no clones when it goes, and its parent's list has no
entry of it after that. -/
theorem Midst.chain_torn_down (h : Midst P ⟨s, .release (.vmo v) :: d⟩) :
    (∃ vs q, s.Goes v vs q) ∧ ∀ vs q, s.Goes v vs q → s.TornDown v vs q ∧
      (∀ f ∈ (s.tearDown v).1, f.Clean) ∧
      ((∀ s op, P s op → op.ListsByCloning) → ∀ f ∈ (s.tearDown v).1, f.Childless) := by
  have hacc := h.passed.accounted
  have halive : s.Alive v := by
    show 0 < s.refCount (.vmo v)
    rw [hacc.balanced, owed_cons]
    simp only [Task.holds, if_true]
    omega
  refine ⟨System.exists_goes hacc h.passed.clonesYounger halive, fun vs q hg => ?_⟩
  exact ⟨h.tornDown hg, Midst.forall_falls (fun h => h.clean) h hg,
    fun hP => Midst.forall_falls (fun h => h.childless hP) h hg⟩

theorem act_drop {t : Task} (ht : t ∈ w.dues) :
    w.act (.drop t) = ⟨w.system.settle [t], w.dues.erase t⟩ := if_pos ht

/-- One of several references is given back. -/
theorem act_drop_of_many {r : Ref} (hr : .release r ∈ w.dues) (hmany : 1 < w.system.refCount r) :
    w.act (.drop (.release r)) =
      ⟨{ w.system with refs := w.system.refs.release r }, w.dues.erase (.release r)⟩ := by
  rw [← System.release_of_many hmany]
  exact act_drop hr

/-- A chain of four objects; the two in the middle have listeners. -/
def chainOps : List Op :=
  [.createVmo 0x1000 0, .cloneVmo 1 ⟨false, 0, 0x1000, false⟩,
    .cloneVmo 2 ⟨false, 0, 0x1000, false⟩, .cloneVmo 3 ⟨false, 0, 0x1000, false⟩,
    .createListener "second", .createListener "third", .setWatcher 2 (some (.listener 1)),
    .setWatcher 3 (some (.listener 2))]

/-- The state in which only its clone refers to the third object. -/
def chained : System :=
  { (run chainOps).system with refs := (run chainOps).system.refs.release (.vmo 3) }

theorem midst_chained : ∃ d, Midst (fun _ => Op.ListsByCloning)
    ⟨chained, .release (.vmo 4) :: d⟩ := by
  have hran : (run chainOps).Ran fun _ => Op.ListsByCloning :=
    Ran.start.foldl (by simp [chainOps, Keep, Op.ListsByCloning])
  have hdropped : ((run chainOps).act (.drop (.release (.vmo 3)))).Ran
      fun _ => Op.ListsByCloning := hran.act trivial
  rw [act_drop_of_many (by decide +kernel) (by decide +kernel)] at hdropped
  have hdue : .release (.vmo 4) ∈ (run chainOps).dues.erase (.release (.vmo 3)) := by
    decide +kernel
  exact ⟨_, (hdropped.reorder (List.perm_cons_erase hdue)).midst⟩

theorem goes_chained : chained.Goes 4 [4, 3] (some 2) := by
  have hfour : (chained.vmos[4]?).map Vmo.parent = some (some 3) := by decide +kernel
  have hthree : (chained.vmos[3]?).map Vmo.parent = some (some 2) := by decide +kernel
  obtain ⟨o, ho, hp⟩ := Option.map_eq_some_iff.1 hfour
  obtain ⟨o', ho', hp'⟩ := Option.map_eq_some_iff.1 hthree
  exact .clone (by decide +kernel) ho hp
    (.clone (by decide +kernel) ho' hp' (.stays (by decide +kernel)))

/-- The fourth object and the third go, and the listeners of the third and the second are told. -/
theorem Midst.chain_torn_down_of_chained :
    (chained.TornDown 4 [4, 3] (some 2) ∧ (∀ f ∈ (chained.tearDown 4).1, f.Clean) ∧
      ∀ f ∈ (chained.tearDown 4).1, f.Childless) ∧
    [4, 3].flatMap chained.farewell =
      [.lastClone 3 (.listener 2) "third", .vmoDestroyed 4,
        .lastClone 2 (.listener 1) "second", .vmoDestroyed 3] := by
  obtain ⟨d, h⟩ := midst_chained
  obtain ⟨htorn, hclean, hchildless⟩ := h.chain_torn_down.2 _ _ goes_chained
  exact ⟨⟨htorn, hclean, hchildless fun _ _ => id⟩, by decide +kernel⟩

/-- An object and a clone of it that was entered in its list once more by hand. -/
def doubledOps : List Op :=
  [.createVmo 0x1000 0, .cloneVmo 1 ⟨false, 0, 0x1000, false⟩, .recordClone 1 1 2]

/-- The clone is on the list of what it was cloned from, and its last reference is given back; and
after that it is still there. -/
theorem clone_outlived_by_entry :
    let w := run doubledOps
    Task.release (.vmo 2) ∈ w.dues ∧ w.system.refCount (.vmo 2) = 1 ∧
      w.system.originalOf 2 = some 1 ∧
      ¬ (2 ∉ (w.act (.drop (.release (.vmo 2)))).system.broods.clones 1) := by
  have hran : (run doubledOps).Ran fun _ _ => True := Ran.start.foldl (keep_any _ _)
  have hdue : Task.release (.vmo 2) ∈ (run doubledOps).dues := by decide +kernel
  have hone : (run doubledOps).system.refCount (.vmo 2) = 1 := by decide +kernel
  have hparent : ((run doubledOps).system.vmos[2]?).map Vmo.parent = some (some 1) := by
    decide +kernel
  have hlist : (run doubledOps).system.broods.clones 1 = [2, 2] := by decide +kernel
  refine ⟨hdue, hone, by decide +kernel, fun hnot => hnot ?_⟩
  obtain ⟨o, ho, hp⟩ := Option.map_eq_some_iff.1 hparent
  have hmany : 1 < ((run doubledOps).system.fallen 2 o).refCount (.vmo 1) := by
    rw [System.refCount_fallen, if_neg (by decide)]
    decide +kernel
  have hafter : ((run doubledOps).act (.drop (.release (.vmo 2)))).system =
      ((run doubledOps).system.fallen 2 o).release (.vmo 1) := by
    rw [← System.release_of_clone hran.lodged hone ho hp, act_drop hdue, System.release]
  rw [hafter, System.release_of_many hmany]
  show 2 ∈ ((run doubledOps).system.fallen 2 o).broods.clones 1
  rw [System.clones_fallen hran.lodged ho (by rw [hp]; decide), if_neg (by decide), if_pos hp,
    hlist]
  decide

end World

end KernelObjects
