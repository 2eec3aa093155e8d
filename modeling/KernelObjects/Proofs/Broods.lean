import KernelObjects.Proofs.CloneTree
import KernelObjects.Proofs.Lives

/-
# Clones, and who is told of them

A VM object lists its clones.  Whoever watches it is called when the list gets its first entry and
when it loses its last one, and a view that watches shows the call in its signals.
`System.broods` shows just that of a state: for every VM object its watcher, its list and the koid
it is stamped with, for every view its object and its signals, who listens, and which calls there
were.

Broods change in few *beats* (`Beat`).  Most of what an operation does is no beat at all.  What it
does to broods is either a short list of beats that can be read off the operation (`Op.beats`), or
a run of *losses*, as things go whose last reference was given back (`World.act_plays`).  So
whatever is claimed of watchers is claimed of single beats, and no destructor has to be followed
again.

Beats are functions (`Broods.apply`), and where a play leads is determined by its beats.  So what
is to be known of a run of operations, as far as clones and their watchers go, is the list of its
beats; in which order things were destroyed that watch nothing and list nothing is not in it.

A call has two sides, an entry in the trace and a bit in the signals of a view, and both are part
of what shows.  A listener has no signals, so a call to one is an entry only.
-/

namespace KernelObjects

/-! ## 1. What shows

Two kinds of watchers, views and listeners, are shown as one, and the member of an object is shown
under the object. -/

/-- Whether an event is a call to somebody who watches clones. -/
def Event.isCloneCall : Event → Bool
  | firstClone .. | lastClone .. => true
  | _ => false

/-- What broods show of a member of a family. -/
structure Member.Nest where
  clones : List VmoId
  userId : Koid

/-- What broods show of a member. -/
def Member.nest (m : Member) : Member.Nest := ⟨m.clones, m.userId⟩

/-- What broods show of a view. -/
structure View.Look where
  vmo : VmoId
  /-- Nothing, if the view has already lost what every object has. -/
  signals : Option Signals

/-- What there is to be told of clones, and who is told. -/
structure Broods where
  /-- Who watches each VM object that is there. -/
  watcher : VmoId → Option (Option Watcher)
  nest : VmoId → Option Member.Nest
  look : Koid → Option View.Look
  /-- The listeners that are there, with their labels. -/
  listener : ListenerId → Option String
  /-- The calls to those who watch clones, latest first. -/
  calls : List Event
  /-- The objects that were told that nobody holds them any more, latest first. -/
  told : List Koid

namespace Broods

variable (b : Broods)

/-- Registers a watcher of an object, or takes it off; an object that is not there has none. -/
def setWatcher (v : VmoId) (x : Option Watcher) : Broods :=
  { b with watcher := fun u => if v = u then (b.watcher u).map fun _ => x else b.watcher u }

/-- Changes what is shown of a member, if it is there. -/
def modifyNest (v : VmoId) (f : Member.Nest → Member.Nest) : Broods :=
  { b with nest := fun u => if v = u then (b.nest u).map f else b.nest u }

/-- Changes the list of an object and leaves its stamp alone. -/
def setClones (v : VmoId) (f : List VmoId → List VmoId) : Broods :=
  b.modifyNest v fun n => { n with clones := f n.clones }

/-- What a view shows from now on, or that it is gone. -/
def setLook (k : Koid) (x : Option View.Look) : Broods :=
  { b with look := fun j => if k = j then x else b.look j }

/-- Who listens under an id from now on, or that nobody does. -/
def setListener (o : ListenerId) (x : Option String) : Broods :=
  { b with listener := fun a => if o = a then x else b.listener a }

/-- Clears and sets signals of a view. -/
def signal (k : Koid) (clear set : Signals) : Broods :=
  { b with look := fun j => if k = j
      then (b.look j).map fun a => { a with signals := a.signals.map fun x => x.update clear set }
      else b.look j }

/-- The clones that an object lists. -/
def clones (v : VmoId) : List VmoId := (b.nest v).elim [] Member.Nest.clones

/-- Who watches an object and is still there, with the label that is known of a listener. -/
def target (v : VmoId) : Option (Watcher × Option String) :=
  match b.watcher v with
  | some (some (.view k)) => if (b.look k).isSome then some (.view k, none) else none
  | some (some (.listener o)) => (b.listener o).map fun label => (.listener o, some label)
  | some none | none => none

/-- The call that tells somebody of the first clone, or of the end of the last one. -/
def callOf (v : VmoId) (appeared : Bool) (t : Watcher × Option String) : Event :=
  if appeared then .firstClone v t.1 t.2 else .lastClone v t.1 t.2

/-- What becomes of a call: it is written down, and a view shows it. -/
def hear (v : VmoId) (appeared : Bool) (t : Watcher × Option String) : Broods :=
  let b := { b with calls := callOf v appeared t :: b.calls }
  match t.1 with
  | .listener _ => b
  | .view k => if appeared then b.signal k .noClones .empty else b.signal k .empty .noClones

/-- Tells whoever watches an object, if there is anybody. -/
def tell (v : VmoId) (appeared : Bool) : Broods :=
  (b.target v).elim b (b.hear v appeared)

end Broods

/-! ## 2. Beats

Each beat is a function of broods, with a condition under which it may come.  A play is a run of
allowed beats, and losses are the beats that nobody asks for. -/

/-- One of the ways in which broods change. -/
inductive Beat where
  /-- A VM object is there. -/
  | born (v : VmoId)
  /-- A clone is listed, because it was created. -/
  | cloned (v c : VmoId)
  /-- A clone is listed by hand. -/
  | recorded (v c : VmoId)
  | stamped (v : VmoId) (id : Koid)
  | watched (v : VmoId) (x : Option Watcher)
  /-- A view is there, has stamped its object and watches it. -/
  | viewed (k : Koid) (v : VmoId)
  | listened (o : ListenerId) (label : String)
  | signalled (k : Koid) (clear set : Signals)
  /-- A clone is taken off a list. -/
  | forgot (v c : VmoId)
  /-- A VM object is gone. -/
  | died (v : VmoId)
  | viewGone (k : Koid)
  | listenerGone (o : ListenerId)
  /-- An object is told that nobody holds it any more; a view stops watching. -/
  | told (k : Koid)
  deriving DecidableEq, Repr

/-- The beats that follow when something is given back. -/
def Beat.isLoss : Beat → Bool
  | forgot .. | died .. | viewGone .. | listenerGone .. | told .. => true
  | _ => false

namespace Broods

variable (b : Broods)

/-- The list of clones is written first; whoever watches is told after that. -/
def apply : Beat → Broods
  | .born v =>
    { b with
      watcher := fun u => if v = u then some none else b.watcher u
      nest := fun u => if v = u then some ⟨[], 0⟩ else b.nest u }
  | .cloned v c =>
    let b := b.setClones v (· ++ [c])
    if (b.clones v).length = 1 then b.tell v true else b
  | .recorded v c => b.setClones v (· ++ [c])
  | .stamped v id => b.modifyNest v fun n => if n.userId = 0 then { n with userId := id } else n
  | .watched v x => b.setWatcher v x
  | .viewed k v =>
    ((b.modifyNest v fun n => { n with userId := k }).setWatcher v (some (.view k))).setLook k
      (some ⟨v, some .noClones⟩)
  | .listened o label => b.setListener o (some label)
  | .signalled k clear set => b.signal k clear set
  | .forgot v c =>
    match Member.removeSwapping (b.clones v) c with
    | none => b
    | some rest =>
      let b := b.setClones v fun _ => rest
      if rest.isEmpty then b.tell v false else b
  | .died v =>
    { b with
      watcher := fun u => if v = u then none else b.watcher u
      nest := fun u => if v = u then none else b.nest u }
  | .viewGone k => b.setLook k none
  | .listenerGone o => b.setListener o none
  | .told k =>
    let t := { b with told := k :: b.told }
    (b.look k).elim t fun a => t.setWatcher a.vmo none

/-- What the beat is up to: an object comes and goes while no view refers to it, and a view is the
first to stamp its object. -/
def Allows : Beat → Prop
  | .born v => b.watcher v = none ∧ b.nest v = none ∧ ∀ k a, b.look k = some a → a.vmo ≠ v
  | .viewed k v => b.look k = none ∧ k ≠ 0 ∧ (b.watcher v).isSome ∧ ∃ xs, b.nest v = some ⟨xs, 0⟩
  | .died v => ∀ k a, b.look k = some a → a.vmo ≠ v
  | _ => True

/-- Beats one after the other. -/
inductive Plays : Broods → List Beat → Broods → Prop
  | done {b : Broods} : Plays b [] b
  | beat {b b' : Broods} {x : Beat} {xs : List Beat} (h : b.Allows x)
      (hrest : Plays (b.apply x) xs b') : Plays b (x :: xs) b'

/-- A run of losses. -/
def Loses (b b' : Broods) : Prop := ∃ xs : List Beat, Plays b xs b' ∧ ∀ x ∈ xs, x.isLoss

variable {b} {b' b'' : Broods} {x : Beat} {xs ys : List Beat}

namespace Plays

/-- Plays can be joined. -/
theorem append (h : Plays b xs b') (h' : Plays b' ys b'') : Plays b (xs ++ ys) b'' := by
  induction h with
  | done => exact h'
  | beat hx _ ih => exact .beat hx (ih h')

theorem one (h : b.Allows x) : Plays b [x] (b.apply x) := .beat h .done

/-- A play of one beat is that beat. -/
theorem of_one (h : Plays b [x] b') : b.Allows x ∧ b' = b.apply x := by
  cases h with
  | beat hx hrest =>
    cases hrest
    exact ⟨hx, rfl⟩

/-- What holds at first and is kept by every beat of the list holds in the end. -/
theorem keeps {I : Broods → Prop} (h : Plays b xs b') (h0 : I b)
    (hkeep : ∀ c x, x ∈ xs → c.Allows x → I c → I (c.apply x)) : I b' := by
  induction h with
  | done => exact h0
  | beat hx _ ih =>
    exact ih (hkeep _ _ List.mem_cons_self hx h0) fun c x hmem =>
      hkeep c x (List.mem_cons_of_mem _ hmem)

end Plays

namespace Loses

theorem refl : Loses b b := ⟨[], .done, by simp⟩

/-- What does not change loses nothing. -/
theorem of_eq (h : b' = b) : Loses b b' := h ▸ refl

theorem one (hx : x.isLoss) (h : b.Allows x) : Loses b (b.apply x) :=
  ⟨[x], .one h, by simpa using hx⟩

/-- Losses add up. -/
theorem trans (h : Loses b b') (h' : Loses b' b'') : Loses b b'' := by
  obtain ⟨xs, hxs, hl⟩ := h
  obtain ⟨ys, hys, hl'⟩ := h'
  refine ⟨xs ++ ys, hxs.append hys, fun x hx => ?_⟩
  rcases List.mem_append.1 hx with hx | hx
  · exact hl x hx
  · exact hl' x hx

end Loses

/-! ### Changes that are none -/

/-- To write what is there changes nothing. -/
theorem modifyNest_self {v : VmoId} {f : Member.Nest → Member.Nest}
    (h : ∀ n, b.nest v = some n → f n = n) : b.modifyNest v f = b := by
  unfold modifyNest
  congr 1
  funext u
  split
  · rename_i hu
    subst hu
    cases hn : b.nest v with
    | none => rfl
    | some n => exact congrArg some (h n hn)
  · rfl

/-- The signals of what is no view do not show. -/
theorem signal_of_none {k : Koid} (h : b.look k = none) (clear set : Signals) :
    b.signal k clear set = b := by
  unfold signal
  congr 1
  funext j
  split
  · rename_i hj
    rw [← hj, h]
    rfl
  · rfl

/-- A look that comes and goes. -/
theorem setLook_setLook_none {k : Koid} {x : Option View.Look} (h : b.look k = none) :
    (b.setLook k x).setLook k none = b := by
  unfold setLook
  congr 1
  funext j
  dsimp only
  split
  · rename_i hj
    rw [← hj, h]
  · rfl

end Broods

namespace System

/-- What a state shows of clones and of those who are told of them. -/
def broods (s : System) : Broods where
  watcher v := s.vmos[v]?.map Vmo.watcher
  nest v := (s.member v).map Member.nest
  look k := s.views[k]?.map fun w => ⟨w.vmo, s.objects[k]?.map Object.signals⟩
  listener o := s.listeners[o]?
  calls := s.trace.filter Event.isCloneCall
  told := s.told

variable {s : System}

/-- A view looks as its record and the signals of its object say. -/
theorem look_broods {k : Koid} {w : View} (h : s.views[k]? = some w) :
    s.broods.look k = some ⟨w.vmo, s.objects[k]?.map Object.signals⟩ := by
  show s.views[k]?.map _ = _
  rw [h]
  rfl

theorem look_broods_eq_none {k : Koid} : s.broods.look k = none ↔ s.views[k]? = none :=
  Option.map_eq_none_iff

theorem watcher_broods {v : VmoId} {o : Vmo} (h : s.vmos[v]? = some o) :
    s.broods.watcher v = some o.watcher := by
  show s.vmos[v]?.map _ = _
  rw [h]
  rfl

theorem watcher_broods_eq_none {v : VmoId} : s.broods.watcher v = none ↔ s.vmos[v]? = none :=
  Option.map_eq_none_iff

/-- What is not there keeps no list. -/
theorem nest_broods_of_none {v : VmoId} (h : s.vmos[v]? = none) : s.broods.nest v = none := by
  show (s.member v).map _ = _
  rw [member, h]
  rfl

theorem nest_broods {v : VmoId} {o : Vmo} (h : s.vmos[v]? = some o) :
    s.broods.nest v = (s.memberIn o.family v).map Member.nest := by
  show (s.member v).map _ = _
  rw [member, h]
  rfl

/-- The number of clones is read off the list. -/
theorem length_clones_broods (v : VmoId) : (s.broods.clones v).length = s.cloneCount v := by
  unfold Broods.clones cloneCount memberNat
  show (((s.member v).map Member.nest).elim [] Member.Nest.clones).length = _
  cases s.member v <;> rfl

theorem clones_broods_eq_nil {v : VmoId} : s.broods.clones v = [] ↔ s.cloneCount v = 0 := by
  rw [← length_clones_broods, List.length_eq_zero_iff]

/-! ## 3. What broods do not show

One lemma for each function that writes none of it.  They are needed once, for the operations;
afterwards only beats are looked at. -/

section Frame

variable (s : System)

/-- Only calls about clones and about handles are seen of the trace. -/
theorem broods_log {e : Event} (hcall : e.isCloneCall = false) (htold : e.told? = none) :
    (s.log e).broods = s.broods := by
  unfold broods told log
  rw [List.filter_cons_of_neg (by simp [hcall]), List.filterMap_cons_none htold]
  rfl

/-- Objects of which the views among them show the same signals. -/
theorem broods_objects {objects : Store Object}
    (h : ∀ k : Nat, s.views.contains k →
      objects[k]?.map Object.signals = s.objects[k]?.map Object.signals) :
    ({ s with objects } : System).broods = s.broods := by
  have hlook : (fun j : Nat => s.views[j]?.map fun w =>
      (⟨w.vmo, objects[j]?.map Object.signals⟩ : View.Look)) =
      fun j : Nat => s.views[j]?.map fun w => ⟨w.vmo, s.objects[j]?.map Object.signals⟩ := by
    funext j
    cases hj : s.views[j]? with
    | none => rfl
    | some w => rw [h j (Store.contains_iff.2 ⟨w, hj⟩)]
  show Broods.mk _ _ _ _ _ _ = Broods.mk _ _ _ _ _ _
  rw [hlook]
  rfl

theorem broods_modifyObject {k : Koid} {f : Object → Object} (h : ∀ o, (f o).signals = o.signals) :
    ({ s with objects := s.objects.modify k f } : System).broods = s.broods :=
  s.broods_objects fun a _ => Store.map_modify (fun o _ => h o) a

/-- What is no view comes and goes as an object. -/
theorem broods_eraseObject {k : Koid} (hk : s.views[k]? = none) :
    ({ s with objects := s.objects.erase k } : System).broods = s.broods := by
  refine s.broods_objects fun a ha => ?_
  rw [Store.getElem?_erase, if_neg]
  rintro rfl
  rw [Store.contains_eq_isSome, hk] at ha
  cases ha

theorem broods_insertObject {k : Koid} (hk : s.views[k]? = none) (o : Object) :
    ({ s with objects := s.objects.insert k o } : System).broods = s.broods := by
  refine s.broods_objects fun a ha => ?_
  rw [Store.getElem?_insert, if_neg]
  rintro rfl
  rw [Store.contains_eq_isSome, hk] at ha
  cases ha

/-- A VM object that keeps its watcher and its family. -/
theorem broods_modifyVmo {v : VmoId} {f : Vmo → Vmo}
    (hw : ∀ o, s.vmos[v]? = some o → (f o).watcher = o.watcher)
    (hf : ∀ o, s.vmos[v]? = some o → (f o).family = o.family) :
    (s.modifyVmo v f).broods = s.broods := by
  have hwatcher : ∀ u : Nat, (s.vmos.modify v f)[u]?.map Vmo.watcher = s.vmos[u]?.map Vmo.watcher :=
    Store.map_modify hw
  have hmember : (s.modifyVmo v f).member = s.member := by
    funext u
    unfold member modifyVmo
    dsimp only
    rw [Store.getElem?_modify]
    split
    · rename_i hu
      subst hu
      cases ho : s.vmos[v]? with
      | none => rfl
      | some o => exact congrArg (fun a => s.memberIn a v) (hf o ho)
    · rfl
  show Broods.mk _ _ _ _ _ _ = Broods.mk _ _ _ _ _ _
  congr 1
  · exact funext hwatcher
  · rw [hmember]

/-- What a change of a member shows. -/
theorem broods_modifyMember {v : VmoId} {o : Vmo} {f : Member → Member}
    {g : Member.Nest → Member.Nest} (ho : s.vmos[v]? = some o)
    (h : ∀ m, s.memberIn o.family v = some m → (f m).nest = g m.nest) :
    (s.modifyMember o.family v f).broods = s.broods.modifyNest v g := by
  show Broods.mk _ _ _ _ _ _ = Broods.mk _ _ _ _ _ _
  congr 1
  funext u
  show ((s.modifyMember o.family v f).member u).map Member.nest =
    if v = u then ((s.member u).map Member.nest).map g else (s.member u).map Member.nest
  unfold member
  show (s.vmos[u]?.bind fun a => (s.modifyMember o.family v f).memberIn a.family u).map _ = _
  by_cases hu : v = u
  · subst hu
    rw [if_pos rfl, ho]
    dsimp only [Option.bind_some]
    rw [memberIn_modifyMember, if_pos ⟨rfl, rfl⟩]
    cases hm : s.memberIn o.family v with
    | none => rfl
    | some m => exact congrArg some (h m hm)
  · rw [if_neg hu]
    congr 1
    refine Option.bind_congr fun a _ => ?_
    rw [memberIn_modifyMember, if_neg fun hq => hu hq.2]

/-- Families that keep the same of every VM object that is there. -/
theorem broods_families (families : Store Family)
    (h : ∀ (u : Nat) (o : Vmo), s.vmos[u]? = some o →
      (memberIn { s with families } o.family u).map Member.nest =
        (s.memberIn o.family u).map Member.nest) :
    ({ s with families } : System).broods = s.broods := by
  have hnest : (fun u => (({ s with families } : System).member u).map Member.nest) =
      fun u => (s.member u).map Member.nest := by
    funext u
    unfold member
    dsimp only
    cases ho : s.vmos[u]? with
    | none => rfl
    | some o => exact h u o ho
  show Broods.mk _ _ _ _ _ _ = Broods.mk _ _ _ _ _ _
  rw [hnest]
  rfl

/-- A member may be written to unseen, as long as its nest stays. -/
theorem broods_modifyMember_self {f : FamilyId} {v : VmoId} {g : Member → Member}
    (h : ∀ m, s.memberIn f v = some m → (g m).nest = m.nest) :
    (s.modifyMember f v g).broods = s.broods :=
  s.broods_families _ fun u o _ => s.map_memberIn_modifyMember h o.family u

/-- What a family keeps of a stranger shows nowhere. -/
theorem broods_modifyMember_other {f : FamilyId} {v : VmoId} (g : Member → Member)
    (h : ∀ o, s.vmos[v]? = some o → o.family ≠ f) : (s.modifyMember f v g).broods = s.broods := by
  refine s.broods_families _ fun u o ho => ?_
  show ((s.modifyMember f v g).memberIn o.family u).map Member.nest = _
  rw [memberIn_modifyMember, if_neg]
  rintro ⟨rfl, rfl⟩
  exact h o ho rfl

/-- Registering a watcher is seen as that, -/
theorem broods_setWatcher (v : VmoId) (x : Option Watcher) :
    (s.setWatcher v x).broods = s.broods.setWatcher v x := by
  have hmember : (s.setWatcher v x).member = s.member := by
    funext u
    unfold member setWatcher modifyVmo
    dsimp only
    rw [Store.getElem?_modify]
    split
    · cases s.vmos[u]? <;> rfl
    · rfl
  have hwatcher : ∀ u : Nat, (s.setWatcher v x).vmos[u]?.map Vmo.watcher =
      if v = u then (s.vmos[u]?.map Vmo.watcher).map fun _ => x
      else s.vmos[u]?.map Vmo.watcher := by
    intro u
    unfold setWatcher modifyVmo
    dsimp only
    rw [Store.getElem?_modify]
    split
    · cases s.vmos[u]? <;> rfl
    · rfl
  show Broods.mk _ _ _ _ _ _ = Broods.mk _ _ _ _ _ _
  congr 1
  · exact funext hwatcher
  · exact congrArg (fun f u => (f u).map Member.nest) hmember

/-- and so are signals of a view, while those of other objects are seen by nobody here. -/
theorem broods_signal (k : Koid) (clear set : Signals) :
    (s.signal k clear set).broods = s.broods.signal k clear set := by
  show Broods.mk _ _ _ _ _ _ = Broods.mk _ _ _ _ _ _
  congr 1
  funext j
  show s.views[j]?.map (fun w => (⟨w.vmo,
      (s.objects.modify k fun o => { o with signals := o.signals.update clear set })[j]?.map
        Object.signals⟩ : View.Look)) =
    if k = j then (s.views[j]?.map _).map _ else s.views[j]?.map _
  rw [Store.getElem?_modify]
  cases s.views[j]? with
  | none => split <;> rfl
  | some w =>
    split
    · cases s.objects[j]? <;> rfl
    · rfl

/-- What is no view has signals of its own. -/
theorem broods_signal_of_none {k : Koid} (h : s.views[k]? = none) (clear set : Signals) :
    (s.signal k clear set).broods = s.broods := by
  rw [broods_signal, Broods.signal_of_none (look_broods_eq_none.2 h)]

/-! ### Hooks -/

/-- A view that is told of its last handle stops watching; that is the beat `told`. -/
theorem broods_zeroHandles (k : Koid) : (s.zeroHandles k).broods = s.broods.apply (.told k) := by
  have hlog : (s.log (.zeroHandles k (s.labelOf k))).broods =
      { s.broods with told := k :: s.broods.told } := rfl
  have hviews : (s.log (.zeroHandles k (s.labelOf k))).views[k]? = s.views[k]? := rfl
  unfold zeroHandles
  dsimp only [Broods.apply]
  cases hk : s.views[k]? with
  | none => rw [hviews.trans hk, look_broods_eq_none.2 hk, Option.elim_none, hlog]
  | some w =>
    rw [hviews.trans hk, look_broods hk, Option.elim_some]
    exact (broods_setWatcher _ _ _).trans (congrArg (·.setWatcher w.vmo none) hlog)

/-- A call about clones goes on record. -/
theorem broods_call {e : Event} (hcall : e.isCloneCall) (htold : e.told? = none) :
    (s.log e).broods = { s.broods with calls := e :: s.broods.calls } := by
  unfold broods told log
  rw [List.filter_cons_of_pos hcall, List.filterMap_cons_none htold]
  rfl

/-- **Whoever watches and is still there is told**, as broods say. -/
theorem broods_tellWatcher (v : VmoId) (appeared : Bool) :
    (s.tellWatcher v appeared).broods = s.broods.tell v appeared := by
  have hnone : s.broods.target v = none → s.broods.tell v appeared = s.broods := fun h => by
    rw [Broods.tell, h]
    rfl
  unfold tellWatcher
  cases ho : s.vmos[v]? with
  | none =>
    refine (hnone ?_).symm
    rw [Broods.target, watcher_broods_eq_none.2 ho]
  | some o =>
    have hwatcher := watcher_broods ho
    dsimp only [Option.bind_some]
    cases hw : o.watcher with
    | none =>
      refine (hnone ?_).symm
      rw [Broods.target, hwatcher, hw]
    | some x =>
      rw [hw] at hwatcher
      -- a view is told if it is still there, and shows it; a listener that is there is only
      -- written down
      cases x with
      | view k =>
        dsimp only
        by_cases hk : s.views.contains k = true
        · obtain ⟨w, hview⟩ := Store.contains_iff.1 hk
          have ht : s.broods.target v = some (.view k, none) := by
            rw [Broods.target, hwatcher]
            dsimp only
            rw [look_broods hview]
            rfl
          rw [if_pos hk, Broods.tell, ht, Option.elim_some]
          cases appeared
          · exact (broods_signal _ _ _ _).trans
              (congrArg (·.signal k .empty .noClones) (s.broods_call rfl rfl))
          · exact (broods_signal _ _ _ _).trans
              (congrArg (·.signal k .noClones .empty) (s.broods_call rfl rfl))
        · have hview : s.views[k]? = none :=
            Store.contains_eq_false_iff.1 (Bool.eq_false_iff.2 hk)
          rw [if_neg hk]
          refine (hnone ?_).symm
          rw [Broods.target, hwatcher]
          dsimp only
          rw [look_broods_eq_none.2 hview]
          rfl
      | listener i =>
        dsimp only
        have ht : s.broods.target v = s.listeners[i]?.map fun label =>
            (.listener i, some label) := by
          rw [Broods.target, hwatcher]
          rfl
        cases hi : s.listeners[i]? with
        | none =>
          rw [hi] at ht
          exact (hnone ht).symm
        | some label =>
          rw [hi, Option.map_some] at ht
          rw [Broods.tell, ht, Option.elim_some]
          cases appeared
          · exact s.broods_call rfl rfl
          · exact s.broods_call rfl rfl

/-! ### Lists of clones -/

theorem clones_broods {v : VmoId} {o : Vmo} (ho : s.vmos[v]? = some o) :
    s.broods.clones v = ((s.memberIn o.family v).map Member.clones).getD [] := by
  rw [Broods.clones, nest_broods ho]
  cases s.memberIn o.family v <;> rfl

/-- An entry that is made by hand tells nobody. -/
theorem broods_recordClone {v : VmoId} {o : Vmo} (ho : s.vmos[v]? = some o) (c : VmoId) :
    (s.recordClone o.family v c).2.broods = s.broods.apply (.recorded v c) := by
  rw [recordClone_eq]
  exact s.broods_modifyMember ho fun _ _ => rfl

/-- Taking a clone off is the beat `forgot`.  If the list is empty after it, the watcher is told,
just as `tellWatcher` does it on the state: the cases are those of the watcher. -/
theorem broods_forgetClone (v c : VmoId) :
    (s.forgetClone v c).broods = s.broods.apply (.forgot v c) := by
  dsimp only [Broods.apply]
  unfold forgetClone
  -- First the cases in which nothing happens: no such object, no member, no such clone on the
  -- list.  In the last one the list gets shorter, and if that leaves it empty the watcher is
  -- told.
  cases ho : s.vmos[v]? with
  | none =>
    rw [show s.broods.clones v = [] by rw [Broods.clones, nest_broods_of_none ho]; rfl]
    rfl
  | some o =>
    rw [s.clones_broods ho]
    dsimp only
    cases hm : s.memberIn o.family v with
    | none => rfl
    | some m =>
      dsimp only [Option.bind_some, Option.map_some, Option.getD_some]
      unfold Member.forgetClone
      cases hrest : Member.removeSwapping m.clones c with
      | none => rfl
      | some rest =>
        dsimp only [Option.map_some]
        have hlist : (s.modifyMember o.family v fun _ => { m with clones := rest }).broods =
            s.broods.setClones v fun _ => rest := by
          refine s.broods_modifyMember ho fun a ha => ?_
          rw [hm] at ha
          cases ha
          rfl
        split
        · rw [broods_tellWatcher, hlist]
        · exact hlist

theorem vmos_forgetClone (v c : VmoId) : (s.forgetClone v c).vmos = s.vmos := by
  obtain ⟨objects, trace, he, -⟩ := s.forgetClone_eq v c
  obtain ⟨families, hf, -⟩ := s.dropClone_eq v c
  rw [he, hf]

/-- The family of what is gone shows nothing of it. -/
theorem broods_eraseMember {f : FamilyId} {v : VmoId} (hv : s.vmos[v]? = none) :
    ({ s with families := s.families.modify f fun g => g.erase v } : System).broods =
      s.broods := by
  refine s.broods_families _ fun u o ho => congrArg _ (s.memberIn_eraseMember f ?_ o.family)
  rintro rfl
  rw [hv] at ho
  cases ho

/-- A VM object that goes takes its nest along. -/
theorem broods_eraseVmo (v : VmoId) :
    ({ s with vmos := s.vmos.erase v, vmoList := s.vmoList.erase v } : System).broods =
      s.broods.apply (.died v) := by
  show Broods.mk _ _ _ _ _ _ = Broods.mk _ _ _ _ _ _
  congr 1
  · funext u
    rw [Store.getElem?_erase]
    split <;> rfl
  · funext u
    show ((s.vmos.erase v)[u]?.bind fun a => s.memberIn a.family u).map Member.nest = _
    rw [Store.getElem?_erase]
    split <;> rfl

/-- **A VM object that goes leaves its own broods first, and its parent's list after that.** -/
theorem broods_destroyVmo {v : VmoId} {o : Vmo} (ho : s.vmos[v]? = some o) :
    (s.destroyVmo v).1.broods = match o.parent with
      | none => s.broods.apply (.died v)
      | some p => (s.broods.apply (.died v)).apply (.forgot p v) := by
  have hgone : ∀ t : System, t.vmos[v]? = none → t.broods = (System.log { t with
      families := t.families.modify o.family fun f => f.erase v } (.vmoDestroyed v)).broods :=
    fun t ht => ((broods_log _ rfl rfl).trans (t.broods_eraseMember ht)).symm
  have herased : (s.vmos.erase v)[v]? = none := by rw [Store.getElem?_erase, if_pos rfl]
  unfold destroyVmo
  rw [ho]
  dsimp only
  cases o.parent with
  | none => exact (hgone _ herased).symm.trans (s.broods_eraseVmo v)
  | some p =>
    dsimp only
    rw [← s.broods_eraseVmo v, ← broods_forgetClone]
    refine (hgone _ ?_).symm
    rw [vmos_forgetClone]
    exact herased

/-! ### Jobs, processes, handles and pages -/

theorem broods_openSharedArena : s.openSharedArena.broods = s.broods := by
  rw [openSharedArena_eq]
  split <;> rfl

theorem broods_makeHandle (arena : ArenaId) (k : Koid) (rights : Rights) (mayGrow : Bool) :
    (s.makeHandle arena k rights mayGrow).2.broods = s.broods := by
  obtain he | he | ⟨a, -, -, he⟩ := s.makeHandle_cases arena k rights mayGrow
  · rw [he]
  · rw [he]
    rfl
  · rw [he]
    exact s.broods_modifyObject fun _ => rfl

theorem broods_duplicateHandle (h : HandleId) (rights : Rights) :
    (s.duplicateHandle h rights).2.broods = s.broods := by
  obtain he | ⟨r, -, he⟩ := s.duplicateHandle_cases h rights
  · rw [he]
  · rw [he]
    exact s.broods_makeHandle _ _ _ _

end Frame

/-- What is a job is no view. -/
theorem ViewsApart.views_of_job (h : s.ViewsApart) {k : Koid} {j : Job} (hj : s.jobs[k]? = some j) :
    s.views[k]? = none := by
  by_contra hk
  obtain ⟨w, hw⟩ := Option.ne_none_iff_exists'.1 hk
  rw [h k (Store.contains_iff.2 ⟨w, hw⟩)] at hj
  cases hj

end System

theorem Upkeep.viewsApart {k : Koid} {s t : System} (h : Upkeep k s t) (hs : s.ViewsApart) :
    t.ViewsApart := by
  intro a ha
  rw [h.views] at ha
  rw [← Store.contains_eq_false_iff, h.contains]
  exact Store.contains_eq_false_iff.2 (hs a ha)

/-- Upkeep of jobs does not show: the signals of a job are no signals of a view. -/
theorem Upkeep.broods {k : Koid} {s t : System} (h : Upkeep k s t) (hs : s.ViewsApart) :
    t.broods = s.broods := by
  induction h with
  | refl | job => rfl
  | trans h _ ih ih' => exact (ih' (h.viewsApart hs)).trans (ih hs)
  | shown hj =>
    obtain ⟨j, hj⟩ := Store.contains_iff.1 hj
    exact System.broods_signal_of_none _ (hs.views_of_job hj) _ _
  | unbound slot => cases slot <;> rfl
  | killed | died | halted => exact System.broods_log _ rfl rfl

namespace System

variable {s : System}

/-- A job that takes a child shows that in its own signals, and a job is no view. -/
theorem broods_attach (h : s.ViewsApart) (k : Koid) (add : Job → Job) :
    (s.attach k add).2.broods = s.broods := by
  unfold attach
  cases hj : s.jobs[k]? with
  | none => rfl
  | some j =>
    dsimp only
    split
    · exact broods_signal_of_none (s.modifyJob k add) (h.views_of_job hj) _ _
    · rfl

/-- A process is no view either. -/
theorem broods_endProcess (code : Int) {k : Koid} (h : s.views[k]? = none) :
    (s.endProcess code k).broods = s.broods := by
  unfold endProcess
  exact (broods_log _ rfl rfl).trans (broods_signal_of_none _ h _ _)

/-! ## 4. Losses

What goes may be somebody who watches, somebody who listens, a clone or an object with a list.
Only the end of a clone is told, and the order is that of the destructor: first the clone is off
the list, then the watcher of its original is told. -/

/-- What is destroyed and is no view shows in no brood. -/
theorem broods_destroyObject (h : s.ViewsApart) {k : Koid} (hk : s.views[k]? = none) :
    (s.destroyObject k).1.broods = s.broods := by
  have hgone := s.broods_eraseObject hk
  -- the account of those that are left
  have hbooks : ∀ t : System, (((t.unregister k).bump .jobDestroy).log (.destroyed k none)).broods =
      t.broods := fun t => broods_log _ rfl rfl
  have hleft : ∀ t : System, ((t.bump .processDestroy).log (.destroyed k none)).broods =
      t.broods := fun t => broods_log _ rfl rfl
  unfold destroyObject
  dsimp only
  rw [hk]
  cases hj : s.jobs[k]? with
  | some j =>
    dsimp only
    rw [hbooks]
    cases j.parent with
    | none => exact hgone
    | some p =>
      dsimp only
      rw [(detachJob_upkeep _ _ _).broods]
      · exact hgone
      · intro a ha
        exact (Store.getElem?_erase _ _ _).trans (by split; rfl; exact h a ha)
  | none =>
    cases hp : s.processes[k]? with
    | some p =>
      dsimp only
      rw [hleft, (detachProcess_upkeep _ _ _).broods]
      · exact hgone
      · exact h
    | none =>
      cases s.witnesses[k]? with
      | some w => exact (broods_log _ rfl rfl).trans hgone
      | none => exact hgone

/-- A view that is destroyed is gone from the picture, and that is all. -/
theorem broods_destroyView {k : Koid} {w : View} (hj : s.jobs[k]? = none)
    (hp : s.processes[k]? = none) (hw : s.views[k]? = some w) :
    (s.destroyObject k).1.broods = s.broods.apply (.viewGone k) := by
  have hgone : ({ s with objects := s.objects.erase k, views := s.views.erase k }
      : System).broods = s.broods.apply (.viewGone k) := by
    show Broods.mk _ _ _ _ _ _ = Broods.mk _ _ _ _ _ _
    congr 1
    funext a
    rw [Store.getElem?_erase, Store.getElem?_erase]
    split <;> rfl
  unfold destroyObject
  dsimp only
  rw [hj, hp, hw]
  exact (broods_log _ rfl rfl).trans hgone

/-- A handle that is closed may be the last one of a view, which is told then. -/
theorem broods_closeHandle (h : HandleId) :
    (s.closeHandle h).1.broods = s.broods ∨ ∃ k, (s.closeHandle h).1.broods =
      s.broods.apply (.told k) := by
  unfold closeHandle
  split
  · exact .inl rfl
  · rename_i r _
    have herased : (({ s with
        arenas := s.arenas.modify r.arena fun a => a.erase r.base
        objects := s.objects.modify r.object fun o => { o with handles := o.handles - 1 } }
        : System).log (.handleClosed r.base)).broods = s.broods :=
      (broods_log _ rfl rfl).trans (broods_modifyObject { s with
        arenas := s.arenas.modify r.arena fun a => a.erase r.base } fun _ => rfl)
    dsimp only
    split
    · refine .inr ⟨r.object, ?_⟩
      rw [broods_zeroHandles, herased]
    · exact .inl herased

end System

/-! ### Edits -/

/-- The watcher is written by the edits that are about it. -/
theorem Vmo.Edit.watcher_eq {a : Topic} {o o' : Vmo} (h : o.Edit a o')
    (ha : a ∉ [Topic.stamps, .watchers, .clones]) : o'.watcher = o.watcher := by
  cases h with
  | name => rfl
  | watcher => exact absurd (by decide) ha

/-- The nest is written by the edits that are about stamps and clones. -/
theorem Member.Edit.nest {a : Topic} {m m' : Member} (h : m.Edit a m')
    (ha : a ∉ [Topic.stamps, .watchers, .clones]) : m'.nest = m.nest := by
  cases h with
  | windows | pages | cache => rfl
  | size =>
    unfold Member.resize
    split <;> rfl
  | stamp | clones => exact absurd (by decide) ha

/-- Only edits of stamps, watchers and lists of clones show. -/
theorem Edit.broods {a : Topic} {s t : System} (h : Edit a s t)
    (ha : a ∉ [Topic.stamps, .watchers, .clones]) : t.broods = s.broods := by
  induction h with
  | refl | config | space | job | process | owned | owner | unmapped => rfl
  | trans _ _ ih ih' => exact (ih' ha).trans (ih ha)
  | vmo h =>
    exact System.broods_modifyVmo _ (fun o ho => (h o ho).watcher_eq ha)
      fun o ho => congrArg Vmo.Kin.family (h o ho).kin
  | member h => exact System.broods_modifyMember_self _ fun m hm => (h m hm).nest ha

namespace System

open Broods (Loses)

variable {s : System} {d : List Task}

/-- An object that goes is taken off its parent's list and out of its family.  Nobody holds it, so
no view shows of it. -/
theorem destroyVmo_loses {v : VmoId} (hheld : s.held (.vmo v) = 0) :
    Loses s.broods (s.destroyVmo v).1.broods := by
  cases ho : s.vmos[v]? with
  | none =>
    refine .of_eq ?_
    unfold destroyVmo
    rw [ho]
  | some o =>
    have hdied : Loses s.broods (s.broods.apply (.died v)) := by
      refine .one rfl fun k a ha hv => ?_
      obtain ⟨w, hw, rfl⟩ := Option.map_eq_some_iff.1 ha
      have hpos := held_of_view hw
      rw [show w.vmo = v from hv, hheld] at hpos
      exact Nat.lt_irrefl 0 hpos
    rw [broods_destroyVmo s ho]
    cases o.parent with
    | none => exact hdied
    | some p => exact hdied.trans (.one rfl trivial)

/-- **What one task does to broods.** -/
theorem perform_loses {x : Task} (hacc : Accounted s (x :: d)) :
    Loses s.broods (s.perform x).1.broods := by
  cases x with
  | release r =>
    unfold perform
    dsimp only
    split
    · exact .refl
    · rename_i h1
      -- What goes with the last reference is a view, which stops watching; a VM object, whose
      -- original loses a clone; a listener; or something that broods do not show.
      cases r with
      | object k =>
        cases hw : s.views[k]? with
        | none =>
          exact .of_eq (broods_destroyObject (s := { s with refs := s.refs.release (.object k) })
            hacc.viewsApart hw)
        | some w =>
          obtain ⟨hj, hp, -⟩ := hacc.only_view hw
          rw [show (destroy { s with refs := s.refs.release (.object k) } (.object k)).1.broods = _
            from broods_destroyView (s := { s with refs := s.refs.release (.object k) }) hj hp hw]
          exact .one rfl trivial
      | vmo v =>
        exact destroyVmo_loses (s := { s with refs := s.refs.release (.vmo v) })
          (hacc.held_eq_zero h1)
      | handle h =>
        refine .of_eq ?_
        simp only [destroy]
        split <;> rfl
      | mapping m => exact .refl
      | listener o =>
        refine cast (congrArg (Loses s.broods) ?_) (Loses.one (b := s.broods)
          (x := .listenerGone o) rfl trivial)
        show Broods.mk _ _ _ _ _ _ = Broods.mk _ _ _ _ _ _
        congr 1
        funext a
        exact (Store.getElem?_erase _ _ _).symm
    · exact .refl
  | close h =>
    obtain he | ⟨k, he⟩ := broods_closeHandle (s := s) h
    · exact .of_eq he
    · exact he ▸ .one rfl trivial
  | closeTable t =>
    unfold perform
    dsimp only
    split <;> exact .refl

theorem broods_emptied (s : System) (t : TableId) (table : Table) :
    (s.emptied t table).broods = s.broods := by
  obtain ⟨handles, he, -⟩ := s.emptied_eq t table
  rw [he]
  rfl

end System

/-- **What one chore does to broods** takes something away at most. -/
theorem Chore.loses {op : Op} {v w : World} (h : Chore op v w) (hacc : Accounted v.system v.dues) :
    Broods.Loses v.system.broods w.system.broods := by
  cases h with
  | reorder => exact .refl
  | share => exact .refl
  | perform x => exact System.perform_loses hacc
  | @emptied s d t table => exact .of_eq (s.broods_emptied t table)
  | @ended s d k p code _ hp =>
    exact .of_eq (System.broods_endProcess code (hacc.only_process hp).2.1)
  | left k p => exact .of_eq ((System.detachProcess_upkeep _ k p).broods hacc.viewsApart)
  | @condemned s d k j code _ hj =>
    exact .of_eq ((System.commitKill_upkeep _ code _ _).broods hacc.viewsApart)
  | @told s d k => exact s.broods_zeroHandles k ▸ .one rfl trivial
  | @made s d k arena rights mayGrow =>
    have hbroods := s.broods_makeHandle arena k rights mayGrow
    generalize s.makeHandle arena k rights mayGrow = r at hbroods
    obtain ⟨_ | _, t⟩ := r <;> exact .of_eq hbroods
  | adopted => exact .refl
  | unslotted => exact .refl
  | dropped => exact .refl

/-- **Chores are a run of losses.** -/
theorem Chores.loses {op : Op} {v w : World} (h : Chores op v w)
    (hacc : Accounted v.system v.dues) : Broods.Loses v.system.broods w.system.broods :=
  h.keep (I := fun u => Broods.Loses v.system.broods u.system.broods) hacc .refl
    fun hacc hchore hi => hi.trans (hchore.loses hacc)

/-- To give back a reference is to lose, or nothing. -/
theorem System.release_loses {s : System} {d : List Task} {r : Ref}
    (hacc : Accounted s (.release r :: d)) : Broods.Loses s.broods (s.release r).broods :=
  (s.release_chores r d : Chores .settledConfig _ _).loses hacc

end KernelObjects
