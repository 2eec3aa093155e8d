import KernelObjects.Proofs.Broods
import KernelObjects.Proofs.Onward

/-
# What operations do to broods

An operation that creates, stamps, watches or lists something does so in beats that can be read
off it (`Op.beats`).  Every other operation does nothing to broods, or takes something away from
them, as things go whose last reference it gave back.  `World.act_plays` says so for each
operation, and `World.Onward.recount` for a run of operations, which is thereby a run of beats.

A clone is born into the family of its original.  That this family is there is an invariant of its
own (`System.Housed`): families are never given up.

An operation either shows on purpose or by what follows from it, never both.  An operation that
gives something back lists no clone, and one that lists a clone gives nothing back; so the beats
of a single operation are a short list of known ones, or any number of losses (`Op.Yields`).  From
a beat that is no loss one can therefore tell which operation it came of (`Beat.ComesOf`), and
that is what turns a statement about beats into one about what clients asked for.
-/

namespace KernelObjects

open Broods (Loses Plays)

/-! ## 1. Families

Broods find a member through the family of its object.  A new object brings a family or is entered
into one that is there, and no family is ever given up, so there is one to look into. -/

/-- The family of every VM object is there. -/
def System.Housed (s : System) : Prop :=
  ∀ (v : Nat) (o : Vmo), s.vmos[v]? = some o → s.families.contains o.family

/-- A decline takes members out of their families and keeps the families themselves. -/
theorem Decline.housed {K P : Koid → Prop} {w w' : World} (h : Decline K P w w')
    (hh : w.system.Housed) : w'.system.Housed := by
  cases h with
  | inert hi =>
    intro v o ho
    have hkin := hi.vmo v
    rw [ho] at hkin
    obtain ⟨a, ha, hao⟩ := Option.map_eq_some_iff.1 hkin.symm
    have hfamily : a.family = o.family := congrArg Vmo.Kin.family hao
    rw [hi.family, ← hfamily]
    exact hh _ _ ha
  | @vmo s d v a hcount ha =>
    intro u o ho
    obtain ⟨families, he, hsame⟩ := s.withoutVmo_eq v a
    rw [he] at ho ⊢
    dsimp only at ho ⊢
    rw [Store.getElem?_erase] at ho
    split at ho
    · cases ho
    · exact (hsame o.family).trans (hh _ _ ho)
  | _ => exact hh

/-- A VM object is born into a family that is there, or brings its own. -/
theorem Birth.housed {A C : Prop} {w w' : World} (h : Birth A C w w') (hh : w.system.Housed) :
    w'.system.Housed := by
  -- Only a new object or a new clone is asked for a family.  The first brings one, the second is
  -- entered into that of the object that it is cloned from; resizing and listing by hand write
  -- into a family that is there.
  cases h with
  | @vmo s d vmo member hp hf hc hs =>
    intro u o ho
    unfold System.withVmo at ho ⊢
    dsimp only at ho ⊢
    rw [Store.getElem?_insert] at ho
    rw [Std.ExtTreeMap.contains_insert]
    split at ho
    · cases ho
      simp [hf]
    · simp [hh _ _ ho]
  | @clone s d v a vmo member ha hp hf hc hs =>
    intro u o ho
    unfold System.withClone at ho ⊢
    dsimp only at ho ⊢
    rw [Store.contains_modify, Store.contains_modify]
    rw [Store.getElem?_insert] at ho
    split at ho
    · cases ho
      rw [hf]
      exact hh _ _ ha
    · exact hh _ _ ho
  | resize hg hs =>
    intro u o ho
    exact (Store.contains_modify _ _ _ _).trans (hh _ _ ho)
  | rewire hC =>
    intro u o ho
    exact (Store.contains_modify _ _ _ _).trans (hh _ _ ho)
  | _ => exact hh

/-- So every VM object has a family at any time. -/
theorem World.Passed.housed {A C : Prop} {w : World} (h : Passed A C w) : w.system.Housed := by
  refine h.keeps (I := fun w => w.system.Housed) (fun v o ho => ?_) fun v v' _ hmove hh => ?_
  · simp [System.initial] at ho
  · rcases hmove with hmove | hmove
    · exact hmove.housed hh
    · exact hmove.housed hh

/-- No object is known as zero. -/
theorem World.Passed.nextKoid_pos {A C : Prop} {w : World} (h : Passed A C w) :
    0 < w.system.nextKoid :=
  Nat.lt_of_lt_of_le (by decide : 0 < System.initial.nextKoid) h.moves.steady.nextKoid

/-! ## 2. Births

A birth is read off the state before it: the number of what is new is the next one, and what it
shows is known. -/

namespace System

variable {s : System} {d : List Task}

/-- A new object has an empty nest and nobody watches it. -/
theorem broods_addVmo (v : VmoId) {vmo : Vmo} (member : Member)
    (hf : s.families.contains vmo.family) (hw : vmo.watcher = none)
    (hm : member.nest = ⟨[], 0⟩) :
    (s.addVmo v vmo member).broods = s.broods.apply (.born v) := by
  obtain ⟨g, hg⟩ := Store.contains_iff.1 hf
  -- What is new is found in its family under its own number only.
  have hin : ∀ a u, (s.addVmo v vmo member).memberIn a u =
      if vmo.family = a ∧ v = u then some member else s.memberIn a u := by
    intro a u
    rw [memberIn_addVmo]
    split
    · rename_i h
      rw [← h.1, hg, Option.map_some]
    · rfl
  show Broods.mk _ _ _ _ _ _ = Broods.mk _ _ _ _ _ _
  congr 1
  · funext u
    show (s.vmos.insert v vmo)[u]?.map Vmo.watcher = _
    rw [Store.getElem?_insert]
    split
    · rw [Option.map_some, hw]
    · rfl
  · funext u
    show ((s.vmos.insert v vmo)[u]?.bind fun a => (s.addVmo v vmo member).memberIn a.family u).map
      Member.nest = _
    rw [Store.getElem?_insert]
    by_cases hu : v = u
    · subst hu
      rw [if_pos rfl, if_pos rfl, Option.bind_some, hin, if_pos ⟨rfl, rfl⟩, Option.map_some, hm]
    · rw [if_neg hu, if_neg hu]
      congr 1
      refine Option.bind_congr fun a _ => ?_
      rw [hin, if_neg fun h => hu h.2]

/-- A new object finds nobody who refers to it. -/
theorem allows_born (hacc : Accounted s d) : s.broods.Allows (.born s.nextVmo) := by
  have hfresh : s.vmos[s.nextVmo]? = none := by
    rw [← Store.contains_eq_false_iff, Bool.eq_false_iff]
    exact fun hc => Nat.lt_irrefl _ (hacc.bounded.vmo hc)
  refine ⟨watcher_broods_eq_none.2 hfresh, nest_broods_of_none hfresh, fun k a ha hv => ?_⟩
  obtain ⟨w, hw, rfl⟩ := Option.map_eq_some_iff.1 ha
  have hthere : s.Present (.vmo w.vmo) := hacc.present_of_held (held_of_view hw)
  rw [show w.vmo = s.nextVmo from hv] at hthere
  obtain ⟨o, ho⟩ := Store.contains_iff.1 hthere
  rw [hfresh] at ho
  cases ho

/-- A new family is nobody's yet. -/
theorem Housed.memberIn_enterFamily (hacc : Accounted s d) (hh : s.Housed) {v : Nat} {o : Vmo}
    (ho : s.vmos[v]? = some o) : s.enterFamily.memberIn o.family v = s.memberIn o.family v := by
  unfold memberIn enterFamily
  dsimp only
  rw [Store.getElem?_insert, if_neg]
  exact (Nat.ne_of_lt (hacc.bounded.family (hh _ _ ho))).symm

/-- A VM object that is created is one birth, -/
theorem createVmo_plays (hacc : Accounted s d) (hh : s.Housed) {size : Nat} {options : BitVec 32}
    {v : VmoId} {t : System} (h : s.createVmo size options = (.ok v, t)) :
    Plays s.broods [.born v] t.broods := by
  have hcreation := s.createVmo_creation size options
  rw [h] at hcreation
  cases hcreation with
  | born =>
    have hsame : s.enterFamily.broods = s.broods :=
      s.broods_families _ fun u o ho => congrArg _ (Housed.memberIn_enterFamily hacc hh ho)
    have hfounded : s.enterFamily.families.contains s.nextVmo :=
      Std.ExtTreeMap.contains_insert_self
    rw [← addVmo_enterFamily s rfl, broods_addVmo s.nextVmo _ hfounded rfl rfl, hsame]
    exact .one (allows_born hacc)

/-- and a refusal changes nothing. -/
theorem createVmo_error {size : Nat} {options : BitVec 32} {e : Refusal} {t : System}
    (h : s.createVmo size options = (.error e, t)) : t = s := by
  have hcreation := s.createVmo_creation size options
  rw [h] at hcreation
  cases hcreation
  rfl

/-- A clone that is refused leaves no trace. -/
theorem cloneVmo_error {v : VmoId} {ask : CloneRequest} {e : Refusal} {t : System}
    (h : s.cloneVmo v ask = (.error e, t)) : t = s := by
  have hcreation := s.cloneVmo_creation v ask
  rw [h] at hcreation
  cases hcreation
  rfl

/-- The number that comes back is the length of the list with the new entry. -/
theorem recordClone_fst {v : VmoId} {o : Vmo} (ho : s.vmos[v]? = some o) (c : VmoId) :
    (s.recordClone o.family v c).1 =
      ((s.broods.setClones v (· ++ [c])).clones v).length := by
  have hnest := nest_broods ho
  unfold recordClone Broods.clones Broods.setClones Broods.modifyNest
  dsimp only
  rw [if_pos rfl, hnest]
  cases s.memberIn o.family v with
  | none => rfl
  | some m =>
    show m.clones.length + 1 = (m.clones ++ [c]).length
    rw [List.length_append]
    rfl

/-- A new clone is there first and recorded after that. -/
theorem broods_withClone (hacc : Accounted s d) (hh : s.Housed) {v : VmoId} {o : Vmo}
    (ho : s.vmos[v]? = some o) (ask : CloneRequest) (size : Nat) :
    ((s.enterClone v o ask size).recordClone o.family v s.nextVmo).1 =
        (((s.broods.apply (.born s.nextVmo)).setClones v (· ++ [s.nextVmo])).clones v).length ∧
      (s.withClone v (o.cloneRecord v ask) { size, parentOffset := ask.offset }).broods =
        (s.broods.apply (.born s.nextVmo)).apply (.recorded v s.nextVmo) := by
  have hborn : (s.enterClone v o ask size).broods = s.broods.apply (.born s.nextVmo) :=
    broods_addVmo (s := retain { s with nextVmo := s.nextVmo + 1 } (.vmo v)) s.nextVmo _
      (hh _ _ ho : s.families.contains o.family) rfl rfl
  have hne : s.nextVmo ≠ v := (Nat.ne_of_lt (hacc.bounded.vmo (Store.contains_iff.2 ⟨o, ho⟩))).symm
  have hentered : (s.enterClone v o ask size).vmos[v]? = some o :=
    (Store.getElem?_insert _ _ _ _).trans (by rw [if_neg hne]; exact ho)
  rw [← recordClone_enterClone, ← hborn]
  exact ⟨recordClone_fst hentered s.nextVmo, broods_recordClone _ hentered s.nextVmo⟩

/-- A clone is a birth and then an entry in the list of its original; the watcher is told if that is
the first entry. -/
theorem cloneVmo_plays (hacc : Accounted s d) (hh : s.Housed) {v : VmoId} {ask : CloneRequest}
    {c : VmoId} {t : System} (h : s.cloneVmo v ask = (.ok c, t)) :
    Plays s.broods [.born c, .cloned v c] t.broods := by
  suffices ht : c = s.nextVmo ∧ t.broods =
      (s.broods.apply (.born s.nextVmo)).apply (.cloned v s.nextVmo) by
    obtain ⟨rfl, ht⟩ := ht
    exact .beat (allows_born hacc) (ht ▸ .one trivial)
  have hcreation := s.cloneVmo_creation v ask
  rw [h] at hcreation
  cases hcreation with
  | @first o size ho _ _ hcount =>
    obtain ⟨hfirst, hlisted⟩ := broods_withClone hacc hh ho ask size
    refine ⟨rfl, ?_⟩
    rw [broods_tellWatcher, hlisted]
    exact (if_pos (hfirst.symm.trans hcount)).symm
  | @further o size ho _ _ hcount =>
    obtain ⟨hfurther, hlisted⟩ := broods_withClone hacc hh ho ask size
    rw [hfurther] at hcount
    refine ⟨rfl, ?_⟩
    rw [hlisted]
    exact (if_neg hcount).symm

/-! ### Views -/

/-- A view that is given back at once, while its object stays. -/
theorem broods_release_view {k : Koid} {w : View} (h1 : s.refCount (.object k) = 1)
    (hj : s.jobs[k]? = none) (hp : s.processes[k]? = none) (hw : s.views[k]? = some w)
    (h2 : 1 < (s.refs.release (.object k)).count (.vmo w.vmo)) :
    (s.release (.object k)).broods = s.broods.apply (.viewGone k) := by
  set t : System := { s with refs := s.refs.release (.object k) }
  have hdestroy : t.destroyObject k = ((t.destroyObject k).1, [.release (.vmo w.vmo)]) := by
    refine Prod.ext rfl ?_
    unfold destroyObject
    dsimp only
    rw [show t.jobs[k]? = none from hj, show t.processes[k]? = none from hp,
      show t.views[k]? = some w from hw]
  rw [release_of_one h1 hdestroy h2, settle]
  exact broods_destroyView (s := t) hj hp hw

/-- A view is first seen with the bit set and no clones looked at. -/
theorem broods_enterView (v : VmoId) :
    (s.enterView v).broods = s.broods.setLook s.nextKoid (some ⟨v, some .noClones⟩) := by
  show Broods.mk _ _ _ _ _ _ = Broods.mk _ _ _ _ _ _
  congr 1
  funext j
  show (s.views.insert s.nextKoid { vmo := v })[j]?.map (fun a => (⟨a.vmo,
    (s.objects.insert s.nextKoid { signals := .noClones })[j]?.map Object.signals⟩ : View.Look)) = _
  rw [Store.getElem?_insert, Store.getElem?_insert]
  split <;> rfl

/-- A stamp is put where there was none. -/
theorem broods_setUserId (v : VmoId) (id : Koid) :
    (s.setUserId v id).2.broods = s.broods.apply (.stamped v id) := by
  dsimp only [Broods.apply]
  obtain ⟨he, hclaimed⟩ | ⟨o, m, ho, hm, hz, he⟩ := s.setUserId_cases v id
  · rw [he]
    refine (Broods.modifyNest_self fun n hn => ?_).symm
    obtain ⟨m, hm, rfl⟩ := Option.map_eq_some_iff.1 hn
    exact if_neg (hclaimed m hm)
  · rw [he]
    refine (s.broods_modifyMember ho fun a ha => ?_)
    rw [hm] at ha
    cases ha
    exact (if_pos hz).symm

/-- A view that is created is entered, stamps its object and watches it: one beat, since nobody can
act in between. -/
theorem createView_plays (hacc : Accounted s d) (hpos : 0 < s.nextKoid) {v : VmoId} {k : Koid}
    {t : System} (h : s.createView v = (.ok k, t)) :
    Plays s.broods [.viewed k v] t.broods := by
  have hcreation := s.createView_creation v
  rw [h] at hcreation
  cases hcreation with
  | @taken o m ho hm hz =>
    have hentered : (s.enterView v).broods = _ := broods_enterView v
    have hstamped :=
      (s.enterView v).broods_modifyMember (f := fun m => { m with userId := s.nextKoid })
      (g := fun n => { n with userId := s.nextKoid }) ho fun _ _ => rfl
    have hallows : s.broods.Allows (.viewed s.nextKoid v) := by
      refine ⟨look_broods_eq_none.2 hacc.fresh_object.2.2.2.1, Nat.ne_of_gt hpos, ?_, m.clones, ?_⟩
      · rw [watcher_broods ho]
        rfl
      · rw [nest_broods ho, hm, ← hz]
        rfl
    refine cast (congrArg (Plays s.broods _) ?_) (Plays.one hallows)
    rw [broods_setWatcher, setUserId_of_unstamped (s := s.enterView v) ho hm hz, hstamped, hentered]
    rfl

/-- A view that cannot stamp its object leaves no trace in broods. -/
theorem broods_createView_refused (hacc : Accounted s d) {v : VmoId} {e : Refusal} {t : System}
    (h : s.createView v = (.error e, t)) : t.broods = s.broods := by
  have hcreation := s.createView_creation v
  rw [h] at hcreation
  cases hcreation with
  | absent => rfl
  | @stamped o ho =>
    obtain ⟨-, hj, hp, hnew, -⟩ := hacc.fresh_object
    obtain ⟨hone, hmany⟩ := count_entered (r := .vmo v) hacc (Store.contains_iff.2 ⟨o, ho⟩)
    have hview : (s.enterView v).views[s.nextKoid]? = some { vmo := v } :=
      (Store.getElem?_insert _ _ _ _).trans (if_pos rfl)
    refine (broods_release_view (s := s.enterView v) hone hj hp hview hmany).trans ?_
    show (s.enterView v).broods.setLook s.nextKoid none = _
    rw [broods_enterView]
    exact Broods.setLook_setLook_none (look_broods_eq_none.2 hnew)

/-! ## 3. Operations that take away at most

They create nothing that watches or is watched.  What they do to broods comes from what they
destroy, and is a run of losses. -/

/-- Jobs do not show. -/
theorem broods_createRootJob (hacc : Accounted s d) (hasHaltHandler : Bool) :
    (s.createRootJob hasHaltHandler).2.broods = s.broods := by
  unfold createRootJob
  dsimp only
  obtain ⟨counters, registry, he⟩ := s.settledConfig.2.addJob_eq
    { parent := none, maxHeight := s.settledConfig.1.rootHeight, name := rootName, hasHaltHandler
      policy := Policy.initial }
  rw [he]
  refine Eq.trans ?_ (s.settledConfig_edit.broods (by decide))
  refine broods_insertObject s.settledConfig.2 ?_ _
  rw [settledConfig_eq]
  exact hacc.fresh_object.2.2.2.1

/-- A child that is turned down goes again, and takes what it held along. -/
theorem createJob_loses (hacc : Accounted s d) (parent : Koid) :
    Loses s.broods (s.createJob parent).2.broods := by
  have hnew : s.views[s.nextKoid]? = none := hacc.fresh_object.2.2.2.1
  have hborn : ∀ (q : Job) (height : Nat), (s.addChild parent q height).broods = s.broods := by
    intro q height
    obtain ⟨counters, registry, he⟩ := s.addChild_eq parent q height
    rw [he]
    exact s.broods_insertObject hnew _
  have hcreation := createJob_creation hacc parent
  generalize s.createJob parent = r at hcreation
  -- Turned down before it was entered, taken, or entered and given back: only the last one takes
  -- something away, and that is a release like any other.
  cases hcreation with
  | absent | low => exact .refl
  | @taken q height hq hh hr =>
    have hapart : (s.addChild parent q height).ViewsApart := by
      obtain ⟨counters, registry, he⟩ := s.addChild_eq parent q height
      rw [he]
      intro a ha
      have ha : s.views.contains a = true := ha
      refine (Store.getElem?_insert _ _ _ _).trans ?_
      rw [if_neg, hacc.viewsApart a ha]
      rintro rfl
      rw [Store.contains_eq_isSome, hnew] at ha
      cases ha
    exact .of_eq ((broods_attach hapart _ _).trans (hborn q height))
  | @untaken q height hq hh hr =>
    exact .trans (.of_eq (hborn q height)) (release_loses (addChild_accounted hacc hq hh hr))

/-- The same of a process; what it held is its job and an empty table. -/
theorem createProcess_loses (hacc : Accounted s d) (job : Koid) (name : Name) :
    Loses s.broods (s.createProcess job name).2.broods := by
  have hcreation := s.createProcess_creation job name
  generalize s.createProcess job name = r at hcreation
  cases hcreation with
  | absent => exact .refl
  | offered hoffer =>
    have hacc' := openSharedArena_accounted hacc
    rw [← s.broods_openSharedArena]
    generalize s.openSharedArena = t at hoffer hacc'
    have hborn : ∀ j : Job, (t.enterProcess job name j.policy).broods = t.broods := fun _ =>
      t.broods_insertObject hacc'.fresh_object.2.2.2.1 { signals := .empty }
    cases hoffer with
    | @taken j hj =>
      have haccb := enterProcess_accounted hacc' (Store.contains_iff.2 ⟨j, hj⟩) name j.policy
      exact .of_eq ((broods_attach haccb.viewsApart _ _).trans (hborn j))
    | @untaken j hj =>
      have haccb := enterProcess_accounted hacc' (Store.contains_iff.2 ⟨j, hj⟩) name j.policy
      exact .trans (.of_eq (hborn j)) (release_loses haccb)

theorem broods_createWitness (hacc : Accounted s d) (label : String) (signals : Signals) :
    (s.createWitness label signals).2.broods = s.broods :=
  s.broods_insertObject hacc.fresh_object.2.2.2.1 { signals }

end System

/-! ## 4. What can be read off an operation

The answer of an operation tells whether it was refused, so it is part of what is read. -/

/-- The beats of something that may be refused. -/
def Beat.ifDone {α : Type} (r : Outcome α) (f : α → List Beat) : List Beat :=
  match r with
  | .ok a => f a
  | .error _ => []

/-- What an operation does to broods on purpose. -/
def Op.beats (s : System) : Op → List Beat
  | createVmo size options => Beat.ifDone (s.createVmo size options).1 fun v => [.born v]
  | cloneVmo v ask => Beat.ifDone (s.cloneVmo v ask).1 fun c => [.born c, .cloned v c]
  | createView v => Beat.ifDone (s.createView v).1 fun k => [.viewed k v]
  | createListener label => [.listened s.nextId label]
  | setUserId v id => [.stamped v id]
  | setWatcher v x => [.watched v x]
  | recordClone f v c => if s.vmos[v]?.map Vmo.family = some f then [.recorded v c] else []
  | forgetClone v c => [.forgot v c]
  | signal k clear set => [.signalled k clear set]
  | zeroHandles k => [.told k]
  | _ => []

/-- Whether an operation may give something back. -/
def Op.GivesBack : Op → Prop
  | createJob .. | createProcess .. | drop .. | makeFromKernel .. | tableAdd .. | tableDuplicate ..
  | tableClear .. | killJob .. | killProcess .. | enforcePolicy .. | resetPort .. => True
  | _ => False

/-- The beats that may come of an operation: those that can be read off it, or losses, if it may
give something back. -/
def Op.Yields (op : Op) (s : System) (xs : List Beat) : Prop :=
  xs = op.beats s ∨ op.GivesBack ∧ ∀ x ∈ xs, x.isLoss

/-- What a beat that is no loss says of the operation that it comes of. -/
def Beat.ComesOf (op : Op) (xs : List Beat) : Beat → Prop
  | watched u y => op = .setWatcher u y
  | signalled j clear set => op = .signal j clear set
  | viewed j u => xs = [.viewed j u]
  | cloned u c => (∃ ask, op = .cloneVmo u ask) ∧ xs = [.born c, .cloned u c]
  | recorded u c => (∃ f, op = .recordClone f u c) ∧ xs = [.recorded u c]
  | _ => True

/-- Beats of a call that may be refused come from its answer. -/
theorem Beat.mem_ifDone {α : Type} {r : Outcome α} {f : α → List Beat} {x : Beat}
    (h : x ∈ Beat.ifDone r f) : ∃ a, r = .ok a ∧ x ∈ f a := by
  cases r with
  | ok a => exact ⟨a, rfl, h⟩
  | error e => cases h

/-- Each beat of an operation comes of it: the cases are the operations, most of which have none. -/
theorem Op.beats_comeOf (op : Op) (s : System) {x : Beat} (hx : x ∈ op.beats s) :
    x.ComesOf op (op.beats s) := by
  -- An operation that has several beats says in each of them which ones, so that a beat can be
  -- traced to the others of its operation.
  cases op with
  | createVmo size options =>
    rw [Op.beats] at hx
    obtain ⟨v, -, hx⟩ := Beat.mem_ifDone hx
    cases List.mem_singleton.1 hx
    trivial
  | cloneVmo v ask =>
    rw [Op.beats] at hx
    obtain ⟨c, hc, hx⟩ := Beat.mem_ifDone hx
    have hbeats : Op.beats s (.cloneVmo v ask) = [.born c, .cloned v c] := by
      rw [Op.beats, hc]
      rfl
    rcases List.mem_cons.1 hx with rfl | hx
    · trivial
    · cases List.mem_singleton.1 hx
      exact ⟨⟨ask, rfl⟩, hbeats⟩
  | createView v =>
    rw [Op.beats] at hx
    obtain ⟨k, hk, hx⟩ := Beat.mem_ifDone hx
    have hbeats : Op.beats s (.createView v) = [.viewed k v] := by
      rw [Op.beats, hk]
      rfl
    cases List.mem_singleton.1 hx
    exact hbeats
  | recordClone f v c =>
    by_cases hf : s.vmos[v]?.map Vmo.family = some f
    · have hbeats : Op.beats s (.recordClone f v c) = [.recorded v c] := if_pos hf
      rw [hbeats] at hx
      cases List.mem_singleton.1 hx
      exact ⟨⟨f, rfl⟩, hbeats⟩
    · rw [show Op.beats s (.recordClone f v c) = [] from if_neg hf] at hx
      cases hx
  | setWatcher v y =>
    cases List.mem_singleton.1 hx
    exact rfl
  | signal k clear set =>
    cases List.mem_singleton.1 hx
    exact rfl
  | createListener | setUserId | forgetClone | zeroHandles =>
    cases List.mem_singleton.1 hx
    trivial
  | _ => cases hx

/-- The same of the beats that an operation yields along its paces. -/
theorem Op.Yields.comesOf {op : Op} {s : System} {xs : List Beat} (h : op.Yields s xs) {x : Beat}
    (hx : x ∈ xs) : x.ComesOf op xs := by
  rcases h with rfl | ⟨-, hl⟩
  · exact op.beats_comeOf s hx
  · have hloss := hl x hx
    cases x with
    | forgot | died | viewGone | listenerGone | told => trivial
    | _ => cases hloss

/-- **What every operation does to broods.** -/
theorem World.act_plays {w : World} (h : Passed True True w) (op : Op) :
    ∃ xs, op.Yields w.system xs ∧ Plays w.system.broods xs (w.act op).system.broods := by
  have hacc := h.accounted
  have hhoused := h.housed
  have hpos := h.nextKoid_pos
  obtain ⟨s, d⟩ := w
  have hacc : Accounted s d := hacc
  have loses : ∀ {op : Op} {t : System}, op.GivesBack → Loses s.broods t.broods →
      ∃ xs, op.Yields s xs ∧ Plays s.broods xs t.broods :=
    fun hop ⟨xs, hxs, hl⟩ => ⟨xs, .inr ⟨hop, hl⟩, hxs⟩
  have plays : ∀ {op : Op} {xs : List Beat} {t : System}, op.beats s = xs →
      Plays s.broods xs t.broods → ∃ xs, op.Yields s xs ∧ Plays s.broods xs t.broods :=
    fun hop hxs => ⟨_, .inl hop.symm, hxs⟩
  have one : ∀ {op : Op} {x : Beat} {t : System}, op.beats s = [x] → s.broods.Allows x →
      t.broods = s.broods.apply x → ∃ xs, op.Yields s xs ∧ Plays s.broods xs t.broods :=
    fun hop hx he => plays hop (he ▸ .one hx)
  have beside : ∀ {op : Op} {t : System}, op.beats s = [] → t.broods = s.broods →
      ∃ xs, op.Yields s xs ∧ Plays s.broods xs t.broods :=
    fun hop he => plays hop (he ▸ .done)
  -- what an operation gives out shows in no brood
  have after : ∀ {op : Op} {α : Type} {e : List Task} {r : Outcome α × System} {due : α → Task},
      (∃ xs, op.Yields s xs ∧ Plays s.broods xs r.2.broods) →
        ∃ xs, op.Yields s xs ∧ Plays s.broods xs (World.after ⟨s, e⟩ r due).system.broods := by
    rintro op α e ⟨_ | _, t⟩ due h
    · exact h
    · exact h
  have chored : ∀ {op : Op}, op.DoesChores →
      Loses s.broods (World.act ⟨s, d⟩ op).system.broods :=
    fun hop => (act_chores (w := ⟨s, d⟩) hacc hop).loses hacc
  have edited : ∀ {a : Topic}, op.topic = some a → a ∉ [Topic.stamps, .watchers, .clones] →
      (World.act ⟨s, d⟩ op).system.broods = s.broods :=
    fun ha hne => (act_edit ha ⟨s, d⟩).broods hne
  cases op with
  | createRootJob hasHaltHandler =>
    exact beside rfl (System.broods_createRootJob hacc hasHaltHandler)
  | createJob parent => exact after (loses trivial (System.createJob_loses hacc parent))
  | createProcess job name => exact after (loses trivial (System.createProcess_loses hacc job name))
  | createWitness label signals => exact beside rfl (System.broods_createWitness hacc label signals)
  | createVmo size options =>
    rw [act]
    cases hr : s.createVmo size options with
    | mk r t =>
      cases r with
      | ok v =>
        have hop : Op.beats s (.createVmo size options) = [.born v] := by
          rw [Op.beats, hr]
          rfl
        exact plays hop (System.createVmo_plays hacc hhoused hr)
      | error e =>
        have hop : Op.beats s (.createVmo size options) = [] := by
          rw [Op.beats, hr]
          rfl
        exact beside hop (congrArg System.broods (System.createVmo_error hr))
  | cloneVmo v ask =>
    rw [act]
    cases hr : s.cloneVmo v ask with
    | mk r t =>
      cases r with
      | ok c =>
        have hop : Op.beats s (.cloneVmo v ask) = [.born c, .cloned v c] := by
          rw [Op.beats, hr]
          rfl
        exact plays hop (System.cloneVmo_plays hacc hhoused hr)
      | error e =>
        have hop : Op.beats s (.cloneVmo v ask) = [] := by
          rw [Op.beats, hr]
          rfl
        exact beside hop (congrArg System.broods (System.cloneVmo_error hr))
  | createView v =>
    rw [act]
    cases hr : s.createView v with
    | mk r t =>
      cases r with
      | ok k =>
        have hop : Op.beats s (.createView v) = [.viewed k v] := by
          rw [Op.beats, hr]
          rfl
        exact plays hop (System.createView_plays hacc hpos hr)
      | error e =>
        have hop : Op.beats s (.createView v) = [] := by
          rw [Op.beats, hr]
          rfl
        exact beside hop (System.broods_createView_refused hacc hr)
  | createListener label =>
    refine one (x := .listened s.nextId label) rfl trivial ?_
    show Broods.mk _ _ _ _ _ _ = Broods.mk _ _ _ _ _ _
    congr 1
    funext a
    exact Store.getElem?_insert _ _ _ _
  | createMapping space object offset size => exact beside rfl rfl
  | newArena capacity => exact beside rfl rfl
  | openSharedArena => exact beside rfl s.broods_openSharedArena
  | openTable process arena => exact beside rfl rfl
  | openPort kind key => exact beside rfl rfl
  | share r =>
    rw [act]
    split
    · exact beside rfl rfl
    · exact beside rfl rfl
  | makeHandle arena k rights mayGrow =>
    rw [act]
    split
    · exact after (beside rfl (s.broods_makeHandle arena k rights mayGrow))
    · exact beside rfl rfl
  | duplicateHandle a rights => exact after (beside rfl (s.broods_duplicateHandle a rights))
  | tableRemove t value =>
    exact after (beside rfl ((s.tableRemove_edit t value).broods (by decide)))
  | drop | makeFromKernel | tableAdd | tableDuplicate | tableClear | killJob | killProcess
  | enforcePolicy | resetPort => exact loses trivial (chored trivial)
  | attachProcess k p => exact beside rfl (System.broods_attach hacc.viewsApart k _)
  | detachProcess k p =>
    exact beside rfl ((System.detachProcess_upkeep _ k p).broods hacc.viewsApart)
  | unbindPort p => exact beside rfl rfl
  | signal k clear set =>
    exact one (x := .signalled k clear set) rfl trivial (s.broods_signal k clear set)
  | zeroHandles k => exact one (x := .told k) rfl trivial (s.broods_zeroHandles k)
  | setUserId v id => exact one (x := .stamped v id) rfl trivial (s.broods_setUserId v id)
  | setWatcher v x => exact one (x := .watched v x) rfl trivial (s.broods_setWatcher v x)
  | recordClone f v c =>
    by_cases hf : s.vmos[v]?.map Vmo.family = some f
    · obtain ⟨o, ho, rfl⟩ := Option.map_eq_some_iff.1 hf
      exact one (x := .recorded v c) (if_pos hf) trivial (s.broods_recordClone ho c)
    · refine beside (if_neg hf) ?_
      show (s.recordClone f v c).2.broods = _
      rw [System.recordClone_eq]
      refine s.broods_modifyMember_other _ fun o ho hof => hf ?_
      rw [ho, Option.map_some, hof]
  | forgetClone v c => exact one (x := .forgot v c) rfl trivial (s.broods_forgetClone v c)
  | openSpace | settledConfig | installConfig | setKillOnOom | nameJob | nameProcess | nameVmo
  | amendPolicy | bindPort | report | dropReports | setProcess | addMapping | removeMapping
  | unmapSpan | rangeChanged | commit | decommit | resize | setCachePolicy =>
    exact beside rfl (edited rfl (by decide))

/-! ## 5. Runs of operations

Operations in a row are beats in a row.  So a run can be read as one list of beats, and counted
over. -/

/-- A run from one state to another, with the beats of its operations, one operation after the
other. -/
inductive World.Recount (P : System → Op → Prop) (w : World) : List Beat → World → Prop
  | refl : Recount P w [] w
  | act {v : World} {xs ys : List Beat} {op : Op} (h : Recount P w xs v) (hop : P v.system op)
      (hy : op.Yields v.system ys) (hplays : Plays v.system.broods ys (v.act op).system.broods) :
      Recount P w (xs ++ ys) (v.act op)
  /-- The dues stand in no order. -/
  | reorder {s : System} {d e : List Task} {xs : List Beat} (h : Recount P w xs ⟨s, d⟩)
      (hp : d.Perm e) : Recount P w xs ⟨s, e⟩

/-- A recount of a run is a play. -/
theorem World.Recount.plays {P : System → Op → Prop} {w u : World} {xs : List Beat}
    (h : w.Recount P xs u) : Plays w.system.broods xs u.system.broods := by
  induction h with
  | refl => exact .done
  | act _ _ _ hplays ih => exact ih.append hplays
  | reorder _ _ ih => exact ih

/-- **Every run can be recounted.** -/
theorem World.Onward.recount {P Q : System → Op → Prop} {w u : World} (h : w.Onward Q u)
    (hw : w.Ran P) : ∃ xs, w.Recount Q xs u := by
  suffices hboth : Passed True True u ∧ ∃ xs, w.Recount Q xs u from hboth.2
  induction h with
  | refl => exact ⟨hw.passed, [], .refl⟩
  | @act v op _ hop ih =>
    obtain ⟨hv, xs, hxs⟩ := ih
    obtain ⟨ys, hy, hplays⟩ := act_plays hv op
    exact ⟨hv.trans (act_moves hv.accounted op (fun _ => trivial) fun _ => trivial), xs ++ ys,
      hxs.act hop hy hplays⟩
  | reorder _ hp ih =>
    obtain ⟨hv, xs, hxs⟩ := ih
    exact ⟨hv.trans (System.reorder_moves _ hp), xs, hxs.reorder hp⟩

end KernelObjects
