import KernelObjects.Proofs.CloneTree
import KernelObjects.Proofs.NoLeaks
import KernelObjects.Proofs.JobLists

/-
# Families of clones

Which clones there are is written down in three places: a clone names the object that it was
cloned from, that object lists its clones in what the family keeps of it, and the list of all VM
objects has both.  Cloning writes in all three, and so does destruction, which runs up a chain of
objects that nobody refers to any more.  At rest the three agree (`FamiliesConsistent`), as long
as nobody writes into a list of clones by hand.

A walk over all VM objects takes the list when it starts and holds what is on it.  So it comes by
each of these once, oldest first, and finds it alive, whatever is done on the way; only a visit
that says so ends it earlier.

Two of the three records are kept by `CloneTree`, which compares parents with lists.  What is
added here is that a family is named after its founder, so that objects with one family have one
root, and that what is there is what somebody refers to, which comes from the account.
-/

namespace KernelObjects

/-! ## 1. Families at rest

The agreement as a client would state it, about objects that are there, and its proof from the two
invariants that runs keep. -/

namespace System

variable {s : System} {d : List Task}

/-- A VM object is alive as long as somebody refers to it. -/
def Alive (s : System) (v : VmoId) : Prop := 0 < s.refCount (.vmo v)

/-- What a VM object is a clone of. -/
def originalOf (s : System) (v : VmoId) : Option VmoId := s.vmos[v]?.bind Vmo.parent

/-- From clones up to what they were cloned from, any number of times. -/
def Climbs (s : System) : VmoId → VmoId → Prop :=
  Relation.ReflTransGen fun c p => s.originalOf c = some p

/-- A live object of a family that is no clone. -/
structure IsRoot (s : System) (f : FamilyId) (r : VmoId) : Prop where
  alive : s.Alive r
  family : s.familyOf r = f
  original : s.originalOf r = none

/-- **Families are consistent**: with the objects that are alive, with the originals that these
name, and with the list of all. -/
structure FamiliesConsistent (s : System) : Prop where
  family : ∀ {v : VmoId}, s.Alive v → s.families.contains (s.familyOf v)
  members : ∀ {f : FamilyId} {g : Family}, s.families[f]? = some g →
    ∀ v : VmoId, v ∈ g.keys ↔ s.Alive v ∧ s.familyOf v = f
  clones_nodup : ∀ {f : FamilyId} {g : Family} {v : VmoId} {m : Member},
    s.families[f]? = some g → g[v]? = some m → m.clones.Nodup
  clones : ∀ {f : FamilyId} {g : Family} {v : VmoId} {m : Member}, s.families[f]? = some g →
    g[v]? = some m → ∀ c : VmoId, c ∈ m.clones ↔ s.Alive c ∧ s.originalOf c = some v
  original : ∀ {c p : VmoId}, s.Alive c → s.originalOf c = some p →
    s.Alive p ∧ s.familyOf p = s.familyOf c ∧ p < c
  root : ∀ {v : VmoId}, s.Alive v →
    ∃ r, s.Climbs v r ∧ s.IsRoot (s.familyOf v) r ∧ ∀ q, s.IsRoot (s.familyOf v) q → q = r
  listed_lt : s.liveVmos.Pairwise (· < ·)
  listed : ∀ v : VmoId, v ∈ s.liveVmos ↔ s.Alive v

/-- A VM object is alive exactly if it is there: what nothing refers to is destroyed at once. -/
theorem alive_iff (hacc : Accounted s d) {v : Nat} : s.Alive v ↔ ∃ o, s.vmos[v]? = some o :=
  (hacc.present (.vmo v)).symm.trans Store.contains_iff

theorem originalOf_of_get {v : Nat} {o : Vmo} (ho : s.vmos[v]? = some o) :
    s.originalOf v = o.parent := by
  rw [originalOf, ho]
  rfl

theorem memberIn_of_get {f v : Nat} {g : Family} {m : Member} (hg : s.families[f]? = some g)
    (hm : g[v]? = some m) : s.memberIn f v = some m :=
  Option.bind_eq_some_iff.2 ⟨g, hg, hm⟩

/-- An object that starts a family gives it its name. -/
def RootsNamed (s : System) : Prop := s.EveryVmo fun v k => k.parent = none → k.family = v

/-- Every step up leads to an older object, so it ends at one that is no clone. -/
theorem CloneTrees.climbs (h : s.CloneTrees) (hacc : Accounted s d) (hroots : s.RootsNamed)
    {v : Nat} (hv : s.Alive v) :
    s.Climbs v (s.familyOf v) ∧ s.IsRoot (s.familyOf v) (s.familyOf v) := by
  induction v using Nat.strong_induction_on with
  | _ v ih =>
    obtain ⟨o, ho⟩ := (alive_iff hacc).1 hv
    cases hp : o.parent with
    | none =>
      have hname : s.familyOf v = v := (familyOf_of_get ho).trans (hroots v o ho hp)
      rw [hname]
      exact ⟨.refl, hv, hname, (originalOf_of_get ho).trans hp⟩
    | some p =>
      obtain ⟨hlt, q, hq, hfamily⟩ := h.parent (vmoKin_of_get ho) hp
      obtain ⟨r, hr, rfl⟩ := Option.map_eq_some_iff.1 hq
      have hsame : s.familyOf p = s.familyOf v := by
        rw [familyOf_of_get hr, familyOf_of_get ho]
        exact hfamily
      obtain ⟨hclimbs, hroot⟩ := ih p hlt ((alive_iff hacc).2 ⟨r, hr⟩)
      rw [hsame] at hclimbs hroot
      exact ⟨.head ((originalOf_of_get ho).trans hp) hclimbs, hroot⟩

/-- **The three records of who clones whom agree**, if the trees of clones are in order, families
are named after their founders, and the list of all has what is there. -/
theorem CloneTrees.familiesConsistent (h : s.CloneTrees) (hacc : Accounted s d)
    (hroots : s.RootsNamed) (hlisted : s.VmosListed) : s.FamiliesConsistent where
  family hv := by
    obtain ⟨o, ho⟩ := (alive_iff hacc).1 hv
    obtain ⟨k, hk⟩ := h.member (vmoKin_of_get ho)
    obtain ⟨m, hm, -⟩ := Option.map_eq_some_iff.1 hk
    obtain ⟨g, hg, -⟩ := Option.bind_eq_some_iff.1 hm
    rw [familyOf_of_get ho]
    exact Store.contains_iff.2 ⟨g, hg⟩
  members {f g} hg v := by
    rw [Store.mem_keys_iff, Option.isSome_iff_exists]
    constructor
    · rintro ⟨m, hm⟩
      obtain ⟨k, hk, hf⟩ := h.vmo (memberKin_of_get (memberIn_of_get hg hm))
      obtain ⟨o, ho, rfl⟩ := Option.map_eq_some_iff.1 hk
      exact ⟨(alive_iff hacc).2 ⟨o, ho⟩, (familyOf_of_get ho).trans hf⟩
    · rintro ⟨hv, rfl⟩
      obtain ⟨o, ho⟩ := (alive_iff hacc).1 hv
      obtain ⟨k, hk⟩ := h.member (vmoKin_of_get ho)
      obtain ⟨m, hm, -⟩ := Option.map_eq_some_iff.1 hk
      obtain ⟨g', hg', hm⟩ := Option.bind_eq_some_iff.1 hm
      rw [familyOf_of_get ho] at hg
      cases hg.symm.trans hg'
      exact ⟨m, hm⟩
  clones_nodup hg hm := h.nodup (memberKin_of_get (memberIn_of_get hg hm))
  clones {f g v m} hg hm c := by
    have hkin := memberKin_of_get (memberIn_of_get hg hm)
    constructor
    · intro hc
      obtain ⟨k, hk, hp⟩ := h.clone hkin hc
      obtain ⟨o, ho, rfl⟩ := Option.map_eq_some_iff.1 hk
      exact ⟨(alive_iff hacc).2 ⟨o, ho⟩, (originalOf_of_get ho).trans hp⟩
    · rintro ⟨hc, hp⟩
      obtain ⟨o, ho⟩ := (alive_iff hacc).1 hc
      rw [originalOf_of_get ho] at hp
      exact h.listed trivial (vmoKin_of_get ho) hp hkin
  original {c p} hc hp := by
    obtain ⟨o, ho⟩ := (alive_iff hacc).1 hc
    rw [originalOf_of_get ho] at hp
    obtain ⟨hlt, k, hk, hfamily⟩ := h.parent (vmoKin_of_get ho) hp
    obtain ⟨r, hr, rfl⟩ := Option.map_eq_some_iff.1 hk
    refine ⟨(alive_iff hacc).2 ⟨r, hr⟩, ?_, hlt⟩
    rw [familyOf_of_get hr, familyOf_of_get ho]
    exact hfamily
  -- Climbing ends at an object without original, and a family is named after that one.  Any other
  -- object of the family without an original must be this one, since the name is the same.
  root {v} hv := by
    obtain ⟨hclimbs, hroot⟩ := h.climbs hacc hroots hv
    refine ⟨s.familyOf v, hclimbs, hroot, fun q hq => ?_⟩
    obtain ⟨o, ho⟩ := (alive_iff hacc).1 hq.alive
    have hname : o.family = q := hroots q o ho ((originalOf_of_get ho).symm.trans hq.original)
    rw [← hq.family, familyOf_of_get ho, hname]
  listed_lt := Std.ExtTreeMap.ordered_keys.imp fun h => Nat.compare_eq_lt.1 h
  listed _ := hlisted.mem_liveVmos.trans (hacc.present (.vmo _))

end System

/-- In every state that operations lead to families are consistent, unless a list of clones was
written by hand. -/
theorem World.Ran.familiesConsistent {w : World} (h : w.Ran fun _ op => ¬ op.Rewires) :
    w.system.FamiliesConsistent := by
  have hpassed : Passed True False w := h.passed_of fun _ _ hop => ⟨fun _ => trivial, hop⟩
  have hroots : w.system.RootsNamed :=
    hpassed.everyVmo (fun _ _ => rfl) fun _ _ _ _ hp => by cases hp
  exact hpassed.cloneTrees.familiesConsistent hpassed.accounted hroots hpassed.vmosListed

/-! ## 2. Walks over all VM objects

The list is taken once and every object on it is held, so the visits are determined when the walk
starts, but for where it ends. -/

/-- What a walk did at one VM object. -/
structure VmoVisit where
  vmo : VmoId
  /-- The state in which it came by. -/
  state : System
  goesOn : Bool

section Walk

variable {σ : Type} {f : VmoId → System → σ → Bool × System × σ}

/-- What is done at each VM object, and besides a record of the visits. -/
def recording (f : VmoId → System → σ → Bool × System × σ) :
    VmoId → System → σ × List VmoVisit → Bool × System × (σ × List VmoVisit) := fun v s own =>
  let (goesOn, t, mine) := f v s own.1
  (goesOn, t, mine, own.2 ++ [⟨v, s, goesOn⟩])

/-- All of a list was visited in turn, or just so much of it as comes before a visit that ended the
walk. -/
def InTurn (vs : List VmoId) (finished : Bool) (visits : List VmoVisit) : Prop :=
  let seen := visits.map fun x => (x.vmo, x.goesOn)
  finished = true ∧ seen = vs.map (·, true) ∨
    finished = false ∧ ∃ before v after, vs = before ++ v :: after ∧
      seen = before.map (·, true) ++ [(v, false)]

theorem InTurn.cons {vs : List VmoId} {finished : Bool} {visits : List VmoVisit}
    (h : InTurn vs finished visits) (v : VmoId) (s : System) :
    InTurn (v :: vs) finished (⟨v, s, true⟩ :: visits) := by
  rcases h with ⟨hf, hseen⟩ | ⟨hf, before, u, after, rfl, hseen⟩
  · exact .inl ⟨hf, by rw [List.map_cons, List.map_cons, hseen]⟩
  · exact .inr ⟨hf, v :: before, u, after, rfl, by rw [List.map_cons, hseen]; rfl⟩

namespace System

/-- **Visits come in turn**, and a record of them changes nothing else. -/
theorem visitVmos_recording (f : VmoId → System → σ → Bool × System × σ) (vs : List VmoId)
    (s : System) (own : σ) (earlier : List VmoVisit) :
    ∃ visits, InTurn vs (visitVmos f vs s own).1 visits ∧
      visitVmos (recording f) vs s (own, earlier) =
        ((visitVmos f vs s own).1, (visitVmos f vs s own).2.1, (visitVmos f vs s own).2.2,
          earlier ++ visits) := by
  induction vs generalizing s own earlier with
  | nil => exact ⟨[], .inl ⟨rfl, rfl⟩, by simp [visitVmos]⟩
  | cons v vs ih =>
    unfold visitVmos recording
    dsimp only
    rcases f v s own with ⟨goesOn, t, mine⟩
    cases goesOn with
    | true =>
      obtain ⟨visits, hturn, he⟩ := ih t mine (earlier ++ [⟨v, s, true⟩])
      refine ⟨⟨v, s, true⟩ :: visits, hturn.cons v s, ?_⟩
      rw [List.append_assoc] at he
      exact he
    | false => exact ⟨[⟨v, s, false⟩], .inr ⟨rfl, [], v, vs, rfl, rfl⟩, rfl⟩

/-- **A walk over all VM objects** comes by what is alive when it starts, oldest first, whatever the
visits do; or it does nothing for lack of memory. -/
def WalksInTurn (s : System) : Prop :=
  ∀ {σ : Type} (f : VmoId → System → σ → Bool × System × σ) (own : σ) (enough : Nat → Bool),
    let r := s.eachVmo enough f own
    ∃ visits, s.eachVmo enough (recording f) (own, []) = (r.1, r.2.1, r.2.2, visits) ∧
      if enough s.vmoList.size then
        ∃ finished, r.1 = .ok finished ∧ InTurn s.liveVmos finished visits
      else r = (.error .noMemory, s, own) ∧ visits = []

/-- Nothing on the list of all VM objects is gone. -/
theorem VmosListed.vmosToVisit_eq {s : System} (h : s.VmosListed) : s.vmosToVisit = s.liveVmos :=
  List.filter_eq_self.2 fun _ => h.mem_liveVmos.1

/-- **A walk visits in turn what was there at its start**, up to the visit that breaks it off. -/
theorem VmosListed.walksInTurn {s : System} (h : s.VmosListed) : s.WalksInTurn := by
  intro σ f own enough
  unfold eachVmo
  rw [h.vmosToVisit_eq]
  split
  · obtain ⟨visits, hturn, he⟩ := visitVmos_recording f s.liveVmos
      (s.retainAll (s.liveVmos.map .vmo)) own []
    dsimp only
    rw [he]
    exact ⟨visits, rfl, _, rfl, hturn⟩
  · exact ⟨[], rfl, rfl, rfl⟩

end System

namespace World

variable {P : System → Op → Prop}

/-- **Every VM object is alive when the walk comes by**, since the walk holds it. -/
theorem Ran.alive_at_visits {w : World} (h : w.Ran P) (hshare : ∀ s r, P s (.share r))
    (hdrop : ∀ s t, P s (.drop t)) {held : σ → List Task} (hf : Leads P held f) {own : σ}
    {d : List Task} (hperm : w.dues.Perm (held own ++ d)) (enough : Nat → Bool) :
    ∀ x ∈ (w.system.eachVmo enough (recording f) (own, [])).2.2.2, x.state.Alive x.vmo := by
  obtain ⟨s, e⟩ := w
  unfold System.eachVmo
  split
  · dsimp only
    have hheld := (Ran.lending hshare hdrop (held own)).retainAll
      (fun _ => System.present_of_mem_vmosToVisit) (h.reorder hperm)
    -- The invariant of the visits: what the walk holds is among the dues of the run, and the
    -- notes so far tell the truth.  The second part needs the first at the moment when the note
    -- is made.
    refine (System.visitVmos_keeps (I := fun t (mine : σ × List VmoVisit) =>
      Ran P ⟨t, held mine.1 ++ ((s.vmosToVisit.map Ref.vmo).map .release ++ d)⟩ ∧
        ∀ x ∈ mine.2, x.state.Alive x.vmo) s.vmosToVisit (fun v hv t mine hi => ?_)
      ⟨hheld, fun x hx => absurd hx List.not_mem_nil⟩).2
    refine ⟨hf v t mine.1 _ hi.1, fun x hx => ?_⟩
    rcases List.mem_append.1 hx with hx | hx
    · exact hi.2 x hx
    · rw [List.mem_singleton] at hx
      subst hx
      have hacc := hi.1.passed.accounted
      have hdue : Task.release (.vmo v) ∈
          held mine.1 ++ ((s.vmosToVisit.map Ref.vmo).map .release ++ d) :=
        List.mem_append_right _ (List.mem_append_left _
          (List.mem_map_of_mem (List.mem_map_of_mem hv)))
      exact (hacc.present _).1 (hacc.present_of_owed (owed_pos hdue (by simp [Task.holds])))
  · exact fun x hx => absurd hx List.not_mem_nil

end World

end Walk

namespace World

/-- **What is known of families of clones and of walks over all VM objects.** -/
structure FamiliesSound (w : World) : Prop where
  atRest : w.AtRest (fun _ op => ¬ op.Rewires) System.FamiliesConsistent
  inTurn : w.system.WalksInTurn
  /-- Visits that do what clients do find their object alive. -/
  alive : ∀ {σ : Type} {f : VmoId → System → σ → Bool × System × σ} {held : σ → List Task}
    {own : σ} {d : List Task}, Leads (fun _ op => ¬ op.Rewires) held f →
      w.dues.Perm (held own ++ d) → ∀ enough : Nat → Bool,
        ∀ x ∈ (w.system.eachVmo enough (recording f) (own, [])).2.2.2, x.state.Alive x.vmo

/-- **Families of clones are sound in every run**, as long as nobody writes into a list of clones by
hand. -/
theorem Ran.families_sound {w : World} (h : w.Ran fun _ op => ¬ op.Rewires) : w.FamiliesSound where
  atRest := h.atRest (fun _ _ => id) (fun _ _ => id) fun _ hv => hv.familiesConsistent
  inTurn := h.passed.vmosListed.walksInTurn
  alive hf hperm enough := h.alive_at_visits (fun _ _ => id) (fun _ _ => id) hf hperm enough

/-- Two families, of which the first one is a chain of two clones. -/
def familiesOps : List Op :=
  [.createVmo 4096 0, .cloneVmo 1 ⟨false, 0, 4096, false⟩, .cloneVmo 2 ⟨false, 0, 4096, false⟩,
    .createVmo 8192 0]

/-- Drops the last clone at the first visit, and stops when the walk comes by it. -/
def sheddingVisitor (v : VmoId) (s : System) (own : List Task) : Bool × System × List Task :=
  let w := act ⟨s, own⟩ (.drop (.release (.vmo 3)))
  (v ≠ 3, w.system, w.dues)

/-- A visitor that gives up VM objects on its way does nothing by hand to the lists. -/
theorem leads_sheddingVisitor : Leads (fun _ op => ¬ op.Rewires) id sheddingVisitor := by
  intro v s own d h
  by_cases hmem : .release (.vmo 3) ∈ own
  · have hvisit : act ⟨s, own⟩ (.drop (.release (.vmo 3))) =
        ⟨s.settle [.release (.vmo 3)], own.erase (.release (.vmo 3))⟩ := if_pos hmem
    have hdrop : act ⟨s, own ++ d⟩ (.drop (.release (.vmo 3))) =
        ⟨s.settle [.release (.vmo 3)], own.erase (.release (.vmo 3)) ++ d⟩ := by
      rw [← List.erase_append_left d hmem]
      exact if_pos (List.mem_append_left _ hmem)
    have hkeeps : ¬ Op.Rewires (.drop (.release (.vmo 3))) := id
    have hact := h.act hkeeps
    unfold sheddingVisitor
    rw [hvisit]
    exact hdrop ▸ hact
  · have hvisit : act ⟨s, own⟩ (.drop (.release (.vmo 3))) = ⟨s, own⟩ := if_neg hmem
    unfold sheddingVisitor
    rw [hvisit]
    exact h

/-- The last clone is dropped while the walk holds it, and alive when the walk comes by. -/
theorem Ran.families_sound_of_shedding :
    let w := run familiesOps
    let r := w.system.eachVmo (fun _ => true) (recording sheddingVisitor) (w.dues, [])
    w.FamiliesSound ∧ (∀ x ∈ r.2.2.2, x.state.Alive x.vmo) ∧ w.system.liveVmos = [1, 2, 3, 4] ∧
      r.2.2.2.map (fun x => (x.vmo, x.goesOn)) = [(1, true), (2, true), (3, false)] := by
  have hran : (run familiesOps).Ran fun _ op => ¬ op.Rewires :=
    Ran.foldl .start ⟨id, id, id, id, trivial⟩
  have hsound := families_sound hran
  have hdues : (run familiesOps).dues.Perm ((run familiesOps).dues ++ []) :=
    List.Perm.of_eq (List.append_nil _).symm
  exact ⟨hsound, hsound.alive leads_sheddingVisitor hdues _, by decide +kernel,
    by decide +kernel⟩

end World

end KernelObjects
