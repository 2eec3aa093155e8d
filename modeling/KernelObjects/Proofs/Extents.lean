import KernelObjects.Proofs.Ledger
import KernelObjects.Proofs.CommittedPages

/-
# Sizes and committed pages

A VM object has a size, and some of its pages have memory.  Both are kept by its family, and
`System.extent` shows just them.  An extent comes with the object and goes with it, and in between
only the commit, the decommit and the resize of that object change it (`Extent.Shift`).  Whatever
else happens, to the object or to others, leaves it alone (`System.Pace.reshapes`,
`World.act_reshapes`).

So two things are said of single shifts.  The size stays a number of whole pages that fits a word,
and the pages with memory lie below it (`Extent.Shift.sound`); hence the bytes with memory are at
most as many as the size says, and their number fits a word.  And a page without memory gets some
only by a commit of a range that touches it (`Extent.Shift.lacks`), so a page that a shrink
dropped does not come back with a later growth.

The second is a statement about runs and not about states.  No state tells which of its pages were
dropped, and a page that has no memory may never have had any; what is known is that between the
shrink and now somebody committed it, if it has memory.

A resize that shrinks tells the mappings, and that comes to an end where clones were entered by
cloning only (`System.ChangeEnds`).  For runs with lists of clones that were written by hand
nothing is said about the answer of a resize; what it leaves of sizes and pages, if it returns, is
said of all runs.
-/

namespace KernelObjects

/-! ## 1. Extents

What every shift keeps is shown for extents alone, without any state around them. -/

/-- The size of a VM object and its pages that have memory. -/
structure Extent where
  size : Nat
  pages : PageSet

/-- The extent that a family keeps of a member. -/
def Member.extent (m : Member) : Extent := ⟨m.size, m.committed⟩

/-- The extent of a VM object that is there. -/
def System.extent (s : System) (v : VmoId) : Option Extent := (s.member v).map Member.extent

namespace Extent

/-- The pages with memory lie inside, and the size is one of whole pages. -/
structure Sound (x : Extent) : Prop where
  dvd : Page.size ∣ x.size
  fits : x.size ≤ Word.max
  below : ∀ p ∈ x.pages, p < x.size / Page.size

/-- An extent with another size; pages past a new end lose their memory. -/
def resize (x : Extent) (size : Nat) : Extent :=
  ⟨size, if size < x.size then x.pages.below (size / Page.size) else x.pages⟩

theorem extent_resize (m : Member) (size : Nat) :
    (m.resize size).extent = m.extent.resize size := by
  unfold Member.resize Extent.resize Member.extent
  split <;> rfl

/-- One of the ways in which an operation changes the extent of a VM object. -/
inductive Shift (op : Op) (v : VmoId) : Option Extent → Option Extent → Prop
  | same {x : Option Extent} : Shift op v x x
  | born {size : Nat} (hd : Page.size ∣ size) (hmax : size ≤ Word.max) :
      Shift op v none (some ⟨size, ∅⟩)
  | gone {x : Option Extent} : Shift op v x none
  | committed {x : Extent} {offset length : Nat} {pages : Nat × Nat}
      (hop : op = .commit v offset length)
      (h : Page.covering x.size offset length = .ok pages) :
      Shift op v (some x) (some ⟨x.size, x.pages.insertFrom pages.1 pages.2⟩)
  | decommitted {x : Extent} {offset length : Nat} {pages : Nat × Nat}
      (hop : op = .decommit v offset length) :
      Shift op v (some x) (some ⟨x.size, x.pages.eraseFrom pages.1 pages.2⟩)
  | resized {x : Extent} {asked size : Nat} (hop : op = .resize v asked)
      (h : Page.ceil? asked = some size) : Shift op v (some x) (some (x.resize size))

end Extent

/-- Whether an operation commits a range of an object that touches a page. -/
def Op.Commits (v : VmoId) (p : Nat) : Op → Prop
  | commit u offset length => u = v ∧ Page.Touches offset length p
  | _ => False

namespace Extent

variable {op : Op} {v : VmoId} {x y : Option Extent} {p : Nat}

/-- The new size is one of whole pages, and a shrink drops the pages that would lie past it. -/
theorem Sound.resize {x : Extent} (h : x.Sound) {asked size : Nat}
    (hs : Page.ceil? asked = some size) : (x.resize size).Sound where
  dvd := Page.size_dvd_of_ceil? hs
  fits := Page.ceil?_le hs
  below p hp := by
    show p < size / Page.size
    unfold Extent.resize at hp
    dsimp only at hp
    split at hp
    · exact (PageSet.mem_below.1 hp).2
    · rename_i hle
      exact Nat.lt_of_lt_of_le (h.below p hp) (Nat.div_le_div_right (Nat.le_of_not_lt hle))

/-- What a range covers ends inside of the object. -/
theorem lt_of_covered {bytes offset length : Nat} {pages : Nat × Nat}
    (h : Page.covering bytes offset length = .ok pages) (hd : Page.size ∣ bytes)
    (hp : pages.1 ≤ p ∧ p < pages.1 + pages.2) : p < bytes / Page.size := by
  obtain ⟨hsum, hle, -⟩ := Page.covering_eq_ok h
  obtain ⟨n, rfl⟩ := hd
  rw [Nat.mul_div_cancel_left n (by decide)]
  have htouch := (Page.mem_covering_iff h p).1 hp
  unfold Page.Touches Page.Pricks at htouch
  rw [Page.meets_iff] at htouch
  unfold Page.size at *
  omega

/-- **Extents stay sound.** -/
theorem Shift.sound (h : Shift op v x y) (hx : ∀ a, x = some a → a.Sound) {b : Extent}
    (hb : y = some b) : b.Sound := by
  cases h with
  | same => exact hx b hb
  | born hd hmax =>
    cases hb
    exact ⟨hd, hmax, fun p hp => absurd hp Std.ExtTreeSet.not_mem_empty⟩
  | gone => cases hb
  | @committed a offset length pages hop hc =>
    cases hb
    have ha := hx a rfl
    refine ⟨ha.dvd, ha.fits, fun p hp => ?_⟩
    rcases PageSet.mem_insertFrom.1 hp with hold | hnew
    · exact ha.below p hold
    · exact lt_of_covered hc ha.dvd hnew
  | @decommitted a offset length pages hop =>
    cases hb
    have ha := hx a rfl
    exact ⟨ha.dvd, ha.fits, fun p hp => ha.below p (PageSet.mem_eraseFrom.1 hp).1⟩
  | @resized a asked size hop hs =>
    cases hb
    exact (hx a rfl).resize hs

/-- A page has no memory, if the object is there. -/
def Lacks (p : Nat) (x : Option Extent) : Prop := ∀ a, x = some a → p ∉ a.pages

/-- **A page without memory gets none** but by a commit of a range that touches it. -/
theorem Shift.lacks (h : Shift op v x y) (hop : ¬ op.Commits v p) (hx : Lacks p x) : Lacks p y := by
  intro b hb
  cases h with
  | same => exact hx b hb
  | born => cases hb; exact Std.ExtTreeSet.not_mem_empty
  | gone => cases hb
  | @committed a offset length pages he hc =>
    cases hb
    subst he
    intro hp
    rcases PageSet.mem_insertFrom.1 hp with hold | hnew
    · exact hx a rfl hold
    · exact hop ⟨rfl, (Page.mem_covering_iff hc p).1 hnew⟩
  | @decommitted a offset length pages he =>
    cases hb
    exact fun hp => hx a rfl (PageSet.mem_eraseFrom.1 hp).1
  | @resized a asked size he hs =>
    cases hb
    intro hp
    unfold Extent.resize at hp
    dsimp only at hp
    split at hp
    · exact hx a rfl (PageSet.mem_below.1 hp).1
    · exact hx a rfl hp

end Extent

namespace System

/-! ## 2. What leaves extents alone

Functions in the order in which they call each other, as in the other views of the state. -/

section Frame

variable (s : System)

/-- Nothing was done to VM objects. -/
theorem extent_of_same {s t : System} (hv : t.vmos = s.vmos) (hf : t.families = s.families) :
    t.extent = s.extent := by
  funext v
  unfold extent member memberIn
  rw [hv, hf]

/-- A VM object that keeps its family. -/
theorem extent_modifyVmo {v : VmoId} {f : Vmo → Vmo}
    (h : ∀ o, s.vmos[v]? = some o → (f o).family = o.family) :
    (s.modifyVmo v f).extent = s.extent := by
  funext u
  unfold extent member
  show (((s.vmos.modify v f)[u]?.bind fun o => s.memberIn o.family u).map _) = _
  rw [Store.getElem?_modify]
  split
  · rename_i hu
    cases ho : s.vmos[u]? with
    | none => rfl
    | some o => rw [Option.map_some, Option.bind_some, Option.bind_some, h o (hu ▸ ho)]
  · rfl

/-- Families that keep the extents of the VM objects that are there. -/
theorem extent_families (families : Store Family)
    (h : ∀ (u : Nat) (o : Vmo), s.vmos[u]? = some o →
      (memberIn { s with families } o.family u).map Member.extent =
        (s.memberIn o.family u).map Member.extent) :
    ({ s with families } : System).extent = s.extent := by
  funext u
  unfold extent member
  cases ho : s.vmos[u]? with
  | none => rfl
  | some o => exact h u o ho

/-- What is written to a member is no matter of extents, if it leaves size and pages alone. -/
theorem extent_modifyMember {f : FamilyId} {v : VmoId} {g : Member → Member}
    (h : ∀ m, s.memberIn f v = some m → (g m).extent = m.extent) :
    (s.modifyMember f v g).extent = s.extent :=
  s.extent_families _ fun u o _ => s.map_memberIn_modifyMember h o.family u

end Frame

end System

/-- Only edits of pages and of sizes show in an extent. -/
theorem Member.Edit.extent_eq {a : Topic} {m m' : Member} (h : m.Edit a m')
    (ha : a ∉ [Topic.pages, .sizes]) : m'.extent = m.extent := by
  cases h with
  | stamp | clones | windows | cache => rfl
  | pages | size => exact absurd (by decide) ha

/-- Only edits of pages and of sizes show. -/
theorem Edit.extent {a : Topic} {s t : System} (h : Edit a s t)
    (ha : a ∉ [Topic.pages, .sizes]) : t.extent = s.extent := by
  induction h with
  | refl | config | space | job | process | owned | owner | unmapped => rfl
  | trans _ _ ih ih' => exact (ih' ha).trans (ih ha)
  | vmo h => exact System.extent_modifyVmo _ fun o ho => congrArg Vmo.Kin.family (h o ho).kin
  | member h => exact System.extent_modifyMember _ fun m hm => (h m hm).extent_eq ha

/-- Upkeep of jobs does not show. -/
theorem Upkeep.extent {k : Koid} {s t : System} (h : Upkeep k s t) : t.extent = s.extent := by
  induction h with
  | refl | job | shown | killed | died | halted => rfl
  | trans _ _ ih ih' => exact ih'.trans ih
  | unbound slot => cases slot <;> rfl

namespace System

section Frame

variable (s : System)

/-! ### Jobs -/

theorem extent_attach (k : Koid) (add : Job → Job) : (s.attach k add).2.extent = s.extent := by
  unfold attach
  split
  · rfl
  · split <;> rfl

theorem extent_addJob (job : Job) : (s.addJob job).2.extent = s.extent := by
  obtain ⟨counters, registry, he⟩ := s.addJob_eq job
  rw [he]
  exact extent_of_same rfl rfl

/-! ### Handles and tables -/

theorem extent_openSharedArena : s.openSharedArena.extent = s.extent := by
  rw [openSharedArena_eq]
  split <;> rfl

theorem extent_makeHandle (arena : ArenaId) (k : Koid) (rights : Rights) (mayGrow : Bool) :
    (s.makeHandle arena k rights mayGrow).2.extent = s.extent := by
  obtain he | he | ⟨a, -, -, he⟩ := s.makeHandle_cases arena k rights mayGrow
  · rw [he]
  · rw [he]
    rfl
  · rw [he]
    rfl

theorem extent_emptied (t : TableId) (table : Table) : (s.emptied t table).extent = s.extent := by
  obtain ⟨handles, he, -⟩ := s.emptied_eq t table
  rw [he]
  rfl

/-! ### VM objects -/

@[simp] theorem extent_zeroHandles (k : Koid) : (s.zeroHandles k).extent = s.extent := by
  unfold zeroHandles
  dsimp only
  split
  · rfl
  · exact (setWatcher_edit _ _ _).extent (by decide)

@[simp] theorem extent_tellWatcher (v : VmoId) (b : Bool) :
    (s.tellWatcher v b).extent = s.extent := by
  obtain ⟨objects, trace, he, -⟩ := s.tellWatcher_eq v b
  rw [he]
  rfl

theorem extent_closeHandle (h : HandleId) : (s.closeHandle h).1.extent = s.extent := by
  unfold closeHandle
  split
  · rfl
  · dsimp only
    split
    · exact extent_zeroHandles _ _
    · rfl

@[simp] theorem extent_forgetClone (v c : VmoId) : (s.forgetClone v c).extent = s.extent := by
  have hdropped := (s.dropClone_edit v c).extent (by decide)
  obtain he | he := s.forgetClone_cases v c
  · rw [he, hdropped]
  · rw [he, extent_tellWatcher, hdropped]

/-- Telling of a range writes to mappings only. -/
@[simp] theorem extent_rangeChanged (f : FamilyId) (v : VmoId) (offset length : Nat) :
    (s.rangeChanged f v offset length).extent = s.extent :=
  (s.rangeChanged_edit (a := .windows) f v offset length).extent (by decide)

end Frame

/-! ## 3. What changes extents

Creation, destruction and the three operations on pages and sizes. -/

/-- Whether extents change as an operation may change them. -/
def Reshapes (op : Op) (s t : System) : Prop :=
  ∀ v, Extent.Shift op v (s.extent v) (t.extent v)

section Reshapes

variable {op : Op} {s t : System}

/-- What changes no extent reshapes nothing. -/
theorem Reshapes.same (h : t.extent = s.extent) : Reshapes op s t := fun _ => h ▸ .same

/-- What is not there has no extent. -/
theorem extent_of_none {v : Nat} (h : s.vmos[v]? = none) : s.extent v = none := by
  unfold extent member
  rw [h]
  rfl

/-- A VM object that is entered anew into a family, if there is that family. -/
theorem extent_addVmo (s : System) (v : VmoId) (vmo : Vmo) (m : Member) (u : VmoId) :
    (s.addVmo v vmo m).extent u =
      if v = u then s.families[vmo.family]?.map fun _ => m.extent else s.extent u := by
  show ((s.vmos.insert v vmo)[u]?.bind fun o => (s.addVmo v vmo m).memberIn o.family u).map _ = _
  rw [Store.getElem?_insert]
  split
  · rename_i hu
    rw [Option.bind_some, memberIn_addVmo, if_pos ⟨rfl, hu⟩, Option.map_map]
    rfl
  · rename_i hu
    unfold extent member
    cases s.vmos[u]? with
    | none => rfl
    | some o => rw [Option.bind_some, Option.bind_some, memberIn_addVmo, if_neg fun h => hu h.2]

/-- A new object comes with a size of whole pages and without memory. -/
theorem addVmo_reshapes {v : VmoId} {vmo : Vmo} {m : Member} (hv : s.vmos[v]? = none)
    (hd : Page.size ∣ m.size) (hmax : m.size ≤ Word.max) (hc : m.committed = ∅) :
    Reshapes op s (s.addVmo v vmo m) := by
  intro u
  rw [extent_addVmo]
  split
  · rename_i hu
    subst hu
    rw [extent_of_none hv]
    cases s.families[vmo.family]? with
    | none => exact .same
    | some g =>
      rw [Option.map_some, Member.extent, hc]
      exact .born hd hmax
  · exact .same

/-- The next id was not given out yet. -/
theorem fresh_vmo {d : List Task} (hacc : Accounted s d) : s.vmos[s.nextVmo]? = none := by
  rw [← Store.contains_eq_false_iff, Bool.eq_false_iff]
  exact fun hc => Nat.lt_irrefl _ (hacc.bounded.vmo hc)

/-- An object is created with the size rounded up, or not at all. -/
theorem createVmo_reshapes {d : List Task} (hacc : Accounted s d) (hh : s.Housed) (size : Nat)
    (options : BitVec 32) : Reshapes op s (s.createVmo size options).2 := by
  have hcreation := s.createVmo_creation size options
  generalize s.createVmo size options = r at hcreation
  cases hcreation with
  | unfit => exact .same rfl
  | @born c hc =>
    -- the new family is nobody's yet
    have hsame : s.enterFamily.extent = s.extent :=
      s.extent_families _ fun u o ho => congrArg _ (Housed.memberIn_enterFamily hacc hh ho)
    have hborn : Reshapes op s.enterFamily (s.enterFamily.addVmo s.nextVmo
        { family := s.nextVmo, parent := none, options, name := Name.blank }
        { size := c, parentOffset := 0 }) :=
      addVmo_reshapes (fresh_vmo hacc) (Page.size_dvd_of_ceil? hc) (Page.ceil?_le hc) rfl
    unfold Reshapes at hborn
    rw [hsame, addVmo_enterFamily s rfl] at hborn
    exact hborn

/-- A clone is created like any object; its parent gets an entry in a list, which is no extent. -/
theorem cloneVmo_reshapes {d : List Task} (hacc : Accounted s d) (v : VmoId) (ask : CloneRequest) :
    Reshapes op s (s.cloneVmo v ask).2 := by
  have hborn : ∀ (o : Vmo) (c : Nat), Page.ceil? ask.size = some c → Reshapes op s
      (s.withClone v (o.cloneRecord v ask) { size := c, parentOffset := ask.offset }) := by
    intro o c hc
    have hentered : Reshapes op s (s.enterClone v o ask c) :=
      addVmo_reshapes (s := retain { s with nextVmo := s.nextVmo + 1 } (.vmo v))
        (fresh_vmo hacc) (Page.size_dvd_of_ceil? hc) (Page.ceil?_le hc) rfl
    rw [← recordClone_enterClone]
    unfold Reshapes at hentered ⊢
    rw [(recordClone_edit _ _ _ _).extent (by decide)]
    exact hentered
  have hcreation := s.cloneVmo_creation v ask
  generalize s.cloneVmo v ask = r at hcreation
  cases hcreation with
  | refused => exact .same rfl
  | @first o c _ hc =>
    have htold := hborn o c hc
    unfold Reshapes at htold ⊢
    rw [extent_tellWatcher]
    exact htold
  | @further o c _ hc => exact hborn o c hc

/-- An object that is gone leaves its family. -/
theorem extent_leaveFamily (s : System) {v : VmoId} (hv : s.vmos[v]? = none) {f : FamilyId} :
    ({ s with families := s.families.modify f fun g => g.erase v } : System).extent = s.extent := by
  refine s.extent_families _ fun u o ho => congrArg _ (s.memberIn_eraseMember f ?_ o.family)
  rintro rfl
  rw [hv] at ho
  cases ho

/-- A VM object that is destroyed takes its extent along. -/
theorem destroyVmo_reshapes (s : System) (v : VmoId) : Reshapes op s (s.destroyVmo v).1 := by
  unfold destroyVmo
  cases ho : s.vmos[v]? with
  | none => exact .same rfl
  | some o =>
    dsimp only
    set t : System := { s with vmos := s.vmos.erase v, vmoList := s.vmoList.erase v }
    have hgone : t.vmos[v]? = none := by
      show (s.vmos.erase v)[v]? = none
      rw [Store.getElem?_erase, if_pos rfl]
    have herased : Reshapes op s t := by
      intro u
      by_cases hu : v = u
      · rw [extent_of_none (s := t) (hu ▸ hgone)]
        exact .gone
      · have hkept : t.extent u = s.extent u := by
          show ((s.vmos.erase v)[u]?.bind fun o => s.memberIn o.family u).map _ = _
          rw [Store.getElem?_erase, if_neg hu]
          rfl
        rw [hkept]
        exact .same
    -- The record of the object goes before its family forgets it, and an object without record
    -- has no extent; so what the family forgets does not show.
    have hleft : ∀ u : System, u.vmos[v]? = none →
        (log { u with families := u.families.modify o.family fun f => f.erase v }
          (.vmoDestroyed v)).extent = u.extent := fun u hu => u.extent_leaveFamily hu
    unfold Reshapes at herased ⊢
    rw [hleft]
    · split
      · exact herased
      · rw [extent_forgetClone]
        exact herased
    · split
      · exact hgone
      · rw [vmos_forgetClone]
        exact hgone

/-- A member that is replaced. -/
theorem replace_reshapes {v : VmoId} {o : Vmo} {m : Member} {g : Member → Member}
    (ho : s.vmos[v]? = some o) (hm : s.memberIn o.family v = some m)
    (h : Extent.Shift op v (some m.extent) (some (g m).extent)) :
    Reshapes op s (s.modifyMember o.family v g) := by
  intro u
  unfold extent
  rw [member_modifyMember ho]
  split
  · rename_i hu
    subst hu
    rw [show s.member v = some m from Option.bind_eq_some_iff.2 ⟨o, ho, hm⟩]
    exact h
  · exact .same

/-- A commit shifts the extent of the object that it names, -/
theorem commitRange_reshapes (s : System) (v : VmoId) (offset length : Nat) :
    Reshapes (.commit v offset length) s (s.commitRange v offset length).2 := by
  obtain ⟨e, he⟩ | ⟨o, m, pages, ho, hm, hpages, he⟩ := s.commitRange_cases v offset length
  · rw [he]
    exact .same rfl
  · rw [he]
    exact replace_reshapes ho hm (.committed rfl hpages)

/-- and so does a decommit; the mappings that it tells have no extent. -/
theorem decommitRange_reshapes (s : System) (v : VmoId) (offset length : Nat) :
    Reshapes (.decommit v offset length) s (s.decommitRange v offset length).2 := by
  obtain ⟨e, he⟩ | ⟨o, m, pages, ho, -, hm, -, he⟩ := s.decommitRange_cases v offset length
  · rw [he]
    exact .same rfl
  · have hreplaced : Reshapes (.decommit v offset length) s
        (s.modifyMember o.family v fun _ =>
          { m with committed := m.committed.eraseFrom pages.1 pages.2 }) :=
      replace_reshapes ho hm (.decommitted rfl)
    rw [he]
    unfold Reshapes at hreplaced ⊢
    rw [extent_rangeChanged]
    exact hreplaced

/-- A resize shifts it too, if it is not refused. -/
theorem resize_reshapes (s : System) (v : VmoId) (size : Nat) :
    Reshapes (.resize v size) s (s.resize v size).2 := by
  obtain ⟨e, he⟩ | ⟨o, m, stop, ho, -, hm, hstop, he⟩ := s.resize_cases v size
  · rw [he]
    exact .same rfl
  · have hresized : Reshapes (.resize v size) s
        (s.modifyMember o.family v fun m => m.resize stop) := by
      refine replace_reshapes ho hm ?_
      rw [Extent.extent_resize]
      exact .resized rfl hstop
    rw [he]
    dsimp only
    split
    · unfold Reshapes at hresized ⊢
      rw [extent_rangeChanged]
      exact hresized
    · exact hresized

/-! ## 4. Whatever happens

Each operation is seen by extents as nothing, as the end of objects, or as the one change that it
is there for. -/

/-- A task that fells no VM object leaves all extents alone.  The cases follow the kinds of things
that are given back. -/
theorem perform_reshapes (s : System) {x : Task} (h : ¬ s.Fells x) :
    Reshapes op s (s.perform x).1 := by
  cases x with
  | close a => exact .same (s.extent_closeHandle a)
  | closeTable i =>
    unfold perform
    dsimp only
    split <;> exact .same rfl
  | release r =>
    unfold perform
    dsimp only
    split
    · exact .same rfl
    · rename_i hr
      set u : System := { s with refs := s.refs.release r }
      cases r with
      | object k =>
        -- a job or a process that goes is felled, which is excluded; what is left destroys no
        -- member
        have hkept : u.jobs[k]? = none ∧ u.processes[k]? = none := by
          constructor
          · by_contra hj
            exact h ⟨k, rfl, hr, .inl (Store.contains_iff.2 (Option.ne_none_iff_exists'.1 hj))⟩
          · by_contra hp
            exact h ⟨k, rfl, hr, .inr (Store.contains_iff.2 (Option.ne_none_iff_exists'.1 hp))⟩
        refine .same ?_
        show (u.destroyObject k).1.extent = u.extent
        unfold destroyObject
        dsimp only
        rw [hkept.1, hkept.2]
        cases u.views[k]? with
        | some v => rfl
        | none => cases u.witnesses[k]? <;> rfl
      | handle a =>
        refine .same ?_
        show (u.destroy (.handle a)).1.extent = u.extent
        dsimp only [destroy]
        split <;> rfl
      | vmo v => exact u.destroyVmo_reshapes v
      | mapping m => exact .same rfl
      | listener o => exact .same rfl
    · exact .same rfl

/-- What other operations do on their way touches no size and no page. -/
theorem help_reshapes (s : System) (d : List Task) {aux : Op} (h : aux.Helps) :
    Reshapes op s (World.act ⟨s, d⟩ aux).system := by
  cases aux with
  | openSharedArena => exact .same s.extent_openSharedArena
  | makeHandle arena k rights mayGrow =>
    rw [World.act]
    split
    · rw [World.system_after]
      exact .same (s.extent_makeHandle arena k rights mayGrow)
    · exact .same rfl
  | attachProcess k p => exact .same (s.extent_attach k _)
  | zeroHandles k => exact .same (s.extent_zeroHandles k)
  | dropReports p k => exact .same rfl
  | setUserId v id => exact .same ((s.setUserId_edit v id).extent (by decide))
  | setWatcher v x => exact .same ((s.setWatcher_edit v x).extent (by decide))
  | _ => exact h.elim

/-- **A pace changes no extent**, except that one may go. -/
theorem Pace.reshapes (h : Pace op s t) : Reshapes op s t := by
  cases h with
  | help h => exact s.help_reshapes _ h
  | share h => exact .same rfl
  | perform h => exact s.perform_reshapes h
  | jobGone hr hj => exact .same rfl
  | processGone hr hj hp => exact .same rfl
  | jobLeft hc => exact .same (detachJob_upkeep _ _ _).extent
  | processLeft => exact .same (detachProcess_upkeep _ _ _).extent
  | booked k counters registry => exact .same rfl
  | emptied ht => exact .same (s.extent_emptied _ _)
  | ended code hp hr => exact .same rfl
  | condemned code hj hr => exact .same (commitKill_upkeep _ code _ _).extent
  | jobBorn hn hq hh => exact .same (s.extent_addJob _)
  | jobListed => exact .same (s.extent_attach _ _)
  | processBorn name hj => exact .same rfl
  | viewBorn hv => exact .same rfl
  | adopted ht hh => exact .same rfl
  | unbound hop hj hp => exact .same rfl

end Reshapes

end System

/-- **An operation that does one thing changes no extent**, unless it commits, decommits or resizes
that very object or makes a new one. -/
theorem World.act_reshapes {w : World} (hacc : Accounted w.system w.dues) (hh : w.system.Housed)
    {op : Op} (hop : op.AtOnce) : System.Reshapes op w.system (w.act op).system := by
  obtain ⟨s, d⟩ := w
  have hacc : Accounted s d := hacc
  -- one case for each operation that does one thing; edits are told apart by their topics
  cases op with
  | createRootJob hasHaltHandler =>
    show System.Reshapes _ s (s.createRootJob hasHaltHandler).2
    unfold System.createRootJob
    exact .same ((System.extent_addJob _ _).trans (s.settledConfig_edit.extent (by decide)))
  | createVmo size options =>
    rw [act, system_after]
    exact System.createVmo_reshapes hacc hh size options
  | cloneVmo v ask =>
    rw [act, system_after]
    exact System.cloneVmo_reshapes hacc v ask
  | openSharedArena | attachProcess | zeroHandles | dropReports | setUserId | setWatcher =>
    exact s.help_reshapes d trivial
  | makeHandle => exact s.help_reshapes d trivial
  | share r =>
    rw [act]
    split <;> exact .same rfl
  | duplicateHandle a rights =>
    rw [act, system_after]
    obtain he | ⟨r, -, he⟩ := s.duplicateHandle_cases a rights
    · rw [he]
      exact .same rfl
    · rw [he]
      exact .same (s.extent_makeHandle _ _ _ _)
  | tableRemove i value =>
    rw [act, system_after]
    exact .same ((s.tableRemove_edit i value).extent (by decide))
  | detachProcess k p => exact .same (s.detachProcess_upkeep k p).extent
  | commit v offset length => exact s.commitRange_reshapes v offset length
  | decommit v offset length => exact s.decommitRange_reshapes v offset length
  | resize v size => exact s.resize_reshapes v size
  | forgetClone v c => exact .same (s.extent_forgetClone v c)
  | createWitness | createListener | createMapping | newArena | openTable | openPort | unbindPort
  | signal => exact .same rfl
  | openSpace | settledConfig | installConfig | setKillOnOom | nameJob | nameProcess | nameVmo
  | amendPolicy | bindPort | report | setProcess | recordClone | addMapping | removeMapping
  | unmapSpan | rangeChanged | setCachePolicy =>
    exact .same ((act_edit rfl ⟨s, d⟩).extent (by decide))
  | _ => exact hop.elim

/-! ## 5. Counts and sizes

What one shift keeps, and what can be told of a single call from the state before it. -/

/-- A set of pages below a bound has no more pages than that. -/
theorem PageSet.size_le {c : PageSet} {bound : Nat} (h : ∀ p ∈ c, p < bound) : c.size ≤ bound := by
  have hnodup : c.toList.Nodup := by
    refine (Std.ExtTreeSet.distinct_toList (t := c)).imp fun {a b} hab he => hab ?_
    exact Std.LawfulEqCmp.compare_eq_iff_eq.2 he
  have hsub : c.toList ⊆ List.range bound := fun p hp =>
    List.mem_range.2 (h p (Std.ExtTreeSet.mem_toList.1 hp))
  have hle := (List.subperm_of_subset hnodup hsub).length_le
  rwa [Std.ExtTreeSet.length_toList, List.length_range] at hle

/-- The bytes with memory are at most as many as there are bytes. -/
theorem Extent.Sound.bytes_le {x : Extent} (h : x.Sound) : x.pages.size * Page.size ≤ x.size :=
  calc x.pages.size * Page.size ≤ x.size / Page.size * Page.size :=
        Nat.mul_le_mul_right _ (PageSet.size_le h.below)
    _ = x.size := Nat.div_mul_cancel h.dvd

/-- Whether no whole number of pages that has room for so many bytes fits a word. -/
def Page.Unfit (n : Nat) : Prop := ∀ c, size ∣ c → n ≤ c → Word.max < c

/-- Rounding up fails only where it must. -/
theorem Page.ceil?_eq_none_iff {n : Nat} : ceil? n = none ↔ Unfit n := by
  constructor
  · intro h c hd hc
    by_contra hle
    have hroom : n + (size - 1) ≤ Word.max :=
      Nat.le_trans (Nat.add_le_add_right hc _) (add_le_max hd (Nat.le_of_not_lt hle))
    rw [ceil?_of_le hroom] at h
    cases h
  · intro h
    cases hc : ceil? n with
    | none => rfl
    | some c =>
      exact absurd (h c (size_dvd_of_ceil? hc) (le_of_ceil? hc)) (Nat.not_lt.2 (ceil?_le hc))

namespace System

variable {s : System} {v : VmoId} {o : Vmo} {m : Member} {n : Nat}

/-- Nothing is created of a size that no number of whole pages reaches, -/
theorem createVmo_of_unfit (hn : Page.Unfit n) {options : BitVec 32} :
    s.createVmo n options = (.error .outOfRange, s) := by
  unfold createVmo
  rw [Page.ceil?_eq_none_iff.2 hn]

/-- nor cloned, whatever else is asked. -/
theorem cloneVmo_of_unfit {ask : CloneRequest} (hn : Page.Unfit ask.size) :
    ∃ e, s.cloneVmo v ask = (.error e, s) := by
  unfold cloneVmo
  rw [Page.ceil?_eq_none_iff.2 hn]
  split
  · exact ⟨_, rfl⟩
  · exact ⟨_, rfl⟩

/-- A fixed size is refused before anything else is looked at. -/
theorem resize_of_fixed (ho : s.vmos[v]? = some o) (hr : o.isResizable = false) :
    s.resize v n = (.error .notSupported, s) := by
  unfold resize
  rw [ho, Option.map_some, Option.getD_some, hr]
  rfl

theorem resize_of_unfit (ho : s.vmos[v]? = some o) (hr : o.isResizable) (hn : Page.Unfit n) :
    s.resize v n = (.error .outOfRange, s) := by
  unfold resize
  rw [ho, Option.map_some, Option.getD_some, hr, Page.ceil?_eq_none_iff.2 hn]
  rfl

/-- A size is kept by the family, so the own record of the object stays. -/
theorem vmos_resize (s : System) (v : VmoId) (n : Nat) : (s.resize v n).2.vmos = s.vmos := by
  obtain ⟨e, he⟩ | ⟨o, m, stop, -, -, -, -, he⟩ := s.resize_cases v n
  · rw [he]
  · rw [he]
    dsimp only
    split
    · obtain ⟨mappings, he⟩ := rangeChanged_eq (s.modifyMember o.family v _) o.family v _ _
      rw [he]
      rfl
    · rfl

/-- A size that fits is taken, rounded up to whole pages. -/
theorem resize_of_fit (ho : s.vmos[v]? = some o) (hr : o.isResizable) {x : Extent}
    (hx : s.extent v = some x) {c : Nat} (hc : Page.ceil? n = some c) :
    (s.resize v n).1 = .ok () ∧ (s.resize v n).2.extent v = some (x.resize c) := by
  obtain ⟨m, hm, rfl⟩ := Option.map_eq_some_iff.1 hx
  have hextent : (s.modifyMember (s.familyOf v) v fun m => m.resize c).extent v =
      some (m.extent.resize c) := by
    unfold extent
    rw [familyOf_of_get ho, member_modifyMember ho, if_pos rfl, hm, ← Extent.extent_resize]
    rfl
  unfold resize
  rw [ho, Option.map_some, Option.getD_some, hr, hc, hm]
  refine ⟨rfl, ?_⟩
  dsimp only
  rw [if_neg (by decide)]
  dsimp only
  split
  · rw [extent_rangeChanged]
    exact hextent
  · exact hextent

/-- The pages that a range touches have memory after its commit. -/
theorem commitRange_of_fit {x : Extent} (hx : s.extent v = some x) (hs : x.Sound)
    {offset length : Nat} (hle : offset + length ≤ x.size) :
    (s.commitRange v offset length).1 = .ok () ∧
      ∃ c : PageSet, (s.commitRange v offset length).2.extent v = some ⟨x.size, c⟩ ∧
        ∀ p, p ∈ c ↔ p ∈ x.pages ∨ Page.Touches offset length p := by
  obtain ⟨m, hm, rfl⟩ := Option.map_eq_some_iff.1 hx
  obtain ⟨pages, hpages⟩ := Page.covering_of_le hs.dvd hs.fits hle
  rw [commitRange_of_le hm hpages]
  refine ⟨rfl, m.committed.insertFrom pages.1 pages.2, ?_, fun p => ?_⟩
  · rw [extent, member_withPages hm]
    rfl
  · rw [PageSet.mem_insertFrom, Page.mem_covering_iff hpages]
    rfl

end System

/-! ## 6. Runs

From shifts to paces, from paces to operations and from these to runs; each step is an induction
on a list of states. -/

/-- What every shift keeps of the extent of an object, paces keep. -/
theorem System.Paces.keeps_extent {op : Op} {s t : System} {es : List (System × System)}
    (h : System.Paces op s es t) {v : VmoId} {I : Option Extent → Prop}
    (hstep : ∀ x y, Extent.Shift op v x y → I x → I y) (hi : I (s.extent v)) : I (t.extent v) := by
  induction h with
  | nil => exact hi
  | cons hpace _ ih => exact ih (hstep _ _ (hpace.reshapes v) hi)

namespace World

variable {P Q : System → Op → Prop} {w u : World} {v : VmoId}

/-- What every shift of one operation keeps, the operation keeps: it does one thing, or goes at its
paces. -/
theorem Passed.keeps_extent {A C : Prop} (h : Passed A C w) {op : Op} {I : Option Extent → Prop}
    (hstep : ∀ x y, Extent.Shift op v x y → I x → I y) (hi : I (w.system.extent v)) :
    I ((w.act op).system.extent v) := by
  obtain ⟨es, hes⟩ := exists_route h.accounted op
  cases hes with
  | once hop => exact hstep _ _ (act_reshapes h.accounted h.housed hop v) hi
  | paces _ hes => exact hes.keeps_extent hstep hi

/-- **What every shift keeps of the extent of an object, a run keeps.** -/
theorem Onward.keeps_extent (h : w.Onward Q u) (hw : w.Ran P) {I : Option Extent → Prop}
    (hstep : ∀ s op x y, Q s op → Extent.Shift op v x y → I x → I y) (hi : I (w.system.extent v)) :
    I (u.system.extent v) := by
  induction h with
  | refl => exact hi
  | @act u op h hop ih =>
    exact (h.ran_any hw).passed.keeps_extent (fun x y => hstep u.system op x y hop) ih
  | reorder _ _ ih => exact ih

/-- **In every state that operations lead to all extents are sound.** -/
theorem Ran.sound (h : w.Ran P) {x : Extent} (hx : w.system.extent v = some x) : x.Sound := by
  refine h.onward.keeps_extent (Ran.start (P := P)) (v := v)
    (I := fun x => ∀ a, x = some a → a.Sound) (fun _ _ _ _ _ hs hi _ hb => hs.sound hi hb) ?_ x hx
  intro a ha
  rw [System.extent_of_none (by simp [System.initial])] at ha
  cases ha

/-- A page without memory has none later, unless a range that touches it was committed. -/
theorem Onward.lacks {p : Nat} (h : w.Onward (fun _ op => ¬ op.Commits v p) u) (hw : w.Ran P)
    (hp : Extent.Lacks p (w.system.extent v)) : Extent.Lacks p (u.system.extent v) :=
  h.keeps_extent hw (fun _ _ _ _ hop hs hi => hs.lacks hop hi) hp

/-- What holds of the sizes and the pages of all VM objects that are there. -/
structure ExtentsKept (w : World) : Prop where
  /-- A size is one of whole pages and fits a word, and the pages with memory lie below it. -/
  sound : ∀ {v : Nat} {o : Vmo}, w.system.vmos[v]? = some o →
    ∃ x, w.system.extent v = some x ∧ x.Sound
  /-- The bytes with memory are no more than there are, and their number fits a word. -/
  told : ∀ {v : VmoId} {rights : Rights} {info : ViewInfo},
    w.system.viewInfo v rights = some info →
      info.committedBytes = w.system.committedPages v * Page.size ∧
        info.committedBytes ≤ info.size ∧ info.size ≤ Word.max
  /-- Nothing is created that is too large. -/
  create : ∀ {n : Nat}, Page.Unfit n →
    (∀ options, w.system.createVmo n options = (.error .outOfRange, w.system)) ∧
      ∀ v ask, ask.size = n → ∃ e, w.system.cloneVmo v ask = (.error e, w.system)
  /-- Nothing is resized that has a fixed size, -/
  fixed : ∀ {v : Nat} {o : Vmo}, w.system.vmos[v]? = some o → o.isResizable = false → ∀ n,
    w.system.resize v n = (.error .notSupported, w.system)
  /-- nor to one that is too large. -/
  unfit : ∀ {v : Nat} {o : Vmo}, w.system.vmos[v]? = some o → o.isResizable → ∀ {n},
    Page.Unfit n → w.system.resize v n = (.error .outOfRange, w.system)
  /-- All other sizes are taken where clones are entered in lists by cloning only; elsewhere it may
  have no end to tell the family of a shrink. -/
  resize : (w.Ran fun _ => Op.ListsByCloning) → ∀ {v : Nat} {o : Vmo} {x : Extent},
    w.system.vmos[v]? = some o → o.isResizable →
    w.system.extent v = some x → ∀ {n c}, Page.ceil? n = some c →
      (w.system.resize v n).1 = .ok () ∧
        (w.act (.resize v n)).system.extent v = some (x.resize c)
  /-- Pages past an end have no memory as long as no range is committed that touches them, -/
  dropped : ∀ {v : Nat} {o : Vmo}, w.system.vmos[v]? = some o → o.isResizable →
    ∀ {n c p}, Page.ceil? n = some c → c / Page.size ≤ p → ∀ {u : World},
      (w.act (.resize v n)).Onward (fun _ op => ¬ op.Commits v p) u →
        Extent.Lacks p (u.system.extent v)
  /-- and those that it touches have memory after that. -/
  commit : ∀ {v : Nat} {x : Extent}, w.system.extent v = some x → ∀ {offset length},
    offset + length ≤ x.size → (w.system.commitRange v offset length).1 = .ok () ∧
      ∃ c : PageSet, (w.act (.commit v offset length)).system.extent v = some ⟨x.size, c⟩ ∧
        ∀ p, p ∈ c ↔ p ∈ x.pages ∨ Page.Touches offset length p

/-- **Sizes and pages with memory agree** in every state that operations lead to.  A page that a
shrink dropped has no memory until a range is committed that touches it, however the object grows in
between; an empty range in the midst of the page counts as one. -/
theorem Ran.extents_kept (h : w.Ran P) : w.ExtentsKept := by
  have hmember : ∀ {v : Nat} {o : Vmo}, w.system.vmos[v]? = some o →
      ∃ m, w.system.member v = some m := by
    intro v o ho
    obtain ⟨k, hk, -⟩ := h.lodged.member (System.vmoKin_of_get ho)
    obtain ⟨m, hin, -⟩ := Option.map_eq_some_iff.1 hk
    exact ⟨m, Option.bind_eq_some_iff.2 ⟨o, ho, hin⟩⟩
  have hextent : ∀ {v : Nat} {m : Member}, w.system.member v = some m →
      w.system.extent v = some m.extent := fun hm => by rw [System.extent, hm, Option.map_some]
  constructor
  case sound =>
    intro v o ho
    obtain ⟨m, hm⟩ := hmember ho
    exact ⟨m.extent, hextent hm, h.sound (hextent hm)⟩
  case told =>
    intro v rights info hinfo
    obtain ⟨o, ho, rfl⟩ := Option.map_eq_some_iff.1 hinfo
    obtain ⟨m, hm⟩ := hmember ho
    have hsound := h.sound (hextent hm)
    have hpages : w.system.committedPages v = m.committed.size := by
      rw [System.committedPages, System.memberNat, hm, Option.map_some, Option.getD_some]
    have hsize : w.system.vmoSize v = m.size := by
      rw [System.vmoSize, System.memberNat, hm, Option.map_some, Option.getD_some]
    dsimp only
    rw [hpages, hsize]
    exact ⟨rfl, hsound.bytes_le, hsound.fits⟩
  case create =>
    intro n hn
    exact ⟨fun options => System.createVmo_of_unfit hn, fun v ask hask =>
      System.cloneVmo_of_unfit (hask ▸ hn)⟩
  case fixed => exact fun ho hr n => System.resize_of_fixed ho hr
  case unfit => exact fun ho hr n hn => System.resize_of_unfit ho hr hn
  case resize => exact fun _ v o x ho hr hx n c hc => System.resize_of_fit ho hr hx hc
  case dropped =>
    intro v o ho hr n c p hc hp u hu
    obtain ⟨m, hm⟩ := hmember ho
    have hafter : (w.act (.resize v n)).system.extent v = some (m.extent.resize c) :=
      (System.resize_of_fit ho hr (hextent hm) hc).2
    have hran : (w.act (.resize v n)).Ran fun _ _ => True :=
      (h.mono fun _ _ _ => trivial).act trivial
    -- a page past the new end is not below the size, so it has no memory after the shrink
    refine hu.lacks hran fun a ha hin => ?_
    have hbelow := (hran.sound ha).below p hin
    have hsize : a.size = c := by
      rw [hafter] at ha
      cases ha
      rfl
    rw [hsize] at hbelow
    exact absurd hbelow (Nat.not_lt.2 hp)
  case commit => exact fun hx offset length hle => System.commitRange_of_fit hx (h.sound hx) hle

/-- An object of two pages that may be resized has memory and is cut to one page. -/
def cutOps : List Op :=
  [.createVmo 0x2000 Vmo.resizableBit, .commit 1 0 0x2000, .resize 1 1]

theorem ran_before_cut : (run (cutOps.take 2)).Ran fun _ _ => True :=
  Ran.start.foldl (keep_any _ _)

/-- After that it grows again, and the page that it lost has no memory. -/
theorem Ran.extents_kept_of_cut :
    let w := run (cutOps.take 2)
    let u := ((run cutOps).act (.resize 1 0x2000)).act (.commit 1 0 1)
    w.ExtentsKept ∧ (w.system.extent 1).map (fun x => (x.size, x.pages.toList)) =
      some (0x2000, [0, 1]) ∧ Extent.Lacks 1 (u.system.extent 1) := by
  have hkept := ran_before_cut.extents_kept
  have hthere : ((run (cutOps.take 2)).system.vmos[1]?.map Vmo.isResizable) = some true := by
    decide +kernel
  obtain ⟨o, ho, hr⟩ := Option.map_eq_some_iff.1 hthere
  refine ⟨hkept, by decide +kernel, ?_⟩
  refine hkept.dropped ho hr (n := 1) (c := 0x1000) (by decide) (by decide)
    ((Onward.refl.act ?_).act ?_)
  · exact id
  · rintro ⟨-, hmeets | ⟨hzero, -⟩⟩
    · exact absurd (Page.meets_iff.1 hmeets).2.2 (by decide)
    · cases hzero

/-- A page that was dropped comes back with the commit of a range that has no byte of it. -/
theorem page_back_by_empty_range :
    let w := run cutOps
    Extent.Lacks 1 (w.system.extent 1) ∧
    ¬ ∀ u : World, w.Onward
        (fun _ op => ∀ offset length, op = .commit 1 offset length →
          ¬ Page.Meets offset length 1) u →
      Extent.Lacks 1 (u.system.extent 1) := by
  have hthere : ((run (cutOps.take 2)).system.vmos[1]?.map Vmo.isResizable) = some true := by
    decide +kernel
  have hwhole : ((run (cutOps.take 2)).system.extent 1).isSome := by decide +kernel
  obtain ⟨o, ho, hr⟩ := Option.map_eq_some_iff.1 hthere
  obtain ⟨x, hx⟩ := Option.isSome_iff_exists.1 hwhole
  have hcut : (run cutOps).system.extent 1 = some (x.resize 0x1000) :=
    (System.resize_of_fit ho hr hx (n := 1) (by decide)).2
  have hran : (run cutOps).Ran fun _ _ => True := Ran.start.foldl (keep_any _ _)
  constructor
  · intro a ha hin
    rw [hcut] at ha
    cases ha
    exact absurd ((hran.sound hcut).below 1 hin) (show ¬ 1 < 0x1000 / Page.size by decide)
  · -- The object grows again and then a range without bytes is committed, which starts in the
    -- midst of the page.  No operation of this run commits a byte of the page, and yet it is
    -- back.
    intro h
    have ho' : (run cutOps).system.vmos[1]? = some o :=
      (congrArg (·[1]?) (System.vmos_resize (run (cutOps.take 2)).system 1 1)).trans ho
    have hgrown : ((run cutOps).act (.resize 1 0x2000)).system.extent 1 =
        some ((x.resize 0x1000).resize 0x2000) :=
      (System.resize_of_fit ho' hr hcut (by decide)).2
    have hroom : 0x1800 + 0 ≤ ((x.resize 0x1000).resize 0x2000).size :=
      show 0x1800 + 0 ≤ 0x2000 by decide
    have hgrows : ((run cutOps).act (.resize 1 0x2000)).Ran fun _ _ => True := hran.act trivial
    obtain ⟨-, c, hc, hmem⟩ := System.commitRange_of_fit hgrown (hgrows.sound hgrown) hroom
    refine h (((run cutOps).act (.resize 1 0x2000)).act (.commit 1 0x1800 0))
      ((Onward.refl.act ?_).act ?_) _ hc ?_
    · intro offset length hop
      cases hop
    · intro offset length hop hmeets
      cases hop
      exact Nat.lt_irrefl 0 (Page.meets_iff.1 hmeets).1
    · exact (hmem 1).2 (.inr (.inr ⟨rfl, by decide, rfl⟩))

end World

end KernelObjects
