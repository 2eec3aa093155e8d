import KernelObjects.Proofs.Lifecycle
import KernelObjects.Proofs.NoLeaks
import KernelObjects.Proofs.KillReach

/-
# A kill is confined to its subtree

The kill of a job condemns that job and jobs below it and ends processes that belong to these, and
nothing else.  Yet it destroys things anywhere: the processes that it ends give up their handles,
what had no other holder goes, and gives up in turn what it held.  On the way such a chain takes
children off the lists of jobs far away and buries jobs there that were condemned before; but all
of that are turns of lives that need no warrant, so it never amounts to a kill (`Lives.Turns`).

That nothing is destroyed for another reason is shown the other way round.  A thing is *given up*
if a process that was killed owned it as a handle, or if something that is gone and was given up
itself held it (`GivenUp`).  All along the walk what is not given up has a holder besides the
walk, so what the walk gives back is never the last reference to it (`Killing`).

The proof has to look at every reference that is given back on the way, those of snapshots
included.  They are told apart by who owes them: the walk owes what it lent, a chain owes what
followed from a task of it, and everybody else owes the rest.  For the walk the invariant says
that what is not given up is spared (`Spares`); for a chain, that all it is concerned with is
given up (`settle_spares`).

`GivenUp` compares the state before the kill with the present one, and both what was killed and
what is gone only grow along the walk.  So what was given up stays given up, and the invariant
needs to be looked at only where something is destroyed.
-/

namespace KernelObjects

/-! ## 1. Lives and kills under a warrant

A warrant says which jobs may be condemned and which processes ended.  The kills that are noted
are those that the warrant allows, so the notes can be used to see what a kill did. -/

/-- Whether a warrant covers a kill. -/
def Warrant.Covers (W : Warrant) : Event → Prop
  | .jobKilled k code => W.kills k code
  | .processKilled p code => W.ends p code
  | _ => False

namespace Lives

variable {W : Warrant} {l m : Lives}

/-- A process that a turn may not end has the same record after it. -/
theorem Turn.process (h : Turn W l m) {p : Koid} (hp : p < l.nextKoid) {b : Process.Life}
    (hb : m.process p = some b) :
    ∃ a, l.process p = some a ∧ ((∀ code, ¬ W.ends p code) → b = a) := by
  cases h with
  | processBorn =>
    have hb : (if l.nextKoid = p then some ⟨.running, 0⟩ else l.process p) = some b := hb
    rw [if_neg (Nat.ne_of_gt hp)] at hb
    exact ⟨b, hb, fun _ => rfl⟩
  | processGone k =>
    have hb : (if k = p then none else l.process p) = some b := hb
    split at hb
    · cases hb
    · exact ⟨b, hb, fun _ => rfl⟩
  | @ended k code a hk ha hr =>
    have hb : (if k = p then some ⟨.dead, code⟩ else l.process p) = some b := hb
    split at hb
    · rename_i he
      subst he
      exact ⟨a, ha, fun hn => absurd hk (hn code)⟩
    · exact ⟨b, hb, fun _ => rfl⟩
  | _ => exact ⟨b, hb, fun _ => rfl⟩

/-- A process that may not be ended stays as it is. -/
theorem Turns.process (h : Turns W l m) {p : Koid} (hp : p < l.nextKoid) {b : Process.Life}
    (hb : m.process p = some b) :
    ∃ a, l.process p = some a ∧ ((∀ code, ¬ W.ends p code) → b = a) := by
  induction h using Relation.ReflTransGen.head_induction_on with
  | refl => exact ⟨b, hb, fun _ => rfl⟩
  | head hturn _ ih =>
    obtain ⟨x, hx, hxb⟩ := ih (Nat.lt_of_lt_of_le hp hturn.nextKoid_le)
    obtain ⟨a, ha, hax⟩ := hturn.process hp hx
    exact ⟨a, ha, fun hn => (hxb hn).trans (hax hn)⟩

/-- Kills are written in front of the earlier ones, and only what the turn covers is killed. -/
theorem Turn.kills (h : Turn W l m) :
    ∃ new, m.kills = new ++ l.kills ∧ ∀ e ∈ new, W.Covers e := by
  cases h with
  | @condemned k code _ hk _ _ =>
    exact ⟨[.jobKilled k code], rfl, fun e he => List.mem_singleton.1 he ▸ hk⟩
  | @ended k code _ hk _ _ =>
    exact ⟨[.processKilled k code], rfl, fun e he => List.mem_singleton.1 he ▸ hk⟩
  | _ => exact ⟨[], rfl, fun _ he => absurd he List.not_mem_nil⟩

/-- All kills that there were are still there, and new ones are covered. -/
theorem Turns.kills (h : Turns W l m) :
    ∃ new, m.kills = new ++ l.kills ∧ ∀ e ∈ new, W.Covers e := by
  induction h with
  | refl => exact ⟨[], rfl, fun _ he => absurd he List.not_mem_nil⟩
  | tail _ hturn ih =>
    obtain ⟨new, hnew, hcovers⟩ := ih
    obtain ⟨more, hmore, hcovers'⟩ := hturn.kills
    refine ⟨more ++ new, by rw [hmore, hnew, List.append_assoc], fun e he => ?_⟩
    exact (List.mem_append.1 he).elim (hcovers' e) (hcovers e)

end Lives

/-! ## 2. The subtree

Which jobs are below the one that is killed, before the kill and while it is going on.  A job does
not move, so it can only drop out. -/

namespace System

/-- The job itself and all jobs below it. -/
def Subtree (s : System) : Koid → Koid → Prop := Relation.ReflTransGen s.ChildOf

/-- A process that belongs to a job of the subtree. -/
def Inmate (s : System) (k p : Koid) : Prop :=
  ∃ q, s.processes[p]? = some q ∧ s.Subtree k q.job

/-- What the kill of a job may do on purpose. -/
def killWarrant (s : System) (k : Koid) (code : Int) : Warrant where
  kills c x := s.Subtree k c ∧ x = code
  ends p x := s.Inmate k p ∧ x = code

end System

/-- What a job of the subtree lists later on is of the subtree. -/
theorem JobTree.subtree {K P : Koid → Prop} {s t : System} (h : JobTree s) (hw : Wanes K P s t)
    {k c : Koid} (hc : s.Subtree k c) :
    (∀ b ∈ (t.liveChildren c).jobs, s.Subtree k b) ∧
      ∀ p ∈ (t.liveChildren c).processes, s.Inmate k p := by
  have ht := h.wanes hw
  unfold System.liveChildren
  cases hj : t.jobs[c]? with
  | none => exact ⟨fun _ hb => absurd hb List.not_mem_nil, fun _ hp => absurd hp List.not_mem_nil⟩
  | some j =>
    constructor
    · intro b hb
      obtain ⟨hlisted, hthere⟩ := List.mem_filter.1 hb
      obtain ⟨i, hi⟩ := Store.contains_iff.1 hthere
      exact hc.tail (hw.childOf ⟨i, hi, ht.parent hj hlisted hi⟩)
    · intro p hp
      obtain ⟨hlisted, hthere⟩ := List.mem_filter.1 hp
      obtain ⟨q, hq⟩ := Store.contains_iff.1 hthere
      obtain ⟨q', hq', hw'⟩ := hw.process hq
      have hjob : q'.job = c := hw'.job.symm.trans (ht.job hj hlisted hq)
      exact ⟨q', hq', hjob ▸ hc⟩

/-! ## 3. What refers to what

A process refers to what is in its table, though the table is a record of its own: it is the
process that gives it up. -/

/-- One thing keeps another one alive; a process does so through its table. -/
inductive System.Refers (s : System) : Ref → Ref → Prop
  | parent {k p : Koid} {j : Job} (hj : s.jobs[k]? = some j) (hp : j.parent = some p) :
      Refers s (.object k) (.object p)
  | job {k : Koid} {p : Process} (hp : s.processes[k]? = some p) :
      Refers s (.object k) (.object p.job)
  | table {k : Koid} {p : Process} {table : Table} {base : Nat} {h : HandleId}
      (hp : s.processes[k]? = some p) (ht : s.tables[p.table]? = some table)
      (hh : table.owned[base]? = some h) : Refers s (.object k) (.handle h)
  | view {k : Koid} {v : View} (hv : s.views[k]? = some v) : Refers s (.object k) (.vmo v.vmo)
  | handle {h : HandleId} {r : Handle} (hr : s.handles[h]? = some r) :
      Refers s (.handle h) (.object r.object)
  | clone {v p : VmoId} {o : Vmo} (ho : s.vmos[v]? = some o) (hp : o.parent = some p) :
      Refers s (.vmo v) (.vmo p)

namespace System

variable {s t u : System}

/-- What something refers to is there. -/
theorem Refers.present {d : List Task} {x y : Ref} (h : s.Refers x y) (hacc : Accounted s d) :
    s.Present y := by
  cases h with
  | parent hj hp => exact .inl (hacc.parent hj hp)
  | job hp => exact .inl (hacc.job hp)
  | table hp ht hh =>
    exact Store.contains_iff.2 (hacc.handle_of_owners
      (Nat.lt_of_lt_of_le (System.owned_pos_iff.2 ⟨_, _, _, ht, hh⟩) (Nat.le_add_right _ _)))
  | view hv => exact hacc.present_of_held (held_of_view hv)
  | handle hr => exact hacc.present_of_held (held_of_handle hr)
  | clone ho hp => exact hacc.present_of_held (held_of_clone ho hp)

theorem Refers.of_job {k c : Koid} {p : Process} (hp : s.processes[k]? = some p) (hc : c = p.job) :
    s.Refers (.object k) (.object c) := hc ▸ .job hp

/-- Of the things that `Wanes` and `Remains` do not look at nothing comes back either. -/
structure Outlasts (s t : System) : Prop where
  view : ∀ {k : Nat} {b : View}, t.views[k]? = some b → s.views[k]? = some b
  witness : ∀ {k : Nat} {b : Witness}, t.witnesses[k]? = some b → s.witnesses[k]? = some b
  vmo : ∀ {v : Nat} {b : Vmo}, t.vmos[v]? = some b →
    ∃ a, s.vmos[v]? = some a ∧ b.parent = a.parent
  mapping : ∀ {m : Nat}, t.mappings.contains m → s.mappings.contains m
  listener : ∀ {o : Nat}, t.listeners.contains o → s.listeners.contains o

namespace Outlasts

theorem of_same (hv : t.views = s.views) (hw : t.witnesses = s.witnesses) (ho : t.vmos = s.vmos)
    (hm : t.mappings = s.mappings) (hl : t.listeners = s.listeners) : Outlasts s t where
  view := fun h => hv ▸ h
  witness := fun h => hw ▸ h
  vmo := fun {_ b} h => ⟨b, ho ▸ h, rfl⟩
  mapping := fun h => hm ▸ h
  listener := fun h => hl ▸ h

/-- To outlast is transitive: what is still there at the end was there in between. -/
theorem trans (h : Outlasts s t) (h' : Outlasts t u) : Outlasts s u where
  view hc := h.view (h'.view hc)
  witness hc := h.witness (h'.witness hc)
  vmo hc := by
    obtain ⟨b, hb, hcb⟩ := h'.vmo hc
    obtain ⟨a, ha, hba⟩ := h.vmo hb
    exact ⟨a, ha, hcb.trans hba⟩
  mapping hc := h.mapping (h'.mapping hc)
  listener hc := h.listener (h'.listener hc)

/-- What is inert makes an end of nothing. -/
theorem inert (h : Inert s t) : Outlasts s t where
  view := fun hb => h.views ▸ hb
  witness := fun hb => h.witnesses ▸ hb
  vmo := fun hb => by
    obtain ⟨a, ha, hab⟩ := exists_of_map_eq (h.vmo _) hb
    exact ⟨a, ha, (congrArg Vmo.Kin.parent hab).symm⟩
  mapping := fun {m} hb => h.mapping m ▸ hb
  listener := fun hb => h.listeners ▸ hb

end Outlasts

end System

/-- One decline takes one thing away, and what is left is as it was. -/
theorem Decline.outlasts {K P : Koid → Prop} {w w' : World} (h : Decline K P w w') :
    w.system.Outlasts w'.system := by
  cases h with
  | inert hs => exact .inert hs
  | view => exact { System.Outlasts.of_same rfl rfl rfl rfl rfl with view := System.Remains.erase }
  | witness =>
    exact { System.Outlasts.of_same rfl rfl rfl rfl rfl with witness := System.Remains.erase }
  | @vmo s d v o _ _ =>
    obtain ⟨families, he, -⟩ := s.withoutVmo_eq v o
    dsimp only
    rw [he]
    exact { System.Outlasts.of_same rfl rfl rfl rfl rfl with
      vmo := fun {_ b} hb => ⟨b, System.Remains.erase hb, rfl⟩ }
  | mapping =>
    exact { System.Outlasts.of_same rfl rfl rfl rfl rfl with
      mapping := fun hb => ((Store.contains_erase _ _ _).1 hb).2 }
  | listener =>
    exact { System.Outlasts.of_same rfl rfl rfl rfl rfl with
      listener := fun hb => ((Store.contains_erase _ _ _).1 hb).2 }
  | _ => exact .of_same rfl rfl rfl rfl rfl

namespace Declines

variable {K P : Koid → Prop} {v w : World}

/-- Along declines nothing appears, and what is left is as it was. -/
theorem outlasts (h : Declines K P v w) : v.system.Outlasts w.system := by
  induction h with
  | refl => exact .of_same rfl rfl rfl rfl rfl
  | tail _ hstep ih => exact ih.trans hstep.outlasts

/-- An object that is left is of the kind that it was, and refers to what it referred to. -/
theorem object_cases (h : Declines K P v w) {k : Nat} (hk : w.system.Present (.object k)) :
    (∃ a b, v.system.jobs[k]? = some a ∧ w.system.jobs[k]? = some b ∧ b.parent = a.parent) ∨
      (∃ a b, v.system.processes[k]? = some a ∧ w.system.processes[k]? = some b ∧
        b.job = a.job) ∨
      (∃ a, v.system.views[k]? = some a ∧ w.system.views[k]? = some a) ∨
      ∃ a, v.system.witnesses[k]? = some a := by
  rcases hk with hk | hk | hk | hk <;> obtain ⟨b, hb⟩ := Store.contains_iff.1 hk
  · obtain ⟨a, ha, hab⟩ := h.wanes.job hb
    exact .inl ⟨a, b, ha, hb, hab.parent⟩
  · obtain ⟨a, ha, hab⟩ := h.wanes.process hb
    exact .inr (.inl ⟨a, b, ha, hb, hab.job⟩)
  · exact .inr (.inr (.inl ⟨b, h.outlasts.view hb, hb⟩))
  · exact .inr (.inr (.inr ⟨b, h.outlasts.witness hb⟩))

/-- Nothing comes back. -/
theorem present (h : Declines K P v w) {x : Ref} (hx : w.system.Present x) :
    v.system.Present x := by
  cases x with
  | object k =>
    rcases h.object_cases hx with ⟨a, -, ha, -⟩ | ⟨a, -, ha, -⟩ | ⟨a, ha, -⟩ | ⟨a, ha⟩
    · exact .inl (Store.contains_iff.2 ⟨a, ha⟩)
    · exact .inr (.inl (Store.contains_iff.2 ⟨a, ha⟩))
    · exact .inr (.inr (.inl (Store.contains_iff.2 ⟨a, ha⟩)))
    · exact .inr (.inr (.inr (Store.contains_iff.2 ⟨a, ha⟩)))
  | handle a =>
    obtain ⟨b, hb⟩ := Store.contains_iff.1 hx
    obtain ⟨r, hr, -⟩ := h.remains.handle hb
    exact Store.contains_iff.2 ⟨r, hr⟩
  | vmo a =>
    obtain ⟨b, hb⟩ := Store.contains_iff.1 hx
    obtain ⟨o, ho, -⟩ := h.outlasts.vmo hb
    exact Store.contains_iff.2 ⟨o, ho⟩
  | mapping m => exact h.outlasts.mapping hx
  | listener o => exact h.outlasts.listener hx

/-- Nothing takes a new reference. -/
theorem refers (h : Declines K P v w) {x y : Ref} (hxy : w.system.Refers x y) :
    v.system.Refers x y := by
  cases hxy with
  | parent hj hp =>
    obtain ⟨i, hi, hij⟩ := h.wanes.job hj
    exact .parent hi (hij.parent.symm.trans hp)
  | job hp =>
    obtain ⟨q, hq, hqp⟩ := h.wanes.process hp
    exact System.Refers.of_job hq hqp.job
  | table hp ht hh =>
    obtain ⟨q, hq, hqp⟩ := h.remains.process hp
    obtain ⟨table, ht', hkeep⟩ := h.remains.table ht
    exact .table hq (hqp ▸ ht') (hkeep _ _ hh)
  | view hv => exact .view (h.outlasts.view hv)
  | handle hr =>
    obtain ⟨r, hr', hrr⟩ := h.remains.handle hr
    exact hrr ▸ .handle hr'
  | clone ho hp =>
    obtain ⟨o, ho', hoo⟩ := h.outlasts.vmo ho
    exact .clone ho' (hoo.symm.trans hp)

/-- What is still there refers to what it referred to; only tables give up handles. -/
theorem refers_of_present {d : List Task} (h : Declines K P v w) (hacc : Accounted v.system d)
    {x y : Ref} (hxy : v.system.Refers x y) (hx : w.system.Present x) :
    (∃ a, y = .handle a) ∨ w.system.Refers x y := by
  -- A record says what it refers to when it is made, and only tables are written to after that.
  -- So what is still there of the one that refers says the same now; which kind of object it is
  -- cannot have changed.
  cases hxy with
  | parent hj hp =>
    obtain ⟨hq, hv, hwit⟩ := hacc.only_job hj
    rcases h.object_cases hx with ⟨a, b, ha, hb, hab⟩ | ⟨a, b, ha, -⟩ | ⟨a, ha, -⟩ | ⟨a, ha⟩
    · cases hj.symm.trans ha
      exact .inr (.parent hb (hab.trans hp))
    · cases hq.symm.trans ha
    · cases hv.symm.trans ha
    · cases hwit.symm.trans ha
  | job hp =>
    obtain ⟨hj, hv, hwit⟩ := hacc.only_process hp
    rcases h.object_cases hx with ⟨a, b, ha, -⟩ | ⟨a, b, ha, hb, hab⟩ | ⟨a, ha, -⟩ | ⟨a, ha⟩
    · cases hj.symm.trans ha
    · cases hp.symm.trans ha
      exact .inr (.of_job hb hab.symm)
    · cases hv.symm.trans ha
    · cases hwit.symm.trans ha
  | table => exact .inl ⟨_, rfl⟩
  | view hv =>
    obtain ⟨hj, hp, hwit⟩ := hacc.only_view hv
    rcases h.object_cases hx with ⟨a, b, ha, -⟩ | ⟨a, b, ha, -⟩ | ⟨a, ha, hb⟩ | ⟨a, ha⟩
    · cases hj.symm.trans ha
    · cases hp.symm.trans ha
    · cases hv.symm.trans ha
      exact .inr (.view hb)
    · cases hwit.symm.trans ha
  | handle hr =>
    obtain ⟨b, hb⟩ := Store.contains_iff.1 hx
    obtain ⟨c, hc, hbc⟩ := h.remains.handle hb
    cases hr.symm.trans hc
    exact .inr (hbc ▸ .handle hb)
  | clone ho hp =>
    obtain ⟨b, hb⟩ := Store.contains_iff.1 hx
    obtain ⟨c, hc, hbc⟩ := h.outlasts.vmo hb
    cases ho.symm.trans hc
    exact .inr (.clone hb (hbc.trans hp))

end Declines

/-! ## 4. What is given up

Both lists of reasons only grow along the kill, so whatever was given up at some point of it is
given up at its end. -/

namespace System

variable {s t u : System} {L : List Task} {x y : Ref}

/-- Between two states a process was killed. -/
def KilledSince (s t : System) (p : Koid) : Prop :=
  ∃ new code, t.lives.kills = new ++ s.lives.kills ∧ .processKilled p code ∈ new

/-- What a process that was killed owned as a handle, and what was held by something that was given
up itself and is gone. -/
inductive GivenUp (s t : System) : Ref → Prop
  | closed {p : Koid} {h : HandleId} (hp : s.KilledSince t p)
      (hh : s.Refers (.object p) (.handle h)) : GivenUp s t (.handle h)
  | through {x y : Ref} (hx : GivenUp s t x) (hthere : s.Present x) (hgone : ¬ t.Present x)
      (hxy : s.Refers x y) : GivenUp s t y

/-- Later less is there, and what was killed was killed. -/
structure Precedes (t u : System) : Prop where
  present : ∀ {x}, u.Present x → t.Present x
  kills : ∃ new, u.lives.kills = new ++ t.lives.kills

/-- A kill stays on record. -/
theorem KilledSince.later {p : Koid} (h : s.KilledSince t p) (hu : t.Precedes u) :
    s.KilledSince u p := by
  obtain ⟨new, code, hnew, hmem⟩ := h
  obtain ⟨more, hmore⟩ := hu.kills
  exact ⟨more ++ new, code, by rw [hmore, hnew, List.append_assoc], List.mem_append_right _ hmem⟩

/-- What is given up stays given up. -/
theorem GivenUp.later (h : s.GivenUp t x) (hu : t.Precedes u) : s.GivenUp u x := by
  induction h with
  | closed hp hh => exact .closed (hp.later hu) hh
  | through _ hthere hgone hxy ih => exact .through ih hthere (fun hx => hgone (hu.present hx)) hxy

/-- Declines lead to later states. -/
theorem Precedes.of_declines {K P : Koid → Prop} {W : Warrant} {d e : List Task}
    (h : Declines K P ⟨t, d⟩ ⟨u, e⟩) (hl : Lives.Turns W t.lives u.lives) : t.Precedes u where
  present := h.present
  kills := by
    obtain ⟨new, hnew, -⟩ := hl.kills
    exact ⟨new, hnew⟩

/-- What was there and is not given up has a holder besides those who owe `L`. -/
def Spares (s t : System) (L : List Task) : Prop :=
  ∀ x, s.Present x → ¬ s.GivenUp t x → owed L x < t.refCount x

/-- What is spared is spared later too, if all other counts stay. -/
theorem Spares.later (h : s.Spares t L) (hu : t.Precedes u)
    (hcount : ∀ x, ¬ s.GivenUp t x → u.refCount x = t.refCount x) : s.Spares u L := by
  intro x hx hkept
  have hkept' : ¬ s.GivenUp t x := fun hg => hkept (hg.later hu)
  rw [hcount x hkept']
  exact h x hx hkept'

/-- Who owes less leaves no less. -/
theorem Spares.forget {r : Ref} (h : s.Spares t (.release r :: L)) : s.Spares t L := by
  intro x hx hkept
  have hlt := h x hx hkept
  rw [owed_cons] at hlt
  omega

/-- To count references differently takes no time. -/
theorem precedes_refs (t : System) (refs : RefCounts) : t.Precedes { t with refs } where
  present := fun {x} hx => by cases x <;> exact hx
  kills := ⟨[], rfl⟩

/-- A reference that is lent is due to be given back, so that it spares what it refers to. -/
theorem Spares.share (h : s.Spares t L) (r : Ref) : s.Spares (t.retain r) (.release r :: L) := by
  intro x hx hkept
  have hlt := h x hx fun hg => hkept (hg.later (t.precedes_refs _))
  have hcount : (t.retain r).refCount x =
      if r = x then t.refCount x + 1 else t.refCount x := RefCounts.count_retain t.refs r x
  rw [hcount, owed_cons]
  dsimp only [Task.holds]
  split <;> omega

/-- A reference that is given back is one that was owed. -/
theorem Spares.unshare {r : Ref} (h : s.Spares t (.release r :: L)) :
    s.Spares { t with refs := t.refs.release r } L := by
  intro x hx hkept
  have hlt := h x hx fun hg => hkept (hg.later (t.precedes_refs _))
  have hcount : refCount { t with refs := t.refs.release r } x =
      if r = x then t.refCount x - 1 else t.refCount x := RefCounts.count_release t.refs r x
  rw [owed_cons] at hlt
  rw [hcount]
  dsimp only [Task.holds] at hlt
  by_cases he : r = x
  · rw [if_pos he] at hlt ⊢
    omega
  · rw [if_neg he] at hlt ⊢
    omega

/-! ## 5. Chains that give up

A chain is a list of tasks with all that follows from them.  The induction is on the run of the
chain: the tasks at hand concern only what is given up, and destroying something adds only what it
referred to, which is given up by then as well. -/

/-- What a task gives back, at once or in the end. -/
def Concerns (s : System) : Task → Ref → Prop
  | .release r, y => y = r
  | .close h, y => y = .handle h
  | .closeTable t, y => ∃ (table : Table) (base : Nat) (h : HandleId),
      s.tables[t]? = some table ∧ table.owned[base]? = some h ∧ y = .handle h

/-- What is a concern of something later was one before, since declines add no references. -/
theorem Concerns.earlier {K P : Koid → Prop} {d e : List Task} {a : Task}
    (h : Declines K P ⟨t, d⟩ ⟨u, e⟩) (ha : u.Concerns a y) : t.Concerns a y := by
  cases a with
  | release r => exact ha
  | close c => exact ha
  | closeTable i =>
    obtain ⟨table, base, c, ht, hc, hy⟩ := ha
    obtain ⟨table', ht', hkeep⟩ := h.remains.table ht
    exact ⟨table', base, c, ht', hkeep _ _ hc, hy⟩

/-- What follows when something is destroyed concerns what the thing referred to. -/
theorem concerns_destroyed {r : Ref} {refs : RefCounts} {a : Task}
    (ha : a ∈ (destroy { s with refs } r).2)
    (hy : (destroy { s with refs } r).1.Concerns a y) : s.Refers r y := by
  -- what follows from a destruction is read off the record that is destroyed, kind by kind: a
  -- reference to the one thing that the record names, and for a process its table besides
  cases r with
  | object k =>
    unfold destroy destroyObject at ha
    dsimp only at ha
    cases hj : s.jobs[k]? with
    | some j =>
      rw [hj] at ha
      dsimp only at ha
      cases hp : j.parent with
      | none =>
        rw [hp] at ha
        cases ha
      | some p =>
        rw [hp, List.mem_singleton] at ha
        subst ha
        exact hy ▸ .parent hj hp
    | none =>
      rw [hj] at ha
      cases hp : s.processes[k]? with
      | some p =>
        rw [hp] at ha
        rcases List.mem_cons.1 ha with rfl | ha
        · exact hy ▸ .job hp
        · rw [List.mem_singleton] at ha
          subst ha
          obtain ⟨table, base, h, ht, hh, rfl⟩ := hy
          simp only [tables_destroy] at ht
          exact .table hp ht hh
      | none =>
        rw [hp] at ha
        cases hv : s.views[k]? with
        | some v =>
          rw [hv, List.mem_singleton] at ha
          subst ha
          exact hy ▸ .view hv
        | none =>
          rw [hv] at ha
          cases hw : s.witnesses[k]? with
          | some w =>
            rw [hw] at ha
            cases ha
          | none =>
            rw [hw] at ha
            cases ha
  | handle h =>
    simp only [destroy] at ha
    cases hr : s.handles[h]? with
    | none =>
      rw [hr] at ha
      cases ha
    | some r =>
      rw [hr, List.mem_singleton] at ha
      subst ha
      exact hy ▸ .handle hr
  | vmo v =>
    unfold destroy destroyVmo at ha
    dsimp only at ha
    cases ho : s.vmos[v]? with
    | none =>
      rw [ho] at ha
      cases ha
    | some o =>
      rw [ho] at ha
      dsimp only at ha
      cases hp : o.parent with
      | none =>
        rw [hp] at ha
        cases ha
      | some p =>
        rw [hp, List.mem_singleton] at ha
        subst ha
        exact hy ▸ .clone ho hp
  | mapping m => cases ha
  | listener o => cases ha

/-- What follows from a task concerns what the task concerned, unless the task destroyed something
and that referred to it. -/
theorem concerns_perform {a b : Task} (hb : b ∈ (s.perform a).2)
    (hy : (s.perform a).1.Concerns b y) :
    s.Concerns a y ∨ ∃ r, a = .release r ∧ s.refCount r = 1 ∧ s.Refers r y := by
  -- Closing turns into giving back what is closed, which concerns the same things.  Only a last
  -- reference leads further, to what the destroyed thing held.
  cases a with
  | release r =>
    unfold perform at hb hy
    dsimp only at hb hy
    split at hb
    · cases hb
    · rename_i hone
      rw [hone] at hy
      exact .inr ⟨r, rfl, hone, concerns_destroyed hb hy⟩
    · cases hb
  | close h =>
    unfold perform closeHandle at hb
    dsimp only at hb
    split at hb
    · cases hb
    · simp only [List.mem_cons, List.not_mem_nil, or_false, or_self] at hb
      subst hb
      exact .inl hy
  | closeTable t =>
    unfold perform at hb
    dsimp only at hb
    split at hb
    · cases hb
    · rename_i table ht
      obtain ⟨h, hh, rfl⟩ := List.mem_map.1 hb
      obtain ⟨base, hbase⟩ := Store.mem_values_iff.1 hh
      exact .inl ⟨table, base, h, ht, hbase, hy⟩

/-- Only giving back a reference changes a count. -/
theorem refCount_perform {a : Task} (h : a ≠ .release x) :
    (s.perform a).1.refCount x = s.refCount x := by
  unfold refCount
  cases a with
  | release r =>
    have hne : r ≠ x := fun he => h (he ▸ rfl)
    have hrelease : (s.refs.release r).count x = s.refs.count x := by
      rw [RefCounts.count_release, if_neg hne]
    unfold perform
    dsimp only
    split
    · rfl
    · rw [refs_destroy]
      exact hrelease
    · exact hrelease
  | close c =>
    show ((s.closeHandle c).1.refs).count x = _
    rw [refs_closeHandle]
  | closeTable t =>
    unfold perform
    dsimp only
    split <;> rfl

/-- The last reference to a thing is given back. -/
theorem refCount_perform_last (h : s.refCount x = 1) :
    (s.perform (.release x)).1.refCount x = 0 := by
  have hlast : (s.refs.release x).count x = 0 := by
    rw [RefCounts.count_release, if_pos rfl]
    exact Nat.sub_eq_zero_of_le (Nat.le_of_eq h)
  unfold perform
  dsimp only
  rw [h]
  unfold refCount
  rw [refs_destroy]
  exact hlast

/-- **A chain that starts with what is given up destroys only what is given up.** -/
theorem settle_spares {d Q : List Task} (hacc : Accounted s d)
    (hdeclines : Declines (fun _ => True) (fun _ => True) ⟨s, d⟩ ⟨t, Q ++ (L ++ d)⟩)
    (hcause : ∀ a ∈ Q, ∀ y, t.Concerns a y → s.GivenUp t y) (hspares : s.Spares t L) :
    s.Spares (t.settle Q) L := by
  -- The recursion of `settle`, one task at a time.  The invariant is that each task of the chain
  -- concerns something that is given up; the dues `L` are not worked off here and only have to
  -- stay spared.
  fun_induction settle t Q with
  | case1 t => exact hspares
  | case2 t a rest ih =>
    have hstep := t.perform_declines (K := fun _ => True) (P := fun _ => True) a (rest ++ (L ++ d))
    have hacc' := hdeclines.accounted hacc
    have hlater : t.Precedes (t.perform a).1 :=
      .of_declines (W := {}) hstep (perform_turns hacc')
    have hnext := hdeclines.trans hstep
    rw [← List.append_assoc] at hnext
    refine ih hnext (fun b hb y hy => ?_) (hspares.later hlater fun x hkept => ?_)
    · rcases List.mem_append.1 hb with hb | hb
      · rcases concerns_perform hb hy with hy | ⟨r, rfl, hone, hry⟩
        · exact (hcause a List.mem_cons_self y hy).later hlater
        · -- what was destroyed was given up, and so is what it held
          have hgone : ¬ (t.perform (.release r)).1.Present r := by
            rw [(Declines.accounted hnext hacc).present, refCount_perform_last hone]
            exact Nat.lt_irrefl 0
          have hthere : t.Present r := (hacc'.present r).2 (hone ▸ Nat.one_pos)
          exact .through ((hcause _ List.mem_cons_self r rfl).later hlater)
            (hdeclines.present hthere) hgone (hdeclines.refers hry)
      · exact (hcause b (List.mem_cons_of_mem _ hb) y (hy.earlier hstep)).later hlater
    · refine refCount_perform ?_
      rintro rfl
      exact hkept (hcause _ List.mem_cons_self x rfl)

/-! ## 6. The walk

The recursion keeps the invariant by what lending, a commit and the kill of a process keep.  What
makes the walk give back harmless is that everything it lends has another holder, or is given
up. -/

variable {d : List Task} {k : Koid} {code : Int}

/-- What holds on the way of a kill, while `v.dues` is what the walk has to give back and `d` what
everybody else holds. -/
structure Killing (s : System) (d : List Task) (k : Koid) (code : Int) (v : World) : Prop where
  declines : Declines (fun _ => True) (fun _ => True) ⟨s, d⟩ ⟨v.system, v.dues ++ d⟩
  turns : Lives.Turns (s.killWarrant k code) s.lives v.system.lives
  spares : s.Spares v.system v.dues

namespace Killing

/-- A kill begins with nothing done and nothing lent. -/
theorem start (hacc : Accounted s d) : s.Killing d k code ⟨s, []⟩ where
  declines := .refl
  turns := .refl
  spares x hx _ := (hacc.present x).1 hx

/-- In the midst of a kill the accounts are exact, with what the kill has borrowed among the
dues. -/
theorem accounted (h : s.Killing d k code ⟨t, L⟩) (hacc : Accounted s d) :
    Accounted t (L ++ d) := h.declines.accounted hacc

/-- A change that takes no reference and gives none back. -/
theorem later (h : s.Killing d k code ⟨t, L⟩)
    (hdeclines : Declines (fun _ => True) (fun _ => True) ⟨t, L ++ d⟩ ⟨u, L ++ d⟩)
    (hturns : Lives.Turns (s.killWarrant k code) t.lives u.lives) (hrefs : u.refs = t.refs) :
    s.Killing d k code ⟨u, L⟩ where
  declines := h.declines.trans hdeclines
  turns := h.turns.trans hturns
  spares := h.spares.later (.of_declines hdeclines hturns) fun x _ =>
    congrArg (fun rc : RefCounts => rc.count x) hrefs

/-- What is given up may go; of anything else this is not the last reference. -/
theorem release {r : Ref} (h : s.Killing d k code ⟨t, .release r :: L⟩) (hacc : Accounted s d) :
    s.Killing d k code ⟨t.release r, L⟩ where
  declines := h.declines.trans (release_declines t r (L ++ d))
  turns := h.turns.trans (release_turns (h.accounted hacc))
  spares := by
    by_cases hr : s.GivenUp t r
    · refine settle_spares (Q := [.release r]) hacc h.declines (fun a ha y hy => ?_)
        h.spares.forget
      rw [List.mem_singleton] at ha
      subst ha
      exact hy ▸ hr
    · have howed : 0 < owed (.release r :: L) r :=
        owed_pos List.mem_cons_self (by simp [Task.holds])
      have hthere : s.Present r := h.declines.present
        ((h.accounted hacc).present_of_owed (by rw [owed_append]; omega))
      have hmany : owed (.release r :: L) r < t.refCount r := h.spares r hthere hr
      rw [release_of_many (by omega)]
      exact h.spares.unshare

/-- The kill may borrow and give back at any time. -/
theorem lending (hacc : Accounted s d) : World.Lending (s.Killing d k code) where
  reorder hp h :=
    { h with
      declines := h.declines.tail (.reorder (hp.append_right d))
      spares := fun x hx hkept => owed_perm hp x ▸ h.spares x hx hkept }
  share hr h :=
    { declines := h.declines.tail (.share hr)
      turns := h.turns
      spares := h.spares.share _ }
  release h := h.release hacc

/-- The commit of a job below the one that is killed is part of the kill. -/
theorem commitKill {c : Koid} {j : Job} (h : s.Killing d k code ⟨t, L⟩) (hc : s.Subtree k c)
    (hj : t.jobs[c]? = some j) (hr : j.state = .ready) :
    s.Killing d k code ⟨t.commitKill code c j, L⟩ := by
  refine h.later (commitKill_declines hj hr trivial _) (commitKill_turns hj hr ⟨hc, rfl⟩) ?_
  unfold System.commitKill
  dsimp only
  split
  · exact refs_markDead _ _
  · rfl

/-- A table may be cleared if all that it owns is given up. -/
theorem tableClear {i : TableId} (h : s.Killing d k code ⟨t, L⟩) (hacc : Accounted s d)
    (hcause : ∀ {table : Table} {base : Nat} {a : HandleId}, t.tables[i]? = some table →
      table.owned[base]? = some a → s.GivenUp t (.handle a)) :
    s.Killing d k code ⟨(t.tableClear i).2, L⟩ where
  declines := h.declines.trans (tableClear_declines t i (L ++ d))
  turns := h.turns.trans (tableClear_turns (h.accounted hacc) i)
  spares := by
    cases hi : t.tables[i]? with
    | none =>
      rw [tableClear_of_none hi]
      exact h.spares
    | some table =>
      rw [tableClear_of_some hi]
      have hempties := emptied_declines (K := fun _ => True) (P := fun _ => True) hi (L ++ d)
      have hlater : t.Precedes (t.emptied i table) :=
        .of_declines (W := {}) hempties (.of_eq (t.lives_emptied i table))
      refine settle_spares hacc (h.declines.trans hempties) (fun x hx y hy => ?_)
        (h.spares.later hlater fun x _ => ?_)
      · obtain ⟨a, ha, rfl⟩ := List.mem_map.1 hx
        obtain ⟨base, hbase⟩ := Store.mem_values_iff.1 ha
        exact hy ▸ (hcause hi hbase).later hlater
      · obtain ⟨handles, he, -⟩ := t.emptied_eq i table
        rw [he]
        rfl

/-- The kill of a process gives up what is in its table, and only that. -/
theorem killProcess {p : Koid} (h : s.Killing d k code ⟨t, L⟩) (hacc : Accounted s d)
    (hp : s.Inmate k p) : s.Killing d k code ⟨t.killProcess code p, L⟩ := by
  obtain he | ⟨q, hq, hrun, he⟩ := t.killProcess_cases code p
  · rw [he]
    exact h
  rw [he]
  have hlives := lives_endProcess code ((h.accounted hacc).only_process hq).1 hq
  have hended : s.Killing d k code ⟨t.endProcess code p, L⟩ :=
    h.later (endProcess_declines code hq trivial _)
      (hlives ▸ Lives.Turn.run (.ended ⟨hp, rfl⟩ (process_lives hq) hrun)) rfl
  have hkilled : s.KilledSince (t.endProcess code p) p := by
    obtain ⟨new, hnew, -⟩ := h.turns.kills
    exact ⟨.processKilled p code :: new, code, by rw [hlives]; exact congrArg _ hnew,
      List.mem_cons_self⟩
  have hcleared : s.Killing d k code ⟨((t.endProcess code p).tableClear q.table).2, L⟩ :=
    hended.tableClear hacc fun hi ha => .closed hkilled (h.declines.refers (.table hq hi ha))
  refine hcleared.later (detachProcess_declines (t.dead_tableClear code p q.table) _) ?_
    (refs_detachProcess _ _ _)
  rw [lives_detachProcess]
  exact Lives.Turn.run (.losesProcess q.job p)

end Killing

/-- **On the way of a kill** every job that is reached is of the subtree, and every process too. -/
theorem killJob_killing (hacc : Accounted s d) (htree : JobTree s) (refuses : Allocator)
    (code : Int) (k : Koid) : s.Killing d k code ⟨(s.killJob refuses code k).2, []⟩ := by
  have hkills := s.killJob_kills refuses code k
  exact hkills.keeps_within (K := s.Subtree k) (P := s.Inmate k) (Killing.lending hacc)
    (fun hk h => htree.subtree h.declines.wanes hk)
    (fun hk hj hr h => h.commitKill hk hj hr) (fun hp h => h.killProcess hacc hp) .refl
    (Killing.start hacc)

/-! ## 7. Confinement

The parts put together: what happens to lives, what happens to tables outside of the subtree, and
what is destroyed there and why. -/

/-- **What a kill leaves alone**: `s` is the state before the kill of `k`, `t` the one after it, and
`d` is what is held outside. -/
structure Confined (s t : System) (d : List Task) (k : Koid) (code : Int) : Prop where
  /-- A job outside the subtree may die of losing its children, but only if it was killed before. -/
  job : ∀ {c : Nat} {a b : Job}, s.jobs[c]? = some a → t.jobs[c]? = some b → ¬ s.Subtree k c →
    (a.state = .ready → b.state = .ready) ∧ b.returnCode = a.returnCode ∧ b.policy = a.policy ∧
      b.maxHeight = a.maxHeight
  process : ∀ {p : Nat} {a b : Process}, s.processes[p]? = some a → t.processes[p]? = some b →
    ¬ s.Inmate k p → b.state = a.state ∧ b.returnCode = a.returnCode
  /-- The kills that are new are those of jobs and processes of the subtree. -/
  kills : ∃ new, t.lives.kills = new ++ s.lives.kills ∧ ∀ e ∈ new,
    (∃ c, e = .jobKilled c code ∧ s.Subtree k c) ∨ ∃ p, e = .processKilled p code ∧ s.Inmate k p
  /-- What is gone was given up, nobody outside held it, and whatever referred to it is gone too,
  except that tables may have given up handles. -/
  gone : ∀ {x : Ref}, s.Present x → ¬ t.Present x →
    s.GivenUp t x ∧ owed d x = 0 ∧ ∀ y, s.Refers y x → (∃ h, x = .handle h) ∨ ¬ t.Present y

/-- **A kill is confined.**  At its end nothing is lent, and what the invariant says of the states
on the way is what `Confined` says of the two ends. -/
theorem Killing.confined (hacc : Accounted s d) (h : s.Killing d k code ⟨t, []⟩)
    (hpolicy : s.records.Fades t.records) : s.Confined t d k code where
  job {c a b} ha hb hc := by
    obtain ⟨x, hx, hages⟩ := h.turns.ages (hacc.job_lt ha) (job_lives hb)
    rw [job_lives ha] at hx
    cases hx
    -- whoever leaves ready takes the code of a kill, and there was none
    have hready : a.state = .ready → b.state = .ready := fun hr => by
      by_contra hn
      exact hc (hages.killed hr hn).1
    have hcode : b.returnCode = a.returnCode := by
      refine hages.code ?_
      by_cases hr : a.state = .ready
      · exact .inr (hready hr)
      · exact .inl hr
    obtain ⟨j, hj, -, hp⟩ := hpolicy.job (job_record hb)
    rw [job_record ha] at hj
    cases hj
    obtain ⟨i, hi, hw⟩ := h.declines.wanes.job hb
    rw [ha] at hi
    cases hi
    exact ⟨hready, hcode, hp, hw.maxHeight⟩
  process {p a b} ha hb hp := by
    obtain ⟨x, hx, hsame⟩ := h.turns.process (hacc.process_lt ha) (process_lives hb)
    rw [process_lives ha] at hx
    cases hx
    have hlife : b.life = a.life := hsame fun _ hends => hp hends.1
    exact ⟨congrArg Process.Life.state hlife, congrArg Process.Life.returnCode hlife⟩
  kills := by
    obtain ⟨new, hnew, hcovers⟩ := h.turns.kills
    refine ⟨new, hnew, fun e he => ?_⟩
    have hcover := hcovers e he
    cases e with
    | jobKilled c x => exact .inl ⟨c, by rw [hcover.2], hcover.1⟩
    | processKilled p x => exact .inr ⟨p, by rw [hcover.2], hcover.1⟩
    | _ => exact hcover.elim
  gone {x} hx hgone := by
    have hacc' : Accounted t d := h.accounted hacc
    have hzero : t.refCount x = 0 :=
      Nat.eq_zero_of_not_pos fun hpos => hgone ((hacc'.present x).2 hpos)
    have hheld := hacc'.balanced x
    refine ⟨?_, by omega, fun y hyx => ?_⟩
    · by_contra hkept
      have hlt := h.spares x hx hkept
      rw [owed_nil, hzero] at hlt
      exact Nat.lt_irrefl 0 hlt
    · by_contra hn
      simp only [not_or, not_not] at hn
      obtain ⟨hhandle, hy⟩ := hn
      have hrefers := (h.declines.refers_of_present hacc hyx hy).resolve_left hhandle
      exact hgone (hrefers.present hacc')

end System

namespace World

variable {w : World}

/-- **A kill is confined to the subtree of the job**, in every state that a client reaches who lists
no process by hand, however memory for snapshots is refused. -/
theorem Ran.kill_confined (h : w.Ran fun _ op => ¬ op.Attaches) (refuses : Allocator) (code : Int)
    (k : Koid) :
    w.system.Confined (w.system.killJob refuses code k).2 w.dues k code := by
  have hpassed : Passed False True w := h.passed_of fun _ _ hop => ⟨hop, fun _ => trivial⟩
  have hacc := hpassed.accounted
  have hkilling := System.killJob_killing hacc hpassed.jobTree refuses code k
  have hop : (Op.killJob refuses code k).DoesChores := trivial
  exact hkilling.confined hacc (Strikes.fades ((act_chores hacc hop).strikes hacc))

/-- Two jobs below a root.  A process of the first one has the last reference to a process in a job
below the second one, which has the last reference to a witness. -/
def handedOps : List Op :=
  [.createRootJob false, .createJob 1024, .createJob 1024, .createJob 1026,
    .createProcess 1025 Name.blank, .createProcess 1027 Name.blank, .createWitness "far" .empty,
    .makeHandle 0 1029 .basic true, .tableAdd 1 3, .makeHandle 0 1030 .basic true, .tableAdd 2 4,
    .drop (.release (.object 1029)), .drop (.release (.object 1027)),
    .drop (.release (.object 1030))]

/-- The kill of the first job destroys the far process, the witness and their job, and the second
job stays ready. -/
theorem Ran.kill_confined_of_handed :
    let w := run handedOps
    let t := (w.system.killJob .generous 5 1025).2
    w.system.Confined t w.dues 1025 5 ∧
      (w.system.processes.keys, w.system.witnesses.keys, w.system.jobs.keys) =
        ([1028, 1029], [1030], [1024, 1025, 1026, 1027]) ∧
      (t.processes.keys, t.witnesses.keys, t.jobs.keys) = ([1028], [], [1024, 1025, 1026]) ∧
      (t.jobInfo 1025).map (fun i => (i.state, i.returnCode)) = some (.dead, 5) ∧
      (t.jobInfo 1026).map (fun i => (i.state, i.returnCode)) = some (.ready, 0) := by
  have hran : (run handedOps).Ran fun _ op => ¬ op.Attaches := by
    refine Ran.foldl .start ?_
    simp [handedOps, Keep, Op.Attaches]
  exact ⟨kill_confined hran _ _ _, by cbv, by cbv, by cbv, by cbv⟩

end World

end KernelObjects
