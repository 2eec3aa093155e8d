import KernelObjects.Proofs.Registry
import KernelObjects.Proofs.Stamps

/-
# Nothing leaks

When a client has given back whatever it held, what is left is held by what is left.  A job is
held by its child jobs and its processes, a clone holds its parent, a view its VM object, a handle
its object and a table its handles; and a table is there for a process, or somebody still has to
close it (`World.Tabled`).  So a process that is left is in the table of another one that is left,
and as there are finitely many of them some of these stand in a circle.  Where there is no such
circle no process is left, hence no table, no handle, no job and no view, and of the VM objects
none either, since the youngest one has no clone.

What was created and is not there was destroyed, by the counters too (`Tally.Even`).

**The order of the argument.**  It starts with processes, because everything but them points one
way: a job is older than its children and a clone younger than its parent, so among jobs, and
among VM objects, a youngest one has no holder of its own kind.  Handles may point anywhere, and
it takes the assumption on tables to find a process that nobody holds.

The assumption is about the state in which the client begins to give back.  Giving back empties
tables and fills none, so no circle appears on the way (`Remains.holdsProcess`), and the order of
the dues is the client's.
-/

namespace KernelObjects

/-! ## 1. Counters

The counters are words, so what they say is compared up to the size of a word. -/

/-- Whatever was created was destroyed or is there, as far as one word can count. -/
structure Tally.Even (t : Tally) : Prop where
  created : t.created = (t.destroyed + t.live) % (Word.max + 1)
  destroyed : t.destroyed ≤ Word.max

namespace Tally.Even

variable {t : Tally}

theorem born (h : t.Even) : t.born.Even where
  destroyed := h.destroyed
  created := by
    show Word.addWrap t.created 1 = (t.destroyed + (t.live + 1)) % (Word.max + 1)
    rw [Word.addWrap, h.created, Nat.mod_add_mod, Nat.add_assoc]

theorem gone (h : t.Even) (hlive : 0 < t.live) : t.gone.Even where
  destroyed := Nat.le_of_lt_succ (Nat.mod_lt _ (Nat.succ_pos _))
  created := by
    show t.created = (Word.addWrap t.destroyed 1 + (t.live - 1)) % (Word.max + 1)
    have hsum : t.destroyed + 1 + (t.live - 1) = t.destroyed + t.live := by omega
    rw [Word.addWrap, Nat.mod_add_mod, hsum, h.created]

/-- If nothing is there, the counters agree. -/
theorem eq (h : t.Even) (hlive : t.live = 0) : t.created = t.destroyed := by
  rw [h.created, hlive, Nat.add_zero, Nat.mod_eq_of_lt (Nat.lt_succ_of_le h.destroyed)]

end Tally.Even

/-- The books of all three kinds are even: what was created and not destroyed is there. -/
structure Records.Counted (r : Records) : Prop where
  jobs : r.jobs.Even
  processes : r.processes.Even
  views : r.views.Even

theorem Records.Counted.jobGone {r : Records} (h : r.Counted) (hlive : 0 < r.jobs.live) (k : Koid)
    (parent : Option Koid) : (r.jobGone k parent).Counted := by
  cases parent <;> exact ⟨h.jobs.gone hlive, h.processes, h.views⟩

namespace World

variable {P : System → Op → Prop} {w v : World}

/-- What an opening brings is booked as created when it is there, -/
theorem Opening.counted {op : Op} (ho : w.Opening op v) (hi : w.system.records.Counted) :
    v.system.records.Counted := by
  have hborn := hi.jobs.born
  cases ho with
  | none hv => exact hv ▸ hi
  | root hv => exact hv ▸ ⟨hborn, hi.processes, hi.views⟩
  | child _ hv => exact hv ▸ ⟨hborn, hi.processes, hi.views⟩
  | @refused p q _ _ hv =>
    have hentered : (w.system.records.childEntered p q).Counted := ⟨hborn, hi.processes, hi.views⟩
    exact hv ▸ hentered.jobGone (Nat.succ_pos _) _ _
  | process _ hv => exact hv ▸ ⟨hi.jobs, hi.processes.born, hi.views⟩
  | view hv => exact hv ▸ ⟨hi.jobs, hi.processes, hi.views.born⟩
  | witness hv => exact hv ▸ ⟨hi.jobs, hi.processes, hi.views⟩
  | table hv => exact hv ▸ ⟨hi.jobs, hi.processes, hi.views⟩
  | policy _ _ _ hv => exact hv ▸ ⟨hi.jobs, hi.processes, hi.views⟩

/-- and what is struck out is booked as destroyed when it is gone. -/
theorem Strike.counted (hs : Strike v w) (hi : v.system.records.Counted) :
    w.system.records.Counted := by
  cases hs with
  | aside hw => exact hw ▸ hi
  | job _ _ hlive hw => exact hw ▸ hi.jobGone hlive _ _
  | process _ hlive hw => exact hw ▸ ⟨hi.jobs, hi.processes.gone hlive, hi.views⟩
  | view hlive hw => exact hw ▸ ⟨hi.jobs, hi.processes, hi.views.gone hlive⟩
  | ended _ hw => exact hw ▸ ⟨hi.jobs, hi.processes, hi.views⟩
  | table hw => exact hw ▸ ⟨hi.jobs, hi.processes, hi.views⟩

/-- **Of each kind as many are there as were created and not destroyed.**  The counters are words,
so this holds up to whole rounds. -/
theorem Ran.counted (h : w.Ran P) : w.system.records.Counted := by
  refine h.keeps_recorded (I := fun w => w.system.records.Counted) ?_ (fun _ _ _ _ hi => hi)
    (fun _ _ _ _ _ ho hi => ho.counted hi) fun _ _ hs hi => hs.counted hi
  have hzero : Tally.Even ⟨0, 0, 0⟩ := ⟨rfl, Nat.zero_le _⟩
  exact ⟨hzero, hzero, hzero⟩

/-! ## 2. Tables

A table that was opened by a client stays until the client closes it; one that came with a process
goes with it. -/

/-- Every table is that of a process, or somebody has to close it. -/
def Tabled (w : World) : Prop := ∀ t, w.system.records.table t = true →
  w.closing t ∨ ∃ k p, w.system.records.process k = some p ∧ p.table = t

/-- The tables and the processes stay. -/
theorem Tabled.same (h : w.Tabled) (ht : v.system.records.table = w.system.records.table)
    (hp : v.system.records.process = w.system.records.process)
    (hd : ∀ t, w.closing t → v.closing t) : v.Tabled := by
  intro t hopen
  rw [ht] at hopen
  rw [hp]
  exact (h t hopen).imp_left (hd t)

/-- A new table has its process, or its owner is the client who opened it. -/
theorem Opening.tabled {op : Op} (h : w.Ran P) (ho : w.Opening op v) (hi : w.Tabled) :
    v.Tabled := by
  cases ho with
  | none hv hd => exact hi.same (by rw [hv]) (by rw [hv]) hd
  | root hv hd => exact hi.same (by rw [hv]; rfl) (by rw [hv]; rfl) hd
  | child _ hv hd => exact hi.same (by rw [hv]; rfl) (by rw [hv]; rfl) hd
  | refused _ hv hd => exact hi.same (by rw [hv]; rfl) (by rw [hv]; rfl) hd
  | @process job name q table _ _ hv hd =>
    have hfresh : w.system.records.process w.system.nextKoid = Option.none := by
      show w.system.processes[w.system.nextKoid]?.map _ = Option.none
      rw [h.passed.accounted.fresh_object.2.2.1]
      rfl
    have hprocess : ∀ k, v.system.records.process k = if w.system.nextKoid = k then
        some ⟨job, table, .running, q.policy⟩ else w.system.records.process k := by
      intro k
      rw [hv]
      rfl
    intro t hopen
    have hopen : (if table = t then true else w.system.records.table t) = true := by
      rw [hv] at hopen
      exact hopen
    -- The new table is the one of the new process.  Any other table that is open has the process
    -- that it had, which is not the new one as that number was free.
    by_cases ht : table = t
    · exact .inr ⟨w.system.nextKoid, _, (hprocess _).trans (if_pos rfl), ht⟩
    · rw [if_neg ht] at hopen
      refine (hi t hopen).imp (hd t) fun ⟨k, p, hp, htable⟩ => ⟨k, p, ?_, htable⟩
      rw [hprocess, if_neg, hp]
      rintro rfl
      rw [hfresh] at hp
      cases hp
  | view hv hd => exact hi.same (by rw [hv]; rfl) (by rw [hv]; rfl) hd
  | witness hv hd => exact hi.same (by rw [hv]) (by rw [hv]) hd
  | @table process arena i _ hv hd =>
    intro t hopen
    have hopen : (if i = t then true else w.system.records.table t) = true := by
      rw [hv] at hopen
      exact hopen
    by_cases ht : i = t
    · exact .inl (hd t (.inr ht.symm))
    · rw [if_neg ht] at hopen
      rw [hv]
      exact (hi t hopen).imp_left fun hc => hd t (.inl hc)
  | policy _ _ _ hv hd => exact hi.same (by rw [hv]; rfl) (by rw [hv]; rfl) hd

/-- A process that goes leaves its table to be closed. -/
theorem Strike.tabled (hs : Strike v w) (hi : v.Tabled) : w.Tabled := by
  cases hs with
  | aside hw hd => exact hi.same (by rw [hw]) (by rw [hw]) hd
  | @job k j _ _ _ hw hd =>
    refine hi.same ?_ ?_ hd
    · rw [hw]
      cases j.parent <;> rfl
    · rw [hw]
      cases j.parent <;> rfl
  | @process k p hp _ hw hd =>
    intro t hopen
    have hprocess : ∀ a, w.system.records.process a =
        if k = a then none else v.system.records.process a := by
      intro a
      rw [hw]
      rfl
    rw [hw] at hopen
    -- the table of the process that goes is among the dues from then on; the others have their
    -- process
    rcases hi t hopen with hc | ⟨a, r, hr, htable⟩
    · exact .inl (hd t (.inl hc))
    · by_cases ha : k = a
      · subst ha
        rw [hp] at hr
        cases hr
        exact .inl (hd _ (.inr htable.symm))
      · exact .inr ⟨a, r, by rw [hprocess, if_neg ha, hr], htable⟩
  | view _ hw hd => exact hi.same (by rw [hw]; rfl) (by rw [hw]; rfl) hd
  | @ended k p hp hw hd =>
    intro t hopen
    have hprocess : ∀ a, w.system.records.process a =
        if k = a then some { p with state := .dead } else v.system.records.process a := by
      intro a
      rw [hw]
      rfl
    rw [hw] at hopen
    refine (hi t hopen).imp (hd t) fun ⟨a, r, hr, htable⟩ => ?_
    by_cases ha : k = a
    · subst ha
      rw [hp] at hr
      cases hr
      exact ⟨k, { p with state := .dead }, by rw [hprocess, if_pos rfl], htable⟩
    · exact ⟨a, r, by rw [hprocess, if_neg ha, hr], htable⟩
  | @table u hw hd =>
    intro t hopen
    have hopen : (if u = t then false else v.system.records.table t) = true := by
      rw [hw] at hopen
      exact hopen
    split at hopen
    · cases hopen
    · rename_i hne
      rw [hw]
      exact (hi t hopen).imp_left (hd t (Ne.symm hne))

/-- **Every open table has a process that is there, or somebody who still has to close it.** -/
theorem Ran.tabled (h : w.Ran P) : w.Tabled := by
  refine h.keeps_recorded (I := Tabled) ?_ (fun s d e hperm hi t hopen => ?_)
    (fun _ _ _ h _ ho hi => ho.tabled h hi) fun _ _ hs hi => hs.tabled hi
  · intro t hopen
    have hnone : System.initial.records.table t = false := by
      simp [System.records, System.initial]
    rw [show ({} : World).system = System.initial from rfl, hnone] at hopen
    cases hopen
  · exact (hi t hopen).imp_left fun hc => hperm.mem_iff.1 hc

end World

/-! ## 3. What holds of every VM object

Two small invariants of one shape: something that is settled when an object is born, since its
family and its parent never change. -/

/-- Something that can be read off the family and the parent of a VM object holds of every one. -/
def System.EveryVmo (Q : Nat → Vmo.Kin → Prop) (s : System) : Prop :=
  ∀ (v : Nat) (o : Vmo), s.vmos[v]? = some o → Q v o.kin

namespace System.EveryVmo

variable {s t : System} {Q : Nat → Vmo.Kin → Prop}

theorem kin (h : s.EveryVmo Q) (hv : ∀ v : Nat, t.vmos[v]?.map Vmo.kin = s.vmos[v]?.map Vmo.kin) :
    t.EveryVmo Q := by
  intro v o ho
  obtain ⟨q, hq, hqo⟩ := exists_of_map_eq (hv v) ho
  exact hqo ▸ h v q hq

theorem insert (h : s.EveryVmo Q) {v : Nat} {vmo : Vmo} (ht : t.vmos = s.vmos.insert v vmo)
    (hnew : Q v vmo.kin) : t.EveryVmo Q := by
  intro u o ho
  rw [ht, Store.getElem?_insert] at ho
  split at ho
  · rename_i hu
    cases ho
    exact hu ▸ hnew
  · exact h u o ho

end System.EveryVmo

section EveryVmo

variable {Q : Nat → Vmo.Kin → Prop}

theorem Decline.everyVmo {K P : Koid → Prop} {w w' : World} (h : Decline K P w w')
    (hi : w.system.EveryVmo Q) : w'.system.EveryVmo Q := by
  cases h with
  | inert hs => exact hi.kin hs.vmo
  | @vmo s d v o _ _ =>
    obtain ⟨families, he, -⟩ := s.withoutVmo_eq v o
    intro u q hq
    rw [he, Store.getElem?_erase] at hq
    split at hq
    · cases hq
    · exact hi u q hq
  | _ => exact hi.kin fun _ => rfl

/-- It holds of every one if it holds of objects that start a family and of clones. -/
theorem Birth.everyVmo {A C : Prop} {w w' : World} (h : Birth A C w w')
    (hroot : ∀ v, Q v ⟨v, none⟩) (hclone : ∀ v p f, p < v → Q v ⟨f, some p⟩)
    (hacc : Accounted w.system w.dues) (hi : w.system.EveryVmo Q) : w'.system.EveryVmo Q := by
  cases h with
  | @vmo s d vmo _ hp hf =>
    refine hi.insert rfl ?_
    have hkin : vmo.kin = ⟨s.nextVmo, none⟩ := by rw [Vmo.kin, hp, hf]
    exact hkin ▸ hroot _
  | @clone s d v o vmo _ ho hp =>
    refine hi.insert rfl ?_
    have hkin : vmo.kin = ⟨vmo.family, some v⟩ := by rw [Vmo.kin, hp]
    exact hkin ▸ hclone _ _ _ (hacc.bounded.vmo (Store.contains_iff.2 ⟨_, ho⟩))
  | _ => exact hi.kin fun _ => rfl

/-- **What holds of all founders and of all clones holds of every VM object.**  A clone may count
on being younger than its original. -/
theorem World.Passed.everyVmo {A C : Prop} {w : World} (h : Passed A C w)
    (hroot : ∀ v, Q v ⟨v, none⟩) (hclone : ∀ v p f, p < v → Q v ⟨f, some p⟩) :
    w.system.EveryVmo Q := by
  refine h.keeps (I := fun w => w.system.EveryVmo Q) (fun v o ho => ?_)
    fun v v' hacc hmove hi => ?_
  · simp [System.initial] at ho
  · rcases hmove with hmove | hmove
    · exact hmove.everyVmo hi
    · exact hmove.everyVmo hroot hclone hacc hi

end EveryVmo

/-- Clones are younger than what they were cloned from. -/
def System.ClonesYounger (s : System) : Prop :=
  ∀ {c p : Nat} {o : Vmo}, s.vmos[c]? = some o → o.parent = some p → p < c

/-- A clone is younger than what it was cloned from, so originals make no way round. -/
theorem World.Passed.clonesYounger {A C : Prop} {w : World} (h : Passed A C w) :
    w.system.ClonesYounger := by
  have hevery : w.system.EveryVmo fun c k => ∀ p, k.parent = some p → p < c :=
    h.everyVmo (fun _ _ hp => by cases hp) fun _ _ _ hlt p hp => by
      cases hp
      exact hlt
  intro c p o ho hp
  exact hevery c o ho p hp

/-- The list of all VM objects has those that are there, and no other. -/
def System.VmosListed (s : System) : Prop := ∀ v : Nat, s.vmoList.contains v = s.vmos.contains v

section VmosListed

variable {w w' : World}

theorem Decline.vmosListed {K P : Koid → Prop} (h : Decline K P w w')
    (hi : w.system.VmosListed) : w'.system.VmosListed := by
  cases h with
  | inert hs =>
    intro v
    rw [hs.vmoList, Store.contains_of_map (hs.vmo v)]
    exact hi v
  | @vmo s d v o _ _ =>
    obtain ⟨families, he, -⟩ := s.withoutVmo_eq v o
    intro u
    rw [he, Std.ExtTreeMap.contains_erase, Std.ExtTreeMap.contains_erase]
    exact congrArg _ (hi u)
  | _ => exact hi

theorem Birth.vmosListed {A C : Prop} (h : Birth A C w w') (hi : w.system.VmosListed) :
    w'.system.VmosListed := by
  have hentered : ∀ (v u : Nat) (vmo : Vmo), (w.system.vmoList.insert v ()).contains u =
      (w.system.vmos.insert v vmo).contains u := by
    intro v u vmo
    rw [Std.ExtTreeMap.contains_insert, Std.ExtTreeMap.contains_insert, hi u]
  cases h with
  | vmo => exact fun u => hentered _ u _
  | clone => exact fun u => hentered _ u _
  | _ => exact hi

/-- The list of all VM objects has just those that are there. -/
theorem World.Passed.vmosListed {A C : Prop} (h : Passed A C w) : w.system.VmosListed :=
  h.keeps (I := fun w => w.system.VmosListed) (fun _ => rfl) fun _ _ _ hmove hi => by
    rcases hmove with hmove | hmove
    · exact hmove.vmosListed hi
    · exact hmove.vmosListed hi

theorem System.VmosListed.mem_liveVmos {s : System} (h : s.VmosListed) {v : Nat} :
    v ∈ s.liveVmos ↔ s.vmos.contains v := by
  rw [← h v, System.liveVmos, Std.ExtTreeMap.mem_keys, Std.ExtTreeMap.mem_iff_contains]

end VmosListed

/-! ## 4. Tables that hold processes

Processes may hold each other through their tables, and then nobody gives them back.  That is the
only kind of circle that there can be. -/

namespace System

variable {s t u : System}

/-- The processes that the table of a process holds handles to. -/
def heldProcesses (s : System) (p : Koid) : List Koid :=
  match s.processes[p]? with
  | none => []
  | some r =>
    match s.tables[r.table]? with
    | none => []
    | some table =>
      (table.owned.values.filterMap fun h => s.handles[h]?.map Handle.object).filter
        fun q => s.processes.contains q

/-- The table of one process holds a handle to another one. -/
def HoldsProcess (s : System) (p q : Koid) : Prop := q ∈ s.heldProcesses p

/-- No process is held by itself, through however many tables. -/
def TablesAcyclic (s : System) : Prop := ∀ p, ¬ Relation.TransGen s.HoldsProcess p p

/-- A process holds another one if a handle to that stands in its table. -/
theorem holdsProcess_iff {p q : Nat} : s.HoldsProcess p q ↔
    ∃ (r : Process) (table : Table) (b : Nat) (h : HandleId) (x : Handle) (r' : Process),
      s.processes[p]? = some r ∧ s.tables[r.table]? = some table ∧ table.owned[b]? = some h ∧
        s.handles[h]? = some x ∧ x.object = q ∧ s.processes[q]? = some r' := by
  unfold HoldsProcess heldProcesses
  constructor
  · intro hq
    split at hq
    · cases hq
    · rename_i r hp
      split at hq
      · cases hq
      · rename_i table ht
        simp only [List.mem_filter, List.mem_filterMap, Store.mem_values_iff,
          Option.map_eq_some_iff] at hq
        obtain ⟨⟨h, ⟨b, hb⟩, x, hx, hxq⟩, hthere⟩ := hq
        obtain ⟨r', hr'⟩ := Store.contains_iff.1 hthere
        exact ⟨r, table, b, h, x, r', hp, ht, hb, hx, hxq, hr'⟩
  · rintro ⟨r, table, b, h, x, r', hp, ht, hb, hx, hxq, hr'⟩
    rw [hp]
    dsimp only
    rw [ht]
    simp only [List.mem_filter, List.mem_filterMap, Store.mem_values_iff, Option.map_eq_some_iff]
    exact ⟨⟨h, ⟨b, hb⟩, x, hx, hxq⟩, Store.contains_iff.2 ⟨r', hr'⟩⟩

/-- Where tables hold only younger processes there is no circle. -/
theorem tablesAcyclic_of_lt (h : ∀ p ∈ s.processes.keys, ∀ q ∈ s.heldProcesses p, p < q) :
    s.TablesAcyclic := by
  have hlt : ∀ {p q}, s.HoldsProcess p q → p < q := by
    intro p q hq
    obtain ⟨r, _, _, _, _, _, hp, -⟩ := holdsProcess_iff.1 hq
    exact h p (Store.mem_keys_iff.2 (by rw [hp]; rfl)) q hq
  have hpath : ∀ {p q}, Relation.TransGen s.HoldsProcess p q → p < q := by
    intro p q hpq
    induction hpq with
    | single hq => exact hlt hq
    | tail _ hq ih => exact Nat.lt_trans ih (hlt hq)
  exact fun p hp => Nat.lt_irrefl p (hpath hp)

/-- What is left of processes, tables and handles is as it was, apart from what tables gave up. -/
structure Remains (s t : System) : Prop where
  process : ∀ {k : Nat} {b : Process}, t.processes[k]? = some b →
    ∃ a, s.processes[k]? = some a ∧ b.table = a.table
  table : ∀ {i : Nat} {b : Table}, t.tables[i]? = some b →
    ∃ a, s.tables[i]? = some a ∧ ∀ (n : Nat) (h : HandleId), b.owned[n]? = some h →
      a.owned[n]? = some h
  handle : ∀ {h : Nat} {b : Handle}, t.handles[h]? = some b →
    ∃ a, s.handles[h]? = some a ∧ b.object = a.object

namespace Remains

theorem of_same (hp : t.processes = s.processes) (ht : t.tables = s.tables)
    (hh : t.handles = s.handles) : Remains s t where
  process := fun {_ b} h => ⟨b, hp ▸ h, rfl⟩
  table := fun {_ b} h => ⟨b, ht ▸ h, fun _ _ => id⟩
  handle := fun {_ b} h => ⟨b, hh ▸ h, rfl⟩

theorem trans (h : Remains s t) (h' : Remains t u) : Remains s u where
  process hc := by
    obtain ⟨b, hb, hcb⟩ := h'.process hc
    obtain ⟨a, ha, hba⟩ := h.process hb
    exact ⟨a, ha, hcb.trans hba⟩
  table hc := by
    obtain ⟨b, hb, hcb⟩ := h'.table hc
    obtain ⟨a, ha, hba⟩ := h.table hb
    exact ⟨a, ha, fun n x hx => hba n x (hcb n x hx)⟩
  handle hc := by
    obtain ⟨b, hb, hcb⟩ := h'.handle hc
    obtain ⟨a, ha, hba⟩ := h.handle hb
    exact ⟨a, ha, hcb.trans hba⟩

theorem inert (h : Inert s t) : Remains s t where
  process := fun {k b} hb => by
    have hkin := h.process k
    rw [hb, Option.map_some, eq_comm] at hkin
    obtain ⟨a, ha, hab⟩ := Option.map_eq_some_iff.1 hkin
    exact ⟨a, ha, (congrArg Process.Kin.table hab).symm⟩
  table := fun {_ b} hb => ⟨b, h.tables ▸ hb, fun _ _ => id⟩
  handle := fun {x b} hb => by
    have hkin := h.handle x
    rw [hb, Option.map_some, eq_comm] at hkin
    obtain ⟨a, ha, hab⟩ := Option.map_eq_some_iff.1 hkin
    exact ⟨a, ha, (congrArg Handle.Kin.object hab).symm⟩

theorem erase {α : Type} {s : Store α} {k a : Nat} {b : α} (h : (s.erase k)[a]? = some b) :
    s[a]? = some b := by
  rw [Store.getElem?_erase] at h
  split at h
  · cases h
  · exact h

/-- Whatever tables hold now they held before. -/
theorem holdsProcess (h : Remains s t) {p q : Nat} (hq : t.HoldsProcess p q) :
    s.HoldsProcess p q := by
  obtain ⟨r, table, b, x, y, r', hp, ht, hb, hx, hy, hr'⟩ := holdsProcess_iff.1 hq
  obtain ⟨a, ha, hra⟩ := h.process hp
  rw [hra] at ht
  obtain ⟨table', ht', hkeep⟩ := h.table ht
  obtain ⟨y', hx', hyy⟩ := h.handle hx
  obtain ⟨a', ha', -⟩ := h.process hr'
  exact holdsProcess_iff.2 ⟨a, table', b, x, y', a', ha, ht', hkeep b x hb, hx',
    hyy.symm.trans hy, ha'⟩

theorem tablesAcyclic (h : Remains s t) (hs : s.TablesAcyclic) : t.TablesAcyclic :=
  fun p hp => hs p (Relation.TransGen.mono (fun _ _ => h.holdsProcess) _ _ hp)

end Remains

end System

theorem Decline.remains {K P : Koid → Prop} {w w' : World} (h : Decline K P w w') :
    w.system.Remains w'.system := by
  -- Of processes, tables and handles a decline takes some out, empties a table, or marks a
  -- process as dead.  None of that writes which table a process has.
  cases h with
  | inert hs => exact .inert hs
  | process =>
    exact ⟨fun {_ b} hb => ⟨b, System.Remains.erase hb, rfl⟩,
      fun {_ b} hb => ⟨b, hb, fun _ _ => id⟩, fun {_ b} hb => ⟨b, hb, rfl⟩⟩
  | handle =>
    exact ⟨fun {_ b} hb => ⟨b, hb, rfl⟩, fun {_ b} hb => ⟨b, hb, fun _ _ => id⟩,
      fun {_ b} hb => ⟨b, System.Remains.erase hb, rfl⟩⟩
  | @vmo s d v o _ _ =>
    obtain ⟨families, he, -⟩ := s.withoutVmo_eq v o
    dsimp only
    rw [he]
    exact .of_same rfl rfl rfl
  | closeTable =>
    exact ⟨fun {_ b} hb => ⟨b, hb, rfl⟩,
      fun {_ b} hb => ⟨b, System.Remains.erase hb, fun _ _ => id⟩, fun {_ b} hb => ⟨b, hb, rfl⟩⟩
  | @emptyTable s d i table ht =>
    refine ⟨fun {_ b} hb => ⟨b, hb, rfl⟩, fun {a b} hb => ?_, fun {_ b} hb => ⟨b, hb, rfl⟩⟩
    have hb := (Store.getElem?_modify _ _ _ _).symm.trans hb
    split at hb
    · obtain ⟨x, hx, rfl⟩ := Option.map_eq_some_iff.1 hb
      exact ⟨x, hx, fun n h hn => by cases (Store.getElem?_empty n).symm.trans hn⟩
    · exact ⟨b, hb, fun _ _ => id⟩
  | @ends s d k p f hp _ hf =>
    refine ⟨fun {a b} hb => ?_, fun {_ b} hb => ⟨b, hb, fun _ _ => id⟩,
      fun {_ b} hb => ⟨b, hb, rfl⟩⟩
    have hb := (Store.getElem?_modify _ _ _ _).symm.trans hb
    split at hb
    · rename_i ha
      subst ha
      rw [hp] at hb
      cases hb
      exact ⟨p, hp, congrArg Process.Kin.table hf⟩
    · exact ⟨b, hb, rfl⟩
  | _ => exact .of_same rfl rfl rfl

theorem Declines.remains {K P : Koid → Prop} {w w' : World} (h : Declines K P w w') :
    w.system.Remains w'.system := by
  induction h with
  | refl => exact .of_same rfl rfl rfl
  | tail _ hstep ih => exact ih.trans hstep.remains

/-! ## 5. What is left is held by what is left

With nothing due, the account says that each thing that is there has a holder among the records.
So from anything that is left one can go up to a holder, and on. -/

/-- A store in which everything has something above it, below a bound, is empty. -/
theorem Store.eq_empty_of_climbs {α : Type} {s : Store α} {n : Nat}
    (hlt : ∀ {k : Nat} {v : α}, s[k]? = some v → k < n)
    (hclimb : ∀ {k : Nat} {v : α}, s[k]? = some v → ∃ (l : Nat) (u : α), s[l]? = some u ∧ k < l) :
    s = ∅ := by
  have hnone : ∀ m k : Nat, n ≤ k + m → s[k]? = none := by
    intro m
    induction m with
    | zero =>
      intro k hk
      cases hv : s[k]? with
      | none => rfl
      | some v => exact absurd (hlt hv) (Nat.not_lt.2 hk)
    | succ m ih =>
      intro k hk
      cases hv : s[k]? with
      | none => rfl
      | some v =>
        obtain ⟨l, u, hu, hkl⟩ := hclimb hv
        rw [ih l (by omega)] at hu
        cases hu
  refine Store.ext fun k => ?_
  rw [hnone n k (Nat.le_add_left _ _), Store.getElem?_empty]

theorem Store.eq_empty_of_none {α : Type} {s : Store α} (h : ∀ (k : Nat) (v : α), s[k]? ≠ some v) :
    s = ∅ :=
  eq_empty_of_climbs (n := 0) (fun hv => absurd hv (h _ _)) fun hv => absurd hv (h _ _)

theorem Store.exists_of_weight_pos {α : Type} {s : Store α} {f : Nat → α → Nat}
    (h : 0 < s.weight f) : ∃ (k : Nat) (v : α), s[k]? = some v ∧ 0 < f k v := by
  by_contra hnone
  refine Nat.lt_irrefl 0 (h.trans_eq (Store.weight_eq_zero fun k v hv => ?_))
  exact Nat.eq_zero_of_not_pos fun hpos => hnone ⟨k, v, hv, hpos⟩

namespace Accounted

variable {s : System}

/-- With nothing due, what is there is held by some record. -/
theorem held_pos (h : Accounted s []) {r : Ref} (hr : s.Present r) : 0 < s.held r := by
  have hcount := (h.present r).1 hr
  rw [h.balanced, owed_nil] at hcount
  exact hcount

/-- A job that is left has a child, a process or a handle. -/
theorem holder_of_object (h : Accounted s []) {k : Nat} (hk : s.Present (.object k)) :
    (∃ (c : Nat) (j : Job), s.jobs[c]? = some j ∧ j.parent = some k) ∨
      (∃ (p : Nat) (r : Process), s.processes[p]? = some r ∧ r.job = k) ∨
        ∃ (x : Nat) (y : Handle), s.handles[x]? = some y ∧ y.object = k := by
  have hpos := h.held_pos hk
  unfold System.held at hpos
  rcases Nat.add_pos_iff_pos_or_pos.1 hpos with hpos | hpos
  · rcases Nat.add_pos_iff_pos_or_pos.1 hpos with hpos | hpos
    · obtain ⟨c, j, hj, hone⟩ := Store.exists_of_weight_pos hpos
      exact .inl ⟨c, j, hj, by_contra fun hne => by simp [hne] at hone⟩
    · obtain ⟨p, r, hr, hone⟩ := Store.exists_of_weight_pos hpos
      exact .inr (.inl ⟨p, r, hr, by_contra fun hne => by simp [hne] at hone⟩)
  · obtain ⟨x, y, hy, hone⟩ := Store.exists_of_weight_pos hpos
    exact .inr (.inr ⟨x, y, hy, by_contra fun hne => by simp [hne] at hone⟩)

/-- What is not a job is held by a handle only. -/
theorem handle_of_object (h : Accounted s []) {k : Nat} (hk : s.Present (.object k))
    (hj : s.jobs[k]? = none) :
    ∃ (x : Nat) (y : Handle), s.handles[x]? = some y ∧ y.object = k := by
  have hno : ¬ s.jobs.contains k := by
    rw [Store.contains_eq_false_iff.2 hj]
    exact Bool.false_ne_true
  rcases h.holder_of_object hk with ⟨c, j, hc, hp⟩ | ⟨p, r, hr, hjob⟩ | hx
  · exact absurd (h.parent hc hp) hno
  · exact absurd (hjob ▸ h.job hr) hno
  · exact hx

/-- What holds a handle is a table, -/
theorem holder_of_handle (h : Accounted s []) {x : Nat} {y : Handle} (hx : s.handles[x]? = some y) :
    ∃ (t : TableId) (table : Table) (b : Nat), s.tables[t]? = some table ∧
      table.owned[b]? = some x := by
  have hpos : 0 < 2 * s.owned x := h.held_pos (r := .handle x) (Store.contains_iff.2 ⟨y, hx⟩)
  exact System.owned_pos_iff.1 (by omega)

/-- and what holds a VM object is a view of it or a clone. -/
theorem holder_of_vmo (h : Accounted s []) {v : Nat} {o : Vmo} (ho : s.vmos[v]? = some o) :
    (∃ (k : Nat) (x : View), s.views[k]? = some x ∧ x.vmo = v) ∨
      ∃ (c : Nat) (q : Vmo), s.vmos[c]? = some q ∧ q.parent = some v := by
  have hpos := h.held_pos (r := .vmo v) (Store.contains_iff.2 ⟨o, ho⟩)
  unfold System.held at hpos
  rcases Nat.add_pos_iff_pos_or_pos.1 hpos with hpos | hpos
  · obtain ⟨k, x, hx, hone⟩ := Store.exists_of_weight_pos hpos
    exact .inl ⟨k, x, hx, by_contra fun hne => by simp [hne] at hone⟩
  · obtain ⟨c, q, hq, hone⟩ := Store.exists_of_weight_pos hpos
    exact .inr ⟨c, q, hq, by_contra fun hne => by simp [hne] at hone⟩

end Accounted

namespace World

variable {P : System → Op → Prop} {w : World}

/-- If nobody outside holds anything, every table that is left is that of a process that is left. -/
theorem Ran.process_of_table (h : w.Ran P) (hd : w.dues = []) {t : Nat} {table : Table}
    (ht : w.system.tables[t]? = some table) :
    ∃ (p : Nat) (r : Process), w.system.processes[p]? = some r ∧ r.table = t := by
  rcases h.tabled t (Store.contains_iff.2 ⟨table, ht⟩) with hc | ⟨p, x, hx, hxt⟩
  · unfold closing at hc
    rw [hd] at hc
    cases hc
  · obtain ⟨r, hr, rfl⟩ := Option.map_eq_some_iff.1 hx
    exact ⟨p, r, hr, hxt⟩

/-- A process that is left is in the table of a process that is left. -/
theorem Ran.holdsProcess (h : w.Ran P) (hd : w.dues = []) {q : Nat} {r : Process}
    (hq : w.system.processes[q]? = some r) :
    ∃ (p : Nat) (r' : Process), w.system.processes[p]? = some r' ∧ w.system.HoldsProcess p q := by
  have hacc : Accounted w.system [] := hd ▸ h.passed.accounted
  have hthere : w.system.Present (.object q) := .inr (.inl (Store.contains_iff.2 ⟨r, hq⟩))
  obtain ⟨x, y, hx, hy⟩ := hacc.handle_of_object hthere (hacc.only_process hq).1
  obtain ⟨t, table, b, ht, hb⟩ := hacc.holder_of_handle hx
  obtain ⟨p, r', hp, rfl⟩ := h.process_of_table hd ht
  exact ⟨p, r', hp, System.holdsProcess_iff.2 ⟨r', table, b, x, y, r, hp, ht, hb, hx, hy, hq⟩⟩

/-- **Where no process is held by itself, none is left.**  There are finitely many, so some one
would be held by none. -/
theorem Ran.no_process (h : w.Ran P) (hd : w.dues = []) (hacyclic : w.system.TablesAcyclic) :
    w.system.processes = ∅ := by
  refine Store.eq_empty_of_none fun q r hq => ?_
  let above (a b : Fin w.system.nextKoid) : Prop :=
    Relation.TransGen w.system.HoldsProcess a.val b.val
  have : IsTrans (Fin w.system.nextKoid) above := ⟨fun _ _ _ => Relation.TransGen.trans⟩
  have : Std.Irrefl above := ⟨fun a => hacyclic a.val⟩
  have hwf : WellFounded above := Finite.wellFounded_of_trans_of_irrefl _
  have hnone : ∀ a : Fin w.system.nextKoid, w.system.processes[a.val]? = none := by
    intro a
    induction a using hwf.induction with
    | _ a ih =>
      cases ha : w.system.processes[a.val]? with
      | none => rfl
      | some r =>
        obtain ⟨p, r', hp, hpa⟩ := h.holdsProcess hd ha
        have hlt : p < w.system.nextKoid := h.passed.accounted.process_lt hp
        rw [ih ⟨p, hlt⟩ (.single hpa)] at hp
        cases hp
  rw [hnone ⟨q, h.passed.accounted.process_lt hq⟩] at hq
  cases hq

/-! ## 6. Nothing is left

Going up comes to an end: parents and originals are older, and tables are without a way round by
hypothesis.  So there was nothing to start from. -/

/-- **Nothing is left**: no job is registered and no VM object is listed, no arena has a handle
outstanding, and of each kind that is counted as many were destroyed as were created. -/
structure NothingLeft (s : System) : Prop where
  registry : s.registry = []
  vmos : s.liveVmos = []
  arenas : ∀ {i : Nat} {a : Arena}, s.arenas[i]? = some a → a.outstanding = 0
  jobs : s.counters.jobCreate = s.counters.jobDestroy
  processes : s.counters.processCreate = s.counters.processDestroy
  views : s.counters.viewCreate = s.counters.viewDestroy

/-- **If nobody outside holds anything, nothing is left**, unless processes hold each other in a
circle. -/
theorem Ran.nothingLeft (h : w.Ran P) (hd : w.dues = []) (hacyclic : w.system.TablesAcyclic) :
    NothingLeft w.system := by
  have hacc : Accounted w.system [] := hd ▸ h.passed.accounted
  have hprocesses := h.no_process hd hacyclic
  -- no process is left, so no table is, and a handle is held by tables only
  have htables : w.system.tables = ∅ := Store.eq_empty_of_none fun t table ht => by
    obtain ⟨p, r, hr, -⟩ := h.process_of_table hd ht
    rw [hprocesses, Store.getElem?_empty] at hr
    cases hr
  have hhandles : w.system.handles = ∅ := Store.eq_empty_of_none fun x y hx => by
    obtain ⟨t, table, b, ht, -⟩ := hacc.holder_of_handle hx
    rw [htables, Store.getElem?_empty] at ht
    cases ht
  -- a job that is left has a child job that is left, which is younger, and so on beyond all
  -- bounds
  have hjobs : w.system.jobs = ∅ := Store.eq_empty_of_climbs (n := w.system.nextKoid)
    (fun hj => h.passed.accounted.job_lt hj) fun {k j} hj => by
      rcases hacc.holder_of_object (.inl (Store.contains_iff.2 ⟨j, hj⟩)) with
        ⟨c, i, hi, hp⟩ | ⟨p, r, hr, -⟩ | ⟨x, y, hx, -⟩
      · exact ⟨c, i, hi, h.registered.1.older (System.job_record hi) hp⟩
      · rw [hprocesses, Store.getElem?_empty] at hr
        cases hr
      · rw [hhandles, Store.getElem?_empty] at hx
        cases hx
  have hviews : w.system.views = ∅ := Store.eq_empty_of_none fun k v hv => by
    have hthere : w.system.Present (.object k) :=
      .inr (.inr (.inl (Store.contains_iff.2 ⟨v, hv⟩)))
    obtain ⟨x, y, hx, -⟩ := hacc.handle_of_object hthere (by rw [hjobs, Store.getElem?_empty])
    rw [hhandles, Store.getElem?_empty] at hx
    cases hx
  -- the same of a VM object and its clones
  have hvmos : w.system.vmos = ∅ := Store.eq_empty_of_climbs (n := w.system.nextVmo)
    (fun ho => hacc.bounded.vmo (Store.contains_iff.2 ⟨_, ho⟩)) fun {v o} ho => by
      rcases hacc.holder_of_vmo ho with ⟨k, x, hx, -⟩ | ⟨c, q, hq, hp⟩
      · rw [hviews, Store.getElem?_empty] at hx
        cases hx
      · exact ⟨c, q, hq, h.passed.clonesYounger hq hp⟩
  have hcounted := h.counted
  constructor
  case registry =>
    refine List.eq_nil_iff_forall_not_mem.2 fun k hk => ?_
    have hthere := (h.mem_registry k).1 hk
    rw [hjobs] at hthere
    simp at hthere
  case vmos =>
    refine List.eq_nil_iff_forall_not_mem.2 fun v hv => ?_
    have hthere := h.passed.vmosListed.mem_liveVmos.1 hv
    rw [hvmos] at hthere
    simp at hthere
  case arenas =>
    intro i a ha
    have hs := h.passed.slotted
    rw [← (hs.wf ha).countP_taken, List.countP_eq_zero]
    -- a slot that is taken has a handle, and no handle is left
    intro slot hslot htaken
    obtain ⟨n, hn⟩ := List.getElem?_of_mem hslot
    obtain ⟨x, hx⟩ := Option.isSome_iff_exists.1 htaken
    rw [Array.getElem?_toList] at hn
    obtain ⟨-, r, hr, -⟩ := hs.owner (g := slot.generation) (h := x) ha (by rw [hn, ← hx])
    rw [hhandles, Store.getElem?_empty] at hr
    cases hr
  case jobs => exact hcounted.jobs.eq (by show w.system.jobs.size = 0; rw [hjobs]; rfl)
  case processes =>
    exact hcounted.processes.eq (by show w.system.processes.size = 0; rw [hprocesses]; rfl)
  case views => exact hcounted.views.eq (by show w.system.views.size = 0; rw [hviews]; rfl)

/-! ## 7. Giving everything back

The dues may be given back in any order; what is left in the end is the same. -/

/-- Dropping whatever is held, in any order, settles all of it. -/
theorem foldl_drop {s : System} {d ts : List Task} (h : ts.Perm d) :
    (ts.map Op.drop).foldl act ⟨s, d⟩ = ⟨s.settle ts, []⟩ := by
  induction ts generalizing s d with
  | nil =>
    cases h.nil_eq
    rw [System.settle]
    rfl
  | cons t ts ih =>
    have ht : t ∈ d := h.subset List.mem_cons_self
    have hact : act ⟨s, d⟩ (.drop t) = ⟨s.settle [t], d.erase t⟩ := if_pos ht
    have hrest : ts.Perm (d.erase t) := (List.perm_cons_erase ht |> h.trans).cons_inv
    rw [List.map_cons, List.foldl_cons, hact, ih hrest, ← System.settle_append]
    rfl

/-- **Nothing leaks.**  After any run a client may drop all that it holds in any order.  Then
nothing is left unless processes hold each other in a circle, and dropping makes no circle where
there was none. -/
theorem Ran.no_leaks (h : w.Ran P) {ts : List Task} (hts : ts.Perm w.dues) :
    let v := (ts.map Op.drop).foldl World.act w
    v.dues = [] ∧ (w.system.TablesAcyclic → v.system.TablesAcyclic) ∧
      (v.system.TablesAcyclic → NothingLeft v.system) := by
  intro v
  have hv : v = ⟨w.system.settle ts, []⟩ := foldl_drop hts
  have hran : v.Ran fun _ _ => True := (h.mono fun _ _ _ => trivial).foldl (keep_any _ _)
  have hd : v.dues = [] := by rw [hv]
  refine ⟨hd, fun hacyclic => ?_, hran.nothingLeft hd⟩
  have hdeclines := w.system.settle_declines (K := fun _ => True) (P := fun _ => True) ts []
  have hremains := hdeclines.remains
  rw [hv]
  exact hremains.tablesAcyclic hacyclic

/-- Two jobs and two processes, the table of one of which holds the other one, whose table holds the
view of a clone; and besides what the client holds of them a shared job and a table of its own. -/
def holdingOps : List Op :=
  [.createRootJob false, .createJob 1024, .createProcess 1025 Name.blank,
    .createProcess 1025 Name.blank, .createVmo 4096 0, .cloneVmo 1 ⟨false, 0, 4096, false⟩,
    .createView 2, .makeHandle 0 1027 .basic true, .tableAdd 1 3, .makeHandle 0 1028 .basic true,
    .tableAdd 2 4, .share (.object 1024), .openTable 7 0]

theorem Ran.no_leaks_of_holding :
    let w := run holdingOps
    let v := (w.dues.reverse.map Op.drop).foldl World.act w
    w.dues.length = 9 ∧ w.system.heldProcesses 1026 = [1027] ∧ v.dues = [] ∧
      NothingLeft v.system := by
  have hran : (run holdingOps).Ran fun _ _ => True := Ran.foldl .start (keep_any _ _)
  have hlt : ∀ p ∈ (run holdingOps).system.processes.keys,
      ∀ q ∈ (run holdingOps).system.heldProcesses p, p < q := by decide +kernel
  obtain ⟨hd, hkeep, hnothing⟩ := no_leaks hran (List.reverse_perm _)
  exact ⟨by decide +kernel, by decide +kernel, hd,
    hnothing (hkeep (System.tablesAcyclic_of_lt hlt))⟩

end World

end KernelObjects
