import KernelObjects.Proofs.Account.Holders

/-
# Declines keep the account in order

Whatever goes had its last reference given back, so nobody holds it, and what its record held
falls due.  A table that closes passes on what it owned.

The argument is the same for every kind.  The count was one and the reference that fell due makes
one, so by the balance no record holds the thing (`held_eq_zero`).  Its own record leaves the
weights of what it named, and puts a due in the place.  `object_gone` and `balanced_gone` say this
once; jobs, processes, views and witnesses are objects that differ in what they name.
-/

namespace KernelObjects

/-! ## 1. What goes

The counterpart of a birth: the record leaves, the reference that took it along is no longer due,
and those that it held are. -/

/-- Whether an object is there, counted over the kinds. -/
theorem present_object_iff {s : System} {k : Koid} :
    s.Present (.object k) ↔
      0 < s.jobs.has k + s.processes.has k + s.views.has k + s.witnesses.has k := by
  have hj := s.jobs.has_le_one k
  have hp := s.processes.has_le_one k
  have hv := s.views.has_le_one k
  have hw := s.witnesses.has_le_one k
  dsimp only [System.Present]
  simp only [← Store.has_eq_one_iff]
  omega

namespace Accounted

variable {s : System} {d : List Task}

/-- What is an object of some kind has the part that all objects have. -/
theorem object_of_present (h : Accounted s d) {k : Koid} (hk : s.Present (.object k)) :
    ∃ o, s.objects[k]? = some o := by
  have hkind := h.kind k
  have hpos := present_object_iff.1 hk
  have hle := s.objects.has_le_one k
  have hone : s.objects.has k = 1 := by omega
  exact Store.contains_iff.1 (Store.has_eq_one_iff.1 hone)

/-- Dues that come to the same may stand for each other. -/
theorem congr_owed {e : List Task} (h : Accounted s d) (he : ∀ r, owed e r = owed d r) :
    Accounted s e :=
  { h with balanced := fun r => by rw [he r]; exact h.balanced r }

/-- The count of a thing whose last reference was given back, and all other counts. -/
theorem refCount_gone {r : Ref} (h1 : s.refCount r = 1) (q : Ref) :
    (s.refs.release r).count q = if r = q then 0 else s.refCount q := by
  rw [RefCounts.count_release]
  split
  · subst_vars
    unfold System.refCount at h1
    rw [h1]
  · rfl

/-- The sums after the last reference to a thing was given back, if what its record held is due
now. -/
theorem balanced_gone {t : System} {r : Ref} (h : Accounted s (.release r :: d))
    (new : List Task) (h1 : s.refCount r = 1)
    (hrefs : t.refs = s.refs.release r) (hheld : ∀ q, s.held q = t.held q + owed new q) (q : Ref) :
    t.refCount q = t.held q + owed (new ++ d) q := by
  have hzero := h.held_eq_zero h1
  have hb := h.balanced q
  have hq := hheld q
  rw [owed_cons] at hb
  rw [owed_append]
  unfold System.refCount
  rw [hrefs, refCount_gone h1]
  simp only [Task.holds] at hb
  split
  · subst_vars
    rw [h1, if_pos rfl] at hb
    omega
  · rename_i hne
    rw [if_neg hne] at hb
    omega

/-- What is there is still what something refers to, if just the thing that nobody refers to any
more is gone. -/
theorem present_gone {t : System} {r : Ref} (h : Accounted s (.release r :: d))
    (h1 : s.refCount r = 1) (hrefs : t.refs = s.refs.release r)
    (hp : ∀ q, t.Present q ↔ r ≠ q ∧ s.Present q) (q : Ref) :
    t.Present q ↔ 0 < t.refCount q := by
  unfold System.refCount
  rw [hrefs, refCount_gone h1, hp, h.present]
  split
  · simp_all
  · simp_all

/-- An object whose last reference was given back leaves whatever store it was in. -/
theorem object_gone {k : Koid} (h : Accounted s (.release (.object k) :: d)) (new : List Task)
    (h1 : s.refCount (.object k) = 1)
    (hnew : ∀ q, owed new q = match q with
      | .object a => s.jobs.share (fun _ j => if j.parent = some a then 1 else 0) k +
          s.processes.share (fun _ p => if p.job = a then 1 else 0) k
      | .vmo v => s.views.share (fun _ w => if w.vmo = v then 1 else 0) k
      | _ => 0) :
    Accounted { s with
      refs := s.refs.release (.object k)
      objects := s.objects.erase k
      jobs := s.jobs.erase k
      processes := s.processes.erase k
      views := s.views.erase k
      witnesses := s.witnesses.erase k } (new ++ d) where
  -- the record takes its share out of what is held, and `new` are the dues for just this share
  balanced := h.balanced_gone new h1 rfl fun q => by
    rw [hnew]
    cases q with
    | object a =>
      have hj := s.jobs.weight_erase_share k fun _ j => if j.parent = some a then 1 else 0
      have hp := s.processes.weight_erase_share k fun _ p => if p.job = a then 1 else 0
      dsimp only [System.held]
      omega
    | vmo v =>
      have hv := s.views.weight_erase_share k fun _ w => if w.vmo = v then 1 else 0
      dsimp only [System.held]
      omega
    | handle a => rfl
    | mapping m => rfl
    | listener o => rfl
  present := h.present_gone h1 rfl fun q => by
    cases q with
    | object a =>
      rw [present_object_iff, present_object_iff]
      simp only [Store.has_erase, ne_eq, Ref.object.injEq]
      split <;> simp_all
    | handle a => exact ⟨fun hp => ⟨by simp, hp⟩, fun hp => hp.2⟩
    | vmo v => exact ⟨fun hp => ⟨by simp, hp⟩, fun hp => hp.2⟩
    | mapping m => exact ⟨fun hp => ⟨by simp, hp⟩, fun hp => hp.2⟩
    | listener o => exact ⟨fun hp => ⟨by simp, hp⟩, fun hp => hp.2⟩
  kind a := by
    have := h.kind a
    simp only [Store.has_erase]
    split <;> omega
  -- a child of the object would hold it, and nobody does
  parent := by
    intro a p j hj hp
    have hj := Store.getElem?_erase s.jobs k a ▸ hj
    split at hj
    · cases hj
    · refine (Store.contains_erase _ _ _).2 ⟨fun he => ?_, h.parent hj hp⟩
      have := held_of_parent hj hp
      rw [← he, h.held_eq_zero h1] at this
      exact Nat.lt_irrefl 0 this
  job := by
    intro a p hp
    have hp := Store.getElem?_erase s.processes k a ▸ hp
    split at hp
    · cases hp
    · refine (Store.contains_erase _ _ _).2 ⟨fun he => ?_, h.job hp⟩
      have := held_of_job hp
      rw [← he, h.held_eq_zero h1] at this
      exact Nat.lt_irrefl 0 this
  bounded := { h.bounded with
    object := fun ha => h.bounded.object ((Store.contains_erase _ _ _).1 ha).2 }

/-- Only one store knows an object. -/
theorem only_job (h : Accounted s d) {k : Koid} {j : Job} (hj : s.jobs[k]? = some j) :
    s.processes[k]? = none ∧ s.views[k]? = none ∧ s.witnesses[k]? = none := by
  have hk := h.kind k
  have ho := s.objects.has_le_one k
  rw [Store.has_of_some hj] at hk
  refine ⟨?_, ?_, ?_⟩ <;> rw [← Store.has_eq_zero_iff] <;> omega

/-- An object that is a process is of no other kind, -/
theorem only_process (h : Accounted s d) {k : Koid} {p : Process}
    (hp : s.processes[k]? = some p) :
    s.jobs[k]? = none ∧ s.views[k]? = none ∧ s.witnesses[k]? = none := by
  have hk := h.kind k
  have ho := s.objects.has_le_one k
  rw [Store.has_of_some hp] at hk
  refine ⟨?_, ?_, ?_⟩ <;> rw [← Store.has_eq_zero_iff] <;> omega

/-- and one that is a view is of no other kind either. -/
theorem only_view (h : Accounted s d) {k : Koid} {v : View} (hv : s.views[k]? = some v) :
    s.jobs[k]? = none ∧ s.processes[k]? = none ∧ s.witnesses[k]? = none := by
  have hk := h.kind k
  have ho := s.objects.has_le_one k
  rw [Store.has_of_some hv] at hk
  refine ⟨?_, ?_, ?_⟩ <;> rw [← Store.has_eq_zero_iff] <;> omega

/-- **A job goes**, and owes the reference to its parent. -/
theorem job_gone {k : Koid} {j : Job} (h : Accounted s (.release (.object k) :: d))
    (h1 : s.refCount (.object k) = 1) (hj : s.jobs[k]? = some j) :
    Accounted { s with
      refs := s.refs.release (.object k)
      objects := s.objects.erase k
      jobs := s.jobs.erase k } ((j.parent.toList.map fun p => .release (.object p)) ++ d) := by
  obtain ⟨hp, hv, hw⟩ := h.only_job hj
  have hgone := h.object_gone (j.parent.toList.map fun p => .release (.object p)) h1 ?_
  · rwa [Store.erase_of_none hp, Store.erase_of_none hv, Store.erase_of_none hw] at hgone
  · intro q
    rw [owed_toList_release]
    cases q with
    | object a =>
      dsimp only
      rw [Store.share_of_some hj, Store.share_of_none hp]
      cases j.parent <;> simp
    | vmo v =>
      dsimp only
      rw [Store.share_of_none hv]
      cases j.parent <;> simp
    | _ => cases j.parent <;> simp

/-- **A process goes**, and owes the reference to its job. -/
theorem process_gone {k : Koid} {p : Process} (h : Accounted s (.release (.object k) :: d))
    (h1 : s.refCount (.object k) = 1) (hp : s.processes[k]? = some p) :
    Accounted { s with
      refs := s.refs.release (.object k)
      objects := s.objects.erase k
      processes := s.processes.erase k }
      (.release (.object p.job) :: .closeTable p.table :: d) := by
  obtain ⟨hj, hv, hw⟩ := h.only_process hp
  have hgone := h.object_gone [.release (.object p.job), .closeTable p.table] h1 ?_
  · rwa [Store.erase_of_none hj, Store.erase_of_none hv, Store.erase_of_none hw] at hgone
  · intro q
    cases q with
    | object a =>
      dsimp only
      rw [Store.share_of_none hj, Store.share_of_some hp]
      simp [Task.holds]
    | vmo v =>
      dsimp only
      rw [Store.share_of_none hv]
      simp [Task.holds]
    | _ => simp [Task.holds]

/-- **A view goes**, and owes the reference to its VM object. -/
theorem view_gone {k : Koid} {v : View} (h : Accounted s (.release (.object k) :: d))
    (h1 : s.refCount (.object k) = 1) (hv : s.views[k]? = some v) :
    Accounted { s with
      refs := s.refs.release (.object k)
      objects := s.objects.erase k
      views := s.views.erase k } (.release (.vmo v.vmo) :: d) := by
  obtain ⟨hj, hp, hw⟩ := h.only_view hv
  have hgone := h.object_gone [.release (.vmo v.vmo)] h1 ?_
  · rwa [Store.erase_of_none hj, Store.erase_of_none hp, Store.erase_of_none hw] at hgone
  · intro q
    cases q with
    | object a =>
      dsimp only
      rw [Store.share_of_none hj, Store.share_of_none hp]
      simp [Task.holds]
    | vmo v =>
      dsimp only
      rw [Store.share_of_some hv]
      simp [Task.holds]
    | _ => simp [Task.holds]

/-- **A witness goes**, and owes nothing. -/
theorem witness_gone {k : Koid} (h : Accounted s (.release (.object k) :: d))
    (h1 : s.refCount (.object k) = 1) (hj : s.jobs[k]? = none) (hp : s.processes[k]? = none)
    (hv : s.views[k]? = none) :
    Accounted { s with
      refs := s.refs.release (.object k)
      objects := s.objects.erase k
      witnesses := s.witnesses.erase k } d := by
  have hgone := h.object_gone [] h1 ?_
  · rwa [Store.erase_of_none hj, Store.erase_of_none hp, Store.erase_of_none hv] at hgone
  · intro q
    cases q with
    | object a =>
      dsimp only
      rw [Store.share_of_none hj, Store.share_of_none hp]
      rfl
    | vmo v =>
      dsimp only
      rw [Store.share_of_none hv]
      rfl
    | _ => rfl

/-- **A handle goes**, and owes the reference to its object. -/
theorem handle_gone {a : HandleId} {r : Handle} (h : Accounted s (.release (.handle a) :: d))
    (h1 : s.refCount (.handle a) = 1) (hr : s.handles[a]? = some r) :
    Accounted { s with refs := s.refs.release (.handle a), handles := s.handles.erase a }
      (.release (.object r.object) :: d) :=
  { h with
    balanced := h.balanced_gone [.release (.object r.object)] h1 rfl fun q => by
      cases q with
      | object k =>
        have := Store.weight_erase hr fun _ o => if o.object = k then 1 else 0
        simp only [System.held, owed_cons, owed_nil, Task.holds, Ref.object.injEq]
        omega
      | _ => simp [System.held, System.owned, Task.holds]
    present := h.present_gone h1 rfl fun q => by
      cases q with
      | handle b => simp [System.Present]
      | _ => exact ⟨fun hp => ⟨by simp, hp⟩, fun hp => hp.2⟩
    bounded := { h.bounded with
      handle := fun hb => h.bounded.handle ((Store.contains_erase _ _ _).1 hb).2 } }

/-- **A VM object goes**, and owes the reference to its original, if it is a clone. -/
theorem vmo_gone {v : VmoId} {o : Vmo} (h : Accounted s (.release (.vmo v) :: d))
    (h1 : s.refCount (.vmo v) = 1) (ho : s.vmos[v]? = some o) :
    Accounted (s.withoutVmo v o) ((o.parent.toList.map fun p => .release (.vmo p)) ++ d) := by
  obtain ⟨families, he, hf⟩ := s.withoutVmo_eq v o
  rw [he]
  exact { h with
    balanced := h.balanced_gone _ h1 rfl fun q => by
      rw [owed_toList_release]
      cases q with
      | vmo c =>
        have := Store.weight_erase ho fun _ o => if o.parent = some c then 1 else 0
        dsimp only [System.held]
        cases hp : o.parent with
        | none => simp only [hp, reduceCtorEq, if_false] at this; dsimp only [Option.elim]; omega
        | some p => simp only [hp, Option.some.injEq] at this; simp; omega
      | _ => cases o.parent <;> simp [System.held, System.owned]
    present := h.present_gone h1 rfl fun q => by
      cases q with
      | vmo c => simp [System.Present]
      | _ => exact ⟨fun hp => ⟨by simp, hp⟩, fun hp => hp.2⟩
    bounded := { h.bounded with
      vmo := fun hc => h.bounded.vmo ((Store.contains_erase _ _ _).1 hc).2
      family := fun hg => h.bounded.family (hf _ ▸ hg) } }

/-- A mapping refers to nobody, -/
theorem mapping_gone {m : MappingId} (h : Accounted s (.release (.mapping m) :: d))
    (h1 : s.refCount (.mapping m) = 1) :
    Accounted { s with refs := s.refs.release (.mapping m), mappings := s.mappings.erase m } d :=
  { h with
    balanced := h.balanced_gone [] h1 rfl fun q => by cases q <;> rfl
    present := h.present_gone h1 rfl fun q => by
      cases q with
      | mapping n => simp [System.Present]
      | _ => exact ⟨fun hp => ⟨by simp, hp⟩, fun hp => hp.2⟩
    bounded := { h.bounded with
      mapping := fun hn => h.bounded.mapping ((Store.contains_erase _ _ _).1 hn).2 } }

/-- and neither does a listener. -/
theorem listener_gone {o : ListenerId} (h : Accounted s (.release (.listener o) :: d))
    (h1 : s.refCount (.listener o) = 1) :
    Accounted { s with refs := s.refs.release (.listener o), listeners := s.listeners.erase o }
      d :=
  { h with
    balanced := h.balanced_gone [] h1 rfl fun q => by cases q <;> rfl
    present := h.present_gone h1 rfl fun q => by
      cases q with
      | listener n => simp [System.Present]
      | _ => exact ⟨fun hp => ⟨by simp, hp⟩, fun hp => hp.2⟩
    bounded := { h.bounded with
      listener := fun hn => h.bounded.listener ((Store.contains_erase _ _ _).1 hn).2 } }

/-- One more reference to something that is there. -/
theorem shared {r : Ref} (h : Accounted s d) (hr : s.Present r) :
    Accounted (s.retain r) (.release r :: d) :=
  { h with
    balanced := fun q => by
      have hb := h.balanced q
      unfold System.refCount at hb ⊢
      rw [show (s.retain r).refs = s.refs.retain r from rfl, RefCounts.count_retain, owed_cons,
        show (s.retain r).held q = s.held q by cases q <;> rfl]
      simp only [Task.holds]
      split <;> omega
    present := fun q => by
      rw [show (s.retain r).Present q ↔ s.Present q by cases q <;> exact Iff.rfl, h.present]
      unfold System.refCount
      rw [show (s.retain r).refs = s.refs.retain r from rfl, RefCounts.count_retain]
      split
      · rename_i he
        have := (h.present r).1 hr
        unfold System.refCount at this
        rw [← he]
        omega
      · exact Iff.rfl
    bounded := { h.bounded with } }

/-- One reference less to something that others still refer to. -/
theorem unshared {r : Ref} (h : Accounted s (.release r :: d)) (h1 : 1 < s.refCount r) :
    Accounted { s with refs := s.refs.release r } d :=
  { h with
    balanced := fun q => by
      have hb := h.balanced q
      unfold System.refCount at hb h1 ⊢
      rw [RefCounts.count_release, show System.held { s with refs := s.refs.release r } q = s.held q
        by cases q <;> rfl]
      rw [owed_cons] at hb
      simp only [Task.holds] at hb
      split
      · subst_vars
        rw [if_pos rfl] at hb
        omega
      · rename_i hne
        rw [if_neg hne] at hb
        omega
    -- A second reference is left, so what is there is the same as before: this is where `h1` is
    -- needed, the balance holds without it.
    present := fun q => by
      rw [show System.Present { s with refs := s.refs.release r } q ↔ s.Present q by
        cases q <;> exact Iff.rfl, h.present]
      unfold System.refCount at h1 ⊢
      rw [RefCounts.count_release]
      split
      · rename_i he
        rw [← he]
        omega
      · exact Iff.rfl
    bounded := { h.bounded with } }

/-- A table that closes, or is emptied, passes on what it owned. -/
theorem table_gone {t : TableId} {table : Table} (h : Accounted s (.closeTable t :: d))
    (ht : s.tables[t]? = some table) :
    Accounted { s with tables := s.tables.erase t } (table.owned.values.map .close ++ d) := by
  refine h.congr_owners (System.owners_closeTable ht) (fun r => ?_) fun hu => ?_
  · simp [count_closes_release]
  · exact h.bounded.table ((Store.contains_erase _ _ _).1 hu).2

/-- A table that is emptied owes the closing of all it owned. -/
theorem table_emptied {t : TableId} {table : Table} (h : Accounted s d)
    (ht : s.tables[t]? = some table) :
    Accounted (s.setOwned t ∅) (table.owned.values.map .close ++ d) := by
  refine h.congr_owners (System.owners_emptyTable ht) (fun r => ?_) fun hu => ?_
  · rw [List.count_append, count_closes_release, Nat.zero_add]
  · exact h.bounded.table ((Store.contains_modify s.tables t _ _).symm.trans hu)

end Accounted

theorem Job.Fades.parent_eq {s : System} {K : Koid → Prop} {k : Koid} {a b : Job.Kin}
    (h : Job.Fades s K k a b) : b.parent = a.parent := by
  cases h <;> rfl

/-- A job that keeps its parent changes nothing in the account. -/
theorem alike_modifyJob {s : System} {k : Koid} {j : Job} {f : Job → Job}
    (hj : s.jobs[k]? = some j) (hf : (f j).parent = j.parent) : Alike s (s.modifyJob k f) :=
  { Alike.refl s with
    job := Store.map_modify fun i hi => by
      rw [hj] at hi
      cases hi
      exact hf }

/-- **Declines keep the account in order.** -/
theorem Decline.accounted {K P : Koid → Prop} {w w' : World} (h : Decline K P w w')
    (ha : Accounted w.system w.dues) : Accounted w'.system w'.dues := by
  cases h with
  | inert h => exact h.alike.accounted ha
  | reorder h => exact ha.congr_owed fun r => owed_perm h.symm r
  | share h => exact ha.shared h
  | unshare h => exact ha.unshared h
  | job h hj => exact ha.job_gone h hj
  | process h _ hp => exact ha.process_gone h hp
  | view h _ _ hv => exact ha.view_gone h hv
  | witness h hj hp hv => exact ha.witness_gone h hj hp hv
  | handle h hh => exact ha.handle_gone h hh
  | vmo h ho => exact ha.vmo_gone h ho
  | mapping h => exact ha.mapping_gone h
  | listener h => exact ha.listener_gone h
  | @idle s d r h =>
    -- a due reference counts
    have := ha.balanced r
    dsimp only at this
    rw [h, owed_cons, Task.holds, if_pos rfl] at this
    omega
  | void h hr =>
    rw [ha.present] at hr
    dsimp only at hr
    omega
  | @closed s d h hh =>
    have hp : s.Present (.handle h) := ha.present_of_owed (by simp [Task.holds])
    rw [System.Present, Store.contains_eq_isSome, hh] at hp
    cases hp
  | @close s d h r hh =>
    have halike : Alike s (s.withoutSlot r) := { Alike.refl s with
      object := fun k => by
        rw [System.withoutSlot, Store.getElem?_modify]
        split
        · cases s.objects[k]? <;> rfl
        · rfl
      arena := fun a ha => .inl ((Store.contains_modify s.arenas r.arena _ a).symm.trans ha) }
    refine halike.accounted (ha.congr_owed fun q => ?_)
    simp only [owed_cons, Task.holds]
    split <;> omega
  | shut => exact ha.congr_owed fun r => by simp [Task.holds]
  | closeTable ht => exact ha.table_gone ht
  | emptyTable ht => exact ha.table_emptied ht
  | fades hj hf => exact (alike_modifyJob hj hf.parent_eq).accounted ha
  | @ends s d k p f hp _ hf =>
    have halike : Alike s (s.modifyProcess k f) := { Alike.refl s with
      process := Store.map_modify fun q hq => by
        rw [hp] at hq
        cases hq
        exact congrArg Process.Kin.job hf }
    exact halike.accounted ha

end KernelObjects
