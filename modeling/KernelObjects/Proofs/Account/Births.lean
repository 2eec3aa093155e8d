import KernelObjects.Proofs.Account.Declines

/-
# Births keep the account in order

An identity that is handed out next is unknown, so nothing holds what is born under it, and its
record takes a reference to whatever it names.  With declines that makes every run of moves keep
the account.

Three things are to be shown of each birth: that the new record takes up as many references as its
creator took, that nothing under the number was held before, and that the number is below the next
one from now on.  The second is where the bounds of the account are used: a number that nothing
has carries no record, and so a reference to it cannot be held or due.
-/

namespace KernelObjects

/-! ## 1. What is new

A new record has a number that nothing refers to, so the only change of the balance is at that
number and at what the record refers to. -/

/-- The next identity may be passed over. -/
theorem System.Bounded.succ_id {s : System} (h : s.Bounded) :
    System.Bounded { s with nextId := s.nextId + 1 } where
  object := h.object
  vmo := h.vmo
  family := h.family
  handle hh := Nat.lt_succ_of_lt (h.handle hh)
  mapping hm := Nat.lt_succ_of_lt (h.mapping hm)
  listener ho := Nat.lt_succ_of_lt (h.listener ho)
  table ht := Nat.lt_succ_of_lt (h.table ht)
  arena ha := Nat.lt_succ_of_lt (h.arena ha)
  nextId_pos := Nat.succ_pos _

namespace Accounted

variable {s : System} {d : List Task}

/-- Nothing is known of the next object. -/
theorem fresh_object (h : Accounted s d) :
    s.objects[s.nextKoid]? = none ∧ s.jobs[s.nextKoid]? = none ∧
      s.processes[s.nextKoid]? = none ∧ s.views[s.nextKoid]? = none ∧
      s.witnesses[s.nextKoid]? = none := by
  have hobj : s.objects[s.nextKoid]? = none := by
    rw [← Store.contains_eq_false_iff, Bool.eq_false_iff]
    exact fun hc => Nat.lt_irrefl _ (h.bounded.object hc)
  have hk := h.kind s.nextKoid
  rw [Store.has_of_none hobj] at hk
  refine ⟨hobj, ?_, ?_, ?_, ?_⟩ <;> rw [← Store.has_eq_zero_iff] <;> omega

/-- The next koid names nothing, -/
theorem not_present_object (h : Accounted s d) : ¬ s.Present (.object s.nextKoid) := by
  obtain ⟨-, hj, hp, hv, hw⟩ := h.fresh_object
  rw [present_object_iff, Store.has_of_none hj, Store.has_of_none hp, Store.has_of_none hv,
    Store.has_of_none hw]
  exact Nat.lt_irrefl 0

/-- and what is not there has no references. -/
theorem refCount_of_not_present (h : Accounted s d) {r : Ref} (hr : ¬ s.Present r) :
    s.refCount r = 0 := by
  rw [h.present] at hr
  omega

/-- The sums after something new came with its first references, which are due, and with a record
that refers to at most one other thing. -/
theorem balanced_born {t : System} (h : Accounted s d) (new : List Task)
    (hcount : ∀ q, t.refCount q + s.held q = s.refCount q + t.held q + owed new q) (q : Ref) :
    t.refCount q = t.held q + owed (new ++ d) q := by
  have hb := h.balanced q
  have hq := hcount q
  rw [owed_append]
  omega

/-- A new object of whatever kind, which may refer to one other thing. -/
theorem object_born (h : Accounted s d) (jobs : Store Job) (processes : Store Process)
    (views : Store View) (witnesses : Store Witness) (signals : Signals) (x : Option Ref)
    (hkind : ∀ a : Nat, jobs.has a + processes.has a + views.has a + witnesses.has a =
      if s.nextKoid = a then 1
      else s.jobs.has a + s.processes.has a + s.views.has a + s.witnesses.has a)
    (hx : ∀ r, x = some r → s.Present r)
    (hheld : ∀ q, System.held { s with jobs, processes, views, witnesses } q =
      s.held q + x.elim 0 fun r => if r = q then 1 else 0)
    (hparent : ∀ {k p : Nat} {j : Job}, jobs[k]? = some j → j.parent = some p → jobs.contains p)
    (hjob : ∀ {k : Nat} {p : Process}, processes[k]? = some p → jobs.contains p.job) :
    Accounted { s with
      nextKoid := s.nextKoid + 1
      objects := s.objects.insert s.nextKoid { signals }
      jobs, processes, views, witnesses
      refs := x.elim (s.refs.retain (.object s.nextKoid)) fun r =>
        (s.refs.retain (.object s.nextKoid)).retain r }
      (.release (.object s.nextKoid) :: d) := by
  have hzero := h.refCount_of_not_present h.not_present_object
  have hcount : ∀ q, (x.elim (s.refs.retain (.object s.nextKoid)) fun r =>
      (s.refs.retain (.object s.nextKoid)).retain r).count q =
      s.refCount q + (if Ref.object s.nextKoid = q then 1 else 0) +
        x.elim 0 fun r => if r = q then 1 else 0 := by
    intro q
    cases x with
    | none =>
      dsimp only [Option.elim]
      rw [RefCounts.count_retain]
      unfold System.refCount
      split <;> omega
    | some r =>
      dsimp only [Option.elim]
      rw [RefCounts.count_retain, RefCounts.count_retain]
      unfold System.refCount
      split <;> split <;> omega
  constructor
  case balanced =>
    refine h.balanced_born [.release (.object s.nextKoid)] fun q => ?_
    have hq := hheld q
    rw [show System.held { s with jobs, processes, views, witnesses } q = System.held { s with
      nextKoid := s.nextKoid + 1
      objects := s.objects.insert s.nextKoid { signals }
      jobs, processes, views, witnesses
      refs := x.elim (s.refs.retain (.object s.nextKoid)) fun r =>
        (s.refs.retain (.object s.nextKoid)).retain r } q by cases q <;> rfl] at hq
    have hc := hcount q
    simp only [System.refCount, owed_cons, owed_nil, Task.holds] at hc hq ⊢
    omega
  case present =>
    intro q
    have hc := hcount q
    -- what the record refers to is there already
    have hxq : 0 < (x.elim 0 fun r => if r = q then 1 else 0) → 0 < s.refCount q := by
      cases x with
      | none => exact fun h0 => absurd h0 (Nat.lt_irrefl 0)
      | some r =>
        dsimp only [Option.elim]
        split
        · rename_i he
          exact fun _ => (h.present q).1 (he ▸ hx r rfl)
        · exact fun h0 => absurd h0 (Nat.lt_irrefl 0)
    have hsame : Ref.object s.nextKoid ≠ q → (s.Present q ↔
        0 < (x.elim (s.refs.retain (.object s.nextKoid)) fun r =>
          (s.refs.retain (.object s.nextKoid)).retain r).count q) := by
      intro hne
      rw [hc, if_neg hne, h.present]
      omega
    unfold System.refCount
    dsimp only
    cases q with
    | object a =>
      rw [present_object_iff]
      dsimp only
      rw [hkind]
      by_cases ha : s.nextKoid = a
      · rw [if_pos ha, hc, if_pos (congrArg Ref.object ha)]
        omega
      · rw [if_neg ha, ← present_object_iff]
        exact hsame fun he => ha (Ref.object.inj he)
    | handle b => exact hsame (by simp)
    | vmo b => exact hsame (by simp)
    | mapping b => exact hsame (by simp)
    | listener b => exact hsame (by simp)
  case kind =>
    intro a
    dsimp only
    rw [Store.has_insert, hkind]
    split
    · rfl
    · exact h.kind a
  case parent => exact hparent
  case job => exact hjob
  case bounded =>
    exact { h.bounded with
      object := fun {a} ha => by
        rcases (Store.contains_insert _ _ _ _).1 ha with ha | ha
        · exact Nat.lt_succ_of_le (Nat.le_of_eq ha.symm)
        · exact Nat.lt_succ_of_lt (h.bounded.object ha) }

/-- A child job takes a reference to its parent: one more reference and one more holder. -/
theorem job_born (h : Accounted s d) (signals : Signals) (job : Job)
    (hp : ∀ p, job.parent = some p → s.jobs.contains p) :
    Accounted (s.withJob signals job) (.release (.object s.nextKoid) :: d) := by
  -- the new job is one object more, and may hold one other thing, its parent
  obtain ⟨-, hj, -, -, -⟩ := h.fresh_object
  have hborn := h.object_born (s.jobs.insert s.nextKoid job) s.processes s.views s.witnesses
    signals (job.parent.map Ref.object) ?_ ?_ ?_ ?_ ?_
  · unfold System.withJob
    cases hq : job.parent with
    | none => rw [hq] at hborn; exact hborn
    | some p => rw [hq] at hborn; exact hborn
  · intro a
    have hk := h.kind s.nextKoid
    rw [Store.has_of_none h.fresh_object.1] at hk
    rw [Store.has_insert]
    split
    · subst_vars
      omega
    · rfl
  · intro r hr
    obtain ⟨p, hq, rfl⟩ := Option.map_eq_some_iff.1 hr
    exact .inl (hp p hq)
  · intro q
    cases q with
    | object a =>
      dsimp only [System.held]
      rw [Store.weight_insert hj]
      cases job.parent <;> simp; omega
    | _ => cases job.parent <;> simp [System.held, System.owned]
  · intro k p j hk hq
    rw [Store.getElem?_insert] at hk
    refine (Store.contains_insert _ _ _ _).2 (.inr ?_)
    split at hk
    · cases hk
      exact hp p hq
    · exact h.parent hk hq
  · exact fun hq => (Store.contains_insert _ _ _ _).2 (.inr (h.job hq))

/-- The same of a process and its job; its table is new and owns nothing. -/
theorem process_born {signals : Signals} {process : Process} (h : Accounted s d)
    (hj : s.jobs.contains process.job) :
    Accounted (s.withProcess signals process) (.release (.object s.nextKoid) :: d) := by
  obtain ⟨-, -, hp, -, -⟩ := h.fresh_object
  -- The new record refers to its job and to nothing else: its table was entered before and owns
  -- nothing.
  refine h.object_born s.jobs (s.processes.insert s.nextKoid process) s.views s.witnesses
    signals (some (.object process.job)) ?_ ?_ ?_ h.parent ?_
  · intro a
    have hk := h.kind s.nextKoid
    rw [Store.has_of_none h.fresh_object.1] at hk
    rw [Store.has_insert]
    split
    · subst_vars
      omega
    · rfl
  · rintro r ⟨⟩
    exact .inl hj
  · intro q
    cases q with
    | object a =>
      dsimp only [System.held]
      rw [Store.weight_insert hp]
      simp only [Option.elim, Ref.object.injEq]
      omega
    | _ => simp [System.held, System.owned]
  · intro k p hk
    rw [Store.getElem?_insert] at hk
    split at hk
    · cases hk
      exact hj
    · exact h.job hk

/-- The same of a view and its VM object. -/
theorem view_born {signals : Signals} {view : View} (h : Accounted s d)
    (hv : s.vmos.contains view.vmo) :
    Accounted (s.withView signals view) (.release (.object s.nextKoid) :: d) := by
  obtain ⟨-, -, -, hw, -⟩ := h.fresh_object
  refine h.object_born s.jobs s.processes (s.views.insert s.nextKoid view) s.witnesses
    signals (some (.vmo view.vmo)) ?_ ?_ ?_ h.parent h.job
  · intro a
    have hk := h.kind s.nextKoid
    rw [Store.has_of_none h.fresh_object.1] at hk
    rw [Store.has_insert]
    split
    · subst_vars
      omega
    · rfl
  · rintro r ⟨⟩
    exact hv
  · intro q
    cases q with
    | vmo a =>
      dsimp only [System.held]
      rw [Store.weight_insert hw]
      simp only [Option.elim, Ref.vmo.injEq]
      omega
    | _ => simp [System.held, System.owned]

/-- A witness refers to nobody. -/
theorem witness_born {signals : Signals} {witness : Witness} (h : Accounted s d) :
    Accounted (s.withWitness signals witness) (.release (.object s.nextKoid) :: d) := by
  refine h.object_born s.jobs s.processes s.views (s.witnesses.insert s.nextKoid witness)
    signals none ?_ (by simp) ?_ h.parent h.job
  · intro a
    have hk := h.kind s.nextKoid
    rw [Store.has_of_none h.fresh_object.1] at hk
    rw [Store.has_insert]
    split
    · subst_vars
      omega
    · rfl
  · intro q
    cases q <;> rfl

/-- Something new is there exactly if its count says so, and so is everything else. -/
theorem present_born {t : System} {r : Ref} (h : Accounted s d)
    (hp : ∀ q, t.Present q ↔ r = q ∨ s.Present q) (hr : 0 < t.refCount r)
    (hq : ∀ q, r ≠ q → (0 < t.refCount q ↔ 0 < s.refCount q)) (q : Ref) :
    t.Present q ↔ 0 < t.refCount q := by
  rw [hp]
  by_cases he : r = q
  · subst he
    exact ⟨fun _ => hr, fun _ => .inl rfl⟩
  · rw [hq q he, ← h.present q]
    exact ⟨fun hs => hs.resolve_left he, .inr⟩

/-- The next id is that of no VM object. -/
theorem vmos_fresh (h : Accounted s d) : s.vmos[s.nextVmo]? = none := by
  rw [← Store.contains_eq_false_iff, Bool.eq_false_iff]
  exact fun hc => Nat.lt_irrefl _ (h.bounded.vmo hc)

/-- The founder of a family refers to nobody. -/
theorem vmo_born {vmo : Vmo} {member : Member} (h : Accounted s d) (hp : vmo.parent = none) :
    Accounted (s.withVmo vmo member) (.release (.vmo s.nextVmo) :: d) := by
  have hfresh := h.vmos_fresh
  have hcount : ∀ q, (s.withVmo vmo member).refCount q =
      if Ref.vmo s.nextVmo = q then s.refCount q + 1 else s.refCount q :=
    fun q => RefCounts.count_retain s.refs _ q
  exact { h with
    balanced := h.balanced_born [.release (.vmo s.nextVmo)] fun q => by
      rw [hcount]
      -- Only the new object gets a reference, and with no parent it refers to nobody; so its own
      -- due is all that has to balance.
      cases q with
      | vmo v =>
        have := Store.weight_insert hfresh
          (fun _ o => if o.parent = some v then 1 else 0) vmo
        rw [if_neg (by simp [hp])] at this
        simp only [System.held, System.withVmo, owed_cons, owed_nil, Task.holds]
        split <;> omega
      | _ => simp [System.held, System.owned, System.withVmo, Task.holds]
    present := h.present_born (r := .vmo s.nextVmo) (fun q => by
        cases q with
        | vmo v => simp [System.Present, System.withVmo]
        | _ => exact ⟨.inr, fun hs => hs.resolve_left (by simp)⟩)
      (by rw [hcount, if_pos rfl]; omega) fun q hq => by rw [hcount, if_neg hq]
    bounded := { h.bounded with
      vmo := fun {v} hv => by
        rcases (Store.contains_insert _ _ _ _).1 hv with hv | hv
        · exact Nat.lt_succ_of_le (Nat.le_of_eq hv.symm)
        · exact Nat.lt_succ_of_lt (h.bounded.vmo hv)
      family := fun {f} hf => by
        rcases (Store.contains_insert _ _ _ _).1 hf with hf | hf
        · exact Nat.lt_succ_of_le (Nat.le_of_eq hf.symm)
        · exact Nat.lt_succ_of_lt (h.bounded.family hf) } }

/-- A clone takes a reference to its original. -/
theorem clone_born {v : VmoId} {vmo : Vmo} {member : Member} (h : Accounted s d)
    (hv : s.vmos.contains v) (hp : vmo.parent = some v) :
    Accounted (s.withClone v vmo member) (.release (.vmo s.nextVmo) :: d) := by
  have hfresh := h.vmos_fresh
  have hne : v ≠ s.nextVmo := Nat.ne_of_lt (h.bounded.vmo hv)
  have hcount : ∀ q, (s.withClone v vmo member).refCount q = s.refCount q +
      (if Ref.vmo v = q then 1 else 0) + if Ref.vmo s.nextVmo = q then 1 else 0 := by
    intro q
    show ((s.refs.retain _).retain _).count q = s.refs.count q + _ + _
    rw [RefCounts.count_retain, RefCounts.count_retain]
    split <;> split <;> omega
  -- the clone is a new VM object with one reference, and its original has one more holder
  exact { h with
    balanced := h.balanced_born [.release (.vmo s.nextVmo)] fun q => by
      rw [hcount]
      cases q with
      | vmo c =>
        have := Store.weight_insert hfresh
          (fun _ o => if o.parent = some c then 1 else 0) vmo
        simp only [hp, Option.some.injEq] at this
        simp only [System.held, System.withClone, owed_cons, owed_nil, Task.holds, Ref.vmo.injEq]
        omega
      | _ => simp [System.held, System.owned, System.withClone, Task.holds]
    present := h.present_born (r := .vmo s.nextVmo) (fun q => by
        cases q with
        | vmo c => simp [System.Present, System.withClone]
        | _ => exact ⟨.inr, fun hs => hs.resolve_left (by simp)⟩)
      (by rw [hcount, if_pos rfl]; omega) fun q hq => by
        rw [hcount, if_neg hq]
        have := (h.present (.vmo v)).1 hv
        split
        -- the original may be anything but the clone itself, so its own count only grows
        · rename_i he
          rw [← he]
          omega
        · exact Iff.rfl
    bounded := { h.bounded with
      vmo := fun {c} hc => by
        rcases (Store.contains_insert _ _ _ _).1 hc with hc | hc
        · exact Nat.lt_succ_of_le (Nat.le_of_eq hc.symm)
        · exact Nat.lt_succ_of_lt (h.bounded.vmo hc)
      family := fun {f} hf => Nat.lt_succ_of_lt
        (h.bounded.family ((Store.contains_modify _ _ _ f).symm.trans
          ((Store.contains_modify _ _ _ f).symm.trans hf))) } }

/-- A mapping refers to nobody: it names its VM object by number. -/
theorem mapping_born {m : Mapping} (h : Accounted s d) :
    Accounted { s with
      nextId := s.nextId + 1
      mappings := s.mappings.insert s.nextId m
      refs := s.refs.retain (.mapping s.nextId) } (.release (.mapping s.nextId) :: d) := by
  have hcount : ∀ q, (s.refs.retain (.mapping s.nextId)).count q =
      if Ref.mapping s.nextId = q then s.refCount q + 1 else s.refCount q :=
    fun q => RefCounts.count_retain s.refs _ q
  exact { h with
    -- No record holds a mapping, so both sides of the balance are the same sums as before but for
    -- the due of the creator.
    balanced := h.balanced_born [.release (.mapping s.nextId)] fun q => by
      unfold System.refCount at hcount ⊢
      rw [hcount]
      cases q <;> simp [System.held, System.owned, Task.holds]
      split <;> omega
    present := h.present_born (r := .mapping s.nextId) (fun q => by
        cases q with
        | mapping n => simp [System.Present]
        | _ => exact ⟨.inr, fun hs => hs.resolve_left (by simp)⟩)
      (by unfold System.refCount; rw [hcount, if_pos rfl]; omega) fun q hq => by
        unfold System.refCount
        rw [hcount, if_neg hq]
        exact Iff.rfl
    bounded := { h.bounded.succ_id with
      mapping := fun {n} hn => by
        rcases (Store.contains_insert _ _ _ _).1 hn with hn | hn
        · exact Nat.lt_succ_of_le (Nat.le_of_eq hn.symm)
        · exact Nat.lt_succ_of_lt (h.bounded.mapping hn) } }

/-- A listener refers to nobody, and its creator holds the one reference to it. -/
theorem listener_born {label : String} (h : Accounted s d) :
    Accounted { s with
      nextId := s.nextId + 1
      listeners := s.listeners.insert s.nextId label
      refs := s.refs.retain (.listener s.nextId) } (.release (.listener s.nextId) :: d) := by
  have hcount : ∀ q, (s.refs.retain (.listener s.nextId)).count q =
      if Ref.listener s.nextId = q then s.refCount q + 1 else s.refCount q :=
    fun q => RefCounts.count_retain s.refs _ q
  exact { h with
    -- As for a mapping: who listens is named by number, and that is no reference.
    balanced := h.balanced_born [.release (.listener s.nextId)] fun q => by
      unfold System.refCount at hcount ⊢
      rw [hcount]
      cases q <;> simp [System.held, System.owned, Task.holds]
      split <;> omega
    present := h.present_born (r := .listener s.nextId) (fun q => by
        cases q with
        | listener n => simp [System.Present]
        | _ => exact ⟨.inr, fun hs => hs.resolve_left (by simp)⟩)
      (by unfold System.refCount; rw [hcount, if_pos rfl]; omega) fun q hq => by
        unfold System.refCount
        rw [hcount, if_neg hq]
        exact Iff.rfl
    bounded := { h.bounded.succ_id with
      listener := fun {n} hn => by
        rcases (Store.contains_insert _ _ _ _).1 hn with hn | hn
        · exact Nat.lt_succ_of_le (Nat.le_of_eq hn.symm)
        · exact Nat.lt_succ_of_lt (h.bounded.listener hn) } }

/-- A new table owns nothing. -/
theorem table_born {process : Nat} {arena : ArenaId} (h : Accounted s d) :
    Accounted { s with
      nextId := s.nextId + 1
      tables := s.tables.insert s.nextId { process, arena } } d := by
  have hfresh : s.tables[s.nextId]? = none := by
    rw [← Store.contains_eq_false_iff, Bool.eq_false_iff]
    exact fun hc => Nat.lt_irrefl _ (h.bounded.table hc)
  have hs : Accounted { s with nextId := s.nextId + 1 } d :=
    { h with bounded := h.bounded.succ_id }
  refine hs.congr_owners (fun a => ?_) (fun _ => rfl) fun {u} hu => ?_
  · exact congrArg (· + d.count (.close a)) (System.owned_openTable hfresh process arena a)
  · rcases (Store.contains_insert _ _ _ _).1 hu with hu | hu
    · exact Nat.lt_succ_of_le (Nat.le_of_eq hu.symm)
    · exact Nat.lt_succ_of_lt (h.bounded.table hu)

/-- The next identity is that of no handle. -/
theorem handles_fresh (h : Accounted s d) : s.handles[s.nextId]? = none := by
  rw [← Store.contains_eq_false_iff, Bool.eq_false_iff]
  exact fun hc => Nat.lt_irrefl _ (h.bounded.handle hc)

/-- A handle has two references, that of its slot and that of its owner, to whom it is due; and it
takes one to its object. -/
theorem handle_born {a : ArenaId} {arena : Arena} {k : Koid} {rights : Rights}
    (h : Accounted s d) (ha : s.arenas[a]? = some arena) (hk : s.Present (.object k)) :
    Accounted (s.withHandle a arena k rights) (.close s.nextId :: d) := by
  have hfresh := h.handles_fresh
  have hcount : ∀ q, (s.withHandle a arena k rights).refCount q = s.refCount q +
      (if Ref.object k = q then 1 else 0) + if Ref.handle s.nextId = q then 2 else 0 := by
    intro q
    show (((s.refs.retain _).retain _).retain _).count q = s.refs.count q + _ + _
    rw [RefCounts.count_retain, RefCounts.count_retain, RefCounts.count_retain]
    split <;> split <;> omega
  have hobject : ∀ c : Nat, (s.withHandle a arena k rights).objects[c]?.map (fun _ => ()) =
      s.objects[c]?.map fun _ => () :=
    Store.map_modify fun _ _ => rfl
  -- the slot and the creator hold the handle, and the handle holds its object
  constructor
  case balanced =>
    refine h.balanced_born [.close s.nextId] fun q => ?_
    rw [hcount]
    cases q with
    | object c =>
      have := Store.weight_insert hfresh (fun _ r => if r.object = c then 1 else 0)
        { base := (arena.insert s.nextId).1, object := k, rights, arena := a }
      simp only [System.held, System.withHandle, owed_cons, owed_nil, Task.holds,
        Ref.object.injEq] at this ⊢
      omega
    | handle b =>
      rw [if_neg (by simp)]
      simp only [System.held, System.owned, System.withHandle, owed_cons, owed_nil, Task.holds]
      omega
    | _ => simp [System.held, System.withHandle, Task.holds]
  case present =>
    refine h.present_born (r := .handle s.nextId) (fun q => ?_)
      (by rw [hcount, if_pos rfl]; omega) fun q hq => ?_
    · cases q with
      | handle b => simp [System.Present, System.withHandle]
      | _ => exact ⟨.inr, fun hs => hs.resolve_left (by simp)⟩
    · rw [hcount, if_neg hq]
      have := (h.present (.object k)).1 hk
      split
      · rename_i he
        rw [← he]
        omega
      · exact Iff.rfl
  case kind =>
    intro c
    rw [Store.has_of_map (hobject c)]
    exact h.kind c
  case parent => exact h.parent
  case job => exact h.job
  case bounded =>
    exact { h.bounded.succ_id with
      object := fun {c} hc => by
        rw [Store.contains_of_map (hobject c)] at hc
        exact h.bounded.object hc
      handle := fun {b} hb => by
        rcases (Store.contains_insert _ _ _ _).1 hb with hb | hb
        · exact Nat.lt_succ_of_le (Nat.le_of_eq hb.symm)
        · exact Nat.lt_succ_of_lt (h.bounded.handle hb)
      -- the arena is written under a number that it has, which is not the new one
      arena := fun {b} hb => by
        rcases (Store.contains_insert _ _ _ _).1 hb with hb | hb
        · have := h.bounded.arena (Store.contains_iff.2 ⟨arena, ha⟩)
          exact Nat.lt_succ_of_lt (hb ▸ this)
        · exact Nat.lt_succ_of_lt (h.bounded.arena hb) }

/-- A table takes over a handle; the one that stood under the same number falls due. -/
theorem table_adopts {t : TableId} {table : Table} {a : HandleId} {base : Nat}
    (h : Accounted s (.close a :: d)) (ht : s.tables[t]? = some table) :
    Accounted (s.setOwned t (table.owned.insert base a))
      ((table.owned[base]?.toList.map .close) ++ d) := by
  refine h.congr_owners (System.owners_adopt ht base a) (fun r => ?_) fun hu => ?_
  · simp [count_closes_release]
  · exact h.bounded.table ((Store.contains_modify s.tables t _ _).symm.trans hu)

/-- A handle that leaves a table changes its owner. -/
theorem table_expels {t : TableId} {table : Table} {a : HandleId} {base : Nat}
    (h : Accounted s d) (ht : s.tables[t]? = some table) (ha : table.owned[base]? = some a) :
    Accounted (s.setOwned t (table.owned.erase base)) (.close a :: d) := by
  refine h.congr_owners (System.owners_expel ht ha) (fun r => ?_) fun hu => ?_
  · simp
  · exact h.bounded.table ((Store.contains_modify s.tables t _ _).symm.trans hu)

end Accounted

/-- **Births keep the account in order.** -/
theorem Birth.accounted {A C : Prop} {w w' : World} (h : Birth A C w w')
    (ha : Accounted w.system w.dues) : Accounted w'.system w'.dues := by
  cases h with
  | job _ _ _ hp =>
    refine ha.job_born _ _ fun p hq => ?_
    obtain ⟨q, hj, -⟩ := hp p hq
    exact Store.contains_iff.2 ⟨q, hj⟩
  | @child s d signals job p q f _ _ _ hp hj _ _ hf =>
    have hborn := ha.job_born signals job fun a hq => by
      rw [hp] at hq
      cases hq
      exact Store.contains_iff.2 ⟨q, hj⟩
    -- the parent is there, and the next number is of nothing that is there
    have hne : s.nextKoid ≠ p := by
      rintro rfl
      rw [ha.fresh_object.2.1] at hj
      cases hj
    refine (alike_modifyJob ?_ (congrArg Job.Kin.parent hf)).accounted hborn
    rw [System.withJob, Store.getElem?_insert, if_neg hne]
    exact hj
  | process hj => exact ha.process_born hj
  | list hj _ _ hf => exact (alike_modifyJob hj (congrArg Job.Kin.parent hf)).accounted ha
  | unlist hj hf => exact (alike_modifyJob hj (congrArg Job.Kin.parent hf)).accounted ha
  | view hv => exact ha.view_born hv
  | witness => exact ha.witness_born
  | vmo hp => exact ha.vmo_born hp
  | clone ho hp => exact ha.clone_born (Store.contains_iff.2 ⟨_, ho⟩) hp
  | mapping => exact ha.mapping_born
  | listener => exact ha.listener_born
  | @arena s d a _ hlt capacity =>
    have halike : Alike s { s with arenas := s.arenas.insert a (Arena.ofCapacity capacity) } :=
      { Alike.refl s with
        arena := fun b hb => by
          rcases (Store.contains_insert _ _ _ _).1 hb with hb | hb
          · exact .inr (hb ▸ hlt)
          · exact .inl hb }
    exact halike.accounted ha
  | table hd =>
    rcases hd with rfl | rfl
    · exact ha.table_born
    · exact ha.table_born.congr_owed fun r => by simp [Task.holds]
  | handle h _ hk => exact ha.handle_born h hk
  | adopt ht _ => exact ha.table_adopts ht
  | expel ht hh => exact ha.table_expels ht hh
  | @resize s d f v g size _ _ =>
    have halike : Alike s (s.modifyMember f v g) := { Alike.refl s with
      family := fun a h => (Store.contains_modify _ _ _ a).symm.trans h }
    exact halike.accounted ha
  | @rewire s d f v g _ =>
    have halike : Alike s (s.modifyMember f v g) := { Alike.refl s with
      family := fun a h => (Store.contains_modify _ _ _ a).symm.trans h }
    exact halike.accounted ha

/-- **Every run of moves keeps the account in order.** -/
theorem Moves.accounted {A C : Prop} {w w' : World} (h : Moves A C w w')
    (ha : Accounted w.system w.dues) : Accounted w'.system w'.dues := by
  induction h with
  | refl => exact ha
  | tail _ hstep ih =>
    rcases hstep with hstep | hstep
    · exact hstep.accounted ih
    · exact hstep.accounted ih

/-- Before anything happened there is nothing to account for. -/
theorem accounted_initial : Accounted .initial [] where
  balanced r := by cases r <;> rfl
  present r := by
    cases r <;> simp [System.Present, System.initial, System.refCount, RefCounts.count]
  kind k := by simp [System.initial, Store.has]
  parent := by
    intro k p j hj
    simp [System.initial] at hj
  job := by
    intro k p hp
    simp [System.initial] at hp
  bounded := by
    constructor
    case nextId_pos => exact Nat.one_pos
    all_goals intro k hk; simp [System.initial] at hk

end KernelObjects
