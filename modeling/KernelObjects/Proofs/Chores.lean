import KernelObjects.Proofs.Run

/-
# Chores

Many operations do several things one after the other.  Something is given back, with all that
follows; a process dies and loses its handles; a walk takes references, calls and gives them
back.  A *chore* is the smallest such thing, with what is held before and after it (`Chore`).  An
operation that does nothing else (`Op.DoesChores`) is a run of chores (`World.act_chores`).

So whoever follows such operations looks at one chore at a time, and may assume an account that is
in order (`Chores.keep`).

Chores know the operation that they are part of.  A job is condemned by a chore only if the
operation is a kill, and with the code that it was given (`Warrant`); a slot is emptied only if
the operation resets it.  What an operation may not do on purpose no chore of it does, however far
the consequences reach.
-/

namespace KernelObjects

/-! ## 1. Port slots -/

/-- Empties a slot. -/
def Job.clearSlot (j : Job) (debugger : Bool) : Job :=
  if debugger then { j with debuggerPort := none } else { j with port := none }

namespace System

variable {s : System} {refuses : Allocator} {k : Koid} {b : Bool} {j : Job} {p : PortId}

/-- The state in which a slot is empty and the port that it held was told so. -/
def unslotted (s : System) (k : Koid) (b : Bool) (p : PortId) : System :=
  (s.modifyJob k (·.clearSlot b)).unbindPort p

/-- To empty a slot and to tell the port is inert. -/
theorem inert_unslotted (s : System) (k : Koid) (b : Bool) (p : PortId) :
    Inert s (s.unslotted k b p) := by
  refine (s.inert_modifyJob fun j _ => ?_).trans (inert_unbindPort _ p)
  cases b <;> rfl

/-- The slot is emptied and its port told, and then the walk takes the reports of that port from
each process. -/
theorem resetPort_of_bound (hj : s.jobs[k]? = some j) (hp : j.slot b = some p) :
    s.resetPort refuses k b =
      let r := (s.unslotted k b p).walk refuses k true (dropReportsVisitor p) ()
      (r.1.outcome, r.2.1) := by
  unfold resetPort
  rw [hj]
  dsimp only
  rw [show (if b = true then j.debuggerPort else j.port) = some p from hp]
  rfl

/-- If no port is in the slot, nothing changes. -/
theorem resetPort_of_unbound (h : ∀ j, s.jobs[k]? = some j → j.slot b = none) :
    s.resetPort refuses k b = (.ok false, s) := by
  unfold resetPort
  cases hj : s.jobs[k]? with
  | none => rfl
  | some j =>
    dsimp only
    rw [show (if b = true then j.debuggerPort else j.port) = none from h j hj]

end System

/-! ## 2. Chores

Each chore has its dues before and after it.  That is what makes a run of chores a run of accounts
in order, without a word on how the operation is written. -/

/-- What an operation may do to lives on purpose. -/
structure Warrant where
  /-- The jobs that it may condemn, and the codes that they take. -/
  kills : Koid → Int → Prop := fun _ _ => False
  /-- The processes that it may end, and the codes that they take. -/
  ends : Koid → Int → Prop := fun _ _ => False
  /-- The objects whose signals it may write. -/
  signals : Koid → Prop := fun _ => False

/-- What an operation does to lives on purpose: a kill gives its code, whatever it comes by. -/
def Op.warrant : Op → Warrant
  | killJob _ code _ => { kills := fun _ c => c = code, ends := fun _ c => c = code }
  | killProcess code k => { ends := fun p c => p = k ∧ c = code }
  | enforcePolicy k _ => { ends := fun p c => p = k ∧ c = System.policyKillCode }
  | signal k _ _ => { signals := (· = k) }
  | _ => {}

/-- One chore of an operation. -/
inductive Chore (op : Op) : World → World → Prop
  /-- The dues stand in no order. -/
  | reorder {s : System} {d e : List Task} (h : d.Perm e) : Chore op ⟨s, d⟩ ⟨s, e⟩
  | share {s : System} {d : List Task} {r : Ref} (h : s.Present r) :
      Chore op ⟨s, d⟩ ⟨s.retain r, .release r :: d⟩
  | perform {s : System} {d : List Task} (x : Task) :
      Chore op ⟨s, x :: d⟩ ⟨(s.perform x).1, (s.perform x).2 ++ d⟩
  /-- All handles leave a table. -/
  | emptied {s : System} {d : List Task} {t : TableId} {table : Table}
      (ht : s.tables[t]? = some table) :
      Chore op ⟨s, d⟩ ⟨s.emptied t table, table.owned.values.map .close ++ d⟩
  | ended {s : System} {d : List Task} {k : Koid} {p : Process} {code : Int}
      (hW : op.warrant.ends k code) (hp : s.processes[k]? = some p) (hr : p.state = .running) :
      Chore op ⟨s, d⟩ ⟨s.endProcess code k, d⟩
  | left {s : System} {d : List Task} (k p : Koid) : Chore op ⟨s, d⟩ ⟨s.detachProcess k p, d⟩
  | condemned {s : System} {d : List Task} {k : Koid} {j : Job} {code : Int}
      (hW : op.warrant.kills k code) (hj : s.jobs[k]? = some j) (hr : j.state = .ready) :
      Chore op ⟨s, d⟩ ⟨s.commitKill code k j, d⟩
  /-- An object is told that nobody holds it. -/
  | told {s : System} {d : List Task} (k : Koid) : Chore op ⟨s, d⟩ ⟨s.zeroHandles k, d⟩
  | made {s : System} {d : List Task} {k : Koid} (arena : ArenaId) (rights : Rights)
      (mayGrow : Bool) (hk : s.Present (.object k)) :
      Chore op ⟨s, d⟩
        (World.after ⟨s, d⟩ (s.makeHandle arena k rights mayGrow) fun h => .close h)
  /-- A table takes in a handle, and gives up the one that it owned under the same value. -/
  | adopted {s : System} {d : List Task} {t : TableId} {table : Table} {h : HandleId} {r : Handle}
      (ht : s.tables[t]? = some table) (hh : s.handles[h]? = some r) :
      Chore op ⟨s, .close h :: d⟩
        ⟨(s.setProcess table.process h).setOwned t (table.owned.insert r.base h),
          (table.owned[r.base]?.toList.map .close) ++ d⟩
  | unslotted {s : System} {d : List Task} {refuses : Allocator} {k : Koid} {j : Job} {p : PortId}
      {debugger : Bool} (hop : op = .resetPort refuses k debugger) (hj : s.jobs[k]? = some j)
      (hp : j.slot debugger = some p) : Chore op ⟨s, d⟩ ⟨s.unslotted k debugger p, d⟩
  | dropped {s : System} {d : List Task} (p : PortId) (k : Koid) :
      Chore op ⟨s, d⟩ ⟨s.dropReports p k, d⟩

/-- A run of chores. -/
abbrev Chores (op : Op) : World → World → Prop := Relation.ReflTransGen (Chore op)

variable {op : Op} {v w : World}

theorem Chore.run (h : Chore op v w) : Chores op v w := .single h

/-- **Every chore is a run of moves**, without any liberties. -/
theorem Chore.moves (h : Chore op v w) : Moves False False v w := by
  cases h with
  | reorder h => exact System.reorder_moves _ h
  | share h => exact .single (.inl (.share h))
  | @perform s d x => exact (s.perform_declines (K := fun _ => True) (P := fun _ => True) x d).moves
  | @emptied s d t table ht =>
    exact (System.emptied_declines (K := fun _ => True) (P := fun _ => True) ht d).moves
  | @ended s d k p code _ hp =>
    exact (System.endProcess_declines (K := fun _ => True) (P := fun _ => True) code hp trivial
      d).moves
  | left k p => exact System.detachProcess_moves _ _ _ _
  | @condemned s d k j code _ hj hr =>
    exact (System.commitKill_declines (K := fun _ => True) (P := fun _ => True) hj hr trivial
      d).moves
  | told k => exact Inert.moves (System.inert_zeroHandles _ k) _
  | @made s d k arena rights mayGrow hk =>
    exact (s.makeHandle_stages (L := {}) arena rights mayGrow hk d).moves id id
  | adopted ht hh => exact System.adopt_moves ht hh
  | unslotted => exact Inert.moves (System.inert_unslotted _ _ _ _) _
  | dropped p k => exact Inert.moves ((System.dropReports_edit _ p k).inert (by decide)) _

/-- Accounts are kept by one chore, -/
theorem Chore.accounted (h : Chore op v w) (hacc : Accounted v.system v.dues) :
    Accounted w.system w.dues := h.moves.accounted hacc

/-- and by any number. -/
theorem Chores.accounted (h : Chores op v w) (hacc : Accounted v.system v.dues) :
    Accounted w.system w.dues := by
  induction h with
  | refl => exact hacc
  | tail _ hchore ih => exact hchore.accounted ih

/-- **What every chore keeps in an account that is in order, chores keep.** -/
theorem Chores.keep {I : World → Prop} (h : Chores op v w) (hacc : Accounted v.system v.dues)
    (hI : I v) (hkeep : ∀ {v w : World}, Accounted v.system v.dues → Chore op v w → I v → I w) :
    I w := by
  induction h with
  | refl => exact hI
  | tail hrun hchore ih => exact hkeep (Chores.accounted hrun hacc) hchore ih

/-! ## 3. What is chores

Each part of an operation from which something may follow, taken apart.  Walks are chores if their
visits are. -/

namespace System

variable {s : System} {d : List Task}

/-- **Whatever follows from tasks is chores.** -/
theorem settle_chores (s : System) (ts d : List Task) :
    Chores op ⟨s, ts ++ d⟩ ⟨s.settle ts, d⟩ := by
  fun_induction settle s ts with
  | case1 s => exact .refl
  | case2 s x rest ih =>
    rw [List.append_assoc] at ih
    exact .head (.perform x) ih

theorem release_chores (s : System) (r : Ref) (d : List Task) :
    Chores op ⟨s, .release r :: d⟩ ⟨s.release r, d⟩ := s.settle_chores [.release r] d

/-- To clear a table is to empty it and to close what it owned. -/
theorem tableClear_chores (s : System) (t : TableId) (d : List Task) :
    Chores op ⟨s, d⟩ ⟨(s.tableClear t).2, d⟩ := by
  cases ht : s.tables[t]? with
  | none =>
    rw [tableClear_of_none ht]
  | some table =>
    rw [tableClear_of_some ht]
    exact .head (.emptied ht) (settle_chores _ _ d)

/-- A kill of a process is its end, the clearing of its table and its leave from its job. -/
theorem killProcess_chores (s : System) {code : Int} {k : Koid} (hW : op.warrant.ends k code)
    (d : List Task) : Chores op ⟨s, d⟩ ⟨s.killProcess code k, d⟩ := by
  obtain he | ⟨p, hp, hr, he⟩ := s.killProcess_cases code k
  · rw [he]
  · rw [he]
    have hended : Chore op ⟨s, d⟩ ⟨s.endProcess code k, d⟩ := .ended hW hp hr
    exact .head hended ((tableClear_chores _ p.table d).tail (.left p.job k))

theorem lending_chores (w : World) : World.Lending (Chores op w) where
  reorder h hi := hi.tail (.reorder h)
  share h hi := hi.tail (.share h)
  release hi := hi.trans (release_chores _ _ _)

/-- A kill of a job is made of loans, commits and kills of processes. -/
theorem killJob_chores (s : System) (refuses : Allocator) {code : Int} (k : Koid)
    (hkills : ∀ k, op.warrant.kills k code) (hends : ∀ p, op.warrant.ends p code) (d : List Task) :
    Chores op ⟨s, d⟩ ⟨(s.killJob refuses code k).2, d⟩ :=
  (s.killJob_kills refuses code k).keeps (lending_chores ⟨s, d⟩)
    (fun hj hr hi => hi.tail (.condemned (hkills _) hj hr))
    (fun p hi => hi.trans (killProcess_chores _ (hends p) _)) .refl

/-- A kernel handle is given back when the handle is made, or after its object was told. -/
theorem makeFromKernel_chores {k : Koid} (hk : s.Present (.object k)) (arena : ArenaId)
    (rights : Rights) (d : List Task) :
    Chores op ⟨s, .release (.object k) :: d⟩
      (World.after ⟨s, d⟩ (s.makeFromKernel arena (some k) rights) fun h => .close h) := by
  have hmade : Chore op ⟨s, .release (.object k) :: d⟩ _ := .made arena rights true hk
  unfold makeFromKernel
  dsimp only
  generalize s.makeHandle arena k rights true = r at hmade ⊢
  obtain ⟨e | h, t⟩ := r
  · exact .head hmade (.head (.told k) (release_chores _ _ d))
  · have hswap : (Task.close h :: .release (.object k) :: d).Perm
        (.release (.object k) :: .close h :: d) := List.Perm.swap ..
    exact .head hmade (.head (.reorder hswap) (release_chores _ _ _))

/-- A handle that is put into a table closes the one whose place it takes. -/
theorem tableAdd_chores {t : TableId} {table : Table} {a : HandleId} {r : Handle}
    (ht : s.tables[t]? = some table) (ha : s.handles[a]? = some r) (d : List Task) :
    Chores op ⟨s, .close a :: d⟩ ⟨(s.tableAdd t a).2, d⟩ := by
  have hadopted : Chore op ⟨s, .close a :: d⟩ _ := .adopted ht ha
  rw [tableAdd_eq ht ha]
  cases hold : table.owned[r.base]? with
  | none =>
    rw [hold] at hadopted
    exact hadopted.run
  | some old =>
    rw [hold] at hadopted
    exact .head hadopted (settle_chores _ [.close old] d)

/-- A duplicate is made while the source is held, put into the table, and then the source is given
back. -/
theorem tableDuplicate_chores (hacc : Accounted s d) (t : TableId) (value : Nat) (rights : Rights) :
    Chores op ⟨s, d⟩ ⟨(s.tableDuplicate t value rights).2, d⟩ := by
  unfold tableDuplicate
  cases hg : s.tableGet t value with
  | error e => exact .refl
  | ok a =>
    dsimp only
    obtain ⟨table, ht⟩ := tables_of_tableGet hg
    cases ha : s.handles[a]? with
    | none => exact .refl
    | some r =>
      dsimp only
      cases duplicateRights r.rights rights with
      | error e => exact .refl
      | ok granted =>
        dsimp only
        have hmade : Chore op ⟨s, d⟩ _ :=
          .made r.arena granted true (hacc.present_of_held (held_of_handle ha))
        cases hm : s.makeHandle r.arena r.object granted true with
        | mk result u =>
          rw [hm] at hmade
          cases result with
          | error e => exact hmade.run
          | ok b =>
            obtain ⟨arena, -, -, rfl, rfl⟩ := makeHandle_ok hm
            dsimp only [World.after] at hmade ⊢
            set u := s.withHandle r.arena arena r.object granted
            -- the source is held while the handle that leaves the table is closed
            have hthere : u.Present (.handle a) :=
              (Store.contains_insert _ _ _ _).2 (.inr (Store.contains_iff.2 ⟨r, ha⟩))
            have hswap : (Task.release (.handle a) :: .close s.nextId :: d).Perm
                (.close s.nextId :: .release (.handle a) :: d) := List.Perm.swap ..
            obtain ⟨x, hx⟩ : ∃ x, (u.retain (.handle a)).handles[s.nextId]? = some x :=
              ⟨_, Std.ExtTreeMap.getElem?_insert_self⟩
            have hadded : Chores op _ _ :=
              tableAdd_chores (s := u.retain (.handle a)) ht hx (.release (.handle a) :: d)
            exact .head hmade (.head (.share hthere) (.head (.reorder hswap)
              (hadded.trans (release_chores _ _ d))))

/-- What a policy does on its way is at most to kill the process. -/
theorem enforcePolicy_chores (s : System) {k : Koid} (c : Condition)
    (hW : op.warrant.ends k policyKillCode) (d : List Task) :
    Chores op ⟨s, d⟩ ⟨(s.enforcePolicy k c).2, d⟩ := by
  unfold enforcePolicy
  split
  · exact .refl
  · dsimp only
    split
    · exact killProcess_chores s hW d
    · exact .refl

/-- A walk that drops reports gives back what it held, and else it only touches what waits. -/
theorem walk_dropReports_chores (s : System) (refuses : Allocator) (k : Koid) (p : PortId)
    (d : List Task) :
    Chores op ⟨s, d⟩ ⟨(s.walk refuses k true (dropReportsVisitor p) ()).2.1, d⟩ := by
  have hkeeps : Walk.Keeps (dropReportsVisitor p) fun w _ => Chores op ⟨s, d⟩ w :=
    { lending := fun _ => lending_chores ⟨s, d⟩
      visit := fun x u own e hi => by
        cases x with
        | job k => exact hi
        | process k => exact hi.tail (.dropped p k) }
  exact walk_keeps hkeeps s refuses k true () d .refl

/-- A reset is an emptied slot and a walk that holds the processes which it comes by. -/
theorem resetPort_chores (s : System) (refuses : Allocator) (k : Koid) (debugger : Bool)
    (d : List Task) : Chores (.resetPort refuses k debugger) ⟨s, d⟩
      ⟨(s.resetPort refuses k debugger).2, d⟩ := by
  by_cases h : ∀ j, s.jobs[k]? = some j → j.slot debugger = none
  · rw [resetPort_of_unbound h]
  · simp only [not_forall] at h
    obtain ⟨j, hj, hslot⟩ := h
    obtain ⟨p, hbound⟩ := Option.ne_none_iff_exists'.1 hslot
    rw [resetPort_of_bound hj hbound]
    exact .head (.unslotted rfl hj hbound) (walk_dropReports_chores _ refuses k p d)

end System

/-! ## 4. Operations that are chores

The operations that do nothing but chores, one by one.  For each of them the program is followed
once, and never again. -/

/-- Operations that do nothing but chores. -/
def Op.DoesChores : Op → Prop
  | drop .. | makeFromKernel .. | tableAdd .. | tableDuplicate .. | tableClear .. | killJob ..
  | killProcess .. | enforcePolicy .. | resetPort .. => True
  | _ => False

/-- **Operations that do nothing but chores are runs of them.** -/
theorem World.act_chores {w : World} (hacc : Accounted w.system w.dues) {op : Op}
    (hop : op.DoesChores) : Chores op w (w.act op) := by
  obtain ⟨s, d⟩ := w
  have hacc : Accounted s d := hacc
  -- a due is picked first
  have picked : ∀ {op : Op} {x : Task} {v : World}, x ∈ d →
      Chores op ⟨s, x :: d.erase x⟩ v → Chores op ⟨s, d⟩ v :=
    fun hx h => .head (.reorder (List.perm_cons_erase hx)) h
  cases op with
  | drop t =>
    rw [act]
    split
    · rename_i ht
      exact picked ht (s.settle_chores [t] _)
    · exact .refl
  | makeFromKernel arena kernel rights =>
    cases kernel with
    | none => exact .refl
    | some k =>
      rw [act]
      split
      · rename_i hk
        have hthere : s.Present (.object k) :=
          hacc.present_of_owed (owed_pos hk (by simp [Task.holds]))
        exact picked hk (System.makeFromKernel_chores hthere arena rights _)
      · exact .refl
  | tableAdd t h =>
    rw [act]
    split
    · rename_i ht
      have hthere : s.Present (.handle h) :=
        hacc.present_of_owed (owed_pos ht.1 (by simp [Task.holds]))
      obtain ⟨table, htable⟩ := Store.contains_iff.1 ht.2
      obtain ⟨r, hr⟩ := Store.contains_iff.1 hthere
      exact picked ht.1 (System.tableAdd_chores htable hr _)
    · exact .refl
  | tableDuplicate t value rights => exact System.tableDuplicate_chores hacc t value rights
  | tableClear t => exact s.tableClear_chores t d
  | killJob refuses code k =>
    have hkills : ∀ j, (Op.killJob refuses code k).warrant.kills j code := fun _ => rfl
    have hends : ∀ p, (Op.killJob refuses code k).warrant.ends p code := fun _ => rfl
    exact s.killJob_chores refuses k hkills hends d
  | killProcess code k =>
    have hends : (Op.killProcess code k).warrant.ends k code := ⟨rfl, rfl⟩
    exact s.killProcess_chores hends d
  | enforcePolicy k c =>
    have hends : (Op.enforcePolicy k c).warrant.ends k System.policyKillCode := ⟨rfl, rfl⟩
    exact s.enforcePolicy_chores c hends d
  | resetPort refuses k debugger => exact s.resetPort_chores refuses k debugger d
  | _ => cases hop

end KernelObjects
