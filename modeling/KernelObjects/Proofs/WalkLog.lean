import KernelObjects.Proofs.Walking

/-
# The calls of a walk

A walk calls its visitor once for each child that it comes by.  `Walk.logging` notes every call with
the states before and after it and does otherwise what the visitor does, so a walk with notes ends
like the walk without, in the same state (`System.walk_logging`).  What the theorems on walks say of
calls, they say of these notes.
-/

namespace KernelObjects

/-- One call of a visitor. -/
structure Call where
  visit : Visit
  before : System
  goesOn : Bool
  after : System

namespace Walk

variable {σ : Type}

/-- What a visitor does, and besides a note of every call, in turn. -/
def logging (f : Visitor σ) : Visitor (σ × List Call) := fun v s own =>
  let (goesOn, t, mine) := f v s own.1
  (goesOn, t, mine, own.2 ++ [⟨v, s, goesOn, t⟩])

/-- A walk without its notes. -/
def unlogged (w : Walk (σ × List Call)) : Walk σ := ⟨w.system, w.supply, w.own.1⟩

/-- The answer of a part of a walk, with the notes left out. -/
def unloggedPair {α : Type} (r : α × Walk (σ × List Call)) : α × Walk σ := (r.1, r.2.unlogged)

variable {f : Visitor σ}

/-- A visit is noted at the end. -/
theorem call_of_visit {w v : Walk (σ × List Call)} {a : Visit} {goesOn : Bool}
    (h : w.visit (logging f) a = (goesOn, v)) : ∃ c : Call, c.visit = a ∧ c.goesOn = goesOn ∧
      c.after = v.system ∧ v.supply = w.supply ∧ v.own.2 = w.own.2 ++ [c] := by
  cases h
  exact ⟨_, rfl, rfl, rfl, rfl, rfl⟩

theorem visit_unlogged (w : Walk (σ × List Call)) (v : Visit) :
    w.unlogged.visit f v = unloggedPair (w.visit (logging f) v) := rfl

/-- Notes stay. -/
theorem logging_keeps (l : List Call) : Keeps (logging f) fun _ own => l <+: own.2 where
  lending _ := ⟨fun _ h => h, fun _ h => h, fun h => h⟩
  visit _ _ _ _ h := h.trans (List.prefix_append _ _)

/-- A log is kept of the processes visited, -/
theorem visitProcesses_unlogged (ps : List Koid) (w : Walk (σ × List Call)) :
    visitProcesses f ps w.unlogged = unloggedPair (visitProcesses (logging f) ps w) := by
  induction ps generalizing w with
  | nil => rfl
  | cons p ps ih =>
    rw [visitProcesses, visitProcesses, visit_unlogged]
    generalize w.visit (logging f) (.process p) = r
    obtain ⟨goesOn, v⟩ := r
    cases goesOn with
    | true => exact ih v
    | false => rfl

/-- of a job that is entered, -/
theorem enter_unlogged (w : Walk (σ × List Call)) (k : Koid) :
    w.unlogged.enter f k = unloggedPair (w.enter (logging f) k) := by
  unfold enter
  have hsnap : w.unlogged.system.snapshot w.unlogged.supply k = w.system.snapshot w.supply k := rfl
  rw [hsnap]
  generalize w.system.snapshot w.supply k = r
  obtain ⟨c | c, supply, s⟩ := r
  · rfl
  · have hvisits := visitProcesses_unlogged (f := f) c.processes { w with system := s, supply }
    dsimp only
    unfold unlogged at hvisits ⊢
    dsimp only at hvisits ⊢
    rw [hvisits]
    generalize visitProcesses (logging f) c.processes _ = r
    obtain ⟨goesOn, v⟩ := r
    cases goesOn <;> rfl

/-- What goes below a job does the same with notes and without. -/
def Unlogs (below : List Koid → Koid → Walk σ → WalkEnd × Walk σ)
    (below' : List Koid → Koid → Walk (σ × List Call) → WalkEnd × Walk (σ × List Call)) : Prop :=
  ∀ outer j w, below outer j w.unlogged = unloggedPair (below' outer j w)

theorem unlogs_stay : Unlogs (stay (σ := σ)) stay := fun _ _ _ => rfl

/-- of the jobs of a level -/
theorem visitJobs_unlogged {below : List Koid → Koid → Walk σ → WalkEnd × Walk σ}
    {below' : List Koid → Koid → Walk (σ × List Call) → WalkEnd × Walk (σ × List Call)}
    (hb : Unlogs below below') (outer js : List Koid) (w : Walk (σ × List Call)) :
    visitJobs f below outer js w.unlogged =
      unloggedPair (visitJobs (logging f) below' outer js w) := by
  induction js generalizing w with
  | nil => rfl
  | cons j js ih =>
    rw [visitJobs, visitJobs, visit_unlogged]
    generalize w.visit (logging f) (.job j) = r
    obtain ⟨goesOn, v⟩ := r
    cases goesOn with
    | false => rfl
    | true =>
      dsimp only [unloggedPair]
      rw [hb]
      generalize below' (outer ++ js) j v = r
      obtain ⟨e, u⟩ := r
      cases e with
      | finished => exact ih u
      | stopped => rfl
      | refused => rfl

/-- and of all that is below, and it changes nothing of the walk. -/
theorem unlogs_descend (levels : Nat) : Unlogs (descend f levels) (descend (logging f) levels) := by
  induction levels with
  | zero =>
    intro outer j w
    unfold descend
    rw [enter_unlogged]
    generalize w.enter (logging f) j = r
    obtain ⟨e | jobs, v⟩ := r
    · rfl
    · exact visitJobs_unlogged unlogs_stay outer jobs (v.giveBack [j])
  | succ n ih =>
    intro outer j w
    unfold descend
    rw [enter_unlogged]
    generalize w.enter (logging f) j = r
    obtain ⟨e | jobs, v⟩ := r
    · rfl
    · exact visitJobs_unlogged ih outer jobs (v.giveBack [j])

end Walk

/-- A walk reaches the first level and goes on from there. -/
theorem System.walk_eq {σ : Type} (s : System) (refuses : Allocator) (k : Koid) (deep : Bool)
    (f : Visitor σ) (own : σ) {r : WalkEnd × Walk σ}
    (hr : r = match Walk.enter { system := s, supply := ⟨refuses, []⟩, own } f k with
      | (.error e, v) => (e, v)
      | (.ok jobs, v) => Walk.visitJobs f
          (if deep then Walk.descend f ((s.jobs[k]?.map Job.maxHeight).getD 0) else Walk.stay) []
          jobs v) : s.walk refuses k deep f own = (r.1, r.2.system, r.2.own) := by
  subst hr
  cases hx : Walk.enter { system := s, supply := ⟨refuses, []⟩, own } f k with
  | mk e v => cases e <;> simp only [walk, hx]

/-- **Notes change nothing**: the walk ends in the same way, in the same state. -/
theorem System.walk_logging {σ : Type} (s : System) (refuses : Allocator) (k : Koid) (deep : Bool)
    (f : Visitor σ) (own : σ) (calls : List Call) :
    let r := s.walk refuses k deep (Walk.logging f) (own, calls)
    s.walk refuses k deep f own = (r.1, r.2.1, r.2.2.1) := by
  have henter := Walk.enter_unlogged (f := f)
    { system := s, supply := ⟨refuses, []⟩, own := (own, calls) } k
  unfold walk
  unfold Walk.unlogged at henter
  dsimp only at henter ⊢
  rw [henter]
  generalize Walk.enter _ (Walk.logging f) k = r
  obtain ⟨e | jobs, v⟩ := r
  · rfl
  · have hbelow : Walk.Unlogs
        (if deep then Walk.descend f ((s.jobs[k]?.map Job.maxHeight).getD 0) else Walk.stay)
        (if deep then Walk.descend (Walk.logging f) ((s.jobs[k]?.map Job.maxHeight).getD 0)
          else Walk.stay) := by
      split
      · exact Walk.unlogs_descend _
      · exact Walk.unlogs_stay
    have hjobs := Walk.visitJobs_unlogged (f := f) hbelow [] jobs v
    dsimp only [Walk.unloggedPair]
    rw [hjobs]
    rfl

end KernelObjects
