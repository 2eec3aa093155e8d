import Mathlib
import KernelObjects.Proofs.Onward
import KernelObjects.Proofs.Preorder

/-
# The levels of a walk

A walk keeps the children that it still has to visit on a stack of levels, and its visitor may do
whatever a client can do.  Without the bound on its depth the walk is a loop over this stack
(`Walk.Loops`), and it might go on for ever: a visitor may keep adding jobs below the one that was
just visited.

**Why it ends.**  A job keeps its height as long as it is there, its child jobs have one
generation less below them, and a job without generations below it lists no job.  So the loop
comes to an end, whatever guided visitors do, and the bound never cuts it short
(`System.walk_takes`).

The height is given to a job at its birth and is one less than that of its parent, so it bounds
the depth of whatever may ever be below the job, and not only of what is there now.  That is why
it serves as a measure while the tree changes, and why the number of jobs would not.

The walk and the loop are compared from the inside out.  A part of the walk, at some level and
with some levels outside of it, does what the loop does first (`Heads`); two parts that follow
each other make one part, and a part that ends the walk ends the loop.
-/

namespace KernelObjects

/-! ## 1. The loop

The walk as a loop over a stack of levels, with no bound on its depth: one rule for each thing
that may happen next. -/

namespace Walk

variable {σ : Type}

/-- What levels still hold, the innermost first: it is given back from the outermost one on. -/
def rest (levels : List (List Koid)) : List Koid := levels.reverse.flatten

theorem rest_cons (js : List Koid) (levels : List (List Koid)) :
    rest (js :: levels) = rest levels ++ js := by
  unfold rest
  rw [List.reverse_cons, List.flatten_append, List.flatten_singleton]

/-- **The loop of a walk**, over the jobs that its levels still have to visit, the innermost level
first, for as long as it takes.  A job is visited and, if the walk is deep, its own level becomes
the innermost one. -/
inductive Loops (f : Visitor σ) (deep : Bool) :
    List (List Koid) → Walk σ → WalkEnd → Walk σ → Prop
  | done {w : Walk σ} : Loops f deep [] w .finished w
  | pop {levels : List (List Koid)} {w w' : Walk σ} {e : WalkEnd}
      (further : Loops f deep levels w e w') : Loops f deep ([] :: levels) w e w'
  | stop {j : Koid} {js : List Koid} {levels : List (List Koid)} {w v : Walk σ}
      (hv : w.visit f (.job j) = (false, v)) :
      Loops f deep ((j :: js) :: levels) w .stopped (v.giveBack (j :: rest (js :: levels)))
  | stay {j : Koid} {js : List Koid} {levels : List (List Koid)} {w v w' : Walk σ} {e : WalkEnd}
      (hd : deep = false) (hv : w.visit f (.job j) = (true, v))
      (further : Loops f deep (js :: levels) (v.giveBack [j]) e w') :
      Loops f deep ((j :: js) :: levels) w e w'
  | fail {j : Koid} {js : List Koid} {levels : List (List Koid)} {w v u : Walk σ} {e : WalkEnd}
      (hd : deep = true) (hv : w.visit f (.job j) = (true, v)) (hu : v.enter f j = (.error e, u)) :
      Loops f deep ((j :: js) :: levels) w e (u.giveBack (j :: rest (js :: levels)))
  | push {j : Koid} {js jobs : List Koid} {levels : List (List Koid)} {w v u w' : Walk σ}
      {e : WalkEnd} (hd : deep = true) (hv : w.visit f (.job j) = (true, v))
      (hu : v.enter f j = (.ok jobs, u))
      (further : Loops f deep (jobs :: js :: levels) (u.giveBack [j]) e w') :
      Loops f deep ((j :: js) :: levels) w e w'

/-- What a part of a walk does is the beginning of a loop, or all of it if the walk ends there. -/
def Heads (f : Visitor σ) (deep : Bool) (levels levels' : List (List Koid)) (w : Walk σ)
    (r : WalkEnd × Walk σ) : Prop :=
  (r.1 = .finished → ∀ e w', Loops f deep levels' r.2 e w' → Loops f deep levels w e w') ∧
    (r.1 ≠ .finished → Loops f deep levels w r.1 r.2)

variable {f : Visitor σ} {deep : Bool} {levels : List (List Koid)}

theorem Heads.trans {w v : Walk σ} {r : WalkEnd × Walk σ} {a b c : List (List Koid)}
    (h : Heads f deep a b w (.finished, v)) (h' : Heads f deep b c v r) : Heads f deep a c w r :=
  ⟨fun hr e w' hl => h.1 rfl e w' (h'.1 hr e w' hl), fun hr => h.1 rfl _ _ (h'.2 hr)⟩

theorem Heads.ended {w v : Walk σ} {e : WalkEnd} {a b : List (List Koid)} (he : e ≠ .finished)
    (h : Loops f deep a w e v) : Heads f deep a b w (e, v) := ⟨fun hf => absurd hf he, fun _ => h⟩

/-- The loop ends in one way only. -/
theorem Loops.unique {w a b : Walk σ} {e e' : WalkEnd} (h : Loops f deep levels w e a)
    (h' : Loops f deep levels w e' b) : e = e' ∧ a = b := by
  -- the induction is on the first run; the second has to take the same rule, since what the visit
  -- answered and whether the walk is deep decide between the rules
  induction h generalizing e' b with
  | done =>
    cases h'
    exact ⟨rfl, rfl⟩
  | pop _ ih =>
    cases h' with
    | pop further => exact ih further
  | stop hv =>
    cases h' with
    | stop hv' =>
      rw [hv] at hv'
      cases hv'
      exact ⟨rfl, rfl⟩
    | stay _ hv' | fail _ hv' | push _ hv' =>
      rw [hv] at hv'
      cases hv'
  | stay hd hv _ ih =>
    cases h' with
    | stay _ hv' further =>
      rw [hv] at hv'
      cases hv'
      exact ih further
    | stop hv' =>
      rw [hv] at hv'
      cases hv'
    | fail hd' | push hd' =>
      rw [hd] at hd'
      cases hd'
  | fail hd hv hu =>
    cases h' with
    | fail _ hv' hu' =>
      rw [hv] at hv'
      cases hv'
      rw [hu] at hu'
      cases hu'
      exact ⟨rfl, rfl⟩
    | stop hv' =>
      rw [hv] at hv'
      cases hv'
    | stay hd' =>
      rw [hd] at hd'
      cases hd'
    | push _ hv' hu' =>
      rw [hv] at hv'
      cases hv'
      rw [hu] at hu'
      cases hu'
  | push hd hv hu _ ih =>
    cases h' with
    | push _ hv' hu' further =>
      rw [hv] at hv'
      cases hv'
      rw [hu] at hu'
      cases hu'
      exact ih further
    | stop hv' =>
      rw [hv] at hv'
      cases hv'
    | stay hd' =>
      rw [hd] at hd'
      cases hd'
    | fail _ hv' hu' =>
      rw [hv] at hv'
      cases hv'
      rw [hu] at hu'
      cases hu'

/-- **A walk without a bound** on its depth: it reaches the first level and loops from there. -/
inductive Takes (f : Visitor σ) (deep : Bool) (k : Koid) (w : Walk σ) : WalkEnd → Walk σ → Prop
  | fail {e : WalkEnd} {v : Walk σ} (hv : w.enter f k = (.error e, v)) : Takes f deep k w e v
  | loop {jobs : List Koid} {e : WalkEnd} {v w' : Walk σ} (hv : w.enter f k = (.ok jobs, v))
      (hl : Loops f deep [jobs] v e w') : Takes f deep k w e w'

/-- It ends in one way only. -/
theorem Takes.unique {k : Koid} {w a b : Walk σ} {e e' : WalkEnd} (h : Takes f deep k w e a)
    (h' : Takes f deep k w e' b) : e = e' ∧ a = b := by
  cases h with
  | fail hv =>
    cases h' with
    | fail hv' =>
      rw [hv] at hv'
      cases hv'
      exact ⟨rfl, rfl⟩
    | loop hv' =>
      rw [hv] at hv'
      cases hv'
  | loop hv hl =>
    cases h' with
    | fail hv' =>
      rw [hv] at hv'
      cases hv'
    | loop hv' hl' =>
      rw [hv] at hv'
      cases hv'
      exact hl.unique hl'

end Walk

/-! ## 2. The walk is the loop

The bound of the walk is the height of the job, and the loop is never deeper.  The induction is on
the bound, and inside of it on the jobs of a level. -/

/-- A job that was handed out has at most so many generations below it. -/
def System.Capped (s : System) (n : Nat) (c : Koid) : Prop := c < s.nextKoid ∧ s.height c ≤ n

/-- A cap holds on, since heights do not change and no identity comes back. -/
theorem Steady.capped {s t : System} (h : Steady s t) {n : Nat} {c : Koid} (hc : s.Capped n c) :
    t.Capped n c := by
  refine ⟨Nat.lt_of_lt_of_le hc.1 h.nextKoid, ?_⟩
  unfold System.height
  cases hb : t.jobs[c]? with
  | none => exact Nat.zero_le _
  | some b =>
    obtain ⟨a, ha, -, hheight⟩ := h.job hc.1 hb
    have hle := hc.2
    unfold System.height at hle
    rw [ha] at hle
    rw [Option.map_some, Option.getD_some, hheight]
    exact hle

/-- The child jobs of a level have one generation less below them. -/
theorem Lineage.capped {s : System} (h : Lineage s) {d : List Task} (hacc : Accounted s d)
    {n : Nat} {j c : Koid} (hj : s.height j ≤ n + 1) (hc : c ∈ (s.liveChildren j).jobs) :
    s.Capped n c := by
  obtain ⟨q, i, -, -, hi⟩ := System.mem_liveChildren_jobs.1 hc
  have hheight := h.height_child hc
  exact ⟨hacc.job_lt hi, by omega⟩

namespace World

variable {σ : Type} {P : System → Op → Prop} {held : σ → List Task} {f : Visitor σ}

/-- A point of a walk: operations lead there, and it comes after a given state. -/
def Under (P : System → Op → Prop) (held : σ → List Task) (s : System) (v : World) (own : σ) :
    Prop := Ran P ⟨v.system, held own ++ v.dues⟩ ∧ Steady s v.system

/-- A visitor that guides keeps what holds along every run from a state on. -/
theorem Guides.under_keeps (hshare : ∀ s r, P s (.share r)) (hdrop : ∀ s t, P s (.drop t))
    (h : Guides P held f) (s : System) : Walk.Keeps f (Under P held s) where
  lending own :=
    { reorder := fun hp hi => ⟨(Ran.lending hshare hdrop (held own)).reorder hp hi.1, hi.2⟩
      share := fun hr hi => ⟨(Ran.lending hshare hdrop (held own)).share hr hi.1,
        hi.2.trans (.of_same (Nat.le_refl _) rfl rfl rfl rfl)⟩
      release := fun hi => ⟨(Ran.lending hshare hdrop (held own)).release hi.1,
        hi.2.trans (Moves.steady (System.release_moves (A := True) (C := True) _ _ _))⟩ }
  visit a s own d hi :=
    ⟨(h a s own d hi.1).ran hi.1, hi.2.trans ((h a s own d hi.1).steady hi.1)⟩

end World

namespace Walk

open World

variable {σ : Type} {P : System → Op → Prop} {held : σ → List Task} {f : Visitor σ} {deep : Bool}

/-- One visit, taken as one call of the visitor. -/
theorem visit_keeps {I : World → σ → Prop} (h : Keeps f I) {w v : Walk σ} {a : Visit}
    {goesOn : Bool} (hv : w.visit f a = (goesOn, v)) {d : List Task}
    (hi : I ⟨w.system, d⟩ w.own) : I ⟨v.system, d⟩ v.own := by
  cases hv
  exact h.visit a _ _ _ hi

/-- The snapshot of a level stands apart in what is owed. -/
theorem dues_of_level (js : List Koid) (levels : List (List Koid)) (d : List Task) :
    (dues (rest (js :: levels)) ++ d).Perm (dues js ++ (dues (rest levels) ++ d)) := by
  rw [rest_cons, dues_append, ← List.append_assoc]
  exact List.perm_append_comm.append_right d

/-- A level that was reached shows the live child jobs. -/
theorem jobs_of_enter {w v : Walk σ} {j : Koid} {jobs : List Koid}
    (h : w.enter f j = (.ok jobs, v)) : jobs = (w.system.liveChildren j).jobs := by
  unfold enter System.snapshot at h
  dsimp only at h
  split at h
  · cases h
  · rename_i c supply s hs
    split at hs
    · cases hs
    · cases hs
      split at h
      · cases h
        rfl
      · cases h

/-- What a visit and what is below a job do, the loop does, for the jobs of `C`. -/
def Descends (P : System → Op → Prop) (held : σ → List Task) (f : Visitor σ) (deep : Bool)
    (C : System → Koid → Prop) (below : List Koid → Koid → Walk σ → WalkEnd × Walk σ) : Prop :=
  ∀ j js levels w v d, w.visit f (.job j) = (true, v) → C v.system j →
    Ran P ⟨v.system, held v.own ++ (.release (.object j) :: (dues (rest (js :: levels)) ++ d))⟩ →
      Heads f deep ((j :: js) :: levels) (js :: levels) w (below (rest (js :: levels)) j v)

/-- A walk that stays on its level goes nowhere below it. -/
theorem stay_descends {C : System → Koid → Prop} (hC : ∀ s j, C s j → deep = false) :
    Descends P held f deep C stay :=
  fun j _ _ _ v _ hv hc _ =>
    ⟨fun _ _ _ hl => .stay (hC v.system j hc) hv hl, fun he => absurd rfl he⟩

variable (hshare : ∀ s r, P s (.share r)) (hdrop : ∀ s t, P s (.drop t)) (hf : Guides P held f)

include hshare hdrop hf

/-- **The loop over the jobs of one level.**  The induction is on the jobs that are left; what is
below each one is taken from the levels below. -/
theorem visitJobs_loops {C : System → Koid → Prop} (hC : ∀ {s t c}, Steady s t → C s c → C t c)
    {below : List Koid → Koid → Walk σ → WalkEnd × Walk σ}
    (hb : ∀ s, Below (Under P held s) below) (hbelow : Descends P held f deep C below)
    (levels : List (List Koid)) (d : List Task) (js : List Koid) {w : Walk σ}
    (hjs : ∀ j ∈ js, C w.system j)
    (hran : Ran P ⟨w.system, held w.own ++ (dues js ++ (dues (rest levels) ++ d))⟩) :
    Heads f deep (js :: levels) levels w (visitJobs f below (rest levels) js w) := by
  induction js generalizing w with
  | nil => exact ⟨fun _ e w' hl => .pop hl, fun he => absurd rfl he⟩
  | cons j js ih =>
    have houter := dues_of_level js levels d
    rw [visitJobs]
    cases hv : w.visit f (.job j) with
    | mk goesOn v =>
      have hvisit := visit_keeps (hf.under_keeps hshare hdrop w.system) hv ⟨hran, .refl _⟩
      have hheld := hvisit.1.reorder ((houter.symm.cons (.release (.object j))).append_left _)
      -- The visit may end the walk here.  If it does not, the loop goes below the job first, and
      -- comes to the rest of this level only if the walk below was not ended either.
      cases goesOn with
      | false =>
        dsimp only
        rw [← rest_cons]
        exact .ended (by simp) (.stop hv)
      | true =>
        dsimp only
        rw [← rest_cons]
        have hfirst := hbelow j js levels w v d hv (hC hvisit.2 (hjs j List.mem_cons_self)) hheld
        have hkept := hb w.system (rest (js :: levels)) j v d ⟨hheld, hvisit.2⟩
        cases hu : below (rest (js :: levels)) j v with
        | mk e u =>
          rw [hu] at hfirst hkept
          cases e with
          | finished =>
            exact hfirst.trans (ih (fun i hi => hC hkept.2 (hjs i (List.mem_cons_of_mem _ hi)))
              (hkept.1.reorder (houter.append_left _)))
          | stopped => exact .ended (by simp) (hfirst.2 (by simp))
          | refused => exact .ended (by simp) (hfirst.2 (by simp))

/-- Reaching a level below a job and walking on there is what the loop does next. -/
theorem level_loops (hd : deep = true) {C : System → Koid → Prop}
    (hC : ∀ {s t c}, Steady s t → C s c → C t c)
    {below : List Koid → Koid → Walk σ → WalkEnd × Walk σ}
    (hb : ∀ s, Below (Under P held s) below) (hbelow : Descends P held f deep C below)
    {j : Koid} {js : List Koid} {levels : List (List Koid)} {w v : Walk σ} {d : List Task}
    (hv : w.visit f (.job j) = (true, v)) (hjs : ∀ c ∈ (v.system.liveChildren j).jobs, C v.system c)
    (hran : Ran P
      ⟨v.system, held v.own ++ (.release (.object j) :: (dues (rest (js :: levels)) ++ d))⟩)
    {r : WalkEnd × Walk σ} (hr : r = match v.enter f j with
      | (.error e, u) => (e, u.giveBack (j :: rest (js :: levels)))
      | (.ok jobs, u) => visitJobs f below (rest (js :: levels)) jobs (u.giveBack [j])) :
    Heads f deep ((j :: js) :: levels) (js :: levels) w r := by
  subst hr
  cases hu : v.enter f j with
  | mk x u =>
    have hkeeps := hf.under_keeps hshare hdrop v.system
    have henter :=
      enter_keeps hkeeps v j (.release (.object j) :: (dues (rest (js :: levels)) ++ d))
      ⟨hran, .refl _⟩
    rw [hu] at henter
    -- Refused on the way in, and then the loop fails as the walk does; or the level is reached,
    -- and the snapshot is held for as long as its jobs are visited.
    cases x with
    | error e =>
      refine .ended (fun he => ?_) (.fail hd hv hu)
      exact enter_ne_finished v j u (he ▸ hu)
    | ok jobs =>
      obtain rfl := jobs_of_enter hu
      have henter : Under P held v.system ⟨u.system, dues (v.system.liveChildren j).jobs ++
          (.release (.object j) :: (dues (rest (js :: levels)) ++ d))⟩ u.own := henter
      have hheld : Under P held v.system ⟨u.system, .release (.object j) ::
          (dues (v.system.liveChildren j).jobs ++ (dues (rest (js :: levels)) ++ d))⟩ u.own :=
        (hkeeps.lending u.own).reorder List.perm_middle henter
      have hback := giveBack_keeps hkeeps u [j] _ hheld
      have hkept : ∀ c ∈ (v.system.liveChildren j).jobs, C (u.giveBack [j]).system c :=
        fun c hc => hC hback.2 (hjs c hc)
      have hjobs := visitJobs_loops hshare hdrop hf (C := C) hC hb hbelow (js :: levels) d _ hkept
        hback.1
      exact ⟨fun hr e w' hl => .push hd hv hu (hjobs.1 hr e w' hl),
        fun hr => .push hd hv hu (hjobs.2 hr)⟩

/-- **Going below a job is what the loop does next**, if the walk may go down as far as the job is
high. -/
theorem descend_descends (hd : deep = true) (n : Nat) :
    Descends P held f deep (fun s c => s.Capped n c) (descend f n) := by
  have hkeeps := hf.under_keeps hshare hdrop
  -- On the bound of the depth.  At zero the children would have to be lower than the lowest, so
  -- there is none and it does not matter that the walk goes no deeper.
  induction n with
  | zero =>
    intro j js levels w v d hv hcap hran
    have hlineage : Lineage v.system := hran.passed.lineage
    have hnone : ∀ c ∈ (v.system.liveChildren j).jobs, False := fun c hc => by
      have hheight := hlineage.height_child hc
      have hle := hcap.2
      omega
    refine level_loops hshare hdrop hf hd (C := fun _ _ => False) (fun _ h => h)
      (fun s => stay_below (hkeeps s)) (stay_descends fun _ _ h => h.elim) hv hnone hran ?_
    unfold descend
    generalize v.enter f j = r
    obtain ⟨e | jobs, u⟩ := r <;> rfl
  | succ n ih =>
    intro j js levels w v d hv hcap hran
    have hlineage : Lineage v.system := hran.passed.lineage
    have hjobs : ∀ c ∈ (v.system.liveChildren j).jobs, v.system.Capped n c := fun c hc =>
      hlineage.capped hran.passed.accounted hcap.2 hc
    refine level_loops hshare hdrop hf hd (C := fun s c => s.Capped n c) (fun hs hc => hs.capped hc)
      (fun s => descend_below (hkeeps s) n) ih hv hjobs hran ?_
    unfold descend
    generalize v.enter f j = r
    obtain ⟨e | jobs, u⟩ := r <;> rfl

end Walk

open Walk in
/-- **The walk is the one without a bound**, which comes to its end. -/
theorem System.walk_takes {σ : Type} {P : System → Op → Prop} {held : σ → List Task}
    {f : Visitor σ} (hshare : ∀ s r, P s (.share r)) (hdrop : ∀ s t, P s (.drop t))
    (hf : World.Guides P held f) {s : System} {own : σ} {d : List Task}
    (hran : World.Ran P ⟨s, held own ++ d⟩) (refuses : Allocator) (k : Koid) (deep : Bool) :
    ∃ w', Takes f deep k ⟨s, ⟨refuses, []⟩, own⟩ (s.walk refuses k deep f own).1 w' ∧
      (s.walk refuses k deep f own).2 = (w'.system, w'.own) := by
  let below := if deep then descend f (s.height k) else stay
  obtain ⟨r, hr⟩ : ∃ r, r = match Walk.enter ⟨s, ⟨refuses, []⟩, own⟩ f k with
    | (.error e, v) => (e, v)
    | (.ok jobs, v) => visitJobs f below [] jobs v := ⟨_, rfl⟩
  have hwalk : s.walk refuses k deep f own = (r.1, r.2.system, r.2.own) := by
    refine System.walk_eq s refuses k deep f own ?_
    rw [hr]
    generalize Walk.enter _ f k = x
    obtain ⟨e | jobs, v⟩ := x <;> rfl
  rw [hwalk]
  refine ⟨r.2, ?_, rfl⟩
  have hkeeps := hf.under_keeps hshare hdrop
  have henter := enter_keeps (hkeeps s) ⟨s, ⟨refuses, []⟩, own⟩ k d ⟨hran, .refl s⟩
  cases hv : Walk.enter ⟨s, ⟨refuses, []⟩, own⟩ f k with
  | mk x v =>
    rw [hv] at hr henter
    cases x with
    | error e =>
      rw [hr]
      exact .fail hv
    | ok jobs =>
      obtain rfl := jobs_of_enter hv
      have hlineage : Lineage s := hran.passed.lineage
      have hloops : Heads f deep [(s.liveChildren k).jobs] [] v r := by
        rw [hr]
        -- a deep walk may go down as far as its start is high, and any other one stays on its
        -- level
        by_cases hd : deep = true
        · have hbelow : below = descend f (s.height k) := if_pos hd
          rw [hbelow]
          have hcapped : ∀ c ∈ (s.liveChildren k).jobs, v.system.Capped (s.height k) c :=
            fun c hc => henter.2.capped
              (hlineage.capped hran.passed.accounted (Nat.le_succ _) hc)
          exact visitJobs_loops hshare hdrop hf (C := fun t c => t.Capped (s.height k) c)
            (fun ht hc => ht.capped hc) (fun t => descend_below (hkeeps t) _)
            (descend_descends hshare hdrop hf hd _) [] d _ hcapped henter.1
        · have hbelow : below = stay := if_neg hd
          rw [hbelow]
          exact visitJobs_loops hshare hdrop hf (C := fun _ _ => True) (fun _ _ => trivial)
            (fun t => stay_below (hkeeps t))
            (stay_descends fun _ _ _ => Bool.eq_false_of_not_eq_true hd) [] d _
            (fun _ _ => trivial) henter.1
      refine .loop hv ?_
      by_cases he : r.1 = .finished
      · rw [he]
        exact hloops.1 he _ _ .done
      · exact hloops.2 he

end KernelObjects
