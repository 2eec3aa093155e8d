import KernelObjects.Proofs.JobLists
import KernelObjects.Proofs.Confinement
import KernelObjects.Proofs.WalkLog

/-
# Runs that go on from a state

`World.Ran` says of a state that operations lead there from the very beginning.  What a later
state has kept of an earlier one is a property of the run in between: `World.Onward` is that run.
A visitor *guides* a walk if each of its calls is such a run, whatever the walk holds at that
time; then the walk itself is one, and a visitor may start walks of its own that are guided in the
same way (`Guides.walk_onward`, `Guides.eachVmo_onward`).

What a run keeps of identities is `Steady`: those that were handed out are never handed out again,
so what is there later under an old identity was there before, with the same parent, the same
height and the same job.

A visitor is a function, and what it does may depend on everything that it sees.  The condition on
it is asked of all states that operations lead to and not of those that the walk happens to come
by; so it can be checked without knowing the walk, and holds again for a walk inside of a visit.

What the client holds at a call is read off what its visitor keeps (`held`).  A visitor that gives
something back has to have it, and it cannot give back what the walk holds.
-/

namespace KernelObjects

/-! ## 1. Runs from a state

A run and the dues of its states.  What is true of every reachable state is true of these, and
relations between the first state and the others are added here. -/

namespace World

variable {P : System → Op → Prop} {w v u : World}

/-- A state that operations lead to from a given one, by operations that keep to a rule. -/
inductive Onward (P : System → Op → Prop) (w : World) : World → Prop
  | refl : Onward P w w
  | act {v : World} {op : Op} (h : Onward P w v) (hop : P v.system op) : Onward P w (v.act op)
  /-- The dues stand in no order. -/
  | reorder {s : System} {d e : List Task} (h : Onward P w ⟨s, d⟩) (hp : d.Perm e) :
      Onward P w ⟨s, e⟩

namespace Onward

theorem trans (h : Onward P w v) (h' : Onward P v u) : Onward P w u := by
  induction h' with
  | refl => exact h
  | act _ hop ih => exact ih.act hop
  | reorder _ hp ih => exact ih.reorder hp

/-- Who keeps to a rule keeps to a weaker one. -/
theorem mono {Q : System → Op → Prop} (h : Onward P w v) (hPQ : ∀ s op, P s op → Q s op) :
    Onward Q w v := by
  induction h with
  | refl => exact .refl
  | act _ hop ih => exact ih.act (hPQ _ _ hop)
  | reorder _ hp ih => exact ih.reorder hp

theorem ran (h : Onward P w v) (hw : w.Ran P) : v.Ran P := by
  induction h with
  | refl => exact hw
  | act _ hop ih => exact ih.act hop
  | reorder _ hp ih => exact ih.reorder hp

theorem foldl {ops : List Op} (h : Onward P w v) (hops : v.Keep P ops) :
    Onward P w (ops.foldl World.act v) := by
  induction ops generalizing v with
  | nil => exact h
  | cons op ops ih => exact ih (h.act hops.1) hops.2

/-- Whatever rule the second part keeps to, the two together are a run. -/
theorem ran_any {Q : System → Op → Prop} (h : Onward Q w v) (hw : w.Ran P) :
    v.Ran fun _ _ => True :=
  (h.mono fun _ _ _ => trivial).ran (hw.mono fun _ _ _ => trivial)

/-- The run is a run of moves. -/
theorem moves (h : Onward P w v) (hw : w.Ran P) : Moves True True w v := by
  induction h with
  | refl => exact .refl
  | act h hop ih =>
    exact ih.trans (act_moves (h.ran hw).passed.accounted _ (fun _ => trivial) fun _ => trivial)
  | reorder _ hp ih => exact ih.trans (System.reorder_moves _ hp)

/-- Whoever may take references and give them back goes on when lending. -/
theorem lending (hshare : ∀ s r, P s (.share r)) (hdrop : ∀ s t, P s (.drop t)) (w : World)
    (mine : List Task) : Lending fun v => Onward P w ⟨v.system, mine ++ v.dues⟩ where
  reorder hperm h := h.reorder (hperm.append_left mine)
  share := by
    intro s d r hr h
    have hact := h.act (hshare s r)
    unfold World.act at hact
    dsimp only at hact
    rw [if_pos hr] at hact
    exact hact.reorder List.perm_middle.symm
  release := by
    intro s d r h
    have hact := (h.reorder List.perm_middle).act (hdrop s (.release r))
    unfold World.act at hact
    dsimp only at hact
    rw [if_pos List.mem_cons_self, List.erase_cons_head] at hact
    exact hact

end Onward

/-! ## 2. Visitors that guide a walk

A visitor that only does operations, and uses no reference of the walk, goes on with the run that
the walk is part of. -/

variable {σ : Type} {α : Type}

/-- Whether each call of a visitor is a run by operations that keep to a rule.  What the client
holds at a call is read off what the visitor keeps, and the walk holds something of its own. -/
def Guides (P : System → Op → Prop) (held : σ → List Task)
    (f : α → System → σ → Bool × System × σ) : Prop :=
  ∀ a s own d, Ran P ⟨s, held own ++ d⟩ →
    Onward P ⟨s, held own ++ d⟩ ⟨(f a s own).2.1, held (f a s own).2.2 ++ d⟩

namespace Guides

variable {held : σ → List Task} {f : α → System → σ → Bool × System × σ}

/-- A visitor that guides leads as well: each call ends in a state of a run. -/
theorem leads (h : Guides P held f) : Leads P held f :=
  fun a s own d hran => (h a s own d hran).ran hran

/-- Notes do not lead anybody astray. -/
theorem logging {f : Visitor σ} (h : Guides P held f) :
    Guides P (fun own : σ × List Call => held own.1) (Walk.logging f) :=
  fun a s own d hran => h a s own.1 d hran

variable (hshare : ∀ s r, P s (.share r)) (hdrop : ∀ s t, P s (.drop t))

include hshare hdrop

/-- What a guided walk comes by is a run from where it started. -/
theorem keeps {f : Visitor σ} (h : Guides P held f) {w : World} (hw : w.Ran P) :
    Walk.Keeps f fun v own => Onward P w ⟨v.system, held own ++ v.dues⟩ where
  lending own := Onward.lending hshare hdrop w (held own)
  visit a s own d hi := hi.trans (h a s own d (hi.ran hw))

/-- **A guided walk is a run**, so a visitor may walk itself. -/
theorem walk_onward {f : Visitor σ} (h : Guides P held f) {s : System} {own : σ} {d : List Task}
    (hw : Ran P ⟨s, held own ++ d⟩) (refuses : Allocator) (k : Koid) (deep : Bool) :
    let r := s.walk refuses k deep f own
    Onward P ⟨s, held own ++ d⟩ ⟨r.2.1, held r.2.2 ++ d⟩ :=
  System.walk_keeps (h.keeps hshare hdrop hw) s refuses k deep own d .refl

/-- A guided walk over all VM objects is a run as well. -/
theorem eachVmo_onward {f : VmoId → System → σ → Bool × System × σ} (h : Guides P held f)
    {s : System} {own : σ} {d : List Task} (hw : Ran P ⟨s, held own ++ d⟩)
    (enough : Nat → Bool) :
    let r := s.eachVmo enough f own
    Onward P ⟨s, held own ++ d⟩ ⟨r.2.1, held r.2.2 ++ d⟩ :=
  System.eachVmo_keeps
    (I := fun v own' => Onward P ⟨s, held own ++ d⟩ ⟨v.system, held own' ++ v.dues⟩)
    (fun own' => Onward.lending hshare hdrop _ (held own'))
    (fun a t own' e hi => hi.trans (h a t own' e (hi.ran hw))) s enough own d .refl

end Guides

end World

/-! ## 3. What a run keeps of identities

A decline only takes away, and a birth has a number of its own; so this is a property of moves,
and the induction is on the moves of the run. -/

/-- What is there in `t` under an identity that was handed out in `s` was there in `s`, as a thing
of the same kind, and belongs where it belonged. -/
structure Steady (s t : System) : Prop where
  nextKoid : s.nextKoid ≤ t.nextKoid
  job : ∀ {k : Nat} {b : Job}, k < s.nextKoid → t.jobs[k]? = some b →
    ∃ a, s.jobs[k]? = some a ∧ b.parent = a.parent ∧ b.maxHeight = a.maxHeight
  process : ∀ {k : Nat} {b : Process}, k < s.nextKoid → t.processes[k]? = some b →
    ∃ a, s.processes[k]? = some a ∧ b.job = a.job
  view : ∀ {k : Nat} {b : View}, k < s.nextKoid → t.views[k]? = some b → s.views[k]? = some b
  witness : ∀ {k : Nat} {b : Witness}, k < s.nextKoid → t.witnesses[k]? = some b →
    s.witnesses[k]? = some b

namespace Steady

variable {s t u : System} {d : List Task} {k : Koid}

theorem of_same (hn : s.nextKoid ≤ t.nextKoid) (hj : t.jobs = s.jobs)
    (hp : t.processes = s.processes) (hv : t.views = s.views) (hw : t.witnesses = s.witnesses) :
    Steady s t where
  nextKoid := hn
  job _ hb := ⟨_, hj ▸ hb, rfl, rfl⟩
  process _ hb := ⟨_, hp ▸ hb, rfl⟩
  view _ hb := hv ▸ hb
  witness _ hb := hw ▸ hb

theorem refl (s : System) : Steady s s := of_same (Nat.le_refl _) rfl rfl rfl rfl

/-- An identity that was handed out stays handed out, so the records are compared from the start. -/
theorem trans (h : Steady s t) (h' : Steady t u) : Steady s u where
  nextKoid := Nat.le_trans h.nextKoid h'.nextKoid
  job hk hc := by
    obtain ⟨b, hb, hp', hh'⟩ := h'.job (Nat.lt_of_lt_of_le hk h.nextKoid) hc
    obtain ⟨a, ha, hp, hh⟩ := h.job hk hb
    exact ⟨a, ha, hp'.trans hp, hh'.trans hh⟩
  process hk hc := by
    obtain ⟨b, hb, hj'⟩ := h'.process (Nat.lt_of_lt_of_le hk h.nextKoid) hc
    obtain ⟨a, ha, hj⟩ := h.process hk hb
    exact ⟨a, ha, hj'.trans hj⟩
  view hk hc := h.view hk (h'.view (Nat.lt_of_lt_of_le hk h.nextKoid) hc)
  witness hk hc := h.witness hk (h'.witness (Nat.lt_of_lt_of_le hk h.nextKoid) hc)

/-- A job that is there under its identity is still a job. -/
theorem job_of_present (h : Steady s t) (hacc : Accounted s d) {a : Job} (ha : s.jobs[k]? = some a)
    (hk : t.Present (.object k)) : t.jobs.contains k := by
  have hlt := hacc.job_lt ha
  obtain ⟨hp, hv, hw⟩ := hacc.only_job ha
  rcases hk with hk | hk | hk | hk
  · exact hk
  · obtain ⟨b, hb⟩ := Store.contains_iff.1 hk
    obtain ⟨c, hc, -⟩ := h.process hlt hb
    rw [hp] at hc
    cases hc
  · obtain ⟨b, hb⟩ := Store.contains_iff.1 hk
    rw [h.view hlt hb] at hv
    cases hv
  · obtain ⟨b, hb⟩ := Store.contains_iff.1 hk
    rw [h.witness hlt hb] at hw
    cases hw

/-- A process that is there under its identity is still a process. -/
theorem process_of_present (h : Steady s t) (hacc : Accounted s d) {a : Process}
    (ha : s.processes[k]? = some a) (hk : t.Present (.object k)) : t.processes.contains k := by
  have hlt := hacc.process_lt ha
  obtain ⟨hj, hv, hw⟩ := hacc.only_process ha
  rcases hk with hk | hk | hk | hk
  · obtain ⟨b, hb⟩ := Store.contains_iff.1 hk
    obtain ⟨c, hc, -⟩ := h.job hlt hb
    rw [hj] at hc
    cases hc
  · exact hk
  · obtain ⟨b, hb⟩ := Store.contains_iff.1 hk
    rw [h.view hlt hb] at hv
    cases hv
  · obtain ⟨b, hb⟩ := Store.contains_iff.1 hk
    rw [h.witness hlt hb] at hw
    cases hw

/-- A store with a new entry shows the old ones. -/
theorem of_insert {β : Type} {store : Store β} {n a : Nat} {x b : β} (ha : a < n)
    (hb : (store.insert n x)[a]? = some b) : store[a]? = some b := by
  rwa [Store.getElem?_insert, if_neg (Nat.ne_of_lt ha).symm] at hb

end Steady

/-- A decline makes nothing new and moves nothing. -/
theorem Decline.steady {K P : Koid → Prop} {w w' : World} (h : Decline K P w w') :
    Steady w.system w'.system where
  nextKoid := h.wanes.nextKoid
  job _ hb := by
    obtain ⟨a, ha, hab⟩ := h.wanes.job hb
    exact ⟨a, ha, hab.parent, hab.maxHeight⟩
  process _ hb := by
    obtain ⟨a, ha, hab⟩ := h.wanes.process hb
    exact ⟨a, ha, hab.job⟩
  view _ hb := h.outlasts.view hb
  witness _ hb := h.outlasts.witness hb

/-- What is born has an identity that was not handed out before. -/
theorem Birth.steady {A C : Prop} {w w' : World} (h : Birth A C w w') :
    Steady w.system w'.system := by
  -- a job that is relisted keeps its place
  have hrelist : ∀ {s : System} {k : Koid} {j : Job} {f : Job → Job} {ps : List Koid},
      s.jobs[k]? = some j → (f j).kin = { j.kin with processes := ps } →
        Steady s (s.modifyJob k f) := by
    intro s k j f ps hj hf
    refine { Steady.refl s with job := fun {a b} _ hb => ?_ }
    have hb := (Store.getElem?_modify s.jobs k a f).symm.trans hb
    split at hb
    · rename_i he
      subst he
      rw [hj] at hb
      cases hb
      exact ⟨j, hj, congrArg Job.Kin.parent hf, congrArg Job.Kin.maxHeight hf⟩
    · exact ⟨b, hb, rfl, rfl⟩
  cases h with
  | @job s d signals job =>
    exact { Steady.of_same (t := { s with nextKoid := s.nextKoid + 1 }) (Nat.le_succ _) rfl rfl rfl
      rfl with job := fun ha hb => ⟨_, Steady.of_insert ha hb, rfl, rfl⟩ }
  | @child s d signals job p q f _ _ _ _ hj _ _ hf =>
    refine { Steady.of_same (t := { s with nextKoid := s.nextKoid + 1 }) (Nat.le_succ _) rfl rfl rfl
      rfl with job := fun {a b} ha hb => ?_ }
    have hold : (s.withJob signals job).jobs[a]? = s.jobs[a]? :=
      (Store.getElem?_insert s.jobs s.nextKoid a job).trans (if_neg (Nat.ne_of_lt ha).symm)
    have hb := (Store.getElem?_modify (s.withJob signals job).jobs p a f).symm.trans hb
    rw [hold] at hb
    split at hb
    · rename_i he
      subst he
      rw [hj] at hb
      cases hb
      exact ⟨q, hj, congrArg Job.Kin.parent hf, congrArg Job.Kin.maxHeight hf⟩
    · exact ⟨b, hb, rfl, rfl⟩
  | list hj _ _ hf => exact hrelist hj hf
  | unlist hj hf => exact hrelist hj hf
  | @process s d signals process =>
    exact { Steady.of_same (t := { s with nextKoid := s.nextKoid + 1 }) (Nat.le_succ _) rfl rfl rfl
      rfl with process := fun ha hb => ⟨_, Steady.of_insert ha hb, rfl⟩ }
  | @view s d signals view =>
    exact { Steady.of_same (t := { s with nextKoid := s.nextKoid + 1 }) (Nat.le_succ _) rfl rfl rfl
      rfl with view := fun ha hb => Steady.of_insert ha hb }
  | @witness s d signals witness =>
    exact { Steady.of_same (t := { s with nextKoid := s.nextKoid + 1 }) (Nat.le_succ _) rfl rfl rfl
      rfl with witness := fun ha hb => Steady.of_insert ha hb }
  | _ => exact .of_same (Nat.le_refl _) rfl rfl rfl rfl

theorem Move.steady {A C : Prop} {w w' : World} (h : Move A C w w') :
    Steady w.system w'.system := by
  rcases h with h | h
  · exact h.steady
  · exact h.steady

theorem Moves.steady {A C : Prop} {w w' : World} (h : Moves A C w w') :
    Steady w.system w'.system := by
  induction h with
  | refl => exact .refl _
  | tail _ hstep ih => exact ih.trans hstep.steady

/-- **Identities keep their meaning along a run.** -/
theorem World.Onward.steady {P Q : System → Op → Prop} {w v : World} (h : World.Onward Q w v)
    (hw : w.Ran P) : Steady w.system v.system :=
  ((h.mono fun _ _ _ => trivial).moves (hw.mono fun _ _ _ => trivial)).steady

end KernelObjects
