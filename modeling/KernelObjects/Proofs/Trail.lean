import KernelObjects.Proofs.Slots

/-
# Trails

Some properties speak of what happens on the way from one state to another: how often a slot was
freed, how often a count went down to zero, who was told of it.  A *trail* is a way, written down
as the list of the states that it passes (`Trail`).  It goes in ticks so small that no tick makes
or closes more than one handle.  Two kinds of tick are taken from the program as they stand, doing
one task and making one handle; a third tells an object that a kernel handle let go of it; and
whatever happens in between counts as one tick if arenas, counts and calls come out of it as they
went in.

A relation between the two ends would not do here.  A slot that is freed and filled again ends as
it began, up to its generation, and a count that goes down to zero and up again ends as it began
altogether; only the way tells them from nothing having happened.

Every operation is a trail (`World.Passed.act_trail`), so what is true of all trails is true of
all runs.  To count something along a run it is then enough to say what it does in one tick
(`passages_cons`), and there are four kinds of tick.
-/

namespace KernelObjects

/-! ## 1. Ticks and trails

A number that is counted along a trail is the sum of what it is in each tick. -/

/-- One tick of a trail, with the object that a kernel handle lets go of in it, if any.  Only where
`K` allows it an object is told without losing its last handle. -/
inductive Tick (K : World → Koid → Prop) : Option Koid → World → World → Prop
  | perform {s : System} {d : List Task} (t : Task) :
      Tick K none ⟨s, t :: d⟩ ⟨(s.perform t).1, (s.perform t).2 ++ d⟩
  | make {s : System} {d : List Task} {a : ArenaId} {arena : Arena} {k : Koid} {rights : Rights}
      (ha : s.arenas[a]? = some arena) (hfull : arena.isFull = false)
      (hk : s.Present (.object k)) :
      Tick K none ⟨s, d⟩ ⟨s.withHandle a arena k rights, .close s.nextId :: d⟩
  | tell {w : World} {k : Koid} (hk : K w k) :
      Tick K (some k) w ⟨w.system.zeroHandles k, w.dues⟩
  | aside {w w' : World} (h : Moves True True w w')
      (ha : ∀ (i : ArenaId) a, w.system.arenas[i]? = some a → w'.system.arenas[i]? = some a)
      (hc : ∀ k, w'.system.handleCount k = w.system.handleCount k)
      (ht : w'.system.told = w.system.told) : Tick K none w w'

/-- A way from one state to another: the states after each tick, and which objects kernel handles
let go of. -/
inductive Trail (K : World → Koid → Prop) : World → List (Option Koid × World) → World → Prop
  | nil {w : World} : Trail K w [] w
  | cons {w v w' : World} {l : Option Koid} {ls : List (Option Koid × World)} (h : Tick K l w v)
      (rest : Trail K v ls w') : Trail K w ((l, v) :: ls) w'

/-- The objects that kernel handles let go of on the way. -/
def stops (ls : List (Option Koid × World)) : List Koid := ls.filterMap Prod.fst

/-- The ticks of a way with the states before and after them. -/
def ticks : World → List (Option Koid × World) → List (World × Option Koid × World)
  | _, [] => []
  | w, (l, v) :: ls => (w, l, v) :: ticks v ls

/-- How often it happens on the way that `p` holds and `q` holds one tick later. -/
def passages (p q : World → Bool) (w : World) (ls : List (Option Koid × World)) : Nat :=
  (ticks w ls).countP fun x => p x.1 && q x.2.2

theorem passages_cons (p q : World → Bool) (w v : World) (l : Option Koid)
    (ls : List (Option Koid × World)) : passages p q w ((l, v) :: ls) =
      passages p q v ls + if p w && q v then 1 else 0 := List.countP_cons

variable {K : World → Koid → Prop} {L : Liberties}

/-- Two trails, one after the other. -/
theorem Trail.append {w v w' : World} {ls ms : List (Option Koid × World)} (h : Trail K w ls v)
    (h' : Trail K v ms w') : Trail K w (ls ++ ms) w' := by
  induction h with
  | nil => exact h'
  | cons htick _ ih => exact .cons htick (ih h')

theorem stops_append (ls ms : List (Option Koid × World)) :
    stops (ls ++ ms) = stops ls ++ stops ms := List.filterMap_append

/-- One tick is a run of moves, -/
theorem Tick.moves {l : Option Koid} {w w' : World} (h : Tick K l w w') : Moves True True w w' := by
  cases h with
  | @perform s d t =>
    exact (s.perform_declines (K := fun _ => True) (P := fun _ => True) t d).moves
  | make ha hfull hk => exact Birth.moves (.handle ha hfull hk)
  | tell => exact Inert.moves (System.inert_zeroHandles _ _) _
  | aside h => exact h

/-- and so is a whole trail. -/
theorem Trail.moves {w w' : World} {ls : List (Option Koid × World)} (h : Trail K w ls w') :
    Moves True True w w' := by
  induction h with
  | nil => exact .refl
  | cons htick _ ih => exact htick.moves.trans ih

/-- The ticks of a trail, each from a state that is passed. -/
theorem Trail.tick_of_mem {w w' : World} {ls : List (Option Koid × World)} (h : Trail K w ls w')
    (hp : w.Passed True True) {u v : World} {l : Option Koid} (hm : (u, l, v) ∈ ticks w ls) :
    Tick K l u v ∧ u.Passed True True := by
  induction h with
  | nil => cases hm
  | cons htick _ ih =>
    rcases List.mem_cons.1 hm with he | hm
    · cases he
      exact ⟨htick, hp⟩
    · exact ih (hp.trans htick.moves) hm

/-- The states of a trail are passed. -/
theorem Trail.passed_of_mem {w w' : World} {ls : List (Option Koid × World)} (h : Trail K w ls w')
    (hp : w.Passed True True) {v : World} (hm : v ∈ w :: ls.map Prod.snd) :
    v.Passed True True := by
  induction h with
  | nil => exact List.mem_singleton.1 hm ▸ hp
  | cons htick _ ih =>
    rcases List.mem_cons.1 hm with rfl | hm
    · exact hp
    · exact ih (hp.trans htick.moves) hm

/-- A trail on which kernel handles let go only of what `L` tells. -/
def Trails (K : World → Koid → Prop) (L : Liberties) (w w' : World) : Prop :=
  ∃ ls, Trail K w ls w' ∧ ∀ k ∈ stops ls, L.tells k

namespace Trails

variable {w v w' : World}

theorem refl : Trails K L w w := ⟨[], .nil, by simp [stops]⟩

theorem trans (h : Trails K L w v) (h' : Trails K L v w') : Trails K L w w' := by
  obtain ⟨ls, hls, hs⟩ := h
  obtain ⟨ms, hms, hs'⟩ := h'
  refine ⟨ls ++ ms, hls.append hms, fun k hk => ?_⟩
  rw [stops_append, List.mem_append] at hk
  exact hk.elim (hs k) (hs' k)

theorem tick (h : Tick K none w w') :
    Trails K L w w' := ⟨[(none, w')], .cons h .nil, by simp [stops]⟩

/-- What handles do not show is one tick. -/
theorem aside (h : Moves True True w w') (hh : w'.system.hands = w.system.hands) :
    Trails K L w w' := by
  have harenas : w'.system.arenas = w.system.arenas := congrArg Hands.arenas hh
  have hcounts : w'.system.handleCount = w.system.handleCount := congrArg Hands.counts hh
  exact tick (.aside h (fun i a hi => harenas ▸ hi) (fun k => congrFun hcounts k)
    (congrArg Hands.told hh))

end Trails

/-! ## 2. Stages are trails

Every stage is cut into ticks.  A tick that tells an object stands for itself, and all others are
silent. -/

namespace System

/-- What is owed is paid off tick by tick, and no kernel handle lets go of anything. -/
theorem settle_trails (s : System) (ts d : List Task) :
    Trails K L ⟨s, ts ++ d⟩ ⟨s.settle ts, d⟩ := by
  fun_induction settle s ts with
  | case1 s => exact .refl
  | case2 s t rest ih =>
    rw [List.append_assoc] at ih
    exact .trans (.tick (.perform t)) ih

/-- A table is emptied aside, and then its handles are closed one by one. -/
theorem tableClear_trails (s : System) (t : TableId) (d : List Task) :
    Trails K L ⟨s, d⟩ ⟨(s.tableClear t).2, d⟩ := by
  cases ht : s.tables[t]? with
  | none =>
    rw [tableClear_of_none ht]
    exact .refl
  | some table =>
    rw [tableClear_of_some ht]
    have hleft := (emptied_declines (K := fun _ => True) (P := fun _ => True) ht d).moves
      (A := True) (C := True)
    refine .trans (v := ⟨s.emptied t table, table.owned.values.map .close ++ d⟩) (.tick ?_)
      (settle_trails _ _ d)
    obtain ⟨handles, he, -⟩ := s.emptied_eq t table
    rw [he] at hleft ⊢
    exact .aside hleft (fun _ _ hi => hi) (fun _ => rfl) rfl

end System

/-- **Every stage is a trail.** -/
theorem Stage.trails {w w' : World} (h : Stage L w w') (hacc : Accounted w.system w.dues)
    (hK : ∀ v k, L.tells k → K v k) : Trails K L w w' := by
  have hmoves : Moves True True w w' := h.moves (fun _ => trivial) fun _ => trivial
  -- most stages come and go aside: they make, close and tell nothing
  cases h with
  | still h => exact .aside hmoves h.hands
  | reorder h => exact .aside hmoves rfl
  | share h => exact .aside hmoves rfl
  | @drop s d t => exact s.settle_trails [t] d
  | beside h hj hp hh => exact .aside hmoves hh
  | rewire hL f v g => exact .aside hmoves rfl
  | root hs hl hq hp => exact .aside hmoves (hacc.hands_born rfl rfl rfl rfl rfl)
  | child hs hl hq hp hj hr hh hf =>
    exact .aside hmoves (hacc.hands_born rfl rfl rfl rfl rfl)
  | @refusedJob s t d signals job p q hs hl hq hp hj hr hh ht =>
    have hborn : Birth True True ⟨s, d⟩
        ⟨s.withJob signals job, .release (.object s.nextKoid) :: d⟩ :=
      .job hs hl hq fun p' hp' => by
        rw [hp] at hp'
        cases hp'
        exact ⟨q, hj, hr, hh⟩
    -- a job that was turned down goes again, and what follows from that may close handles
    refine .trans (.aside (hborn.moves.trans (Inert.moves ht.toInert _)) ?_)
      (t.settle_trails [.release (.object s.nextKoid)] d)
    exact ht.hands.trans (hacc.hands_born rfl rfl rfl rfl rfl)
  | process hs hj hr hf => exact .aside hmoves (hacc.hands_born rfl rfl rfl rfl rfl)
  | @refusedProcess s t d signals process hj ht =>
    have hborn : Birth True True ⟨s, d⟩
        ⟨s.withProcess signals process, .release (.object s.nextKoid) :: d⟩ := .process hj
    refine .trans (.aside (hborn.moves.trans (Inert.moves ht.toInert _)) ?_)
      (t.settle_trails [.release (.object s.nextKoid)] d)
    exact ht.hands.trans (hacc.hands_born rfl rfl rfl rfl rfl)
  | @arena s d a ha hlt capacity =>
    refine .tick (.aside hmoves (fun i b hi => ?_) (fun _ => rfl) rfl)
    refine (Store.getElem?_insert _ _ _ _).trans ((if_neg ?_).trans hi)
    rintro rfl
    rw [ha] at hi
    cases hi
  | table he => exact .tick (.aside hmoves (fun _ _ hi => hi) (fun _ => rfl) rfl)
  | handle ha hfull hk => exact .tick (.make ha hfull hk)
  | adopt hL ht hh => exact .tick (.aside hmoves (fun _ _ hi => hi) (fun _ => rfl) rfl)
  | @duplicate s d t table value h r arena rights ht hg hh ha hfull hk =>
    -- the handle is made in one tick and moves into the table in the next
    refine .trans (.tick (.make ha hfull hk)) (.tick (.aside (System.adopt_moves ht
      (r := { base := (arena.insert s.nextId).1, object := r.object, rights, arena := r.arena }) ?_)
      (fun _ _ hi => hi) (fun _ => rfl) rfl))
    exact Std.ExtTreeMap.getElem?_insert_self
  | expel ht hh => exact .tick (.aside hmoves (fun _ _ hi => hi) (fun _ => rfl) rfl)
  | @clear s d t => exact s.tableClear_trails t d
  | stamp hL process h => exact .tick (.aside hmoves (fun _ _ hi => hi) (fun _ => rfl) rfl)
  | @tell s d k hL =>
    refine ⟨[(some k, _)], .cons (.tell (hK _ k hL)) .nil, fun c hc => ?_⟩
    rw [List.mem_singleton.1 (show c ∈ [k] from hc)]
    exact hL
  | condemn code hj hr => exact .aside hmoves (System.commitKill_upkeep _ _ _ _).hands
  | @kill s d code k =>
    obtain he | ⟨p, hp, -, he⟩ := s.killProcess_cases code k
    · rw [he]
      exact .refl
    · rw [he]
      have hends := System.endProcess_declines (K := fun _ => True) (P := fun _ => True) code hp
        trivial d
      refine .trans (.aside hends.moves (System.hands_endProcess _ _ _)) ?_
      refine .trans (System.tableClear_trails _ p.table d) ?_
      exact .aside (System.detachProcess_moves _ _ _ d) (System.detachProcess_upkeep _ _ _).hands
  | attach hL k p => exact .aside hmoves (System.hands_attach _ _ _)
  | detach hL k p => exact .aside hmoves (System.detachProcess_upkeep _ _ _).hands

/-- **Every run of stages leaves a trail**, which stops only at objects that the liberties name. -/
theorem Stages.trails {w w' : World} (h : Stages L w w') (hacc : Accounted w.system w.dues)
    (hK : ∀ v k, L.tells k → K v k) : Trails K L w w' := by
  induction h with
  | refl => exact .refl
  | tail hrun hstage ih =>
    have hmoves : Moves True True w _ := Stages.moves hrun (fun _ => trivial) fun _ => trivial
    exact ih.trans (hstage.trails (hmoves.accounted hacc) hK)

/-! ## 3. Runs are trails

Operations one after the other, and with each of them the ticks of its stages. -/

namespace World

/-- Every operation is a trail. -/
theorem Passed.act_trail {w : World} (h : Passed True True w) (op : Op) :
    Trails (fun _ _ => True) (op.liberties w.system) w (w.act op) :=
  (act_stages h.accounted op).trails h.accounted fun _ _ _ => trivial

/-- **Every run of operations is a trail.** -/
theorem Passed.run_trail {w : World} (h : Passed True True w) (ops : List Op) :
    ∃ ls, Trail (fun _ _ => True) w ls (ops.foldl act w) := by
  induction ops generalizing w with
  | nil => exact ⟨[], .nil⟩
  | cons op ops ih =>
    obtain ⟨ls, hls, -⟩ := h.act_trail op
    obtain ⟨ms, hms⟩ := ih (h.trans hls.moves)
    exact ⟨ls ++ ms, hls.append hms⟩

end World

/-! ## 4. What a tick comes to

What the two ticks that are taken from the program do to handles and their counts. -/

namespace System

/-- Giving back a reference changes neither arenas nor counts, and nobody is told. -/
theorem perform_release {s : System} {r : Ref} {d : List Task}
    (hs : Slotted s (.release r :: d)) (hacc : Accounted s (.release r :: d)) :
    (s.perform (.release r)).1.arenas = s.arenas ∧
      (∀ k, (s.perform (.release r)).1.handleCount k = s.handleCount k) ∧
      (s.perform (.release r)).1.told = s.told := by
  have hshown : ∀ {t : System}, t.hands = s.hands →
      t.arenas = s.arenas ∧ (∀ k, t.handleCount k = s.handleCount k) ∧ t.told = s.told :=
    fun h => ⟨congrArg Hands.arenas h, fun k => congrFun (congrArg Hands.counts h) k,
      congrArg Hands.told h⟩
  unfold perform
  dsimp only
  split
  · exact ⟨rfl, fun _ => rfl, rfl⟩
  · rename_i h1
    cases r with
    -- An object that goes takes its number of handles along.  It had none, since a handle would
    -- refer to it.
    | object k =>
      have hhands := hands_destroyObject { s with refs := s.refs.release (.object k) } k
      refine ⟨congrArg Hands.arenas hhands, fun c => ?_, congrArg Hands.told hhands⟩
      exact (congrFun (congrArg Hands.counts hhands) c).trans (hs.handleCount_gone hacc h1 rfl c)
    | handle h =>
      unfold destroy
      dsimp only
      split <;> exact ⟨rfl, fun _ => rfl, rfl⟩
    | vmo v => exact hshown (hands_destroyVmo { s with refs := s.refs.release (.vmo v) } v)
    | mapping m => exact ⟨rfl, fun _ => rfl, rfl⟩
    | listener o => exact ⟨rfl, fun _ => rfl, rfl⟩
  · exact ⟨rfl, fun _ => rfl, rfl⟩

/-- The state after a handle left its slot and before anybody is told. -/
def closing (s : System) (r : Handle) : System := (s.withoutSlot r).log (.handleClosed r.base)

/-- **Closing a handle** tells its object if no other handle refers to it, and else only counts it
off. -/
theorem perform_close {s : System} {h : HandleId} {r : Handle} (hh : s.handles[h]? = some r) :
    (s.perform (.close h)).1 = if s.handleCount r.object = 1
      then (s.closing r).zeroHandles r.object else s.closing r := by
  unfold perform closeHandle
  dsimp only
  rw [hh]
  rfl

end System

/-- What a task comes to: nothing that arenas, counts and calls show, or a handle is closed. -/
theorem System.perform_sort {s : System} {t : Task} {d : List Task}
    (hp : World.Passed True True ⟨s, t :: d⟩) :
    ((s.perform t).1.arenas = s.arenas ∧
      (∀ k, (s.perform t).1.handleCount k = s.handleCount k) ∧
      (s.perform t).1.told = s.told) ∨
    ∃ x r, t = .close x ∧ World.Live ⟨s, t :: d⟩ x r ∧
      (s.perform t).1 = if s.handleCount r.object = 1
        then (s.closing r).zeroHandles r.object else s.closing r := by
  cases t with
  | release r => exact .inl (perform_release hp.slotted hp.accounted)
  | close x =>
    have hown : 0 < s.owners (.close x :: d) x := by
      rw [owners_close, if_pos rfl]
      exact Nat.succ_pos _
    obtain ⟨r, hr⟩ := hp.accounted.handle_of_owners hown
    exact .inr ⟨x, r, rfl, ⟨hr, hown⟩, perform_close hr⟩
  | closeTable t =>
    left
    unfold perform
    dsimp only
    split <;> exact ⟨rfl, fun _ => rfl, rfl⟩

/-- **What a tick comes to**: nothing that arenas, counts and calls show, or one handle is closed,
or one is made, or a kernel handle lets go. -/
theorem Tick.sort {l : Option Koid} {w w' : World} (h : Tick K l w w')
    (hp : w.Passed True True) :
    (l = none ∧
      (∀ (i : ArenaId) a, w.system.arenas[i]? = some a → w'.system.arenas[i]? = some a) ∧
      (∀ k, w'.system.handleCount k = w.system.handleCount k) ∧
      w'.system.told = w.system.told) ∨
    (l = none ∧ ∃ x r, w.Live x r ∧ w'.system = if w.system.handleCount r.object = 1
      then (w.system.closing r).zeroHandles r.object else w.system.closing r) ∨
    (l = none ∧ ∃ a arena k rights, w.system.arenas[a]? = some arena ∧ arena.isFull = false ∧
      w.system.Present (.object k) ∧ w'.system = w.system.withHandle a arena k rights) ∨
    ∃ k, l = some k ∧ K w k ∧ w'.system = w.system.zeroHandles k := by
  cases h with
  | perform t =>
    obtain ⟨ha, hc, ht⟩ | ⟨x, r, -, hl, he⟩ := System.perform_sort hp
    · exact .inl ⟨rfl, fun i a hi => ha ▸ hi, hc, ht⟩
    · exact .inr (.inl ⟨rfl, x, r, hl, he⟩)
  | make ha hfull hk => exact .inr (.inr (.inl ⟨rfl, _, _, _, _, ha, hfull, hk, rfl⟩))
  | tell hk => exact .inr (.inr (.inr ⟨_, rfl, hk, rfl⟩))
  | aside h ha hc ht => exact .inl ⟨rfl, ha, hc, ht⟩

end KernelObjects
