import KernelObjects.Proofs.Beats

/-
# Who is called when the first clone comes and the last one goes

The watcher of a VM object, if it is still there, is called once for each clone that is created
while the object has none, and once for each removal of its only clone; the list is written before
the call.  Nothing else calls it.  `Broods.edge` says so for one beat, and a run makes the calls
of its beats in their order (`World.Ran.clone_calls`).

As long as the same watcher stays, its calls take turns: first clone, last clone, first clone, and
so on.  One thing gets in the way.  A clone that is listed by hand is nobody's creation, so nobody
is told of it, and if it was the only one, the call that tells of its end comes out of turn
(`World.calls_out_of_turn`).

An edge is a crossing between no clones and some, so the calls are determined by the lengths of
the list before and after each beat.  That they take turns is then no more than that a number
cannot leave zero twice without coming back, and it fails just where the number changes without a
call.

Whether a watcher is still there is asked at the moment of the call.  A watcher that is gone stays
registered and is not called; nothing is made up for later, when another one takes its place.
-/

namespace KernelObjects

/-- Whether an event is a call that tells of the clones of an object. -/
def Event.tellsOf (v : VmoId) : Event → Bool
  | firstClone u _ _ | lastClone u _ _ => decide (u = v)
  | _ => false

namespace Broods

variable {b : Broods} {v u : VmoId} {x : Beat} {xs : List Beat}

/-! ## 1. What a call leaves alone

A call is an entry in the trace, and for a view a bit in its signals.  Lists and watchers are not
touched by it. -/

section Frame

variable (b : Broods) (v : VmoId) (appeared : Bool) (t : Watcher × Option String)

/-- What is heard is written into the trace and into signals, not into nests. -/
@[simp] theorem nest_hear : (b.hear v appeared t).nest = b.nest := by
  obtain ⟨k | o, label⟩ := t
  · cases appeared <;> rfl
  · rfl

@[simp] theorem watcher_hear : (b.hear v appeared t).watcher = b.watcher := by
  obtain ⟨k | o, label⟩ := t
  · cases appeared <;> rfl
  · rfl

/-- One who hears is called, and that is the latest call. -/
theorem calls_hear : (b.hear v appeared t).calls = callOf v appeared t :: b.calls := by
  obtain ⟨k | o, label⟩ := t
  · cases appeared <;> rfl
  · rfl

@[simp] theorem nest_tell : (b.tell v appeared).nest = b.nest := by
  unfold tell
  cases b.target v with
  | none => rfl
  | some t => exact nest_hear b v appeared t

@[simp] theorem watcher_tell : (b.tell v appeared).watcher = b.watcher := by
  unfold tell
  cases b.target v with
  | none => rfl
  | some t => exact watcher_hear b v appeared t

/-- Calls about clones are not calls about handles. -/
theorem told_tell : (b.tell v appeared).told = b.told := by
  unfold tell
  cases b.target v with
  | none => rfl
  | some t =>
    obtain ⟨k | o, label⟩ := t
    · cases appeared <;> rfl
    · rfl

theorem clones_tell (u : VmoId) : (b.tell v appeared).clones u = b.clones u := by
  unfold clones
  rw [nest_tell]

end Frame

/-! ## 2. Lists

What a list is like after a beat, as far as the calls depend on it: its length, and whether it is
empty. -/

/-- The clones of an object are part of its nest. -/
theorem clones_congr {c : Broods} (h : c.nest v = b.nest v) : c.clones v = b.clones v := by
  unfold clones
  rw [h]

/-- A list is written to only if the object is known. -/
theorem clones_setClones (f : List VmoId → List VmoId) :
    (b.setClones v f).clones u =
      if v = u ∧ (b.nest u).isSome then f (b.clones u) else b.clones u := by
  unfold clones setClones modifyNest
  dsimp only
  by_cases hu : v = u
  · rw [if_pos hu]
    cases b.nest u <;> simp [hu]
  · rw [if_neg hu, if_neg fun h => hu h.1]

/-- What a list is like after a clone was put in. -/
theorem clones_cloned (c : VmoId) : (b.apply (.cloned v c)).clones u =
    if v = u ∧ (b.nest u).isSome then b.clones u ++ [c] else b.clones u := by
  refine Eq.trans ?_ (clones_setClones (b := b) (· ++ [c]))
  dsimp only [apply]
  split
  · exact clones_tell _ _ _ _
  · rfl

theorem clones_recorded (c : VmoId) : (b.apply (.recorded v c)).clones u =
    if v = u ∧ (b.nest u).isSome then b.clones u ++ [c] else b.clones u :=
  clones_setClones (b := b) (· ++ [c])

theorem clones_born : (b.apply (.born v)).clones u = if v = u then [] else b.clones u := by
  unfold clones
  show (if v = u then _ else b.nest u : Option Member.Nest).elim _ _ = _
  split <;> rfl

theorem clones_died : (b.apply (.died v)).clones u = if v = u then [] else b.clones u := by
  unfold clones
  show (if v = u then none else b.nest u : Option Member.Nest).elim _ _ = _
  split <;> rfl

theorem clones_stamp (id : Koid) : (b.apply (.stamped v id)).clones u = b.clones u := by
  unfold clones apply modifyNest
  dsimp only
  split
  · cases b.nest u with
    | none => rfl
    | some n =>
      dsimp only [Option.map_some, Option.elim_some]
      split <;> rfl
  · rfl

theorem clones_viewed (k : Koid) : (b.apply (.viewed k v)).clones u = b.clones u := by
  unfold clones
  show ((if v = u then (b.nest u).map _ else b.nest u) : Option Member.Nest).elim _ _ = _
  split
  · cases b.nest u <;> rfl
  · rfl

/-- What is left of a list after somebody was taken off it. -/
theorem clones_forgot {c : VmoId} {rest : List VmoId}
    (h : Member.removeSwapping (b.clones u) c = some rest) :
    (b.apply (.forgot u c)).clones v = if u = v then rest else b.clones v := by
  have hm : (b.setClones u fun _ => rest).clones v = if u = v then rest else b.clones v := by
    rw [clones_setClones]
    by_cases hu : u = v
    · subst hu
      cases hn : b.nest u with
      | some n => simp
      | none =>
        rw [clones, hn] at h
        cases h
    · rw [if_neg hu, if_neg fun h => hu h.1]
  dsimp only [apply]
  rw [h]
  dsimp only
  split
  · rw [clones_tell, hm]
  · exact hm

theorem nest_told (k : Koid) : (b.apply (.told k)).nest = b.nest := by
  dsimp only [apply]
  cases b.look k <;> rfl

/-! ## 3. The calls of a beat

Calls are made at edges, and at each edge to the one who watches then. -/

/-- Who watches an object and is there is called once. -/
def callTo (b : Broods) (v : VmoId) (appeared : Bool) : List Event :=
  (b.target v).toList.map (callOf v appeared)

/-- The calls of a beat: one for a creation that takes the number of clones from zero to one, one
for a removal that takes it from one to zero, and none for anything else. -/
def edge (b : Broods) : Beat → List Event
  | .cloned v c =>
    if (b.clones v).length = 0 ∧ ((b.apply (.cloned v c)).clones v).length = 1
    then b.callTo v true else []
  | .forgot v c =>
    if (b.clones v).length = 1 ∧ ((b.apply (.forgot v c)).clones v).length = 0
    then b.callTo v false else []
  | _ => []

/-- What is true of the calls of one beat. -/
structure Answers (b : Broods) (x : Beat) : Prop where
  /-- The beat makes its calls, -/
  calls : (b.apply x).calls = (b.edge x).reverse ++ b.calls
  /-- and each of them in a state that shows the lists as they are after the beat, and no call
  yet. -/
  late : ∀ e ∈ b.edge x, ∃ (m : Broods) (v : VmoId) (appeared : Bool) (t : Watcher × Option String),
    m.nest = (b.apply x).nest ∧ m.calls = b.calls ∧ m.target v = some t ∧
      e = callOf v appeared t ∧ b.apply x = m.hear v appeared t

/-- What it takes to tell whoever watches, in a state `m`. -/
theorem answers_of_tell {m : Broods} (appeared : Bool) (hx : b.apply x = m.tell v appeared)
    (hm : m.target v = b.target v) (hcalls : m.calls = b.calls)
    (hedge : b.edge x = b.callTo v appeared) : b.Answers x := by
  unfold callTo at hedge
  rw [← hm] at hedge
  unfold tell at hx
  cases ht : m.target v with
  | none =>
    rw [ht] at hx hedge
    exact ⟨by rw [hx, hedge]; exact hcalls, fun e he => by rw [hedge] at he; cases he⟩
  | some t =>
    rw [ht] at hx hedge
    have hx : b.apply x = m.hear v appeared t := hx
    have hedge : b.edge x = [callOf v appeared t] := hedge
    refine ⟨?_, fun e he => ⟨m, v, appeared, t, ?_, hcalls, ht, ?_, hx⟩⟩
    · rw [hx, hedge, calls_hear, hcalls]
      rfl
    · rw [hx, nest_hear]
    · rw [hedge] at he
      exact List.mem_singleton.1 he

/-- A beat that makes no calls and crosses no edge is in order. -/
theorem answers_of_nothing (hx : (b.apply x).calls = b.calls) (hedge : b.edge x = []) :
    b.Answers x :=
  ⟨by rw [hx, hedge]; rfl, fun e he => by rw [hedge] at he; cases he⟩

/-- A clone that is entered crosses an edge just if the list was empty before, and that is just when
the watcher is called. -/
theorem answers_cloned (c : VmoId) : b.Answers (.cloned v c) := by
  set m := b.setClones v (· ++ [c])
  have happly : b.apply (.cloned v c) =
      if (m.clones v).length = 1 then m.tell v true else m := rfl
  have hlist : (b.apply (.cloned v c)).clones v = m.clones v := by
    rw [happly]
    split
    · exact clones_tell m v true v
    · rfl
  -- One entry after the clone was entered means none before it, also where no list is there to
  -- enter it in: then the list reads as empty both times.
  have hbefore : (m.clones v).length = 1 → (b.clones v).length = 0 := by
    rw [clones_setClones]
    split
    · rw [List.length_append]
      intro h
      simpa using h
    · rename_i hn
      intro h
      have hnone : b.nest v = none := by
        simpa using fun hs => hn ⟨rfl, hs⟩
      rw [clones, hnone]
      rfl
  by_cases hone : (m.clones v).length = 1
  · refine answers_of_tell (m := m) (v := v) true ?_ rfl rfl ?_
    · rw [happly, if_pos hone]
    · exact if_pos ⟨hbefore hone, by rw [hlist, hone]⟩
  · refine answers_of_nothing ?_ ?_
    · rw [happly, if_neg hone]
      rfl
    · refine if_neg fun h => hone ?_
      rw [← hlist]
      exact h.2

/-- What is taken off a list leaves it shorter by one. -/
theorem length_removeSwapping {ys zs : List VmoId} {c : VmoId}
    (h : Member.removeSwapping ys c = some zs) : ys.length = zs.length + 1 := by
  obtain ⟨hc, hperm⟩ := Member.of_removeSwapping h
  rw [hperm.length_eq, List.length_erase_of_mem hc]
  have hpos := List.length_pos_of_mem hc
  omega

/-- A clone that is taken off crosses an edge just if the list is empty after it and was not
before. -/
theorem answers_forgot (c : VmoId) : b.Answers (.forgot v c) := by
  cases hrest : Member.removeSwapping (b.clones v) c with
  | none =>
    have happly : b.apply (.forgot v c) = b := by
      dsimp only [apply]
      rw [hrest]
    refine answers_of_nothing (by rw [happly]) (if_neg fun h => ?_)
    rw [happly, h.1] at h
    cases h.2
  | some rest =>
    set m := b.setClones v fun _ => rest
    have happly : b.apply (.forgot v c) = if rest.isEmpty then m.tell v false else m := by
      dsimp only [apply]
      rw [hrest]
    have hlength := length_removeSwapping hrest
    have hlist := clones_forgot (v := v) hrest
    rw [if_pos rfl] at hlist
    -- The clone was on the list.  If it was the only entry the list is empty now and was not
    -- before: that is the edge.
    cases rest with
    | nil =>
      refine answers_of_tell (m := m) (v := v) false happly rfl rfl (if_pos ?_)
      rw [hlist]
      exact ⟨hlength, rfl⟩
    | cons a rest =>
      refine answers_of_nothing (by rw [happly]; rfl) (if_neg fun h => ?_)
      rw [hlist] at h
      cases h.2

/-- **Each beat makes its calls, and no others.** -/
theorem answers (b : Broods) (x : Beat) : b.Answers x := by
  cases x with
  | cloned v c => exact answers_cloned c
  | forgot v c => exact answers_forgot c
  | told k =>
    refine answers_of_nothing ?_ rfl
    dsimp only [apply]
    cases b.look k <;> rfl
  | _ => exact answers_of_nothing rfl rfl

/-! ## 4. The calls of a run

The calls of its beats in a row. -/

/-- The state after some beats. -/
def after (b : Broods) (xs : List Beat) : Broods := xs.foldl apply b

/-- The calls of some beats, in their order. -/
def edges : Broods → List Beat → List Event
  | _, [] => []
  | b, x :: xs => b.edge x ++ (b.apply x).edges xs

/-- Where a play leads is a function of its beats. -/
theorem Plays.eq_after {b' : Broods} (h : Plays b xs b') : b' = b.after xs := by
  induction h with
  | done => rfl
  | beat _ _ ih => exact ih

/-- The calls of a play are the edges that its beats cross, one by one. -/
theorem calls_after : (b.after xs).calls = (b.edges xs).reverse ++ b.calls := by
  induction xs generalizing b with
  | nil => rfl
  | cons x xs ih =>
    have hrest : (b.after (x :: xs)).calls = _ := ih (b := b.apply x)
    rw [hrest, (b.answers x).calls, edges, List.reverse_append, List.append_assoc]

/-! ## 5. Calls that take turns

The watcher has to stay, and nobody may list a first clone by hand.  Then the calls that are made
say at any time whether the list is empty: it is if there was none or if the last one told of an
end. -/

/-- Calls about an object, of both kinds in turn. -/
def inTurn (v : VmoId) (t : Watcher × Option String) : Bool → Nat → List Event
  | _, 0 => []
  | appeared, n + 1 => callOf v appeared t :: inTurn v t (!appeared) n

/-- Whether the same watcher stays with an object all the time, while nobody lists a clone of it by
hand that is then its only one. -/
def Attends (v : VmoId) (t : Watcher × Option String) : Broods → List Beat → Prop
  | b, [] => b.target v = some t
  | b, x :: xs => b.target v = some t ∧ (∀ c, x = .recorded v c → b.clones v ≠ []) ∧
      Attends v t (b.apply x) xs

theorem tellsOf_callOf (u : VmoId) (appeared : Bool) (t : Watcher × Option String) :
    (callOf u appeared t).tellsOf v = decide (u = v) := by
  cases appeared <;> rfl

/-- Whoever watches another object is not told of this one. -/
theorem filter_callTo_of_ne (h : u ≠ v) (appeared : Bool) :
    (b.callTo u appeared).filter (Event.tellsOf v) = [] := by
  rw [List.filter_eq_nil_iff]
  intro e he
  obtain ⟨t, -, rfl⟩ := List.mem_map.1 he
  rw [tellsOf_callOf]
  simpa using h

/-- The call to a watcher that is there is one call, about the object that it watches. -/
theorem filter_callTo {t : Watcher × Option String} (ht : b.target v = some t) (appeared : Bool) :
    (b.callTo v appeared).filter (Event.tellsOf v) = [callOf v appeared t] := by
  rw [callTo, ht]
  exact List.filter_eq_self.2 fun e he => by
    rw [List.mem_singleton.1 he, tellsOf_callOf]
    exact decide_eq_true rfl

/-- What a beat says of an object: nothing, while its list stays empty or stays not so, or that this
has just changed. -/
def Tells (b : Broods) (v : VmoId) (t : Watcher × Option String) (x : Beat) : Prop :=
  (b.edge x).filter (Event.tellsOf v) = [] ∧ ((b.apply x).clones v = [] ↔ b.clones v = []) ∨
    (b.edge x).filter (Event.tellsOf v) = [callOf v (decide (b.clones v = [])) t] ∧
      ((b.apply x).clones v = [] ↔ b.clones v ≠ [])

variable {t : Watcher × Option String}

/-- While a watcher is registered, each first clone is told to it once and to nobody else. -/
theorem tells_cloned (ht : b.target v = some t) (c : VmoId) : b.Tells v t (.cloned u c) := by
  have hlist := clones_cloned (b := b) (v := u) (u := v) c
  by_cases hu : u = v
  · subst hu
    by_cases hn : (b.nest u).isSome
    · rw [if_pos ⟨rfl, hn⟩] at hlist
      by_cases hempty : b.clones u = []
      · have hedge : b.edge (.cloned u c) = b.callTo u true := if_pos (by rw [hlist, hempty]; simp)
        exact .inr ⟨by rw [hedge, filter_callTo ht, hempty]; rfl, by rw [hlist, hempty]; simp⟩
      · have hedge : b.edge (.cloned u c) = [] := if_neg fun h =>
          hempty (List.length_eq_zero_iff.1 h.1)
        exact .inl ⟨by rw [hedge]; rfl, by rw [hlist]; simp [hempty]⟩
    · rw [if_neg fun h => hn h.2] at hlist
      have hedge : b.edge (.cloned u c) = [] := if_neg fun h => by
        rw [hlist, h.1] at h
        cases h.2
      exact .inl ⟨by rw [hedge]; rfl, by rw [hlist]⟩
  · rw [if_neg fun h => hu h.1] at hlist
    refine .inl ⟨?_, by rw [hlist]⟩
    dsimp only [edge]
    split
    · exact filter_callTo_of_ne hu _
    · rfl

/-- The same of the end of each last clone. -/
theorem tells_forgot (ht : b.target v = some t) (c : VmoId) : b.Tells v t (.forgot u c) := by
  cases hrest : Member.removeSwapping (b.clones u) c with
  | none =>
    have happly : b.apply (.forgot u c) = b := by
      dsimp only [apply]
      rw [hrest]
    have hedge : b.edge (.forgot u c) = [] := if_neg fun h => by
      rw [happly, h.1] at h
      cases h.2
    exact .inl ⟨by rw [hedge]; rfl, by rw [happly]⟩
  | some rest =>
    have hlist := clones_forgot (v := v) hrest
    have hself := clones_forgot (v := u) hrest
    have hlength := length_removeSwapping hrest
    rw [if_pos rfl] at hself
    -- Where it is the list of another object that gets shorter, its calls are for its own watcher
    -- and the list of `v` is the same.
    by_cases hu : u = v
    · subst hu
      have hthere : b.clones u ≠ [] := fun h => by
        rw [h] at hlength
        cases hlength
      cases rest with
      | nil =>
        have hedge : b.edge (.forgot u c) = b.callTo u false := if_pos ⟨hlength, by rw [hself]; rfl⟩
        exact .inr ⟨by rw [hedge, filter_callTo ht, decide_eq_false hthere],
          by rw [hself]; exact iff_of_true rfl hthere⟩
      | cons a rest =>
        have hedge : b.edge (.forgot u c) = [] := if_neg fun h => by
          rw [hself] at h
          cases h.2
        exact .inl ⟨by rw [hedge]; rfl, by rw [hself]; simp [hthere]⟩
    · rw [if_neg hu] at hlist
      refine .inl ⟨?_, by rw [hlist]⟩
      dsimp only [edge]
      split
      · exact filter_callTo_of_ne hu _
      · rfl

/-- **What each beat says of an object with a watcher that stays.** -/
theorem tells (ht : b.target v = some t) (ht' : (b.apply x).target v = some t)
    (hx : ∀ c, x = .recorded v c → b.clones v ≠ []) : b.Tells v t x := by
  -- beats that write no list make no call
  have hsame : b.edge x = [] → (b.apply x).clones v = b.clones v → b.Tells v t x :=
    fun he hlist => .inl ⟨by rw [he]; rfl, by rw [hlist]⟩
  cases x with
  | born u =>
    refine hsame rfl (clones_congr (if_neg fun hu => ?_))
    subst hu
    unfold target apply at ht'
    dsimp only at ht'
    rw [if_pos rfl] at ht'
    cases ht'
  | cloned u c => exact tells_cloned ht c
  | recorded u c =>
    have hlist := clones_recorded (b := b) (v := u) (u := v) c
    by_cases hu : u = v
    · subst hu
      have hthere := hx c rfl
      refine .inl ⟨rfl, ?_⟩
      rw [hlist]
      split
      · simp [hthere]
      · rfl
    · rw [if_neg fun h => hu h.1] at hlist
      exact hsame rfl hlist
  | stamped u id => exact hsame rfl (clones_stamp id)
  | watched u y => exact hsame rfl rfl
  | viewed k u => exact hsame rfl (clones_viewed k)
  | listened o label => exact hsame rfl rfl
  | signalled k clear set => exact hsame rfl rfl
  | forgot u c => exact tells_forgot ht c
  | died u =>
    refine hsame rfl (clones_congr (if_neg fun hu => ?_))
    subst hu
    unfold target apply at ht'
    dsimp only at ht'
    rw [if_pos rfl] at ht'
    cases ht'
  | viewGone k => exact hsame rfl rfl
  | listenerGone o => exact hsame rfl rfl
  | told k => exact hsame rfl (clones_congr (congrFun (nest_told k) v))

/-- **Whoever stays is called in turn**, first of a clone if there was none. -/
theorem Attends.edges_inTurn (h : Attends v t b xs) :
    ∃ n, (b.edges xs).filter (Event.tellsOf v) = inTurn v t (decide (b.clones v = [])) n := by
  induction xs generalizing b with
  | nil => exact ⟨0, rfl⟩
  | cons x xs ih =>
    obtain ⟨ht, hx, hrest⟩ := h
    obtain ⟨n, hn⟩ := ih hrest
    have ht' : (b.apply x).target v = some t := by
      cases xs with
      | nil => exact hrest
      | cons y ys => exact hrest.1
    rw [edges, List.filter_append, hn]
    obtain ⟨he, hempty⟩ | ⟨he, hempty⟩ := tells ht ht' hx
    · refine ⟨n, ?_⟩
      rw [he, List.nil_append, decide_eq_decide.2 hempty]
    · refine ⟨n + 1, ?_⟩
      rw [he, inTurn, decide_eq_decide.2 hempty, decide_not]
      rfl

/-- **The calls of a run from `b` to `b'` by the beats `xs` are exactly the ones that are due.** -/
structure CallsExact (b : Broods) (xs : List Beat) (b' : Broods) : Prop where
  /-- The run makes the calls of its beats, in their order, and no others. -/
  calls : b'.calls = (b.edges xs).reverse ++ b.calls
  /-- Each call is made after the list was written. -/
  answers : ∀ (ys : List Beat) (x : Beat) (zs : List Beat), xs = ys ++ x :: zs →
    (b.after ys).Answers x
  /-- Whoever comes to an object without clones and stays is called in turn, of a first clone
  first. -/
  inTurn : ∀ (ys zs us : List Beat) (v : VmoId) (t : Watcher × Option String),
    xs = ys ++ zs ++ us → (b.after ys).clones v = [] → Attends v t (b.after ys) zs →
      ∃ n, ((b.after ys).edges zs).filter (Event.tellsOf v) = Broods.inTurn v t true n

/-- Along a play the calls are those of the edges, in turn: induction on the beats. -/
theorem Plays.callsExact {b' : Broods} (h : Plays b xs b') : CallsExact b xs b' where
  calls := h.eq_after ▸ calls_after
  answers ys x _ _ := (b.after ys).answers x
  inTurn ys zs us v t _ hempty hstays := by
    obtain ⟨n, hn⟩ := hstays.edges_inTurn
    rw [decide_eq_true hempty] at hn
    exact ⟨n, hn⟩

end Broods

namespace World

/-! ## 6. Runs of operations

From beats back to operations: the calls of a run are those of its operations, each with what it
did to the list. -/

/-- **Every run calls those who watch clones when it is due, and at no other time.**  The clones
that are created are those of the operations that clone, and no operation lists any other clone
but by hand. -/
theorem Ran.clone_calls {P Q : System → Op → Prop} {w u : World} (hw : w.Ran P)
    (h : w.Onward Q u) :
    ∃ xs, w.Recount Q xs u ∧ Broods.CallsExact w.system.broods xs u.system.broods := by
  obtain ⟨xs, hxs⟩ := h.recount hw
  exact ⟨xs, hxs, hxs.plays.callsExact⟩

/-- A listener watches the first one of two VM objects. -/
def watchedOps : List Op :=
  [.createVmo 4096 0, .createVmo 4096 0, .createListener "o", .setWatcher 1 (some (.listener 1))]

/-- Two clones come, are taken off the list, one of them twice, and another one comes. -/
def cloningOps : List Op :=
  [.cloneVmo 1 ⟨false, 0, 4096, false⟩, .cloneVmo 1 ⟨false, 0, 4096, false⟩, .forgetClone 1 3,
    .forgetClone 1 3, .forgetClone 1 4, .cloneVmo 1 ⟨false, 0, 4096, false⟩]

/-- The listener hears of the first clone, of the end of the last one, and of a first one again. -/
theorem Ran.clone_calls_of_cloning :
    let w := run watchedOps
    let u := cloningOps.foldl World.act w
    (∃ xs, w.Recount (fun _ _ => True) xs u ∧
      Broods.CallsExact w.system.broods xs u.system.broods) ∧
    u.system.trace.filter Event.isCloneCall =
      [.firstClone 1 (.listener 1) (some "o"), .lastClone 1 (.listener 1) (some "o"),
        .firstClone 1 (.listener 1) (some "o")] := by
  have hran : (run watchedOps).Ran fun _ _ => True := Ran.start.foldl (keep_any _ _)
  exact ⟨hran.clone_calls (Onward.refl.foldl (keep_any _ _)), by decide +kernel⟩

/-- A clone that is listed by hand is the only one when it is taken off the list: the listener,
who was there all the time and saw an object without clones, hears of the end of the last clone
before it heard of a first one. -/
theorem calls_out_of_turn :
    let w := run watchedOps
    let u := act w (.recordClone 1 1 2)
    let x := act u (.forgetClone 1 2)
    let t : Watcher × Option String := (.listener 1, some "o")
    w.system.broods.clones 1 = [] ∧ w.system.broods.target 1 = some t ∧
      u.system.broods.target 1 = some t ∧ x.system.broods.target 1 = some t ∧
      w.system.broods.calls = [] ∧
      ∀ n, x.system.broods.calls.reverse.filter (Event.tellsOf 1) ≠ Broods.inTurn 1 t true n := by
  intro w u x t
  refine ⟨by decide +kernel, by decide +kernel, by decide +kernel, by decide +kernel,
    by decide +kernel, fun n => ?_⟩
  have hcalls : x.system.broods.calls.reverse.filter (Event.tellsOf 1) =
      [.lastClone 1 (.listener 1) (some "o")] := by decide +kernel
  rw [hcalls]
  cases n with
  | zero => exact List.cons_ne_nil _ _
  | succ n =>
    intro h
    cases h

end World

end KernelObjects
