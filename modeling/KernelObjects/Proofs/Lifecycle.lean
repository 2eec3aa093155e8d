import KernelObjects.Proofs.Lives
import KernelObjects.System.Info

/-
# The lifecycle of jobs

A job goes from ready over killing to dead, or from ready to dead at once, and never back.  It
takes its return code in the step in which it leaves ready, and from then on it only loses
children.  While it is being killed it has a child left, and a dead job has none.  Its signals say
whether it is dead and which of its two lists is empty, as long as nobody writes them by hand.

Death is triggered in three places: by the kill of a job without children, by the last job that
leaves and by the last process that leaves; and the last two happen deep inside of destructors and
of kills of other jobs.  On the lives of jobs all three are turns, so two things are shown for
each turn: a sound life stays sound (`Lives.Turn.sound`), and a life only ages
(`Lives.Turn.ages`).

What carries the signals is that a turn which changes a list sees to the bits in the same turn, so
little has to be said of the moment in between (`Modest`).

Entries that a client makes by hand are children like any other here: they keep a job from dying,
their removal is the loss of a child, and they show in the signals.  Nothing is assumed of the
lists beyond what they say.
-/

namespace KernelObjects

/-! ## 1. Single signals

Signals are sets of bits, and lives speak of three single bits.  For a single bit the laws of sets
are laws of membership. -/

namespace Signals

/-- One bit alone. -/
def IsBit (b : Signals) : Prop := ∃ i : Fin 32, b.bits = BitVec.twoPow 32 i

theorem isBit_taskTerminated : taskTerminated.IsBit := ⟨3, by decide⟩

theorem isBit_noJobs : noJobs.IsBit := ⟨4, by decide⟩

theorem isBit_noProcesses : noProcesses.IsBit := ⟨5, by decide⟩

variable {b : Signals}

/-- Whether a signal is set is read off one bit. -/
theorem IsBit.subset_iff (h : b.IsBit) :
    ∃ i : Fin 32, ∀ x : Signals, b ⊆ x ↔ x.bits.getLsbD i = true := by
  obtain ⟨i, hi⟩ := h
  refine ⟨i, fun x => ?_⟩
  show b.bits &&& x.bits = b.bits ↔ _
  rw [hi, BitVec.and_comm, BitVec.and_twoPow]
  constructor
  · intro h
    by_contra hx
    rw [if_neg hx] at h
    have hbit := congrArg (fun y : BitVec 32 => y.getLsbD i) h
    simp at hbit
  · exact fun h => if_pos h

/-- A signal is set after an update if it was set then, or before and was not cleared. -/
theorem IsBit.subset_update_iff (h : b.IsBit) (x clear set : Signals) :
    b ⊆ x.update clear set ↔ b ⊆ x ∧ ¬ b ⊆ clear ∨ b ⊆ set := by
  obtain ⟨i, hi⟩ := h.subset_iff
  rw [hi, hi, hi, hi, update, BitVec.getLsbD_or, BitVec.getLsbD_and, BitVec.getLsbD_not,
    decide_eq_true i.isLt, Bool.or_eq_true, Bool.and_eq_true, Bool.true_and, Bool.not_eq_true',
    Bool.not_eq_true]

theorem IsBit.subset_union_iff (h : b.IsBit) (x y : Signals) : b ⊆ x ∪ y ↔ b ⊆ x ∨ b ⊆ y := by
  obtain ⟨i, hi⟩ := h.subset_iff
  rw [hi, hi, hi]
  show (x.bits ||| y.bits).getLsbD i ↔ _
  rw [BitVec.getLsbD_or, Bool.or_eq_true]

theorem IsBit.not_subset_empty (h : b.IsBit) : ¬ b ⊆ empty := by
  obtain ⟨i, hi⟩ := h.subset_iff
  rw [hi]
  simp [empty]

theorem IsBit.subset_ite_iff (h : b.IsBit) (p : Prop) [Decidable p] (x : Signals) :
    b ⊆ (if p then x else empty) ↔ p ∧ b ⊆ x := by
  by_cases hp : p
  · rw [if_pos hp, and_iff_right hp]
  · rw [if_neg hp]
    exact ⟨fun he => absurd he h.not_subset_empty, fun hx => absurd hx.1 hp⟩

/-- The three signals of a job stand at three places. -/
theorem apart : ¬ noJobs ⊆ noProcesses ∧ ¬ noProcesses ⊆ noJobs ∧ ¬ taskTerminated ⊆ noJobs ∧
    ¬ taskTerminated ⊆ noProcesses ∧ ¬ noJobs ⊆ taskTerminated ∧
      ¬ noProcesses ⊆ taskTerminated := by decide

end Signals

/-! ## 2. Sound lives

What the signals say is compared with the lists; what the state says, with whether there is a
child. -/

namespace Job.Life

/-- The signals of a job say how it stands. -/
structure Shown (a : Life) (x : Signals) : Prop where
  terminated : Signals.taskTerminated ⊆ x ↔ a.state = .dead
  noJobs : Signals.noJobs ⊆ x ↔ a.jobs = []
  noProcesses : Signals.noProcesses ⊆ x ↔ a.processes = []

/-- A job that is being killed has a child left, and a dead job has none.  Signals show that, unless
they are written freely. -/
structure Sound (free : Prop) (a : Life) : Prop where
  killing : a.state = .killing → ¬ a.Vacant
  dead : a.state = .dead → a.Vacant
  shown : ¬ free → ∀ x, a.signals = some x → a.Shown x

variable {free : Prop} {a : Life} {x : Signals}

theorem sound_newborn : newborn.Sound free where
  killing h := by cases h
  dead h := by cases h
  shown _ x hx := by
    cases hx
    exact ⟨by decide, by decide, by decide⟩

/-- What holds before the last list that ran empty is shown as such: no list with a child in it is
shown as empty. -/
structure Modest (a : Life) (x : Signals) : Prop where
  terminated : Signals.taskTerminated ⊆ x ↔ a.state = .dead
  noJobs : Signals.noJobs ⊆ x → a.jobs = []
  noProcesses : Signals.noProcesses ⊆ x → a.processes = []

open Signals in
theorem noJobs_subset_arrival (a : Life) : Signals.noJobs ⊆ a.arrival ↔ a.jobs.length = 1 := by
  rw [arrival, isBit_noJobs.subset_union_iff, isBit_noJobs.subset_ite_iff,
    isBit_noJobs.subset_ite_iff]
  simp only [apart, subset_self, and_false, and_true, false_or]

open Signals in
theorem noProcesses_subset_arrival (a : Life) :
    Signals.noProcesses ⊆ a.arrival ↔ a.processes.length = 1 := by
  rw [arrival, isBit_noProcesses.subset_union_iff, isBit_noProcesses.subset_ite_iff,
    isBit_noProcesses.subset_ite_iff]
  simp only [apart, subset_self, and_false, and_true, or_false]

open Signals in
theorem taskTerminated_subset_arrival (a : Life) : ¬ Signals.taskTerminated ⊆ a.arrival := by
  rw [arrival, isBit_taskTerminated.subset_union_iff, isBit_taskTerminated.subset_ite_iff,
    isBit_taskTerminated.subset_ite_iff]
  simp only [apart, and_false, or_self, not_false_eq_true]

open Signals in
theorem noJobs_subset_departure (a : Life) : Signals.noJobs ⊆ a.departure ↔ a.jobs = [] := by
  rw [departure, isBit_noJobs.subset_union_iff, isBit_noJobs.subset_ite_iff,
    isBit_noJobs.subset_ite_iff]
  simp only [apart, subset_self, and_false, and_true, false_or]

open Signals in
theorem noProcesses_subset_departure (a : Life) :
    Signals.noProcesses ⊆ a.departure ↔ a.processes = [] := by
  rw [departure, isBit_noProcesses.subset_union_iff, isBit_noProcesses.subset_ite_iff,
    isBit_noProcesses.subset_ite_iff]
  simp only [apart, subset_self, and_false, and_true, or_false]

open Signals in
theorem taskTerminated_subset_departure (a : Life) : ¬ Signals.taskTerminated ⊆ a.departure := by
  rw [departure, isBit_taskTerminated.subset_union_iff, isBit_taskTerminated.subset_ite_iff,
    isBit_taskTerminated.subset_ite_iff]
  simp only [apart, and_false, or_self, not_false_eq_true]

theorem Shown.bury (h : a.Shown x) :
    { a with state := .dead }.Shown (x.update .empty .taskTerminated) where
  terminated := by
    rw [Signals.isBit_taskTerminated.subset_update_iff]
    exact ⟨fun _ => rfl, fun _ => .inr (Signals.subset_self _)⟩
  noJobs := by
    rw [Signals.isBit_noJobs.subset_update_iff, h.noJobs]
    simp only [Signals.apart, Signals.isBit_noJobs.not_subset_empty, not_false_eq_true, and_true,
      or_false]
  noProcesses := by
    rw [Signals.isBit_noProcesses.subset_update_iff, h.noProcesses]
    simp only [Signals.apart, Signals.isBit_noProcesses.not_subset_empty, not_false_eq_true,
      and_true, or_false]

theorem Modest.bury (h : a.Modest x) :
    { a with state := .dead }.Modest (x.update .empty .taskTerminated) where
  terminated := by
    rw [Signals.isBit_taskTerminated.subset_update_iff]
    exact ⟨fun _ => rfl, fun _ => .inr (Signals.subset_self _)⟩
  noJobs := by
    rw [Signals.isBit_noJobs.subset_update_iff]
    exact fun hx => hx.elim (fun hx => h.noJobs hx.1) fun hx => absurd hx (by decide)
  noProcesses := by
    rw [Signals.isBit_noProcesses.subset_update_iff]
    exact fun hx => hx.elim (fun hx => h.noProcesses hx.1) fun hx => absurd hx (by decide)

/-- Setting the signals of the empty lists makes up for all that was not shown. -/
theorem Modest.depart (h : a.Modest x) : a.Shown (x.update .empty a.departure) where
  terminated := by
    rw [Signals.isBit_taskTerminated.subset_update_iff, h.terminated]
    simp only [taskTerminated_subset_departure, Signals.isBit_taskTerminated.not_subset_empty,
      not_false_eq_true, and_true, or_false]
  noJobs := by
    rw [Signals.isBit_noJobs.subset_update_iff, noJobs_subset_departure]
    exact ⟨fun hx => hx.elim (fun hx => h.noJobs hx.1) id, .inr⟩
  noProcesses := by
    rw [Signals.isBit_noProcesses.subset_update_iff, noProcesses_subset_departure]
    exact ⟨fun hx => hx.elim (fun hx => h.noProcesses hx.1) id, .inr⟩

/-- A list of one entry may have run empty before; every other list is shown as it is. -/
theorem Shown.welcome (ht : Signals.taskTerminated ⊆ x ↔ a.state = .dead)
    (hj : a.jobs.length ≠ 1 → (Signals.noJobs ⊆ x ↔ a.jobs = []))
    (hp : a.processes.length ≠ 1 → (Signals.noProcesses ⊆ x ↔ a.processes = [])) :
    a.Shown (x.update a.arrival .empty) where
  terminated := by
    rw [Signals.isBit_taskTerminated.subset_update_iff, ht]
    simp only [taskTerminated_subset_arrival, Signals.isBit_taskTerminated.not_subset_empty,
      not_false_eq_true, and_true, or_false]
  noJobs := by
    rw [Signals.isBit_noJobs.subset_update_iff, noJobs_subset_arrival,
      or_iff_left Signals.isBit_noJobs.not_subset_empty]
    constructor
    · exact fun h => (hj h.2).1 h.1
    · intro h
      have hone : a.jobs.length ≠ 1 := by simp [h]
      exact ⟨(hj hone).2 h, hone⟩
  noProcesses := by
    rw [Signals.isBit_noProcesses.subset_update_iff, noProcesses_subset_arrival,
      or_iff_left Signals.isBit_noProcesses.not_subset_empty]
    constructor
    · exact fun h => (hp h.2).1 h.1
    · intro h
      have hone : a.processes.length ≠ 1 := by simp [h]
      exact ⟨(hp hone).2 h, hone⟩

/-- Signals do not matter for what they should show. -/
theorem Shown.signal (h : a.Shown x) (clear set : Signals) : (a.signal clear set).Shown x :=
  ⟨h.terminated, h.noJobs, h.noProcesses⟩

/-! ### Each change keeps a life sound -/

theorem Sound.signal (h : a.Sound free) (hf : free) (clear set : Signals) :
    (a.signal clear set).Sound free where
  killing := h.killing
  dead := h.dead
  shown hn := absurd hf hn

/-- A ready job that takes a child shows that. -/
theorem Sound.take {add : Life → Life} (h : a.Sound free) (hs : (add a).state = a.state)
    (hx : (add a).signals = a.signals)
    (hshown : ∀ x, a.Shown x → (add a).Shown (x.update (add a).arrival .empty)) :
    (take add a).Sound free := by
  unfold Life.take
  split
  · rename_i hr
    have hready : (add a).welcome.state = .ready := hs.trans hr
    refine ⟨fun hk => ?_, fun hd => ?_, fun hn y hy => ?_⟩
    · rw [hready] at hk
      cases hk
    · rw [hready] at hd
      cases hd
    · obtain ⟨x, hx', rfl⟩ := Option.map_eq_some_iff.1 hy
      exact (hshown x (h.shown hn x (hx ▸ hx'))).signal _ _
  · exact h

/-- If a list is not of one entry after an addition, the addition was not to an empty list. -/
theorem eq_nil_iff_of_length_append {l : List Koid} {c : Koid} {p : Prop} (hp : p ↔ l = [])
    (h : (l ++ [c]).length ≠ 1) : p ↔ l ++ [c] = [] := by
  refine ⟨fun hy => ?_, fun hy => ?_⟩
  · rw [hp.1 hy] at h
    exact absurd rfl h
  · simp at hy

theorem Sound.takeJob (h : a.Sound free) (c : Koid) : (a.takeJob c).Sound free :=
  h.take rfl rfl fun _ hx =>
    Shown.welcome hx.terminated (eq_nil_iff_of_length_append hx.noJobs) fun _ => hx.noProcesses

theorem Sound.takeProcess (h : a.Sound free) (p : Koid) : (a.takeProcess p).Sound free :=
  h.take rfl rfl fun _ hx =>
    Shown.welcome hx.terminated (fun _ => hx.noJobs) (eq_nil_iff_of_length_append hx.noProcesses)

/-- A job whose child has left dies if it was the last one and the job is being killed. -/
theorem sound_bereave (hd : a.state = .dead → a.Vacant)
    (hm : ¬ free → ∀ x, a.signals = some x → a.Modest x) : a.bereave.Sound free := by
  unfold Life.bereave
  split
  · rename_i hdies
    refine ⟨by rintro ⟨⟩, fun _ => hdies.1, fun hn y hy => ?_⟩
    obtain ⟨z, hz, rfl⟩ := Option.map_eq_some_iff.1 hy
    obtain ⟨x, hx, rfl⟩ := Option.map_eq_some_iff.1 hz
    exact ((hm hn x hx).bury.depart.signal .empty .taskTerminated).signal _ _
  · rename_i hstays
    refine ⟨fun hk hv => hstays ⟨hv, hk⟩, hd, fun hn y hy => ?_⟩
    obtain ⟨x, hx, rfl⟩ := Option.map_eq_some_iff.1 hy
    exact (hm hn x hx).depart.signal _ _

theorem Sound.loseJob (h : a.Sound free) (c : Koid) : (a.loseJob c).Sound free := by
  unfold Life.loseJob
  split
  · rename_i hc
    refine sound_bereave (fun hd => ?_) fun hn x hx => ?_
    · rw [(h.dead hd).2] at hc
      cases hc
    · have hshown := h.shown hn x hx
      refine ⟨hshown.terminated, fun hy => ?_, hshown.noProcesses.1⟩
      rw [hshown.noJobs.1 hy] at hc
      cases hc
  · exact h

theorem Sound.loseProcess (h : a.Sound free) (p : Koid) : (a.loseProcess p).Sound free := by
  unfold Life.loseProcess
  split
  · rename_i hp
    refine sound_bereave (fun hd => ?_) fun hn x hx => ?_
    · rw [(h.dead hd).1] at hp
      cases hp
    · have hshown := h.shown hn x hx
      refine ⟨hshown.terminated, hshown.noJobs.1, fun hy => ?_⟩
      rw [hshown.noProcesses.1 hy] at hp
      cases hp
  · exact h

theorem Sound.condemn (h : a.Sound free) (hr : a.state = .ready) (code : Int) :
    (a.condemn code).Sound free := by
  unfold Life.condemn
  dsimp only
  -- the job shows neither before nor after that it is dead
  have hshown : ¬ free → ∀ x, a.signals = some x →
      { a with returnCode := code, state := .killing }.Shown x := by
    intro hn x hx
    have hshown := h.shown hn x hx
    refine ⟨⟨fun ht => ?_, by rintro ⟨⟩⟩, hshown.noJobs, hshown.noProcesses⟩
    rw [hshown.terminated, hr] at ht
    cases ht
  split
  · rename_i hv
    refine ⟨by rintro ⟨⟩, fun _ => hv, fun hn y hy => ?_⟩
    obtain ⟨x, hx, rfl⟩ := Option.map_eq_some_iff.1 hy
    exact (hshown hn x hx).bury.signal .empty .taskTerminated
  · rename_i hv
    exact ⟨fun _ => hv, by rintro ⟨⟩, hshown⟩

end Job.Life

/-! ## 3. Lives only age

What one life may turn into is a preorder, so it may be read off single turns and holds of
runs. -/

/-- The ways in which the state of a job changes. -/
inductive JobState.Proceeds : JobState → JobState → Prop
  | condemned : Proceeds .ready .killing
  | buried : Proceeds .killing .dead
  | atOnce : Proceeds .ready .dead

namespace JobState.Proceeds

theorem ne_ready {x y : JobState} (h : x.Proceeds y) : y ≠ .ready := by
  cases h <;> decide

theorem trans {x y z : JobState} (h : x.Proceeds y) (h' : y.Proceeds z) : x.Proceeds z := by
  cases h <;> cases h'
  exact .atOnce

end JobState.Proceeds

namespace Job.Life

/-- What a life may become; `codes` says with which return codes a job may leave ready. -/
structure Ages (codes : Int → Prop) (a b : Life) : Prop where
  state : b.state = a.state ∨ a.state.Proceeds b.state
  code : a.state ≠ .ready ∨ b.state = .ready → b.returnCode = a.returnCode
  killed : a.state = .ready → b.state ≠ .ready → codes b.returnCode
  jobs : a.state ≠ .ready → b.jobs.Sublist a.jobs
  processes : a.state ≠ .ready → b.processes.Sublist a.processes

namespace Ages

variable {codes : Int → Prop} {a b c : Life}

/-- In the same state, a job that is not ready may still lose children. -/
theorem of_same (hs : b.state = a.state) (hc : b.returnCode = a.returnCode)
    (hj : a.state ≠ .ready → b.jobs.Sublist a.jobs)
    (hp : a.state ≠ .ready → b.processes.Sublist a.processes) : a.Ages codes b where
  state := .inl hs
  code _ := hc
  killed hr hn := absurd (hs.trans hr) hn
  jobs := hj
  processes := hp

/-- A job leaves ready with a code. -/
theorem of_ready (hr : a.state = .ready) (hs : JobState.Proceeds .ready b.state)
    (hc : codes b.returnCode) : a.Ages codes b where
  state := .inr (hr ▸ hs)
  code h := h.elim (fun hn => absurd hr hn) fun hb => absurd hb hs.ne_ready
  killed _ _ := hc
  jobs hn := absurd hr hn
  processes hn := absurd hr hn

theorem refl (a : Life) : a.Ages codes a := of_same rfl rfl (fun _ => .refl _) fun _ => .refl _

/-- No job becomes ready again. -/
theorem ready (h : a.Ages codes b) (hb : b.state = .ready) : a.state = .ready := by
  rcases h.state with hs | hs
  · exact hs.symm.trans hb
  · exact absurd hb hs.ne_ready

theorem trans (h : a.Ages codes b) (h' : b.Ages codes c) : a.Ages codes c where
  state := by
    rcases h.state with hab | hab
    · exact hab ▸ h'.state
    · rcases h'.state with hbc | hbc
      · exact .inr (hbc ▸ hab)
      · exact .inr (hab.trans hbc)
  code := by
    rintro (ha | hc)
    · exact (h'.code (.inl fun hb => ha (h.ready hb))).trans (h.code (.inl ha))
    · exact (h'.code (.inr hc)).trans (h.code (.inr (h'.ready hc)))
  killed ha hc := by
    by_cases hb : b.state = .ready
    · exact h'.killed hb hc
    · rw [h'.code (.inl hb)]
      exact h.killed ha hb
  jobs ha := (h'.jobs fun hb => ha (h.ready hb)).trans (h.jobs ha)
  processes ha := (h'.processes fun hb => ha (h.ready hb)).trans (h.processes ha)

theorem mono {codes' : Int → Prop} (h : a.Ages codes b) (hc : ∀ x, codes x → codes' x) :
    a.Ages codes' b :=
  { h with killed := fun ha hb => hc _ (h.killed ha hb) }

/-- Only a ready job takes a child. -/
theorem take {add : Life → Life} (a : Life) (hs : (add a).state = a.state)
    (hc : (add a).returnCode = a.returnCode) : a.Ages codes (a.take add) := by
  unfold Life.take
  split
  · rename_i hr
    exact of_same hs hc (fun hn => absurd hr hn) fun hn => absurd hr hn
  · exact refl a

theorem bereave (a : Life) : a.Ages codes a.bereave := by
  unfold Life.bereave
  split
  · rename_i hdies
    refine ⟨.inr ?_, fun _ => rfl, fun hr => ?_, fun _ => .refl _, fun _ => .refl _⟩
    · rw [hdies.2]
      exact .buried
    · rw [hdies.2] at hr
      cases hr
  · exact of_same rfl rfl (fun _ => .refl _) fun _ => .refl _

theorem loseJob (a : Life) (c : Koid) : a.Ages codes (a.loseJob c) := by
  unfold Life.loseJob
  split
  · have herase : a.Ages codes { a with jobs := a.jobs.erase c } :=
      of_same rfl rfl (fun _ => List.erase_sublist) fun _ => .refl _
    exact herase.trans (bereave _)
  · exact refl a

theorem loseProcess (a : Life) (p : Koid) : a.Ages codes (a.loseProcess p) := by
  unfold Life.loseProcess
  split
  · have herase : a.Ages codes { a with processes := a.processes.erase p } :=
      of_same rfl rfl (fun _ => .refl _) fun _ => List.erase_sublist
    exact herase.trans (bereave _)
  · exact refl a

theorem condemn {code : Int} (hr : a.state = .ready) (hc : codes code) :
    a.Ages codes (a.condemn code) := by
  unfold Life.condemn
  dsimp only
  split
  · exact of_ready hr .atOnce hc
  · exact of_ready hr .condemned hc

end Ages

end Job.Life

/-! ## 4. Turns

One turn changes one life at most, so all that has to be shown is what it does to that one. -/

namespace Lives

variable {W : Warrant} {S : Koid → Prop} {l m : Lives} {k : Koid}

/-- All lives are sound; the signals of the objects in `S` are written freely. -/
def Sound (S : Koid → Prop) (l : Lives) : Prop :=
  ∀ (k : Koid) (a : Job.Life), l.job k = some a → a.Sound (S k)

/-- Who is there after a change was there before, and was changed or not. -/
theorem job_modifyJob {f : Job.Life → Job.Life} {c : Koid} {b : Job.Life}
    (h : (l.modifyJob k f).job c = some b) :
    ∃ a, l.job c = some a ∧ (b = f a ∧ c = k ∨ b = a) := by
  have h : (if k = c then (l.job c).map f else l.job c) = some b := h
  split at h
  · rename_i hk
    obtain ⟨a, ha, rfl⟩ := Option.map_eq_some_iff.1 h
    exact ⟨a, ha, .inl ⟨rfl, hk.symm⟩⟩
  · exact ⟨b, h, .inr rfl⟩

theorem job_setJob_none {c : Koid} {b : Job.Life} (h : (l.setJob k none).job c = some b) :
    l.job c = some b := by
  have h : (if k = c then none else l.job c) = some b := h
  split at h
  · cases h
  · exact h

theorem Sound.modifyJob (h : l.Sound S) {f : Job.Life → Job.Life}
    (hf : ∀ a, l.job k = some a → a.Sound (S k) → (f a).Sound (S k)) :
    (l.modifyJob k f).Sound S := by
  intro c b hb
  obtain ⟨a, ha, ⟨rfl, rfl⟩ | rfl⟩ := job_modifyJob hb
  · exact hf a ha (h _ a ha)
  · exact h c b ha

/-- **A sound life stays sound**, if signals are written freely only where they may be. -/
theorem Turn.sound (h : Turn W l m) (hW : ∀ k, W.signals k → S k) (hl : l.Sound S) :
    m.Sound S := by
  -- The lives of jobs that a turn does not concern are those of before.  For the one that it does
  -- concern there is a lemma for each thing that may happen to a life.
  cases h with
  | koid => exact hl
  | jobBorn =>
    intro c b hb
    have hb : (if l.nextKoid = c then some Job.Life.newborn else l.job c) = some b := hb
    split at hb
    · cases hb
      exact Job.Life.sound_newborn
    · exact hl c b hb
  | processBorn => exact hl
  | jobGone k => exact fun c b hb => hl c b (job_setJob_none hb)
  | processGone k => exact hl
  | takesJob k c => exact hl.modifyJob fun _ _ ha => ha.takeJob c
  | takesProcess k p => exact hl.modifyJob fun _ _ ha => ha.takeProcess p
  | losesJob k c => exact hl.modifyJob fun _ _ ha => ha.loseJob c
  | losesProcess k p => exact hl.modifyJob fun _ _ ha => ha.loseProcess p
  | signalled hk clear set => exact hl.modifyJob fun _ _ ha => ha.signal (hW _ hk) clear set
  | @condemned k code a hk ha hr =>
    have hcondemned : (l.modifyJob k (·.condemn code)).Sound S := hl.modifyJob fun b hb hsound => by
      rw [ha] at hb
      cases hb
      exact hsound.condemn hr code
    exact hcondemned
  | ended hk ha hr => exact hl

/-- So it is over any number of turns. -/
theorem Turns.sound (h : Turns W l m) (hW : ∀ k, W.signals k → S k) (hl : l.Sound S) :
    m.Sound S := by
  induction h with
  | refl => exact hl
  | tail _ hturn ih => exact hturn.sound hW ih

theorem Turn.nextKoid_le (h : Turn W l m) : l.nextKoid ≤ m.nextKoid := by
  cases h <;> first | exact Nat.le_refl _ | exact Nat.le_succ _

/-- **A life only ages**: a job that is there after a turn and is not new was there before. -/
theorem Turn.ages (h : Turn W l m) (hk : k < l.nextKoid) {b : Job.Life} (hb : m.job k = some b) :
    ∃ a, l.job k = some a ∧ a.Ages (W.kills k) b := by
  -- Most turns change one life.  If that is the one looked at it has aged by what the turn did,
  -- and otherwise not at all.
  have hmodify : ∀ {c : Koid} {f : Job.Life → Job.Life}, (l.modifyJob c f).job k = some b →
      (∀ a, l.job k = some a → a.Ages (W.kills k) (f a)) →
        ∃ a, l.job k = some a ∧ a.Ages (W.kills k) b := by
    intro c f hb hf
    obtain ⟨a, ha, ⟨rfl, rfl⟩ | rfl⟩ := job_modifyJob hb
    · exact ⟨a, ha, hf a ha⟩
    · exact ⟨b, ha, .refl b⟩
  cases h with
  | koid => exact ⟨b, hb, .refl b⟩
  | jobBorn =>
    have hb : (if l.nextKoid = k then some Job.Life.newborn else l.job k) = some b := hb
    rw [if_neg (Nat.ne_of_gt hk)] at hb
    exact ⟨b, hb, .refl b⟩
  | processBorn => exact ⟨b, hb, .refl b⟩
  | jobGone c => exact ⟨b, job_setJob_none hb, .refl b⟩
  | processGone c => exact ⟨b, hb, .refl b⟩
  | takesJob c i => exact hmodify hb fun a _ => .take a rfl rfl
  | takesProcess c p => exact hmodify hb fun a _ => .take a rfl rfl
  | losesJob c i => exact hmodify hb fun a _ => .loseJob a i
  | losesProcess c p => exact hmodify hb fun a _ => .loseProcess a p
  | signalled _ clear set =>
    exact hmodify hb fun a _ => .of_same rfl rfl (fun _ => .refl _) fun _ => .refl _
  | @condemned c code x hc hx hr =>
    have hb : (l.modifyJob c (·.condemn code)).job k = some b := hb
    obtain ⟨a, ha, ⟨rfl, rfl⟩ | rfl⟩ := job_modifyJob hb
    · rw [hx] at ha
      cases ha
      exact ⟨x, hx, .condemn hr hc⟩
    · exact ⟨b, ha, .refl b⟩
  | ended => exact ⟨b, hb, .refl b⟩

theorem Turns.nextKoid_le (h : Turns W l m) : l.nextKoid ≤ m.nextKoid := by
  induction h with
  | refl => exact Nat.le_refl _
  | tail _ hturn ih => exact Nat.le_trans ih hturn.nextKoid_le

/-- So it is over any number of turns, as long as the job was known before. -/
theorem Turns.ages (h : Turns W l m) (hk : k < l.nextKoid) {b : Job.Life}
    (hb : m.job k = some b) : ∃ a, l.job k = some a ∧ a.Ages (W.kills k) b := by
  induction h using Relation.ReflTransGen.head_induction_on with
  | refl => exact ⟨b, hb, .refl b⟩
  | head hturn _ ih =>
    obtain ⟨x, hx, hxb⟩ := ih (Nat.lt_of_lt_of_le hk hturn.nextKoid_le)
    obtain ⟨a, ha, hax⟩ := hturn.ages hk hx
    exact ⟨a, ha, hax.trans hxb⟩

end Lives

/-! ## 5. What holds in every run

A new life is sound, and operations are turns.  What is left is to say which operations may write
signals freely, and to read the record of a job off its life. -/

/-- Whether an operation writes signals by hand at most for objects in `S`. -/
def Op.SignalsOnly (S : Koid → Prop) : Op → Prop
  | signal k _ _ => S k
  | _ => True

/-- Whether an operation is the kill of a job with a return code. -/
def Op.KillsWith (op : Op) (code : Int) : Prop := ∃ refuses k, op = .killJob refuses code k

theorem Op.SignalsOnly.warrant {S : Koid → Prop} {op : Op} (h : op.SignalsOnly S) :
    ∀ k, op.warrant.signals k → S k := by
  intro k hk
  unfold Op.warrant at hk
  split at hk
  all_goals first
    | exact hk.elim
    | exact hk.symm ▸ h

theorem Op.killsWith_of_warrant {op : Op} {k : Koid} {code : Int} (h : op.warrant.kills k code) :
    op.KillsWith code := by
  unfold Op.warrant at h
  split at h
  all_goals first
    | exact h.elim
    | exact ⟨_, _, by rw [show code = _ from h]⟩

namespace System

variable {S : Koid → Prop} {s : System} {d : List Task}

/-- What the state of a job says of its children and of its signals. -/
structure StatesSound (S : Koid → Prop) (s : System) : Prop where
  killing : ∀ {k : Nat} {j : Job}, s.jobs[k]? = some j → j.state = .killing →
    j.jobs ≠ [] ∨ j.processes ≠ []
  dead : ∀ {k : Nat} {j : Job}, s.jobs[k]? = some j → j.state = .dead →
    j.jobs = [] ∧ j.processes = []
  terminated : ∀ {k : Nat} {j : Job}, ¬ S k → s.jobs[k]? = some j →
    (Signals.taskTerminated ⊆ s.signals k ↔ j.state = .dead)

/-- The two "no children" signals of a job say which of its lists is empty. -/
def ShowsChildren (S : Koid → Prop) (s : System) : Prop :=
  ∀ {k : Koid} {i : JobInfo}, ¬ S k → s.jobInfo k = some i →
    (Signals.noJobs ⊆ i.signals ↔ i.jobCount = 0) ∧
      (Signals.noProcesses ⊆ i.signals ↔ i.processCount = 0)

/-- A job that is there has signals, so they show how it stands. -/
theorem shown_of_sound (h : s.lives.Sound S) (hacc : Accounted s d) {k : Koid} {j : Job}
    (hS : ¬ S k) (hj : s.jobs[k]? = some j) :
    (j.life (s.objects[k]?.map Object.signals)).Shown (s.signals k) := by
  obtain ⟨o, ho⟩ := hacc.object_of_present (.inl (Store.contains_iff.2 ⟨j, hj⟩))
  refine (h k _ (job_lives hj)).shown hS _ ?_
  show s.objects[k]?.map Object.signals = some (s.signals k)
  unfold System.signals
  rw [ho]
  rfl

/-- What a sound life says of the record of a job, -/
theorem statesSound_of_sound (h : s.lives.Sound S) (hacc : Accounted s d) : s.StatesSound S where
  killing {k j} hj hk := by
    by_contra hn
    simp only [ne_eq, not_or, not_not] at hn
    exact (h k _ (job_lives hj)).killing hk ⟨hn.2, hn.1⟩
  dead {k j} hj hd := by
    have hvacant := (h k _ (job_lives hj)).dead hd
    exact ⟨hvacant.2, hvacant.1⟩
  terminated hS hj := (shown_of_sound h hacc hS hj).terminated

/-- and of its signals. -/
theorem showsChildren_of_sound (h : s.lives.Sound S) (hacc : Accounted s d) :
    s.ShowsChildren S := by
  intro k i hS hi
  obtain ⟨j, hj, rfl⟩ := Option.map_eq_some_iff.1 hi
  have hshown := shown_of_sound h hacc hS hj
  exact ⟨hshown.noJobs.trans List.length_eq_zero_iff.symm,
    hshown.noProcesses.trans List.length_eq_zero_iff.symm⟩

end System

namespace World

variable {S : Koid → Prop} {w : World}

/-- **In every state that operations lead to lives are sound**, if signals are written freely only
where they may be. -/
theorem Ran.lives_sound (h : w.Ran fun _ => Op.SignalsOnly S) : w.system.lives.Sound S := by
  induction h with
  | start =>
    intro k a ha
    rw [System.job_lives_none (Store.getElem?_empty k)] at ha
    cases ha
  | act h hop ih => exact Lives.Turns.sound (act_turns h.passed.accounted _) hop.warrant ih
  | reorder _ _ ih => exact ih

theorem lt_nextKoid {k : Koid} {a : Job.Life} {d : List Task} {s : System} (hacc : Accounted s d)
    (ha : s.lives.job k = some a) : k < s.lives.nextKoid := by
  obtain ⟨j, hj, -⟩ := Option.map_eq_some_iff.1 ha
  exact hacc.job_lt hj

variable {P : System → Op → Prop}

/-- In one operation a job only ages, and it leaves ready only with the code of a kill. -/
theorem Ran.act_ages (h : w.Ran P) (op : Op) {k : Koid} {a b : Job.Life}
    (ha : w.system.lives.job k = some a) (hb : (w.act op).system.lives.job k = some b) :
    a.Ages op.KillsWith b := by
  have hacc := h.passed.accounted
  obtain ⟨x, hx, hages⟩ := (act_turns hacc op).ages (lt_nextKoid hacc ha) hb
  rw [ha] at hx
  cases hx
  exact hages.mono fun _ => Op.killsWith_of_warrant

/-- So it is over any number of operations: a job that is there in the end was there all along. -/
theorem Ran.foldl_ages (h : w.Ran fun _ _ => True) (ops : List Op) {k : Koid} {a b : Job.Life}
    (ha : w.system.lives.job k = some a)
    (hb : (ops.foldl World.act w).system.lives.job k = some b) :
    a.Ages (fun code => ∃ op ∈ ops, op.KillsWith code) b := by
  have hacc := h.passed.accounted
  -- The induction goes over the operations and from left to right, so the run before has to be
  -- free.
  suffices hall : ∀ (ops : List Op) {w : World}, w.Ran (fun _ _ => True) →
      k < w.system.lives.nextKoid → (ops.foldl World.act w).system.lives.job k = some b →
        ∃ x, w.system.lives.job k = some x ∧
          x.Ages (fun code => ∃ op ∈ ops, op.KillsWith code) b by
    obtain ⟨x, hx, hages⟩ := hall ops h (lt_nextKoid hacc ha) hb
    rw [ha] at hx
    cases hx
    exact hages
  intro ops
  induction ops with
  | nil => exact fun _ _ hb => ⟨b, hb, .refl b⟩
  | cons op ops ih =>
    intro w h hk hb
    have hturns := act_turns h.passed.accounted op
    have hk' := Nat.lt_of_lt_of_le hk hturns.nextKoid_le
    obtain ⟨y, hy, hyb⟩ := ih (h.act trivial) hk' hb
    obtain ⟨x, hx, hxy⟩ := hturns.ages hk hy
    refine ⟨x, hx, (hxy.mono fun _ hc => ?_).trans (hyb.mono fun _ hc => ?_)⟩
    · exact ⟨op, List.mem_cons_self, Op.killsWith_of_warrant hc⟩
    · obtain ⟨o, ho, hcode⟩ := hc
      exact ⟨o, List.mem_cons_of_mem _ ho, hcode⟩

/-- **The lifecycle of jobs**: what their states say at rest, what one operation and many may do to
them, and that the kill of a job which is not ready does nothing. -/
structure LifecycleSound (S : Koid → Prop) (w : World) : Prop where
  atRest : w.AtRest (fun _ => Op.SignalsOnly S) (System.StatesSound S)
  act : ∀ (op : Op) {k : Koid} {a b : Job.Life}, w.system.lives.job k = some a →
    (w.act op).system.lives.job k = some b → a.Ages op.KillsWith b
  foldl : ∀ (ops : List Op) {k : Koid} {a b : Job.Life}, w.system.lives.job k = some a →
    (ops.foldl World.act w).system.lives.job k = some b →
      a.Ages (fun code => ∃ op ∈ ops, op.KillsWith code) b
  killed : ∀ {k : Nat} {j : Job}, w.system.jobs[k]? = some j → j.state ≠ .ready →
    ∀ (refuses : Allocator) (code : Int),
      w.system.killJob refuses code k = (.ok false, w.system)

/-- **The lifecycle of jobs is sound in every run**, whatever is entered in lists and taken off them
by hand, and wherever memory for snapshots is refused. -/
theorem Ran.lifecycle_sound (h : w.Ran fun _ => Op.SignalsOnly S) : w.LifecycleSound S where
  atRest := h.atRest (fun _ _ => trivial) (fun _ _ => trivial) fun _ hv =>
    System.statesSound_of_sound hv.lives_sound hv.passed.accounted
  act op _ _ _ := h.act_ages op
  foldl ops _ _ _ := (h.mono fun _ _ _ => trivial).foldl_ages ops
  killed {k j} hj hr refuses code := by
    have hready : ¬ w.system.IsReady k := by
      rintro ⟨i, hi, his⟩
      rw [hj] at hi
      cases hi
      exact hr his
    exact (w.system.killJob_kills refuses code k).unique (.passed hready)

/-- A root and a job below it, with a process that its job lists twice; the root lists the process
too, and a koid that nobody has.  Then the root is killed. -/
def entryOps : List Op :=
  [.createRootJob false, .createJob 1024, .createProcess 1025 Name.blank, .attachProcess 1025 1026,
    .attachProcess 1024 1026, .attachProcess 1024 9, .signal 1026 .empty .noJobs,
    .killJob .generous 7 1024]

/-- Everything leaves again, by hand and by destruction, and the root is killed once more. -/
def leavingOps : List Op :=
  [.detachProcess 1025 1026, .detachProcess 1024 9, .detachProcess 1024 1026,
    .drop (.release (.object 1026)), .drop (.release (.object 1025)), .killJob .generous 8 1024]

theorem ran_entry : (run entryOps).Ran fun _ => Op.SignalsOnly (· = 1026) :=
  Ran.foldl .start ⟨trivial, trivial, trivial, trivial, trivial, trivial, rfl, trivial, trivial⟩

/-- The entries made by hand keep the root from dying; it dies when the job below it is destroyed,
and the second kill leaves it its code. -/
theorem Ran.lifecycle_sound_of_entries :
    let seen := fun w : World => (w.system.jobInfo 1024).map fun i =>
      (i.state, i.returnCode, i.jobCount, i.processCount)
    (run entryOps).LifecycleSound (· = 1026) ∧
      seen (run entryOps) = some (.killing, 7, 1, 2) ∧
      seen (leavingOps.foldl World.act (run entryOps)) = some (.dead, 7, 0, 0) :=
  ⟨lifecycle_sound ran_entry, by cbv, by cbv⟩

/-- **At rest the signals of jobs mirror their lists**, whatever is entered in lists and taken off
them by hand. -/
theorem Ran.signals_mirror_children (h : w.Ran fun _ => Op.SignalsOnly S) :
    w.AtRest (fun _ => Op.SignalsOnly S) (System.ShowsChildren S) :=
  h.atRest (fun _ _ => trivial) (fun _ _ => trivial) fun _ hv =>
    System.showsChildren_of_sound hv.lives_sound hv.passed.accounted

/-- A job that lost its process once of two times shows that it has processes and no jobs. -/
theorem Ran.signals_mirror_children_of_entries :
    (run entryOps).AtRest (fun _ => Op.SignalsOnly (· = 1026)) (System.ShowsChildren (· = 1026)) ∧
      ((run entryOps).system.jobInfo 1025).map (fun i => (i.jobCount, i.processCount, i.signals)) =
        some (0, 1, .noJobs) :=
  ⟨signals_mirror_children ran_entry, by cbv⟩

end World

end KernelObjects
