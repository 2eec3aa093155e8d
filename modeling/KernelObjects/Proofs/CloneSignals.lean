import KernelObjects.Proofs.CloneCalls
import KernelObjects.Proofs.Lifecycle

/-
# The signal that a VM object has no clones

A view watches the object that it was created for, and shows in a signal whether the object has
clones.  The signal is set when the view is created and changes with the calls, so it can only be
as good as they are.  Two things are overlooked.  Nobody looks at the list when the view is
created, so the clones that are there then do not show; and nobody is told of a clone that is
listed by hand.  Either way the signal stays set until the list has been empty and a clone is
created.

`World.Ran.signal_mirrors_clones` says that these are the only exceptions: while nobody else
registers or signals, a view that was not told to stop shows that there are no clones exactly if
there are none, or if such a clone was overlooked and there have been clones ever since
(`World.Overlooked`).  That no other view is in the way is due to the stamp: an object is stamped
once, and every view that is there has stamped its object (`Broods.Stamped`), so an attempt to
create a second one changes nothing.

**The shape of the argument.**  A view that watches its object alone is told of every first clone
that is created and of every end of a last one (`Tends.follows`), so its bit follows the list from
one such call to the next.  Between the calls the list is empty all the time or never.  The
exceptions are the stretches of time that begin without a call.

What an operation does to the view is read off its beats (`act_heeds`), and what a run does, off
its operations (`Onward.heeds`).  On that way two things must be carried along that the view
itself does not show: that nobody else watches the object, and that the view has stamped it.
-/

namespace KernelObjects

theorem Signals.isBit_noClones : noClones.IsBit := ⟨3, by decide⟩

namespace Broods

variable {b b' : Broods} {v u : VmoId} {k j : Koid} {x : Beat} {xs : List Beat}

/-! ## 1. Stamps

A view stamps its object when it is created, and an object is stamped once.  So there are no two
views of one object, dead or alive, that could both be told. -/

/-- The object of a view. -/
def vmoOf (b : Broods) (k : Koid) : Option VmoId := (b.look k).map View.Look.vmo

/-- The koid that an object is stamped with. -/
def stampOf (b : Broods) (v : VmoId) : Option Koid := (b.nest v).map Member.Nest.userId

/-- Every view has stamped its object. -/
def Stamped (b : Broods) : Prop := ∀ k v, b.vmoOf k = some v → k ≠ 0 ∧ b.stampOf v = some k

/-- Signals do not change which object a view shows, -/
theorem vmoOf_signal (clear set : Signals) : (b.signal j clear set).vmoOf k = b.vmoOf k := by
  unfold vmoOf signal
  dsimp only
  split
  · cases b.look k <;> rfl
  · rfl

/-- and neither does telling a watcher. -/
theorem vmoOf_tell (appeared : Bool) : (b.tell v appeared).vmoOf k = b.vmoOf k := by
  unfold tell
  cases b.target v with
  | none => rfl
  | some t =>
    obtain ⟨j | o, label⟩ := t
    · cases appeared
      · exact vmoOf_signal (b := { b with calls := _ }) _ _
      · exact vmoOf_signal (b := { b with calls := _ }) _ _
    · rfl

theorem stampOf_tell (appeared : Bool) : (b.tell u appeared).stampOf v = b.stampOf v := by
  unfold stampOf
  rw [nest_tell]

theorem stampOf_setClones (f : List VmoId → List VmoId) :
    (b.setClones u f).stampOf v = b.stampOf v := by
  unfold stampOf setClones modifyNest
  dsimp only
  split
  · cases b.nest v <;> rfl
  · rfl

/-- Who is stamped stays so. -/
theorem stampOf_stamped {id : Koid} (h : b.stampOf v = some k) (hk : k ≠ 0) :
    (b.apply (.stamped u id)).stampOf v = some k := by
  unfold stampOf at h
  obtain ⟨n, hn, rfl⟩ := Option.map_eq_some_iff.1 h
  unfold stampOf apply modifyNest
  dsimp only
  rw [hn]
  split
  · rw [Option.map_some, Option.map_some, if_neg hk]
  · rfl

theorem vmoOf_cloned (c : VmoId) : (b.apply (.cloned u c)).vmoOf k = b.vmoOf k := by
  dsimp only [apply]
  split
  · exact vmoOf_tell _
  · rfl

theorem vmoOf_forgot (c : VmoId) : (b.apply (.forgot u c)).vmoOf k = b.vmoOf k := by
  dsimp only [apply]
  split
  · rfl
  · split
    · exact vmoOf_tell _
    · rfl

theorem vmoOf_told : (b.apply (.told j)).vmoOf k = b.vmoOf k := by
  dsimp only [apply]
  cases b.look j <;> rfl

theorem stampOf_cloned (c : VmoId) : (b.apply (.cloned u c)).stampOf v = b.stampOf v := by
  dsimp only [apply]
  split
  · exact (stampOf_tell _).trans (stampOf_setClones _)
  · exact stampOf_setClones _

theorem stampOf_forgot (c : VmoId) : (b.apply (.forgot u c)).stampOf v = b.stampOf v := by
  dsimp only [apply]
  split
  · rfl
  · split
    · exact (stampOf_tell _).trans (stampOf_setClones _)
    · exact stampOf_setClones _

theorem vmoOf_viewed : (b.apply (.viewed j u)).vmoOf k = if j = k then some u else b.vmoOf k := by
  unfold vmoOf
  show (if j = k then _ else b.look k : Option View.Look).map _ = _
  split <;> rfl

theorem vmoOf_viewGone : (b.apply (.viewGone j)).vmoOf k = if j = k then none else b.vmoOf k := by
  unfold vmoOf
  show (if j = k then none else b.look k : Option View.Look).map _ = _
  split <;> rfl

/-- **Every view goes on having stamped its object.** -/
theorem Stamped.apply (h : b.Stamped) (hx : b.Allows x) : (b.apply x).Stamped := by
  cases x with
  | born u =>
    intro k v hk
    obtain ⟨hpos, hstamp⟩ := h k v hk
    refine ⟨hpos, ?_⟩
    have hne : u ≠ v := by
      rintro rfl
      rw [stampOf, hx.2.1] at hstamp
      cases hstamp
    exact (congrArg (Option.map Member.Nest.userId) (if_neg hne)).trans hstamp
  | cloned u c =>
    intro k v hk
    rw [vmoOf_cloned] at hk
    rw [stampOf_cloned]
    exact h k v hk
  | recorded u c =>
    intro k v hk
    have hsame : (b.apply (.recorded u c)).stampOf v = b.stampOf v := stampOf_setClones (· ++ [c])
    rw [hsame]
    exact h k v hk
  | stamped u id =>
    intro k v hk
    obtain ⟨hpos, hstamp⟩ := h k v hk
    exact ⟨hpos, stampOf_stamped hstamp hpos⟩
  | watched u y => exact h
  | viewed j u =>
    obtain ⟨hnew, hpos, -, ys, hnest⟩ := hx
    intro k v hk
    have hstampOf : (b.apply (.viewed j u)).stampOf v =
        if u = v then (b.stampOf v).map fun _ => j else b.stampOf v := by
      unfold stampOf
      show (if u = v then (b.nest v).map _ else b.nest v).map _ = _
      split
      · cases b.nest v <;> rfl
      · rfl
    rw [vmoOf_viewed] at hk
    rw [hstampOf]
    split at hk
    · rename_i hjk
      cases hk
      rw [if_pos rfl, stampOf, hnest]
      exact ⟨hjk ▸ hpos, congrArg some hjk⟩
    · obtain ⟨hk0, hstamp⟩ := h k v hk
      refine ⟨hk0, ?_⟩
      rw [if_neg, hstamp]
      -- the object was not stamped before
      rintro rfl
      rw [stampOf, hnest] at hstamp
      cases hstamp
      exact hk0 rfl
  | listened o label => exact h
  | signalled j clear set =>
    intro k v hk
    rw [show (b.apply (.signalled j clear set)).vmoOf k = _ from vmoOf_signal _ _] at hk
    exact h k v hk
  | forgot u c =>
    intro k v hk
    rw [vmoOf_forgot] at hk
    rw [stampOf_forgot]
    exact h k v hk
  | died u =>
    intro k v hk
    obtain ⟨hpos, hstamp⟩ := h k v hk
    refine ⟨hpos, ?_⟩
    have hne : u ≠ v := by
      rintro rfl
      obtain ⟨a, ha, hav⟩ := Option.map_eq_some_iff.1 hk
      exact hx k a ha hav
    exact (congrArg (Option.map Member.Nest.userId) (if_neg hne)).trans hstamp
  | viewGone j =>
    intro k v hk
    rw [vmoOf_viewGone] at hk
    split at hk
    · cases hk
    · exact h k v hk
  | listenerGone o => exact h
  | told j =>
    intro k v hk
    rw [vmoOf_told] at hk
    rw [stampOf, nest_told]
    exact h k v hk

/-! ## 2. A view that watches alone

A view that tends an object is the only one to be told of it, and is told of nothing else.  Under
that condition its bit is a function of the calls. -/

/-- A watcher that is found after a registration was there before or was just registered. -/
theorem watcher_setWatcher {w : VmoId} {y : Option Watcher} {z : Watcher}
    (h : (b.setWatcher w y).watcher u = some (some z)) :
    b.watcher u = some (some z) ∨ w = u ∧ y = some z := by
  dsimp only [setWatcher] at h
  split at h
  · rename_i hu
    obtain ⟨-, -, hy⟩ := Option.map_eq_some_iff.1 h
    exact .inr ⟨hu, hy⟩
  · exact .inl h

theorem watcher_cloned (w c : VmoId) : (b.apply (.cloned w c)).watcher = b.watcher := by
  dsimp only [apply]
  split
  · exact watcher_tell _ _ _
  · rfl

theorem watcher_forgot (w c : VmoId) : (b.apply (.forgot w c)).watcher = b.watcher := by
  dsimp only [apply]
  split
  · rfl
  · split
    · exact watcher_tell _ _ _
    · rfl

/-- A view is registered by hand, or when it is created. -/
theorem watcher_apply (h : (b.apply x).watcher u = some (some (.view j))) :
    b.watcher u = some (some (.view j)) ∨ x = .watched u (some (.view j)) ∨ x = .viewed j u := by
  -- Being born and dying clear a watcher, and a view that is told that its handles are gone stops
  -- watching: so what is set by any other beat was set before.
  cases x with
  | born w | died w =>
    dsimp only [apply] at h
    split at h
    · cases h
    · exact .inl h
  | cloned w c => exact .inl (watcher_cloned (b := b) w c ▸ h)
  | forgot w c => exact .inl (watcher_forgot (b := b) w c ▸ h)
  | watched w y =>
    rcases watcher_setWatcher h with h | ⟨rfl, rfl⟩
    · exact .inl h
    · exact .inr (.inl rfl)
  | viewed i w =>
    change (setWatcher _ w (some (.view i))).watcher u = _ at h
    rcases watcher_setWatcher h with h | ⟨rfl, hi⟩
    · exact .inl h
    · cases hi
      exact .inr (.inr rfl)
  | told i =>
    dsimp only [apply] at h
    cases ha : b.look i with
    | none =>
      rw [ha] at h
      exact .inl h
    | some a =>
      rw [ha] at h
      rcases watcher_setWatcher (b := { b with told := i :: b.told }) h with h | ⟨-, hi⟩
      · exact .inl h
      · cases hi
  | _ => exact .inl h

/-- Whether a view is there and shows that there are no clones. -/
def Shows (b : Broods) (k : Koid) : Prop :=
  ∃ a x, b.look k = some a ∧ a.signals = some x ∧ Signals.noClones ⊆ x

/-- A view is there and watches its object, and no other one. -/
structure Tends (b : Broods) (k : Koid) (v : VmoId) : Prop where
  there : ∃ x, b.look k = some ⟨v, some x⟩
  watcher : b.watcher v = some (some (.view k))
  only : ∀ u, b.watcher u = some (some (.view k)) → u = v
  /-- An object without clones is shown as one. -/
  lit : b.clones v = [] → b.Shows k

end Broods

/-- Whether a beat leaves it to a view to watch an object: nobody else is put in its place, it is
not put in another place, nobody else signals for it, and it is not told that nobody holds it. -/
def Beat.Minds (v : VmoId) (k : Koid) : Beat → Prop
  | watched u y => u ≠ v ∧ y ≠ some (.view k)
  | viewed j _ | signalled j _ _ | told j => j ≠ k
  | _ => True

namespace Broods

variable {b b' : Broods} {v u : VmoId} {k j : Koid} {x : Beat} {xs : List Beat}

/-- Whether a view shows the clones right is a matter of its own look and of the list. -/
theorem shows_congr (h : b'.look k = b.look k) : b'.Shows k ↔ b.Shows k := by
  unfold Shows
  rw [h]

/-- A view is told only of what it watches. -/
theorem look_tell_of_ne (h : b.watcher u ≠ some (some (.view k))) (appeared : Bool) :
    (b.tell u appeared).look k = b.look k := by
  have hsignal : ∀ (c : Broods) (j : Koid) (clear set : Signals), j ≠ k →
      (c.signal j clear set).look k = c.look k := fun c j clear set hj => if_neg hj
  unfold tell
  cases ht : b.target u with
  | none => rfl
  | some t =>
    obtain ⟨j | o, label⟩ := t
    · -- Whoever is told is the one who watches `u`, and that is another view by hypothesis.
      have hj : j ≠ k := by
        rintro rfl
        unfold target at ht
        split at ht
        · rename_i i hi
          split at ht
          · cases ht
            exact h hi
          · cases ht
        · rename_i i hi
          obtain ⟨label, -, ht⟩ := Option.map_eq_some_iff.1 ht
          cases ht
        · cases ht
        · cases ht
      cases appeared
      · exact hsignal { b with calls := _ } _ _ _ hj
      · exact hsignal { b with calls := _ } _ _ _ hj
    · rfl

/-- What a view shows after it was told. -/
theorem look_tell {y : Signals} (hlook : b.look k = some ⟨v, some y⟩)
    (hw : b.watcher v = some (some (.view k))) (appeared : Bool) :
    (b.tell v appeared).look k = some ⟨v, some (if appeared then y.update .noClones .empty
      else y.update .empty .noClones)⟩ := by
  have ht : b.target v = some (.view k, none) := by
    unfold target
    rw [hw]
    dsimp only
    rw [hlook]
    rfl
  have hsignal : ∀ (calls : List Event) (clear set : Signals),
      (Broods.signal { b with calls } k clear set).look k =
        some ⟨v, some (y.update clear set)⟩ := by
    intro calls clear set
    refine (if_pos rfl).trans ?_
    rw [show Broods.look { b with calls } k = _ from hlook]
    rfl
  rw [tell, ht]
  cases appeared
  · exact hsignal _ _ _
  · exact hsignal _ _ _

/-- What a beat leaves of a view that watches alone. -/
def Follows (b : Broods) (k : Koid) (v : VmoId) (x : Beat) : Prop :=
  (b.apply x).Tends k v ∧ ((b.apply x).Shows k ↔
    b.Shows k ∧ ¬ (b.clones v = [] ∧ ∃ c, x = .cloned v c) ∨ (b.apply x).clones v = [])

/-- Beats that the view does not notice. -/
theorem Tends.unmoved (h : b.Tends k v) (hm : x.Minds v k)
    (hlook : (b.apply x).look k = b.look k) (hw : (b.apply x).watcher v = b.watcher v)
    (hclones : (b.apply x).clones v = [] → b.clones v = [])
    (hx : b.clones v = [] → ∀ c, x ≠ .cloned v c) : b.Follows k v x := by
  have hshows := shows_congr hlook
  have honly : ∀ u, (b.apply x).watcher u = some (some (.view k)) → u = v := by
    intro u hu
    rcases watcher_apply hu with hu | rfl | rfl
    · exact h.only u hu
    · exact absurd rfl hm.2
    · exact absurd rfl hm
  refine ⟨⟨hlook ▸ h.there, hw.trans h.watcher, honly, fun he => hshows.2 (h.lit (hclones he))⟩, ?_⟩
  rw [hshows]
  constructor
  · exact fun hs => .inl ⟨hs, fun ⟨he, c, hc⟩ => hx he c hc⟩
  · rintro (⟨hs, -⟩ | he)
    · exact hs
    · exact h.lit (hclones he)

/-- The view that watches an object has stamped it, so its list is there. -/
theorem Tends.nest (h : b.Tends k v) (hs : b.Stamped) :
    k ≠ 0 ∧ ∃ n, b.nest v = some n ∧ n.userId = k := by
  obtain ⟨y, hy⟩ := h.there
  obtain ⟨hpos, hstamp⟩ := hs k v (by rw [vmoOf, hy]; rfl)
  obtain ⟨n, hn, hk⟩ := Option.map_eq_some_iff.1 hstamp
  exact ⟨hpos, n, hn, hk⟩

/-- A view that tends an object is there. -/
theorem Tends.look_ne (h : b.Tends k v) : b.look k ≠ none := by
  obtain ⟨y, hy⟩ := h.there
  rw [hy]
  exact Option.some_ne_none _

/-- **A clone is entered.**  If the object that the view tends gets its first clone, the view is
told and its bit is cleared; if it had clones, nothing is told.  Clones of other objects are told to
others. -/
theorem Tends.cloned (h : b.Tends k v) (hs : b.Stamped) (c : VmoId) :
    b.Follows k v (.cloned u c) := by
  obtain ⟨-, n, hn, -⟩ := h.nest hs
  set m := b.setClones u (· ++ [c])
  have happly : b.apply (.cloned u c) = if (m.clones u).length = 1 then m.tell u true else m := rfl
  have hwatcher := watcher_cloned (b := b) u c
  have hclones := clones_cloned (b := b) (v := u) (u := v) c
  by_cases hu : u = v
  · subst hu
    have hm : m.clones u = b.clones u ++ [c] := by
      rw [clones_setClones, if_pos ⟨rfl, by rw [hn]; rfl⟩]
    rw [if_pos ⟨rfl, by rw [hn]; rfl⟩] at hclones
    have hthere : (b.apply (.cloned u c)).clones u ≠ [] := by
      rw [hclones]
      simp
    by_cases hempty : b.clones u = []
    · -- the first clone
      obtain ⟨y, hy⟩ := h.there
      have hfirst : (m.clones u).length = 1 := by rw [hm, hempty]; rfl
      have hlook : (b.apply (.cloned u c)).look k =
          some ⟨u, some (y.update .noClones .empty)⟩ := by
        rw [happly, if_pos hfirst]
        exact look_tell (b := m) hy h.watcher true
      have hdark : ¬ (b.apply (.cloned u c)).Shows k := by
        rintro ⟨a, z, ha, haz, hz⟩
        rw [hlook] at ha
        cases ha
        cases haz
        rw [Signals.isBit_noClones.subset_update_iff] at hz
        rcases hz with hz | hz
        · exact hz.2 (Signals.subset_self _)
        · exact Signals.isBit_noClones.not_subset_empty hz
      refine ⟨⟨⟨_, hlook⟩, by rw [hwatcher, h.watcher], fun w hw => h.only w (hwatcher ▸ hw),
        fun he => absurd he hthere⟩, iff_of_false hdark ?_⟩
      rintro (⟨-, hno⟩ | he)
      · exact hno ⟨hempty, c, rfl⟩
      · exact hthere he
    · have hmore : (m.clones u).length ≠ 1 := by
        rw [hm, List.length_append]
        intro hone
        exact hempty (List.length_eq_zero_iff.1 (by simpa using hone))
      refine h.unmoved trivial ?_ (by rw [hwatcher]) (fun he => absurd he hthere)
        fun he => absurd he hempty
      rw [happly, if_neg hmore]
      rfl
  · refine h.unmoved trivial ?_ (by rw [hwatcher]) (fun he => ?_)
      fun _ d hd => hu (by cases hd; rfl)
    · have hne : m.watcher u ≠ some (some (.view k)) := fun hw => hu (h.only u hw)
      rw [happly]
      split
      · exact look_tell_of_ne hne true
      · rfl
    · rwa [hclones, if_neg fun hq => hu hq.1] at he

/-- **A clone is taken off.**  The end of the last clone is told and sets the bit; any other leaves
a clone behind.  An object that is not listed changes nothing. -/
theorem Tends.forgot (h : b.Tends k v) (c : VmoId) : b.Follows k v (.forgot u c) := by
  have hother : ∀ d, Beat.forgot u c ≠ .cloned v d := fun d hd => by cases hd
  cases hrest : Member.removeSwapping (b.clones u) c with
  | none =>
    have happly : b.apply (.forgot u c) = b := by
      dsimp only [apply]
      rw [hrest]
    exact h.unmoved trivial (by rw [happly]) (by rw [happly]) (fun he => happly ▸ he)
      fun _ => hother
  | some rest =>
    have hclones := clones_forgot (v := v) hrest
    set m := b.setClones u fun _ => rest
    have happly : b.apply (.forgot u c) = if rest.isEmpty then m.tell u false else m := by
      dsimp only [apply]
      rw [hrest]
    have hwatcher := watcher_forgot (b := b) u c
    by_cases hu : u = v
    · subst hu
      rw [if_pos rfl] at hclones
      cases rest with
      | nil =>
        -- the last clone
        obtain ⟨y, hy⟩ := h.there
        have hlook : (b.apply (.forgot u c)).look k =
            some ⟨u, some (y.update .empty .noClones)⟩ := by
          rw [happly]
          exact look_tell (b := m) hy h.watcher false
        have hlit : (b.apply (.forgot u c)).Shows k :=
          ⟨_, _, hlook, rfl, Signals.subset_update _ _ _⟩
        exact ⟨⟨⟨_, hlook⟩, by rw [hwatcher, h.watcher], fun w hw => h.only w (hwatcher ▸ hw),
          fun _ => hlit⟩, iff_of_true hlit (.inr hclones)⟩
      | cons a rest =>
        refine h.unmoved trivial ?_ (by rw [hwatcher]) (fun he => ?_) fun _ => hother
        · rw [happly]
          rfl
        · rw [hclones] at he
          cases he
    · rw [if_neg hu] at hclones
      refine h.unmoved trivial ?_ (by rw [hwatcher]) (fun he => hclones ▸ he) fun _ => hother
      have hne : m.watcher u ≠ some (some (.view k)) := fun hw => hu (h.only u hw)
      rw [happly]
      split
      · exact look_tell_of_ne hne false
      · rfl

/-- **What a beat does to a view that watches alone**, unless it is somebody else's doing or takes
the view away. -/
theorem Tends.follows (h : b.Tends k v) (hs : b.Stamped) (hx : b.Allows x) (hm : x.Minds v k)
    (hthere : (b.apply x).vmoOf k ≠ none) : b.Follows k v x := by
  obtain ⟨hpos, n, hn, hstamp⟩ := h.nest hs
  obtain ⟨y, hy⟩ := h.there
  cases x with
  | born u =>
    have hne : u ≠ v := fun hu => hx.2.2 k _ hy hu.symm
    refine h.unmoved trivial rfl (if_neg hne) (fun he => ?_) fun _ c hc => by cases hc
    rwa [clones_born, if_neg hne] at he
  | cloned u c => exact h.cloned hs c
  | recorded u c =>
    refine h.unmoved trivial rfl rfl (fun he => ?_) fun _ d hd => by cases hd
    rw [clones_recorded] at he
    split at he
    · simp at he
    · exact he
  | stamped u id =>
    exact h.unmoved trivial rfl rfl (fun he => clones_stamp (b := b) id ▸ he)
      fun _ c hc => by cases hc
  | watched u y =>
    exact h.unmoved hm rfl (if_neg hm.1) id fun _ c hc => by cases hc
  | viewed j u =>
    obtain ⟨-, -, -, ys, hnest⟩ := hx
    have hne : u ≠ v := by
      rintro rfl
      rw [hn] at hnest
      cases hnest
      exact hpos hstamp.symm
    exact h.unmoved hm (if_neg hm) (if_neg hne) (fun he => clones_viewed (b := b) j ▸ he)
      fun _ c hc => by cases hc
  | listened o label =>
    exact h.unmoved trivial rfl rfl id fun _ c hc => by cases hc
  | signalled j clear set =>
    exact h.unmoved hm (if_neg hm) rfl id fun _ c hc => by cases hc
  | forgot u c => exact h.forgot c
  | died u =>
    have hne : u ≠ v := fun hu => hx k _ hy hu.symm
    refine h.unmoved trivial rfl (if_neg hne) (fun he => ?_) fun _ c hc => by cases hc
    rwa [clones_died, if_neg hne] at he
  | viewGone j =>
    rw [vmoOf_viewGone] at hthere
    have hj : j ≠ k := fun hj => hthere (if_pos hj)
    exact h.unmoved trivial (if_neg hj) rfl id fun _ c hc => by cases hc
  | listenerGone o =>
    exact h.unmoved trivial rfl rfl id fun _ c hc => by cases hc
  | told j =>
    have hj : j ≠ k := hm
    -- whoever is told has stamped another object
    have happly : (b.apply (.told j)).look = b.look ∧
        (b.apply (.told j)).watcher v = b.watcher v := by
      dsimp only [apply]
      cases ha : b.look j with
      | none => exact ⟨rfl, rfl⟩
      | some a =>
        refine ⟨rfl, if_neg ?_⟩
        rintro rfl
        obtain ⟨-, hstamped⟩ := hs j a.vmo (by rw [vmoOf, ha]; rfl)
        rw [stampOf, hn] at hstamped
        exact hj ((Option.some.inj hstamped).symm.trans hstamp)
    refine h.unmoved hm (congrFun happly.1 k) happly.2 (fun he => ?_) fun _ c hc => by cases hc
    rwa [clones_congr (congrFun (nest_told j) v)] at he

/-! ## 3. Runs of beats

A run of beats of one operation puts at most one clone into the list, and that is its last beat.
So there are three cases to look at: nothing is put in, a clone is created, or one is listed by
hand. -/

/-- Whether a beat puts a clone in the list of an object. -/
def Lists (v : VmoId) (x : Beat) : Prop := ∃ c, x = .cloned v c ∨ x = .recorded v c

/-- Without a beat that puts something in, an empty list stays empty. -/
theorem clones_eq_nil (h : b.clones v = []) (hx : ¬ Lists v x) : (b.apply x).clones v = [] := by
  -- A list that is empty has nothing that could be taken off.  Entries come by cloning and by
  -- hand only, and these are the beats that `hx` rules out for this list.
  cases x with
  | born u =>
    rw [clones_born, h]
    split <;> rfl
  | cloned u c =>
    have hu : u ≠ v := fun hu => hx ⟨c, .inl (hu ▸ rfl)⟩
    exact (clones_cloned c).trans ((if_neg fun hq => hu hq.1).trans h)
  | recorded u c =>
    have hu : u ≠ v := fun hu => hx ⟨c, .inr (hu ▸ rfl)⟩
    exact (clones_recorded c).trans ((if_neg fun hq => hu hq.1).trans h)
  | stamped u id => exact (clones_stamp id).trans h
  | viewed j u => exact (clones_viewed j).trans h
  | forgot u c =>
    cases hrest : Member.removeSwapping (b.clones u) c with
    | none =>
      dsimp only [apply]
      rw [hrest]
      exact h
    | some rest =>
      rw [clones_forgot hrest, if_neg]
      · exact h
      · rintro rfl
        rw [h] at hrest
        cases hrest
  | died u =>
    rw [clones_died, h]
    split <;> rfl
  | told j => exact (clones_congr (congrFun (nest_told j) v)).trans h
  | _ => exact h

/-- Who is gone stays away, unless a view is created. -/
theorem vmoOf_eq_none (h : b.vmoOf k = none) (hm : x.Minds v k) : (b.apply x).vmoOf k = none := by
  cases x with
  | cloned u c => exact (vmoOf_cloned c).trans h
  | viewed j u => exact vmoOf_viewed.trans ((if_neg hm).trans h)
  | signalled j clear set => exact (vmoOf_signal clear set).trans h
  | forgot u c => exact (vmoOf_forgot c).trans h
  | viewGone j =>
    rw [vmoOf_viewGone, h]
    split <;> rfl
  | told j => exact vmoOf_told.trans h
  | _ => exact h

/-- A view that is there at the end, and that nobody brought in meanwhile, was there all along. -/
theorem Plays.there (hp : Plays b xs b') (hm : ∀ x ∈ xs, x.Minds v k) (h : b'.vmoOf k ≠ none) :
    b.vmoOf k ≠ none := fun hnone =>
  h (hp.keeps (I := fun c => c.vmoOf k = none) hnone fun _ x hx _ hc => vmoOf_eq_none hc (hm x hx))

/-- Stamps stay in order along any play. -/
theorem Plays.stamped (hp : Plays b xs b') (h : b.Stamped) : b'.Stamped :=
  hp.keeps h fun _ _ _ hx hc => hc.apply hx

/-- **Where nothing is put in the list, the view goes dark never, and lights up when the list is
empty.** -/
theorem Plays.follows (hp : Plays b xs b') (h : b.Tends k v) (hs : b.Stamped)
    (hm : ∀ x ∈ xs, x.Minds v k) (hq : ∀ x ∈ xs, ¬ Lists v x) (hthere : b'.vmoOf k ≠ none) :
    b'.Tends k v ∧ (b'.Shows k ↔ b.Shows k ∨ b'.clones v = []) ∧
      (b.clones v = [] → b'.clones v = []) := by
  induction hp with
  | done => exact ⟨h, ⟨.inl, fun hl => hl.elim id h.lit⟩, id⟩
  | @beat b b' x xs hx hrest ih =>
    have hm' := fun y hy => hm y (List.mem_cons_of_mem x hy)
    have hq' := fun y hy => hq y (List.mem_cons_of_mem x hy)
    have hfirst := hq x List.mem_cons_self
    obtain ⟨htends, hshows⟩ := h.follows hs hx (hm x List.mem_cons_self) (hrest.there hm' hthere)
    obtain ⟨hend, hlit, hempty⟩ := ih htends (hs.apply hx) hm' hq' hthere
    refine ⟨hend, ?_, fun he => hempty (clones_eq_nil he hfirst)⟩
    rw [hlit, hshows]
    constructor
    · rintro ((⟨hb, -⟩ | he) | he)
      · exact .inl hb
      · exact .inr (hempty he)
      · exact .inr he
    · rintro (hb | he)
      · exact .inl (.inl ⟨hb, fun ⟨_, c, hc⟩ => hfirst ⟨c, .inl hc⟩⟩)
      · exact .inr he

/-- A view that is new watches its object alone. -/
theorem Plays.viewed (hp : Plays b [.viewed k v] b')
    (hnew : ∀ u, b.watcher u ≠ some (some (.view k))) : b'.Tends k v ∧ b'.Shows k := by
  obtain ⟨hallows, rfl⟩ := hp.of_one
  obtain ⟨y, hy⟩ := Option.isSome_iff_exists.1 hallows.2.2.1
  have hlook : (b.apply (.viewed k v)).look k = some ⟨v, some .noClones⟩ := if_pos rfl
  have hlit : (b.apply (.viewed k v)).Shows k := ⟨_, _, hlook, rfl, Signals.subset_self _⟩
  refine ⟨⟨⟨_, hlook⟩, (if_pos rfl).trans ?_, fun u hu => ?_, fun _ => hlit⟩, hlit⟩
  · show (b.watcher v).map _ = _
    rw [hy]
    rfl
  · rcases watcher_apply hu with hu | hu | hu
    · exact absurd hu (hnew u)
    · cases hu
    · cases hu
      rfl

/-- **Where a clone is created, the view goes dark or stays as it was.** -/
theorem Plays.created {c : VmoId} (hp : Plays b [.born c, .cloned v c] b') (h : b.Tends k v)
    (hs : b.Stamped) :
    b'.Tends k v ∧ (b'.Shows k ↔ b.Shows k ∧ b.clones v ≠ []) ∧ b'.clones v ≠ [] := by
  obtain ⟨hborn, hrest⟩ : b.Allows (.born c) ∧ Plays (b.apply (.born c)) [.cloned v c] b' := by
    cases hp with
    | beat hborn hrest => exact ⟨hborn, hrest⟩
  obtain ⟨-, rfl⟩ := hrest.of_one
  obtain ⟨y, hy⟩ := h.there
  have hne : c ≠ v := fun hc => hborn.2.2 k _ hy hc.symm
  have hlist : (b.apply (.born c)).clones v = b.clones v := clones_born.trans (if_neg hne)
  have hafter := (h.follows hs hborn trivial (by rw [vmoOf]; exact hy ▸ Option.some_ne_none _)).1
  obtain ⟨-, n, hn, -⟩ := hafter.nest (hs.apply hborn)
  have hthere : ((b.apply (.born c)).apply (.cloned v c)).clones v ≠ [] := by
    rw [clones_cloned, if_pos ⟨rfl, by rw [hn]; rfl⟩]
    simp
  obtain ⟨htends, hshows⟩ := hafter.cloned (hs.apply hborn) (u := v) c
  refine ⟨htends, ?_, hthere⟩
  have hsame : (b.apply (.born c)).Shows k ↔ b.Shows k := shows_congr rfl
  rw [hshows, hlist, hsame]
  constructor
  · rintro (⟨hb, hno⟩ | he)
    · exact ⟨hb, fun he => hno ⟨he, c, rfl⟩⟩
    · exact absurd he hthere
  · exact fun ⟨hb, he⟩ => .inl ⟨hb, fun hq => he hq.1⟩

/-- **Where one is listed by hand, it stays as it was.** -/
theorem Plays.recorded {c : VmoId} (hp : Plays b [.recorded v c] b') (h : b.Tends k v)
    (hs : b.Stamped) : b'.Tends k v ∧ (b'.Shows k ↔ b.Shows k) ∧ b'.clones v ≠ [] := by
  obtain ⟨-, rfl⟩ := hp.of_one
  obtain ⟨-, n, hn, -⟩ := h.nest hs
  have hthere : (b.apply (.recorded v c)).clones v ≠ [] := by
    rw [clones_recorded, if_pos ⟨rfl, by rw [hn]; rfl⟩]
    simp
  have hfollows := h.unmoved (x := .recorded v c) trivial rfl rfl (fun he => absurd he hthere)
    fun _ d hd => by cases hd
  exact ⟨hfollows.1, shows_congr rfl, hthere⟩

end Broods

/-! ## 4. Operations

What was said of runs of beats is turned into a statement about one operation, in the words of a
client: which clones were created, which were listed by hand, who was told. -/

/-- Whether an operation leaves it to the view `k` to watch `v`: nobody registers anybody with `v`,
nor the view with another object, and nobody signals for the view. -/
def Op.LeavesTo (v : VmoId) (k : Koid) : Op → Prop
  | setWatcher u y => u ≠ v ∧ y ≠ some (.view k)
  | signal j _ _ => j ≠ k
  | _ => True

/-- Whether an operation registers a view only if there is one.  Nothing else can be registered: a
watcher is handed over as a reference to it, so there is no way to name a view before it exists.
The koid of a view that is still to come is an argument of the operation here only because
operations name everything by number. -/
def Op.RegistersKnown (s : System) : Op → Prop
  | setWatcher _ (some (.view k)) => s.views.contains k
  | _ => True

namespace Broods

variable {b b' : Broods} {x : Beat} {xs : List Beat}

/-- A view is registered by hand, or when it is created. -/
theorem Plays.watcher (hp : Plays b xs b') {u : VmoId} {j : Koid}
    (h : b'.watcher u = some (some (.view j))) :
    b.watcher u = some (some (.view j)) ∨ .watched u (some (.view j)) ∈ xs ∨ .viewed j u ∈ xs := by
  induction hp with
  | done => exact .inl h
  | @beat b b' x xs _ _ ih =>
    rcases ih h with h | h | h
    · rcases watcher_apply h with h | rfl | rfl
      · exact .inl h
      · exact .inr (.inl List.mem_cons_self)
      · exact .inr (.inr List.mem_cons_self)
    · exact .inr (.inl (List.mem_cons_of_mem x h))
    · exact .inr (.inr (List.mem_cons_of_mem x h))

/-- Who is told is written down. -/
theorem told_apply : (b.apply x).told = match x with
    | .told j => j :: b.told
    | _ => b.told := by
  cases x with
  | cloned u c =>
    dsimp only [apply]
    split
    · exact told_tell _ _ _
    · rfl
  | forgot u c =>
    dsimp only [apply]
    split
    · rfl
    · split
      · exact told_tell _ _ _
      · rfl
  | told j =>
    dsimp only [apply]
    cases b.look j <;> rfl
  | _ => rfl

/-- Who is not told more often in the end was not told. -/
theorem Plays.count_told (hp : Plays b xs b') (k : Koid) :
    b'.told.count k = b.told.count k + xs.count (.told k) := by
  induction hp with
  | done => rfl
  | @beat b b' x xs _ _ ih =>
    rw [ih, told_apply]
    cases x with
    | told j =>
      by_cases hj : j = k
      · subst hj
        rw [List.count_cons_self, List.count_cons_self]
        omega
      · rw [List.count_cons_of_ne hj, List.count_cons_of_ne (by simpa using hj)]
    | _ => rw [List.count_cons_of_ne Beat.noConfusion]

end Broods

/-- The views that are there were handed out. -/
theorem Accounted.view_lt {s : System} {d : List Task} (h : Accounted s d) {k : Nat} {a : View}
    (ha : s.views[k]? = some a) : k < s.nextKoid := by
  obtain ⟨o, ho⟩ := h.object_of_present (.inr (.inr (.inl (Store.contains_iff.2 ⟨a, ha⟩))))
  exact h.bounded.object (Store.contains_iff.2 ⟨o, ho⟩)

namespace System

variable {s : System} {k : Koid}

/-- What a view shows of is written in the view's own record. -/
theorem vmoOf_broods : s.broods.vmoOf k = s.views[k]?.map View.vmo := by
  show (s.views[k]?.map _).map _ = _
  rw [Option.map_map]
  rfl

/-- What the object of a view shows. -/
theorem shows_broods (h : s.views.contains k) :
    s.broods.Shows k ↔ Signals.noClones ⊆ s.signals k := by
  obtain ⟨a, ha⟩ := Store.contains_iff.1 h
  unfold Broods.Shows signals
  rw [look_broods ha]
  cases s.objects[k]? with
  | none =>
    refine iff_of_false ?_ Signals.isBit_noClones.not_subset_empty
    rintro ⟨_, x, ha, hx, -⟩
    cases ha
    cases hx
  | some o =>
    refine ⟨?_, fun hx => ⟨_, _, rfl, rfl, hx⟩⟩
    rintro ⟨_, x, ha, hx, hsub⟩
    cases ha
    cases hx
    exact hsub

end System

namespace World

variable {P Q : System → Op → Prop} {w u : World} {v : VmoId} {k : Koid} {op : Op}

/-- **All views have stamped their objects**, in every state that a run comes by. -/
theorem Ran.broods_stamped (h : w.Ran P) : w.system.broods.Stamped := by
  induction h with
  | start => exact fun k v hk => by cases hk
  | @act w op h _ ih =>
    obtain ⟨xs, -, hplays⟩ := act_plays h.passed op
    exact hplays.stamped ih
  | reorder _ _ ih => exact ih

/-- Views that are registered were created, if nobody registers one that is not there. -/
theorem Ran.watcher_lt (h : w.Ran P) (hP : ∀ s op, P s op → op.RegistersKnown s) {u : VmoId}
    {j : Koid} (hj : w.system.broods.watcher u = some (some (.view j))) :
    j < w.system.nextKoid := by
  induction h with
  | start => cases hj
  | @act w op h hop ih =>
    obtain ⟨xs, hy, hplays⟩ := act_plays h.passed op
    have hnext := act_moves (A := True) (C := True) h.passed.accounted op (fun _ => trivial)
      fun _ => trivial
    have hmono := hnext.steady.nextKoid
    rcases hplays.watcher hj with hj | hmem | hmem
    · exact Nat.lt_of_lt_of_le (ih hj) hmono
    · cases hy.comesOf hmem
      obtain ⟨a, ha⟩ := Store.contains_iff.1 (hP _ _ hop)
      exact Nat.lt_of_lt_of_le (h.passed.accounted.view_lt ha) hmono
    · have hxs : xs = [.viewed j u] := hy.comesOf hmem
      subst hxs
      have hview : (w.act op).system.broods.vmoOf j = some u := by
        rw [hplays.of_one.2, Broods.vmoOf_viewed, if_pos rfl]
      rw [System.vmoOf_broods] at hview
      obtain ⟨a, ha, -⟩ := Option.map_eq_some_iff.1 hview
      exact (h.passed.trans hnext).accounted.view_lt ha
  | reorder _ _ ih => exact ih hj

/-! ## 5. Operations that leave it to the view

The condition on operations is as narrow as it can be: they may do anything to the object and its
clones, as long as the view is not replaced, moved, signalled for or told to stop. -/

/-- What an operation does to a view that watches alone.  Only the first clone of its object that is
created darkens it, and without clones it lights up. -/
structure Heeds (w : World) (k : Koid) (v : VmoId) (op : Op) : Prop where
  shows : (w.act op).system.broods.Shows k ↔
    w.system.broods.Shows k ∧ ¬ (w.system.cloneCount v = 0 ∧ ∃ ask, op = .cloneVmo v ask) ∨
      (w.act op).system.cloneCount v = 0
  /-- A first clone is created or listed by hand. -/
  first : w.system.cloneCount v = 0 → (w.act op).system.cloneCount v ≠ 0 →
    (∃ ask, op = .cloneVmo v ask) ∨ ∃ f c, op = .recordClone f v c

/-- An operation that leaves it to the view is a run of beats that do so. -/
theorem minds_of_leavesTo {b b' : Broods} {xs : List Beat} (hp : Broods.Plays b xs b')
    (hy : op.Yields w.system xs) (hop : op.LeavesTo v k) (hthere : b.look k ≠ none)
    (htold : b'.told.count k = b.told.count k) : ∀ x ∈ xs, x.Minds v k := by
  intro x hx
  have hcomes := hy.comesOf hx
  cases x with
  | watched u y =>
    cases hcomes
    exact hop
  | signalled j clear set =>
    cases hcomes
    exact hop
  | viewed j u =>
    -- a view is new when it is created
    rintro rfl
    rw [show xs = [.viewed j u] from hcomes] at hp
    cases hp with
    | beat hallows _ => exact hthere hallows.1
  | told j =>
    rintro rfl
    rw [hp.count_told] at htold
    have hpos := List.count_pos_iff.2 hx
    omega
  | _ => trivial

/-- **An operation that leaves it to the view** keeps it watching alone, and does to its signals
what it should do. -/
theorem act_heeds (hw : w.Ran P) (ht : w.system.broods.Tends k v) (hop : op.LeavesTo v k)
    (hthere : (w.act op).system.views.contains k)
    (htold : (w.act op).system.told.count k = w.system.told.count k) :
    (w.act op).system.broods.Tends k v ∧ w.Heeds k v op := by
  obtain ⟨xs, hy, hplays⟩ := act_plays hw.passed op
  have hs := hw.broods_stamped
  have hminds := minds_of_leavesTo hplays hy hop ht.look_ne htold
  have hend : (w.act op).system.broods.vmoOf k ≠ none := by
    obtain ⟨a, ha⟩ := Store.contains_iff.1 hthere
    rw [System.vmoOf_broods, ha]
    exact Option.some_ne_none _
  have hcount := fun s : System => s.clones_broods_eq_nil (v := v)
  by_cases hlists : ∃ x ∈ xs, Broods.Lists v x
  · obtain ⟨x, hx, c, rfl | rfl⟩ := hlists
    · -- a clone is created
      obtain ⟨hask, rfl⟩ := hy.comesOf hx
      obtain ⟨htends, hshows, hne⟩ := hplays.created ht hs
      rw [Ne, hcount] at hshows hne
      refine ⟨htends, hshows.trans ?_, fun _ _ => .inl hask⟩
      constructor
      · exact fun ⟨hb, he⟩ => .inl ⟨hb, fun hq => he hq.1⟩
      · rintro (⟨hb, hno⟩ | he)
        · exact ⟨hb, fun he => hno ⟨he, hask⟩⟩
        · exact absurd he hne
    · -- a clone is listed by hand
      obtain ⟨⟨f, rfl⟩, rfl⟩ := hy.comesOf hx
      obtain ⟨htends, hshows, hne⟩ := hplays.recorded ht hs
      rw [Ne, hcount] at hne
      refine ⟨htends, hshows.trans ?_, fun _ _ => .inr ⟨f, c, rfl⟩⟩
      constructor
      · exact fun hb => .inl ⟨hb, fun ⟨_, ask, hask⟩ => by cases hask⟩
      · rintro (⟨hb, -⟩ | he)
        · exact hb
        · exact absurd he hne
  · obtain ⟨htends, hshows, hempty⟩ := hplays.follows ht hs hminds
      (fun x hx hl => hlists ⟨x, hx, hl⟩) hend
    rw [hcount, hcount] at hempty
    rw [hcount] at hshows
    refine ⟨htends, ?_, fun he hne => absurd (hempty he) hne⟩
    rw [hshows]
    constructor
    · rintro (hb | he)
      · by_cases he : w.system.cloneCount v = 0
        · exact .inr (hempty he)
        · exact .inl ⟨hb, fun hq => he hq.1⟩
      · exact .inr he
    · exact fun hq => hq.imp And.left id

/-! ## 6. Runs

One more induction, over operations.  What has to be carried along is that the view tends its
object, and for that it must not be told to stop in between. -/

/-- Nobody is told less often as time goes by. -/
theorem Onward.count_told_le (h : w.Onward Q u) (hw : w.Ran P) (k : Koid) :
    w.system.told.count k ≤ u.system.told.count k := by
  obtain ⟨xs, hxs⟩ := h.recount hw
  have hcount : u.system.told.count k = w.system.told.count k + _ := hxs.plays.count_told k
  omega

/-- A view that is there in the end and was not told in between was there and not told in
between. -/
theorem Onward.between {x : World} {R : System → Op → Prop} (h : w.Onward Q x) (h' : x.Onward R u)
    (hw : w.Ran P) (hk : w.system.broods.look k ≠ none) (hthere : u.system.views.contains k)
    (htold : u.system.told.count k = w.system.told.count k) :
    x.system.views.contains k ∧ x.system.told.count k = w.system.told.count k := by
  have hx := h.ran_any hw
  obtain ⟨z, hz⟩ := Option.ne_none_iff_exists'.1 hk
  obtain ⟨a, ha, -⟩ := Option.map_eq_some_iff.1 hz
  have hlt : k < x.system.nextKoid :=
    Nat.lt_of_lt_of_le (hw.passed.accounted.view_lt ha) (h.steady hw).nextKoid
  obtain ⟨c, hc⟩ := Store.contains_iff.1 hthere
  have hfirst := h.count_told_le hw k
  have hlast := h'.count_told_le hx k
  exact ⟨Store.contains_iff.2 ⟨c, (h'.steady hx).view hlt hc⟩, by omega⟩

/-- What holds at first and is kept by operations that leave it to the view holds as long as the
view is there and nobody told it to stop. -/
theorem Onward.heeds (h : w.Onward Q u) (hw : w.Ran P) (hQ : ∀ s op, Q s op → op.LeavesTo v k)
    (ht : w.system.broods.Tends k v) (hthere : u.system.views.contains k)
    (htold : u.system.told.count k = w.system.told.count k) {I : World → Prop} (h0 : I w)
    (hact : ∀ y op, w.Onward Q y → Q y.system op → y.Heeds k v op → I y → I (y.act op))
    (hperm : ∀ s d e, d.Perm e → I ⟨s, d⟩ → I ⟨s, e⟩) : u.system.broods.Tends k v ∧ I u := by
  induction h with
  | refl => exact ⟨ht, h0⟩
  | @act y op h hop ih =>
    have hlast : y.Onward Q (y.act op) := Onward.refl.act hop
    obtain ⟨hbefore, htold'⟩ := h.between hlast hw ht.look_ne hthere htold
    obtain ⟨htends, hi⟩ := ih hbefore htold'
    obtain ⟨hafter, hheeds⟩ := act_heeds (h.ran_any hw) htends (hQ _ _ hop) hthere
      (htold.trans htold'.symm)
    exact ⟨hafter, hact y op h hop hheeds hi⟩
  | reorder h hp ih =>
    obtain ⟨htends, hi⟩ := ih hthere htold
    exact ⟨htends, hperm _ _ _ hp hi⟩

/-- As long as a view is there and was not told that its handles are gone, it goes on tending its
object. -/
theorem Onward.tends (h : w.Onward Q u) (hw : w.Ran P) (hQ : ∀ s op, Q s op → op.LeavesTo v k)
    (ht : w.system.broods.Tends k v) (hthere : u.system.views.contains k)
    (htold : u.system.told.count k = w.system.told.count k) : u.system.broods.Tends k v :=
  (h.heeds hw hQ ht hthere htold (I := fun _ => True) trivial (fun _ _ _ _ _ _ => trivial)
    fun _ _ _ _ _ => trivial).1

/-- Whether an object has clones now and had some all the time since there were some that nobody was
told of: those that were there at first, or one that was listed by hand when there were none. -/
def Overlooked (Q : System → Op → Prop) (v : VmoId) (w u : World) : Prop :=
  u.system.cloneCount v ≠ 0 ∧ ∃ x,
    (x = w ∨ ∃ y f c, w.Onward Q y ∧ y.system.cloneCount v = 0 ∧
      Q y.system (.recordClone f v c) ∧ x = y.act (.recordClone f v c)) ∧
    x.Onward (fun s op => Q s op ∧ s.cloneCount v ≠ 0) u

/-- A view that shows that there are no clones is right, or overlooked some. -/
theorem Onward.overlooked (h : w.Onward Q u) (hw : w.Ran P)
    (hQ : ∀ s op, Q s op → op.LeavesTo v k) (ht : w.system.broods.Tends k v)
    (hthere : u.system.views.contains k) (htold : u.system.told.count k = w.system.told.count k)
    (hshows : u.system.broods.Shows k) : u.system.cloneCount v = 0 ∨ Overlooked Q v w u := by
  refine (h.heeds hw hQ ht hthere htold
    (I := fun u => u.system.broods.Shows k → u.system.cloneCount v = 0 ∨ Overlooked Q v w u)
    ?_ ?_ ?_).2 hshows
  · intro _
    by_cases he : w.system.cloneCount v = 0
    · exact .inl he
    · exact .inr ⟨he, w, .inl rfl, .refl⟩
  · intro y op hy hop hheeds hi hshows
    rcases hheeds.shows.1 hshows with ⟨hbefore, hno⟩ | he
    · by_cases he' : (y.act op).system.cloneCount v = 0
      · exact .inl he'
      refine .inr ⟨he', ?_⟩
      by_cases he : y.system.cloneCount v = 0
      · -- the first clone was listed by hand
        obtain hask | ⟨f, c, rfl⟩ := hheeds.first he he'
        · exact absurd ⟨he, hask⟩ hno
        · exact ⟨_, .inr ⟨y, f, c, hy, he, hop, rfl⟩, .refl⟩
      · obtain he'' | ⟨-, x, hx, hrun⟩ := hi hbefore
        · exact absurd he'' he
        · exact ⟨x, hx, hrun.act ⟨hop, he⟩⟩
    · exact .inl he
  · intro s d e hp hi hshows
    obtain he | ⟨he, x, hx, hrun⟩ := hi hshows
    · exact .inl he
    · exact .inr ⟨he, x, hx, hrun.reorder hp⟩

/-- A view that overlooked some clones goes on showing that there are none. -/
theorem Overlooked.shows (h : Overlooked Q v w u) (hw : w.Ran P)
    (hQ : ∀ s op, Q s op → op.LeavesTo v k) (ht : w.system.broods.Tends k v)
    (hlit : w.system.broods.Shows k) (hthere : u.system.views.contains k)
    (htold : u.system.told.count k = w.system.told.count k) : u.system.broods.Shows k := by
  obtain ⟨-, x, hx, hrun⟩ := h
  have hwx : w.Onward Q x := by
    obtain rfl | ⟨y, f, c, hy, -, hop, rfl⟩ := hx
    · exact .refl
    · exact hy.act hop
  obtain ⟨hxthere, hxtold⟩ := hwx.between hrun hw ht.look_ne hthere htold
  have hxshows : x.system.broods.Shows k := by
    obtain rfl | ⟨y, f, c, hy, he, hop, rfl⟩ := hx
    · exact hlit
    · -- the view was right before the clone was listed, and was not told
      have hlast : y.Onward Q (y.act (.recordClone f v c)) := Onward.refl.act hop
      obtain ⟨hythere, hytold⟩ := hy.between hlast hw ht.look_ne hxthere hxtold
      have hytends := hy.tends hw hQ ht hythere hytold
      have hheeds := (act_heeds (hy.ran_any hw) hytends (hQ _ _ hop) hxthere
        (hxtold.trans hytold.symm)).2
      exact hheeds.shows.2 (.inl ⟨hytends.lit (System.clones_broods_eq_nil.2 he),
        fun ⟨_, ask, hask⟩ => by cases hask⟩)
  exact (hrun.heeds (hwx.ran_any hw) (fun s op hop => hQ s op hop.1)
    (hwx.tends hw hQ ht hxthere hxtold) hthere (htold.trans hxtold.symm)
    (I := fun u => u.system.broods.Shows k) hxshows
    (fun _ _ _ hop hheeds hi => hheeds.shows.2 (.inl ⟨hi, fun hq => hop.2 hq.1⟩))
    fun _ _ _ _ hi => hi).2

/-- A view that was just created watches its object alone, and shows that there are no clones. -/
theorem Ran.createView_tends (hw : w.Ran P) (hP : ∀ s op, P s op → op.RegistersKnown s) {s : System}
    (hview : w.system.createView v = (.ok k, s)) : s.broods.Tends k v ∧ s.broods.Shows k := by
  have hnew : k = w.system.nextKoid := by
    have hcreation := w.system.createView_creation v
    rw [hview] at hcreation
    cases hcreation
    rfl
  have hplays := System.createView_plays hw.passed.accounted hw.passed.nextKoid_pos hview
  refine hplays.viewed fun u hu => Nat.lt_irrefl k ?_
  rw [hnew] at hu ⊢
  exact hw.watcher_lt hP hu

/-- **A view shows that its object has no clones exactly if that is so, or if it overlooked
some.** -/
theorem Ran.signal_mirrors_clones {s : System} (hw : w.Ran P)
    (hP : ∀ s op, P s op → op.RegistersKnown s) (hview : w.system.createView v = (.ok k, s))
    (hrun : (w.act (.createView v)).Onward Q u) (hQ : ∀ s op, Q s op → op.LeavesTo v k)
    (hthere : u.system.views.contains k) (huntold : u.system.told.count k = s.told.count k) :
    Signals.noClones ⊆ u.system.signals k ↔
      u.system.cloneCount v = 0 ∨ Overlooked Q v (w.act (.createView v)) u := by
  have hfirst : (w.act (.createView v)).system = s := by
    rw [World.act, hview]
    rfl
  obtain ⟨htends, hlit⟩ := hw.createView_tends hP hview
  have hran : (w.act (.createView v)).Ran fun _ _ => True :=
    (hw.mono fun _ _ _ => trivial).act trivial
  rw [← hfirst] at htends hlit huntold
  rw [← System.shows_broods hthere]
  constructor
  · exact hrun.overlooked hran hQ htends hthere huntold
  · rintro (he | ho)
    · have hend := hrun.tends hran hQ htends hthere huntold
      exact hend.lit (System.clones_broods_eq_nil.2 he)
    · exact ho.shows hran hQ htends hlit hthere huntold

/-- A VM object with a clone. -/
def clonedOps : List Op := [.createVmo 4096 0, .cloneVmo 1 ⟨false, 0, 4096, false⟩]

/-- The clone is taken off the list, another one comes, and a third one, which is a clone of
that. -/
def regrowingOps : List Op :=
  [.forgetClone 1 2, .cloneVmo 1 ⟨false, 0, 4096, false⟩, .cloneVmo 3 ⟨false, 0, 4096, false⟩]

/-- The view overlooks the clone that was there before it, and sees the one that comes after
that. -/
theorem Ran.signal_mirrors_clones_of_regrowing :
    let w := (run clonedOps).act (.createView 1)
    let u := regrowingOps.foldl World.act w
    let Q := fun (_ : System) (op : Op) => op.LeavesTo 1 1024
    (Signals.noClones ⊆ w.system.signals 1024 ↔
      w.system.cloneCount 1 = 0 ∨ Overlooked Q 1 w w) ∧
    (Signals.noClones ⊆ u.system.signals 1024 ↔
      u.system.cloneCount 1 = 0 ∨ Overlooked Q 1 w u) ∧
    Signals.noClones ⊆ w.system.signals 1024 ∧ w.system.cloneCount 1 = 1 ∧
    ¬ Signals.noClones ⊆ u.system.signals 1024 ∧ u.system.cloneCount 1 = 1 := by
  intro w u Q
  have hran : (run clonedOps).Ran fun s op => op.RegistersKnown s :=
    Ran.start.foldl ⟨trivial, trivial, trivial⟩
  have hview : (run clonedOps).system.createView 1 =
      (.ok 1024, ((run clonedOps).system.createView 1).2) := Prod.ext (by decide +kernel) rfl
  have hrun : w.Onward Q u := Onward.refl.foldl ⟨trivial, trivial, trivial, trivial⟩
  exact ⟨hran.signal_mirrors_clones (fun _ _ => id) hview .refl (fun _ _ => id) (by decide +kernel)
      (by decide +kernel),
    hran.signal_mirrors_clones (fun _ _ => id) hview hrun (fun _ _ => id) (by decide +kernel)
      (by decide +kernel),
    by decide +kernel, by decide +kernel, by decide +kernel, by decide +kernel⟩

/-- A view that was just created shows that there are no clones, although there is one. -/
theorem signal_beside_clone :
    let w := run clonedOps
    let u := w.act (.createView 1)
    (w.system.createView 1).1 = .ok 1024 ∧ u.system.views.contains 1024 ∧ 1024 ∉ u.system.told ∧
      ¬ (Signals.noClones ⊆ u.system.signals 1024 ↔ u.system.cloneCount 1 = 0) := by
  decide +kernel

end World

end KernelObjects
