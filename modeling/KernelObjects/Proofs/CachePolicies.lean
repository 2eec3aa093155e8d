import KernelObjects.Proofs.Ledger
import KernelObjects.Proofs.CloneFamilies

/-
# Cache policies in a family of clones

The policy by which mappings of a VM object are cached may be chosen while nobody can have relied
on it: the object has no parent, no pages, no mapping and no clone.  Nothing else ever changes it
(`World.Ran.cache_policies`).

A clone shows pages of its original, but it does not take over the policy: every clone is cached
as all VM objects are at first, and it cannot choose, because it has a parent.  So a clone agrees
with its original just if the original is cached that way too.

That the policy never changes otherwise is a property of shifts, as it is for the other entries of
the ledger: each operation is a list of shifts, and only one kind of shift writes the policy of an
object that is there.  The condition under which it does so is read from the record of the object
at that moment; that no clone is *there*, and not only that none is listed, needs the families to
be consistent.
-/

namespace KernelObjects

namespace System

/-- Nobody can have relied on how a VM object is cached. -/
structure Pristine (s : System) (v : VmoId) : Prop where
  original : s.originalOf v = none
  pages : s.committedPages v = 0
  mappings : s.liveMappings v = []
  clones : s.cloneCount v = 0

variable {op : Op} {s t : System} {v : VmoId} {o : Vmo}

/-! ## 1. What the ledger shows of policies

The policy of an object with its parent, so that a shift can be seen to leave clones alone. -/

/-- The tint of an object that is there says what it clones and how its memory is cached. -/
theorem tint_of_some (ho : s.vmos[v]? = some o) :
    s.ledger.tint v = some (o.parent, s.cachePolicy v) := by
  have hmember : s.member v = s.memberIn o.family v := by
    unfold member
    rw [ho]
    rfl
  unfold cachePolicy
  rw [hmember]
  show s.vmos[v]?.map _ = _
  rw [ho]
  rfl

/-- The clones that are there are cached as VM objects are at first. -/
def ClonesCached (s : System) : Prop :=
  ∀ v p policy, s.ledger.tint v = some (some p, policy) → policy = .cached

theorem tint_of_leave {k : Koid} {p : Job.Post} (he : t.ledger = s.ledger.leave k p) :
    t.ledger.tint = s.ledger.tint := he ▸ rfl

/-- A tint that is set is the new one or was there before. -/
theorem tint_of_setTint {l : Ledger} {u : VmoId} {x : Option (Option VmoId × CachePolicy)}
    {y : Option VmoId × CachePolicy} (h : (l.setTint u x).tint v = some y) :
    x = some y ∨ l.tint v = some y := by
  unfold Ledger.setTint at h
  dsimp only at h
  split at h
  · exact .inl h
  · exact .inr h

/-- **One shift keeps clones cached**: a clone is born cached, and an object with an original cannot
be set otherwise. -/
theorem Shift.clonesCached (h : Shift op s t) (hs : s.ClonesCached) : t.ClonesCached := by
  intro v p policy hv
  cases h with
  | left hj hvacant ht he =>
    rw [tint_of_leave he] at hv
    exact hs v p policy hv
  | change hc =>
    generalize hl : t.ledger = l at hc hv
    cases hc with
    | vmoBorn hop hfresh =>
      rcases tint_of_setTint hv with hx | hx
      · cases hx
        rfl
      · exact hs v p policy hx
    | vmoGone =>
      rcases tint_of_setTint hv with hx | hx
      · cases hx
      · exact hs v p policy hx
    | tinted hop hold =>
      rcases tint_of_setTint hv with hx | hx
      · cases hx
      · exact hs v p policy hx
    | _ => exact hs v p policy hv

/-- **A shift leaves the policy of a VM object alone**, unless it belongs to the operation that
chooses it.  The object may go, and one may come that was not there. -/
theorem Shift.tint (h : Shift op s t) (hop : ∀ raw, op ≠ .setCachePolicy v raw) :
    t.ledger.tint v = none ∨ t.ledger.tint v = s.ledger.tint v ∨
      op.AtOnce ∧ s.ledger.tint v = none := by
  cases h with
  | left hj hvacant ht he => exact .inr (.inl (congrFun (tint_of_leave he) v))
  | change hc =>
    generalize t.ledger = l at hc ⊢
    cases hc with
    | @vmoBorn u parent ho hfresh =>
      by_cases hu : u = v
      · exact .inr (.inr ⟨ho, hu ▸ hfresh⟩)
      · exact .inr (.inl (if_neg hu))
    | @vmoGone u =>
      by_cases hu : u = v
      · exact .inl (if_pos hu)
      · exact .inr (.inl (if_neg hu))
    | @tinted u raw policy old ho hold =>
      by_cases hu : u = v
      · exact absurd (hu ▸ ho) (hop raw)
      · exact .inr (.inl (if_neg hu))
    | _ => exact .inr (.inl rfl)

/-- What it takes for the policy of a VM object to change where it is chosen. -/
theorem pristine_of_setCachePolicy {raw : Nat}
    (hne : (s.setCachePolicy v raw).2.cachePolicy v ≠ s.cachePolicy v) :
    s.Pristine v ∧
      CachePolicy.ofRaw? raw = some ((s.setCachePolicy v raw).2.cachePolicy v) := by
  obtain ⟨e, he⟩ | ⟨policy, o, m, hraw, ho, hp, hm, hpages, hmappings, hclones, he⟩ :=
    s.setCachePolicy_cases v raw
  · rw [he] at hne
    exact absurd rfl hne
  · have hmember : s.member v = some m := Option.bind_eq_some_iff.2 ⟨o, ho, hm⟩
    -- The policy was chosen, so the four guards were passed: no parent, no page, no mapping, no
    -- clone on the list.
    refine ⟨⟨?_, ?_, List.isEmpty_iff.1 hmappings, ?_⟩, ?_⟩
    · rw [originalOf_of_get ho]
      exact hp
    · unfold committedPages memberNat
      rw [hmember]
      exact Std.ExtTreeMap.isEmpty_eq_size_beq_zero.symm.trans hpages |> beq_iff_eq.1
    · unfold cloneCount memberNat
      rw [hmember]
      exact congrArg List.length (List.isEmpty_iff.1 hclones)
    · rw [he, hraw]
      dsimp only
      set t := s.modifyMember o.family v fun m => { m with cachePolicy := policy }
      have hnew : t.member v = some { m with cachePolicy := policy } := by
        refine Option.bind_eq_some_iff.2 ⟨o, ho, ?_⟩
        rw [memberIn_modifyMember, if_pos ⟨rfl, rfl⟩, hm]
        rfl
      unfold cachePolicy
      rw [hnew]
      rfl

/-- A list of clones that is empty is right, if the families are consistent. -/
theorem FamiliesConsistent.no_clone {d : List Task} (h : s.FamiliesConsistent)
    (hacc : Accounted s d) (ho : s.vmos[v]? = some o) (hv : s.cloneCount v = 0) {c : VmoId}
    (hc : s.Alive c) : s.originalOf c ≠ some v := by
  intro horiginal
  have halive : s.Alive v := (alive_iff hacc).2 ⟨o, ho⟩
  obtain ⟨g, hg⟩ := Store.contains_iff.1 (h.family halive)
  have hlisted : v ∈ g.keys := (h.members hg v).2 ⟨halive, rfl⟩
  rw [Store.mem_keys_iff] at hlisted
  obtain ⟨m, hm⟩ := Option.isSome_iff_exists.1 hlisted
  have hmember : s.member v = some m := by
    refine Option.bind_eq_some_iff.2 ⟨o, ho, ?_⟩
    rw [← familyOf_of_get ho]
    exact memberIn_of_get hg hm
  unfold cloneCount memberNat at hv
  rw [hmember] at hv
  have hnone : m.clones = [] := List.length_eq_zero_iff.1 hv
  have hmem := (h.clones hg hm c).2 ⟨hc, horiginal⟩
  rw [hnone] at hmem
  cases hmem

end System

/-! ## 2. Runs

A clone is born cached, and has a parent for as long as it is there; so it stays cached. -/

namespace World

variable {P : System → Op → Prop} {w : World} {v : VmoId}

/-- **Clones are cached at any time of a run.** -/
theorem Ran.clonesCached (h : w.Ran P) : w.system.ClonesCached := by
  obtain ⟨ls, hls⟩ := h.journey
  refine hls.keeps (I := fun _ s => s.ClonesCached) ?_ fun hi _ hs => hs.clonesCached hi
  intro v p policy hv
  rw [System.ledger_initial] at hv
  cases hv

/-- A VM object that is there before and after an operation keeps its policy, if the operation does
not choose it. -/
theorem Ran.tint_act (h : w.Ran P) {op : Op} {x y : Option VmoId × CachePolicy}
    (hop : ∀ raw, op ≠ .setCachePolicy v raw) (hx : w.system.ledger.tint v = some x)
    (hy : (w.act op).system.ledger.tint v = some y) : x = y := by
  have hpassed := h.passed
  obtain ⟨es, hes⟩ := exists_route hpassed.accounted op
  have hshifts := hes.shifts hpassed.accounted hpassed.housed
  -- The object may go in the midst of a long operation, and no later pace brings it back under
  -- its number.  So the invariant of the paces is that the policy is the one of before or that
  -- nothing is there.
  have hkept : (w.act op).system.ledger.tint v = none ∨
      (w.act op).system.ledger.tint v = some x := by
    cases hes with
    | once hnow =>
      rcases (act_shift hpassed.accounted hpassed.housed hnow).tint hop with hn | he | ⟨-, hn⟩
      · exact .inl hn
      · exact .inr (he.trans hx)
      · rw [hx] at hn
        cases hn
    | paces hnot hes =>
      refine hshifts.keeps (I := fun _ s => s.ledger.tint v = none ∨ s.ledger.tint v = some x)
        (fun {fs a b} hi _ hs => ?_) [] (.inr hx)
      rcases hs.tint hop with hn | he | ⟨hnow, -⟩
      · exact .inl hn
      · rw [he]
        exact hi
      · exact absurd hnow hnot
  rw [hy] at hkept
  rcases hkept with hn | he
  · cases hn
  · exact (Option.some.inj he).symm

/-- **The policy of a VM object is chosen while nobody can have relied on it, and never changes
otherwise.  A clone is cached as all VM objects are at first, whatever the policy of its original.**
That there is no clone is read off the list of clones, which is right unless somebody wrote it by
hand. -/
theorem Ran.cache_policies (h : w.Ran P) :
    (∀ v p, w.system.originalOf v = some p → w.system.cachePolicy v = .cached ∧
        (w.system.cachePolicy v = w.system.cachePolicy p ↔ w.system.cachePolicy p = .cached)) ∧
    ∀ (op : Op) (v : VmoId), w.system.vmos.contains v → (w.act op).system.vmos.contains v →
      (w.act op).system.cachePolicy v ≠ w.system.cachePolicy v →
        (∃ raw, op = .setCachePolicy v raw ∧
          CachePolicy.ofRaw? raw = some ((w.act op).system.cachePolicy v)) ∧
        w.system.Pristine v ∧
        ((∀ s op, P s op → ¬ op.Rewires) → ∀ c, w.system.Alive c →
          w.system.originalOf c ≠ some v) := by
  refine ⟨fun v p hp => ?_, fun op v hv hv' hne => ?_⟩
  · obtain ⟨o, ho, hp⟩ := Option.bind_eq_some_iff.1 hp
    have hcached : w.system.cachePolicy v = .cached := by
      refine h.clonesCached v p _ ?_
      rw [System.tint_of_some ho, hp]
    rw [hcached]
    exact ⟨rfl, eq_comm⟩
  · obtain ⟨o, ho⟩ := Store.contains_iff.1 hv
    obtain ⟨o', ho'⟩ := Store.contains_iff.1 hv'
    -- Only the operation that chooses a policy is left, so what its guards say holds in the state
    -- before it.
    have hchosen : ∃ raw, op = .setCachePolicy v raw := by
      by_contra hnot
      refine hne ?_
      have hsame := h.tint_act (fun raw hraw => hnot ⟨raw, hraw⟩) (System.tint_of_some ho)
        (System.tint_of_some ho')
      exact (congrArg Prod.snd hsame).symm
    obtain ⟨raw, rfl⟩ := hchosen
    obtain ⟨hpristine, hraw⟩ := System.pristine_of_setCachePolicy hne
    refine ⟨⟨raw, rfl, hraw⟩, hpristine, fun hP c hc horiginal => ?_⟩
    exact (h.mono hP).familiesConsistent.no_clone h.passed.accounted ho hpristine.clones hc
      horiginal

/-- A policy is chosen for a VM object, which is cloned after that. -/
def tintedOps : List Op :=
  [.createVmo 4096 0, .setCachePolicy 1 1, .cloneVmo 1 ⟨false, 0, 4096, false⟩]

/-- The policy is chosen while it may be, and the clone does not follow. -/
theorem Ran.cache_policies_of_tinted :
    let v := run (tintedOps.take 1)
    let w := run tintedOps
    (w.system.cachePolicy 2 = .cached ∧
      (w.system.cachePolicy 2 = w.system.cachePolicy 1 ↔ w.system.cachePolicy 1 = .cached)) ∧
    w.system.cachePolicy 1 = .uncached ∧
    ((∃ raw, Op.setCachePolicy 1 1 = .setCachePolicy 1 raw ∧
        CachePolicy.ofRaw? raw = some ((v.act (.setCachePolicy 1 1)).system.cachePolicy 1)) ∧
      v.system.Pristine 1 ∧
      ((∀ (_ : System) (op : Op), ¬ op.Rewires → ¬ op.Rewires) → ∀ c, v.system.Alive c →
        v.system.originalOf c ≠ some 1)) ∧
    v.system.cachePolicy 1 = .cached := by
  have hv : (run (tintedOps.take 1)).Ran fun _ op => ¬ op.Rewires := Ran.start.foldl ⟨id, trivial⟩
  have hw : (run tintedOps).Ran fun _ op => ¬ op.Rewires := Ran.start.foldl ⟨id, id, id, trivial⟩
  exact ⟨hw.cache_policies.1 2 1 (by decide +kernel), by decide +kernel,
    hv.cache_policies.2 (.setCachePolicy 1 1) 1 (by decide +kernel) (by decide +kernel)
      (by decide +kernel),
    by decide +kernel⟩

/-- A clone and its original are cached in two ways. -/
theorem policies_differ :
    let s := (run tintedOps).system
    s.originalOf 2 = some 1 ∧ s.cachePolicy 2 ≠ s.cachePolicy 1 := by
  decide +kernel

end World

end KernelObjects
