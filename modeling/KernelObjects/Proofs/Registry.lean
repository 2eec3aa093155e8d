import KernelObjects.Proofs.Records

/-
# The order of the registry

A new job is put into the registry right after the youngest child of its parent, or after the
parent if that has no child, so subtrees interleave: a grandchild may stand behind a younger
child.  What holds all the same is that a job stands behind its parent and behind its older
siblings.  A new job comes behind what it is put after, the youngest sibling stands behind the
others and behind the parent, and taking jobs out changes the order of no others
(`Records.Sorted`).

"One stands before the other" is said as a sublist of two entries, which insertions and removals
pass on as they are.

Two records have to agree for this: the registry and the lists of child jobs, since the place of a
new job is found through the list of its parent.  That a list names exactly the children, oldest
first, is therefore part of the invariant (`Records.Listed`), and it holds of child jobs without
conditions, because no client can write into a list of jobs.

A walk over the registry takes no references and no copy.  It goes through the list while the
registry is locked, so a visit changes nothing of the system; what it is given is the job, and
what the visitor keeps.
-/

namespace KernelObjects

open List (Sublist Perm)

/-! ## 1. Two entries of a list in order

Only two entries at a time are looked at.  That is enough for all that is said of the order, and it
makes insertions and removals easy. -/

section Order

variable {x y z c k : Koid} {R : List Koid}

/-- In a list without repetitions, standing before is transitive. -/
theorem before_trans (h : R.Nodup) (hxy : [x, y].Sublist R) (hyz : [y, z].Sublist R) :
    [x, z].Sublist R := by
  induction R with
  | nil => cases hxy
  | cons r R ih =>
    obtain ⟨hr, hR⟩ := List.nodup_cons.1 h
    have hne : ∀ w, w ∈ R → w ≠ r := fun w hw he => hr (he ▸ hw)
    -- the second entry stands in the tail, so the pair behind it does too
    have hy : y ∈ R := by
      cases hxy with
      | cons _ hxy => exact hxy.subset (by simp)
      | cons_cons _ hy => exact List.singleton_sublist.1 hy
    have hyz' : [y, z].Sublist R := by
      cases hyz with
      | cons _ hyz => exact hyz
      | cons_cons _ _ => exact absurd rfl (hne _ hy)
    cases hxy with
    | cons _ hxy => exact (ih hR hxy hyz').cons r
    | cons_cons _ _ => exact (List.singleton_sublist.2 (hyz'.subset (by simp))).cons_cons _

/-- What was listed stays in its order. -/
theorem sublist_insertAfter (c k : Koid) (R : List Koid) :
    R.Sublist (System.insertAfter c k R) := by
  induction R with
  | nil => exact List.nil_sublist _
  | cons r R ih =>
    unfold System.insertAfter
    split
    · exact ((List.Sublist.refl R).cons k).cons_cons r
    · exact ih.cons_cons r

/-- One entry is new and none is lost, also where the neighbour is not listed. -/
theorem insertAfter_perm (c k : Koid) (R : List Koid) :
    (System.insertAfter c k R).Perm (k :: R) := by
  induction R with
  | nil => exact .refl _
  | cons r R ih =>
    unfold System.insertAfter
    split
    · exact List.Perm.swap ..
    · exact (ih.cons r).trans (List.Perm.swap ..)

/-- What is put after an entry stands behind it. -/
theorem before_insertAfter (hc : c ∈ R) (k : Koid) :
    [c, k].Sublist (System.insertAfter c k R) := by
  induction R with
  | nil => cases hc
  | cons r R ih =>
    unfold System.insertAfter
    split
    · rename_i hr
      rw [hr]
      exact (List.singleton_sublist.2 List.mem_cons_self).cons_cons c
    · rename_i hr
      exact (ih ((List.mem_cons.1 hc).resolve_left (Ne.symm hr))).cons r

/-- It stands behind whatever that entry stands behind. -/
theorem before_insertAfter_of_before (h : (k :: R).Nodup) (hx : [x, c].Sublist R) :
    [x, k].Sublist (System.insertAfter c k R) := by
  have hnodup := (insertAfter_perm c k R).nodup_iff.2 h
  exact before_trans hnodup (hx.trans (sublist_insertAfter c k R))
    (before_insertAfter (hx.subset (by simp)) k)

/-- Two that stay keep their order when another one is taken out. -/
theorem before_filter (h : [x, y].Sublist R) (hx : x ≠ k) (hy : y ≠ k) :
    [x, y].Sublist (R.filter (· ≠ k)) := by
  have hboth : [x, y].filter (· ≠ k) = [x, y] := by simp [hx, hy]
  rw [← hboth]
  exact h.filter _

end Order

/-! ## 2. Records in order

The youngest child stands last on the list of its parent, and the new job is put behind it; so the
two records are used together. -/

/-- Jobs are younger than their parents, and these list just their children, oldest first. -/
structure Records.Listed (r : Records) : Prop where
  older : ∀ {k p : Koid} {j : Job.Record}, r.job k = some j → j.parent = some p → p < k
  lt : ∀ {p : Koid} {q : Job.Record}, r.job p = some q → q.jobs.Pairwise (· < ·)
  mem : ∀ {p : Koid} {q : Job.Record}, r.job p = some q → ∀ k : Koid,
    k ∈ q.jobs ↔ ∃ j, r.job k = some j ∧ j.parent = some p

/-- The registry holds every job once, behind its parent and behind its older siblings. -/
structure Records.Sorted (r : Records) : Prop where
  nodup : r.registry.Nodup
  mem : ∀ k : Koid, k ∈ r.registry ↔ ∃ j, r.job k = some j
  parent : ∀ {k p : Koid} {j : Job.Record}, r.job k = some j → j.parent = some p →
    [p, k].Sublist r.registry
  siblings : ∀ {a b : Koid} {i j : Job.Record}, r.job a = some i → r.job b = some j →
    i.parent = j.parent → a < b → [a, b].Sublist r.registry

namespace Records

variable {r : Records} {k p : Koid}

/-- Only the job that is written to has another record. -/
theorem job_setJob (r : Records) (k : Koid) (x : Option Job.Record) (a : Koid) :
    (r.setJob k x).job a = if k = a then x else r.job a := rfl

/-- A list of children is part of one record. -/
theorem job_relist (r : Records) (k : Koid) (f : List Koid → List Koid) (a : Koid) :
    (r.relist k f).job a =
      (r.job a).map fun j => if k = a then { j with jobs := f j.jobs } else j := by
  show (if k = a then (r.job a).map fun j => { j with jobs := f j.jobs } else r.job a) = _
  split
  · rfl
  · simp

/-- A job that goes has no record any more, and its parent does not list it. -/
theorem job_jobGone (r : Records) (k : Koid) (parent : Option Koid) (a : Koid) :
    (r.jobGone k parent).job a = if k = a then none else
      (r.job a).map fun j => if parent = some a then { j with jobs := j.jobs.erase k } else j := by
  cases parent with
  | none =>
    show (r.setJob k none).job a = _
    rw [job_setJob]
    split <;> simp
  | some p =>
    show ((r.setJob k none).relist p (·.erase k)).job a = _
    rw [job_relist, job_setJob]
    by_cases hk : k = a
    · rw [if_pos hk, if_pos hk]
      rfl
    · rw [if_neg hk, if_neg hk]
      simp only [Option.some.injEq]

/-- A job that is left was there before, with the same parent. -/
theorem job_of_jobGone {parent : Option Koid} {a : Koid} {j : Job.Record}
    (h : (r.jobGone k parent).job a = some j) :
    k ≠ a ∧ ∃ i, r.job a = some i ∧ j.parent = i.parent := by
  rw [job_jobGone] at h
  split at h
  · cases h
  · rename_i hne
    obtain ⟨i, hi, rfl⟩ := Option.map_eq_some_iff.1 h
    refine ⟨hne, i, hi, ?_⟩
    split <;> rfl

/-- A koid that was not given out yet belongs to no job. -/
theorem Old.fresh (ho : r.Old) : r.job r.nextKoid = none := by
  cases hj : r.job r.nextKoid with
  | none => rfl
  | some j => exact absurd (ho.job hj) (Nat.lt_irrefl _)

/-- A job that is refused leaves nothing behind but its koid. -/
theorem job_refused (ho : r.Old) (hl : r.Listed) (q : Job.Record) :
    ((r.childEntered p q).jobGone r.nextKoid (some p)).job = r.job := by
  have hfresh := ho.fresh
  funext a
  have hentered : (r.childEntered p q).job a =
    if r.nextKoid = a then some ⟨some p, [], q.policy⟩ else r.job a := rfl
  rw [job_jobGone, hentered]
  by_cases ha : r.nextKoid = a
  · rw [if_pos ha, ← ha, hfresh]
  · rw [if_neg ha, if_neg ha]
    cases hj : r.job a with
    | none => rfl
    | some j =>
      rw [Option.map_some]
      split
      · rename_i hp
        have hnot : r.nextKoid ∉ j.jobs := by
          intro hmem
          obtain ⟨i, hi, -⟩ := (hl.mem hj _).1 hmem
          exact Nat.lt_irrefl _ (ho.job hi)
        rw [List.erase_of_not_mem hnot]
      · rfl

namespace Listed

/-- Policies do not matter. -/
theorem of_ties {r' : Records} (h : r.Listed)
    (hj : ∀ k, (r'.job k).map (fun j => (j.parent, j.jobs)) =
      (r.job k).map fun j => (j.parent, j.jobs)) : r'.Listed := by
  -- Used in both directions, as the clause on what is listed is an equivalence.
  have hback : ∀ {r r' : Records}, (∀ k, (r'.job k).map (fun j => (j.parent, j.jobs)) =
      (r.job k).map fun j => (j.parent, j.jobs)) → ∀ {k j'}, r'.job k = some j' →
        ∃ j, r.job k = some j ∧ j.parent = j'.parent ∧ j.jobs = j'.jobs := by
    intro r r' hj k j' h'
    have hk := hj k
    rw [h', Option.map_some, eq_comm, Option.map_eq_some_iff] at hk
    obtain ⟨j, hk, hties⟩ := hk
    exact ⟨j, hk, Prod.ext_iff.1 hties⟩
  refine ⟨fun hk hp => ?_, fun {p q} hq => ?_, fun {p q} hq k => ?_⟩
  · obtain ⟨j, hk', hparent, -⟩ := hback hj hk
    exact h.older hk' (hparent.trans hp)
  · obtain ⟨q', hq', -, hjobs⟩ := hback hj hq
    exact hjobs ▸ h.lt hq'
  · obtain ⟨q', hq', -, hjobs⟩ := hback hj hq
    rw [← hjobs, h.mem hq']
    constructor
    · rintro ⟨j, hk, hp⟩
      obtain ⟨j', hk', hparent, -⟩ := hback (fun k => (hj k).symm) hk
      exact ⟨j', hk', hparent.trans hp⟩
    · rintro ⟨j', hk', hp⟩
      obtain ⟨j, hk, hparent, -⟩ := hback hj hk'
      exact ⟨j, hk, hparent.trans hp⟩

/-- What is listed depends on the records of jobs only. -/
theorem of_eq {r' : Records} (h : r.Listed) (hj : r'.job = r.job) : r'.Listed :=
  h.of_ties fun k => by rw [hj]

/-- A destroyed job is on the list of its parent only, and leaves it. -/
theorem jobGone (h : r.Listed) {j : Job.Record} (hj : r.job k = some j)
    (hleft : ∀ c i, r.job c = some i → i.parent ≠ some k) : (r.jobGone k j.parent).Listed where
  older hc hp := by
    obtain ⟨-, i, hi, hparent⟩ := job_of_jobGone hc
    exact h.older hi (hparent ▸ hp)
  lt := fun {p q} hq => by
    rw [job_jobGone] at hq
    split at hq
    · cases hq
    · obtain ⟨i, hi, rfl⟩ := Option.map_eq_some_iff.1 hq
      split
      · exact (h.lt hi).sublist List.erase_sublist
      · exact h.lt hi
  mem := fun {p q} hq c => by
    -- Who is a child after the end of `k` was one before and is not `k` itself; its parent does
    -- not change.
    have hchild : (∃ i, (r.jobGone k j.parent).job c = some i ∧ i.parent = some p) ↔
        c ≠ k ∧ ∃ i, r.job c = some i ∧ i.parent = some p := by
      rw [job_jobGone]
      by_cases hc : k = c
      · simp [hc]
      · rw [if_neg hc]
        simp only [Option.map_eq_some_iff, ne_eq, Ne.symm hc, not_false_eq_true, true_and,
          exists_exists_and_eq_and]
        refine exists_congr fun i => and_congr_right fun _ => ?_
        split <;> rfl
    rw [hchild]
    rw [job_jobGone] at hq
    split at hq
    · cases hq
    · obtain ⟨i, hi, rfl⟩ := Option.map_eq_some_iff.1 hq
      split
      · rw [List.Nodup.mem_erase_iff ((h.lt hi).imp Nat.ne_of_lt), h.mem hi]
      · rename_i hp
        rw [h.mem hi]
        refine (and_iff_right_of_imp ?_).symm
        rintro ⟨x, hx, hxp⟩ rfl
        rw [hj] at hx
        cases hx
        exact hp hxp

/-- A new job has no child, and if it has a parent, then that lists it last. -/
theorem born {r' : Records} (h : r.Listed) (ho : r.Old) (parent : Option Koid) (policy : Policy)
    (hown : ∀ p, parent = some p → p < r.nextKoid)
    (hjob : ∀ a, r'.job a = if r.nextKoid = a then some ⟨parent, [], policy⟩ else
      (r.job a).map fun j =>
        if parent = some a then { j with jobs := j.jobs ++ [r.nextKoid] } else j) :
    r'.Listed where
  -- the new job is the youngest, and nobody has it for a parent yet
  older := fun {k p j} hk hp => by
    rw [hjob] at hk
    split at hk
    · rename_i hnew
      cases hk
      exact hnew ▸ hown p hp
    · obtain ⟨i, hi, rfl⟩ := Option.map_eq_some_iff.1 hk
      refine h.older hi (Eq.trans ?_ hp)
      split <;> rfl
  lt := fun {p q} hq => by
    rw [hjob] at hq
    split at hq
    · cases hq
      exact .nil
    · obtain ⟨i, hi, rfl⟩ := Option.map_eq_some_iff.1 hq
      split
      · refine List.pairwise_append.2 ⟨h.lt hi, List.pairwise_singleton _ _, fun a ha b hb => ?_⟩
        rw [List.mem_singleton.1 hb]
        obtain ⟨x, hx, -⟩ := (h.mem hi a).1 ha
        exact ho.job hx
      · exact h.lt hi
  mem := fun {p q} hq c => by
    have hchild : (∃ i, r'.job c = some i ∧ i.parent = some p) ↔
        (c = r.nextKoid ∧ parent = some p) ∨ ∃ i, r.job c = some i ∧ i.parent = some p := by
      rw [hjob]
      by_cases hc : r.nextKoid = c
      · simp [← hc, ho.fresh]
      · rw [if_neg hc]
        simp only [Option.map_eq_some_iff, Ne.symm hc, false_and, false_or,
          exists_exists_and_eq_and]
        refine exists_congr fun i => and_congr_right fun _ => ?_
        split <;> rfl
    rw [hchild]
    rw [hjob] at hq
    split at hq
    · rename_i hp
      cases hq
      simp only [List.not_mem_nil, false_iff, not_or, not_and, not_exists]
      exact ⟨fun _ he => Nat.lt_irrefl _ (hp ▸ hown p he), fun i hi he => ho.parent hi (hp ▸ he)⟩
    · obtain ⟨i, hi, rfl⟩ := Option.map_eq_some_iff.1 hq
      split
      · rename_i hp
        rw [List.mem_append, List.mem_singleton, h.mem hi]
        simp [hp, or_comm]
      · rename_i hp
        rw [h.mem hi]
        simp [hp]

/-- A root lists nobody and nobody lists it. -/
theorem rootBorn (h : r.Listed) (ho : r.Old) (policy : Policy) : (r.rootBorn policy).Listed :=
  h.born ho none policy (by simp) fun a => by
    show (if r.nextKoid = a then some ⟨none, [], policy⟩ else r.job a) = _
    simp

/-- A child that is born lists nobody and is listed by its parent alone, at the end. -/
theorem childBorn (h : r.Listed) (ho : r.Old) {q : Job.Record} (hq : r.job p = some q) :
    (r.childBorn p q).Listed := by
  have hlt : p < r.nextKoid := ho.job hq
  refine h.born ho (some p) q.policy (by simpa using hlt) fun a => ?_
  show ((r.childEntered p q).relist p (· ++ [r.nextKoid])).job a = _
  have hentered : (r.childEntered p q).job a =
    if r.nextKoid = a then some ⟨some p, [], q.policy⟩ else r.job a := rfl
  rw [job_relist, hentered]
  by_cases ha : r.nextKoid = a
  · rw [if_pos ha, if_pos ha, Option.map_some, if_neg (ha ▸ Nat.ne_of_lt hlt)]
  · rw [if_neg ha, if_neg ha]
    simp only [Option.some.injEq]

end Listed

namespace Sorted

/-- The order depends on who is the parent of whom only. -/
theorem of_parents {r' : Records} (h : r.Sorted) (hr : r'.registry = r.registry)
    (hj : ∀ k, (r'.job k).map Job.Record.parent = (r.job k).map Job.Record.parent) :
    r'.Sorted := by
  have hback : ∀ {k j'}, r'.job k = some j' → ∃ j, r.job k = some j ∧ j.parent = j'.parent := by
    intro k j' h'
    have hk := hj k
    rw [h', Option.map_some, eq_comm] at hk
    exact Option.map_eq_some_iff.1 hk
  refine ⟨hr ▸ h.nodup, fun k => ?_, fun hk hp => ?_, fun ha hb hp hlt => ?_⟩
  · rw [hr, h.mem, ← Option.isSome_iff_exists, ← Option.isSome_iff_exists,
      ← Option.isSome_map (f := Job.Record.parent), ← hj, Option.isSome_map]
  · obtain ⟨j, hk, hparent⟩ := hback hk
    exact hr ▸ h.parent hk (hparent.trans hp)
  · obtain ⟨i, ha, hi⟩ := hback ha
    obtain ⟨j, hb, hj⟩ := hback hb
    exact hr ▸ h.siblings ha hb (hi.trans (hp.trans hj.symm)) hlt

/-- **A new job comes last of those that it has to stand behind**, and the others keep their
order. -/
theorem entered {r' : Records} (h : r.Sorted) (ho : r.Old) (parent : Option Koid) (policy : Policy)
    (hjob : ∀ a, r'.job a = (r.setJob r.nextKoid (some ⟨parent, [], policy⟩)).job a)
    (hsub : r.registry.Sublist r'.registry) (hperm : r'.registry.Perm (r.nextKoid :: r.registry))
    (hparent : ∀ p, parent = some p → [p, r.nextKoid].Sublist r'.registry)
    (hsiblings : ∀ a i, r.job a = some i → i.parent = parent →
      [a, r.nextKoid].Sublist r'.registry) : r'.Sorted := by
  have hfresh : r.nextKoid ∉ r.registry := by
    intro hmem
    obtain ⟨j, hj⟩ := (h.mem _).1 hmem
    exact Nat.lt_irrefl _ (ho.job hj)
  have hcases : ∀ {a j}, r'.job a = some j →
      (a = r.nextKoid ∧ j.parent = parent) ∨ r.job a = some j := by
    intro a j hj
    rw [hjob, job_setJob] at hj
    split at hj
    · rename_i ha
      cases hj
      exact .inl ⟨ha.symm, rfl⟩
    · exact .inr hj
  refine ⟨hperm.nodup_iff.2 (List.nodup_cons.2 ⟨hfresh, h.nodup⟩), fun k => ?_,
    fun {k p j} hj hp => ?_, fun {a b i j} hi hj hp hlt => ?_⟩
  · rw [hperm.mem_iff, List.mem_cons, h.mem, hjob, job_setJob]
    by_cases hk : r.nextKoid = k
    · simp [hk]
    · simp [hk, Ne.symm hk]
  · rcases hcases hj with ⟨rfl, hown'⟩ | hj
    · exact hparent p (hown'.symm.trans hp)
    · exact (h.parent hj hp).trans hsub
  · -- Of two siblings the older one cannot be the new job.  If the younger one is, it stands
    -- behind by hypothesis, and if none is they stand as before.
    rcases hcases hj with ⟨rfl, hj'⟩ | hj
    · rcases hcases hi with ⟨rfl, -⟩ | hi
      · exact absurd hlt (Nat.lt_irrefl _)
      · exact hsiblings a i hi (hp.trans hj')
    · rcases hcases hi with ⟨rfl, -⟩ | hi
      · exact absurd hlt (Nat.lt_asymm (ho.job hj))
      · exact (h.siblings hi hj hp hlt).trans hsub

/-- A root is put at the end, after everything, and no other job is above or below it. -/
theorem rootBorn (h : r.Sorted) (ho : r.Old) (policy : Policy) : (r.rootBorn policy).Sorted := by
  have hlast : ∀ a ∈ r.registry, [a, r.nextKoid].Sublist (r.registry ++ [r.nextKoid]) :=
    fun a ha => (List.singleton_sublist.2 ha).append (List.Sublist.refl [r.nextKoid])
  exact h.entered ho none policy (fun _ => rfl)
    (List.sublist_append_left _ _) (List.perm_append_singleton _ _) (by simp)
    fun a i hi _ => hlast a ((h.mem a).2 ⟨i, hi⟩)

/-- The youngest sibling stands behind the other ones and behind the parent. -/
theorem childEntered (h : r.Sorted) (ho : r.Old) (hl : r.Listed) {q : Job.Record}
    (hq : r.job p = some q) : (r.childEntered p q).Sorted := by
  have hp : p ∈ r.registry := (h.mem p).2 ⟨q, hq⟩
  have hfresh : (r.nextKoid :: r.registry).Nodup := by
    refine List.nodup_cons.2 ⟨fun hmem => ?_, h.nodup⟩
    obtain ⟨j, hj⟩ := (h.mem _).1 hmem
    exact Nat.lt_irrefl _ (ho.job hj)
  refine h.entered ho (some p) q.policy (fun _ => rfl)
    (sublist_insertAfter _ _ _) (insertAfter_perm _ _ _) ?_ ?_
  · rintro _ ⟨⟩
    show [p, r.nextKoid].Sublist (System.insertAfter (q.jobs.getLastD p) r.nextKoid r.registry)
    rcases List.eq_nil_or_concat q.jobs with hnil | ⟨older, c, hlast⟩
    · rw [hnil, List.getLastD_nil]
      exact before_insertAfter hp _
    · rw [hlast, List.concat_eq_append, List.getLastD_concat]
      obtain ⟨i, hi, hip⟩ := (hl.mem hq c).1 (by simp [hlast])
      exact before_insertAfter_of_before hfresh (h.parent hi hip)
  · intro a i hi hip
    show [a, r.nextKoid].Sublist (System.insertAfter (q.jobs.getLastD p) r.nextKoid r.registry)
    have ha : a ∈ q.jobs := (hl.mem hq a).2 ⟨i, hi, hip⟩
    rcases List.eq_nil_or_concat q.jobs with hnil | ⟨older, c, hlast⟩
    · rw [hnil] at ha
      cases ha
    · have hlt := hl.lt hq
      rw [hlast, List.concat_eq_append] at ha hlt
      rw [hlast, List.concat_eq_append, List.getLastD_concat]
      obtain ⟨j, hj, hjp⟩ := (hl.mem hq c).1 (by simp [hlast])
      -- The new job is put behind the youngest sibling `c`.  Every other sibling is older than
      -- `c`, so it stands before it and with that before the new one.
      rcases List.mem_append.1 ha with ha | ha
      · have hac : a < c := (List.pairwise_append.1 hlt).2.2 a ha c List.mem_cons_self
        exact before_insertAfter_of_before hfresh (h.siblings hi hj (hip.trans hjp.symm) hac)
      · rw [List.mem_singleton.1 ha]
        exact before_insertAfter ((h.mem c).2 ⟨j, hj⟩) _

/-- A child is put right after the youngest of its older siblings, or after its parent: so it comes
after all that it has to come after, and nothing that has to come after it is there yet. -/
theorem childBorn (h : r.Sorted) (ho : r.Old) (hl : r.Listed) {q : Job.Record}
    (hq : r.job p = some q) : (r.childBorn p q).Sorted := by
  refine (h.childEntered ho hl hq).of_parents rfl fun k => ?_
  show (((r.childEntered p q).relist p (· ++ [r.nextKoid])).job k).map _ = _
  rw [job_relist, Option.map_map]
  congr 1
  funext j
  show (if p = k then _ else j).parent = j.parent
  split <;> rfl

/-- **Taking a job out keeps the others in order.** -/
theorem jobGone (h : r.Sorted) {parent : Option Koid}
    (hleft : ∀ c i, r.job c = some i → i.parent ≠ some k) : (r.jobGone k parent).Sorted where
  nodup := by cases parent <;> exact h.nodup.filter _
  mem a := by
    have hmem : a ∈ (r.jobGone k parent).registry ↔ a ∈ r.registry ∧ a ≠ k := by
      cases parent <;> exact List.mem_filter.trans (and_congr_right fun _ => by simp)
    rw [hmem, h.mem, job_jobGone]
    split
    · rename_i hka
      simp [hka]
    · rename_i hka
      simp [Ne.symm hka]
  parent := fun {a p j} hj hp => by
    obtain ⟨hne, i, hi, hparent⟩ := job_of_jobGone hj
    have hbefore := h.parent hi (hparent ▸ hp)
    have hpk : p ≠ k := fun he => hleft a i hi (he ▸ hparent ▸ hp)
    cases parent <;> exact before_filter hbefore hpk hne.symm
  siblings := fun {a b i j} hi hj hp hlt => by
    obtain ⟨hna, i', hi', hparent⟩ := job_of_jobGone hi
    obtain ⟨hnb, j', hj', hparent'⟩ := job_of_jobGone hj
    have hbefore := h.siblings hi' hj' (hparent.symm.trans (hp.trans hparent')) hlt
    cases parent <;> exact before_filter hbefore hna.symm hnb.symm

end Sorted

end Records

/-! ## 3. Runs

The registry is on record, and so are the ties that its order depends on.  So it is enough to look
at openings and at strikes. -/

namespace World

variable {P : System → Op → Prop} {w v : World}

/-- The jobs on record and the registry agree. -/
def Registered (w : World) : Prop := w.system.records.Listed ∧ w.system.records.Sorted

/-- There are no jobs at first. -/
theorem registered_initial : Registered {} := by
  have hno : ∀ {k j}, System.initial.records.job k ≠ some j := by simp [System.job_initial]
  refine ⟨⟨fun hk => absurd hk hno, fun hq => absurd hq hno, fun hq => absurd hq hno⟩, ?_⟩
  refine ⟨List.nodup_nil, fun k => ?_, fun hj => absurd hj hno, fun hi => absurd hi hno⟩
  simp [System.records, System.initial]

/-- An opening either leaves the tree of jobs alone or enters one job at its place. -/
theorem Opening.registered {op : Op} (h : w.Ran P) (ho : w.Opening op v) (hi : w.Registered) :
    v.Registered := by
  have hold := h.passed.accounted.old
  obtain ⟨hl, hs⟩ := hi
  unfold Registered
  cases ho with
  | none hv => exact hv ▸ ⟨hl, hs⟩
  | root hv => exact hv ▸ ⟨hl.rootBorn hold _, hs.rootBorn hold _⟩
  | child hq hv => exact hv ▸ ⟨hl.childBorn hold hq, hs.childBorn hold hl hq⟩
  -- A child that is turned down was in the registry for a moment.  It has no children, so it can
  -- be taken out again and nobody is left without a parent.
  | @refused p q _ hq hv =>
    have hleft : ∀ c i, (w.system.records.childEntered p q).job c = some i →
        i.parent ≠ some w.system.records.nextKoid := by
      intro c i hc hp
      have hc : (if w.system.records.nextKoid = c then some ⟨some p, [], q.policy⟩
        else w.system.records.job c) = some i := hc
      split at hc
      · cases hc
        exact Nat.lt_irrefl _ (Option.some.inj hp ▸ hold.job hq)
      · exact hold.parent hc hp
    exact hv ▸
      ⟨hl.of_eq (Records.job_refused hold hl q), (hs.childEntered hold hl hq).jobGone hleft⟩
  | process hq hv => exact hv ▸ ⟨hl.of_eq rfl, hs.of_parents rfl fun _ => rfl⟩
  | view hv => exact hv ▸ ⟨hl.of_eq rfl, hs.of_parents rfl fun _ => rfl⟩
  | witness hv => exact hv ▸ ⟨hl.of_eq rfl, hs.of_parents rfl fun _ => rfl⟩
  | table hv => exact hv ▸ ⟨hl.of_eq rfl, hs.of_parents rfl fun _ => rfl⟩
  | @policy k _ j policy _ hj _ _ hv =>
    have hsame : ∀ {β : Type} (f : Job.Record → β), f { j.record with policy } = f j.record →
        ∀ a, ((w.system.records.setJob k (some { j.record with policy })).job a).map f =
          (w.system.records.job a).map f := by
      intro β f hf a
      rw [Records.job_setJob]
      split
      · rename_i ha
        rw [← ha, System.job_record hj, Option.map_some, Option.map_some, hf]
      · rfl
    exact hv ▸ ⟨hl.of_ties (hsame _ rfl), hs.of_parents rfl (hsame _ rfl)⟩

/-- What is struck off leaves the others where they are. -/
theorem Strike.registered (h : Strike v w) (hi : v.Registered) : w.Registered := by
  obtain ⟨hl, hs⟩ := hi
  unfold Registered
  cases h with
  | aside hw => exact hw ▸ ⟨hl, hs⟩
  | job hj hleft _ hw => exact hw ▸ ⟨hl.jobGone hj hleft, hs.jobGone hleft⟩
  | process _ _ hw => exact hw ▸ ⟨hl.of_eq rfl, hs.of_parents rfl fun _ => rfl⟩
  | view _ hw => exact hw ▸ ⟨hl.of_eq rfl, hs.of_parents rfl fun _ => rfl⟩
  | ended _ hw => exact hw ▸ ⟨hl.of_eq rfl, hs.of_parents rfl fun _ => rfl⟩
  | table hw => exact hw ▸ ⟨hl.of_eq rfl, hs.of_parents rfl fun _ => rfl⟩

/-- So in every state that operations lead to the registry is in order. -/
theorem Ran.registered (h : w.Ran P) : w.Registered :=
  h.keeps_recorded registered_initial (fun _ _ _ _ hi => hi)
    (fun _ _ _ h _ ho hi => ho.registered h hi) fun _ _ hs hi => hs.registered hi

end World

/-! ## 4. Visits

A function that is called on every job, until one of the calls fails. -/

section Visits

variable {σ : Type} (f : Koid → σ → Outcome Unit × σ)

/-- What is done at each job, and besides a list of the jobs visited so far. -/
def seeing (k : Koid) (own : σ × List Koid) : Outcome Unit × (σ × List Koid) :=
  ((f k own.1).1, (f k own.1).2, own.2 ++ [k])

/-- What a client keeps after visits. -/
def afterVisits (own : σ) (ks : List Koid) : σ := ks.foldl (fun own k => (f k own).2) own

/-- Visits that succeed, one after the other. -/
def Succeed : List Koid → σ → Prop
  | [], _ => True
  | k :: ks, own => (f k own).1 = .ok () ∧ Succeed ks (f k own).2

variable {f}

/-- Where the visits succeed, the walk goes on with the rest of the list. -/
theorem eachOf_append {ks : List Koid} {own : σ} (h : Succeed f ks own) (rest seen : List Koid) :
    System.eachOf (seeing f) (ks ++ rest) (own, seen) =
      System.eachOf (seeing f) rest (afterVisits f own ks, seen ++ ks) := by
  induction ks generalizing own seen with
  | nil => rw [List.append_nil]; rfl
  | cons k ks ih =>
    obtain ⟨hk, hks⟩ := h
    rw [List.cons_append, System.eachOf]
    unfold seeing
    dsimp only
    rw [hk]
    dsimp only
    have hrest := ih hks (seen ++ [k])
    unfold seeing at hrest
    rw [hrest, List.append_assoc]
    rfl

/-- A walk whose visits all succeed has seen every entry in order. -/
theorem eachOf_ok {ks : List Koid} {own : σ} (h : Succeed f ks own) :
    System.eachOf (seeing f) ks (own, []) = (.ok (), afterVisits f own ks, ks) := by
  have hall := eachOf_append h [] []
  rw [List.append_nil, List.nil_append] at hall
  exact hall

/-- A walk ends at the first visit that fails, has seen that entry last, and gives back its
failure. -/
theorem eachOf_error {ks : List Koid} {k : Koid} {own : σ} {e : Refusal} (h : Succeed f ks own)
    (he : (f k (afterVisits f own ks)).1 = .error e) (rest : List Koid) :
    System.eachOf (seeing f) (ks ++ k :: rest) (own, []) =
      (.error e, afterVisits f own (ks ++ [k]), ks ++ [k]) := by
  have hown : afterVisits f own (ks ++ [k]) = (f k (afterVisits f own ks)).2 := by
    unfold afterVisits
    rw [List.foldl_append]
    rfl
  rw [eachOf_append h, System.eachOf, hown]
  unfold seeing
  dsimp only
  rw [he]
  rfl

end Visits

/-! ## 5. In every run

What the order says of ancestors is by induction up the tree, from what it says of parents. -/

namespace World

variable {P : System → Op → Prop} {w : World}

/-- **The registry.**  It lists just the live jobs, each once, behind all its ancestors and behind
its older siblings, whether one takes the age from the koids or from what happened.  A client who
has its function called on every job sees them in this order, up to the first failure, if there is
memory to do so. -/
structure RegistrySound (w : World) : Prop where
  nodup : w.system.registry.Nodup
  mem : ∀ k : Nat, k ∈ w.system.registry ↔ w.system.jobs.contains k
  ancestor : ∀ {n k a : Nat}, w.system.ancestor (n + 1) k = some a →
    [a, k].Sublist w.system.registry
  siblings : ∀ {a b : Nat} {i j : Job}, w.system.jobs[a]? = some i → w.system.jobs[b]? = some j →
    i.parent = j.parent → a < b → [a, b].Sublist w.system.registry
  later : ∀ {ops : List Op} {a b : Nat} {i j : Job}, w.system.jobs.contains a →
    ¬ w.system.jobs.contains b → (ops.foldl World.act w).system.jobs[a]? = some i →
      (ops.foldl World.act w).system.jobs[b]? = some j → i.parent = j.parent →
        [a, b].Sublist (ops.foldl World.act w).system.registry
  visits : ∀ {σ : Type} {f : Koid → σ → Outcome Unit × σ} {own : σ} {enough : Nat → Bool},
    enough w.system.registry.length → Succeed f w.system.registry own →
      w.system.eachJob enough (seeing f) (own, []) =
        (.ok (), afterVisits f own w.system.registry, w.system.registry)
  failure : ∀ {σ : Type} {f : Koid → σ → Outcome Unit × σ} {own : σ} {enough : Nat → Bool}
    {ks rest : List Koid} {k : Koid} {e : Refusal}, enough w.system.registry.length →
      w.system.registry = ks ++ k :: rest → Succeed f ks own →
        (f k (afterVisits f own ks)).1 = .error e →
          w.system.eachJob enough (seeing f) (own, []) =
            (.error e, afterVisits f own (ks ++ [k]), ks ++ [k])
  noMemory : ∀ {σ : Type} {f : Koid → σ → Outcome Unit × σ} {own : σ} {enough : Nat → Bool},
    ¬ enough w.system.registry.length →
      w.system.eachJob enough (seeing f) (own, []) = (.error .noMemory, own, [])

/-- A job is there if and only if it has a record. -/
theorem contains_iff_record {k : Nat} :
    w.system.jobs.contains k ↔ ∃ j, w.system.records.job k = some j := by
  refine Store.contains_iff.trans ⟨fun ⟨j, hj⟩ => ⟨_, System.job_record hj⟩, fun ⟨j, hj⟩ => ?_⟩
  obtain ⟨i, hi, -⟩ := Option.map_eq_some_iff.1 hj
  exact ⟨i, hi⟩

/-- The registry lists the jobs that are there and nothing else. -/
theorem Ran.mem_registry (h : w.Ran P) (k : Nat) :
    k ∈ w.system.registry ↔ w.system.jobs.contains k :=
  (h.registered.2.mem k).trans contains_iff_record.symm

/-- So there is nothing to filter out of it. -/
theorem Ran.liveJobs_eq (h : w.Ran P) : w.system.liveJobs = w.system.registry :=
  List.filter_eq_self.2 fun k hk => (h.mem_registry k).1 hk

/-- A job comes after each of its ancestors: after its parent, and the parent after the rest by
induction on the number of steps up. -/
theorem Ran.before_ancestor (h : w.Ran P) {n k a : Nat}
    (ha : w.system.ancestor (n + 1) k = some a) : [a, k].Sublist w.system.registry := by
  have hsorted := h.registered.2
  induction n generalizing k with
  | zero =>
    obtain ⟨p, hp, hself⟩ := Option.bind_eq_some_iff.1 ha
    obtain ⟨j, hj, hp⟩ := Option.bind_eq_some_iff.1 hp
    rw [← Option.some.inj hself]
    exact hsorted.parent (System.job_record hj) hp
  | succ n ih =>
    obtain ⟨p, hp, hup⟩ := Option.bind_eq_some_iff.1 ha
    obtain ⟨j, hj, hp⟩ := Option.bind_eq_some_iff.1 hp
    exact before_trans hsorted.nodup (ih hup) (hsorted.parent (System.job_record hj) hp)

/-- A job that was not there before is younger than every one that was. -/
theorem Ran.lt_of_later (h : w.Ran fun _ _ => True) {ops : List Op} {a b : Nat} {j : Job}
    (ha : w.system.jobs.contains a) (hb : ¬ w.system.jobs.contains b)
    (hj : (ops.foldl World.act w).system.jobs[b]? = some j) : a < b := by
  obtain ⟨i, hi⟩ := Store.contains_iff.1 ha
  refine Nat.lt_of_lt_of_le (h.passed.accounted.job_lt hi) (Nat.le_of_not_lt fun hlt => ?_)
  have hstart : w.system.records.Retains b fun _ => False :=
    ⟨hlt, fun hj => hb (contains_iff_record.2 ⟨_, hj⟩)⟩
  have hend := h.retains (fun _ _ _ _ _ _ _ hp => hp) (keep_any ops w) hstart
  exact hend.policy (System.job_record hj)

/-- **The registry is sound** in every state that operations lead to: it lists each job that is
there once, after its ancestors and after its older siblings, and a walk over it visits just these
in that order. -/
theorem Ran.registry_sound (h : w.Ran P) : w.RegistrySound := by
  have hany : w.Ran fun _ _ => True := h.mono fun _ _ _ => trivial
  constructor
  case nodup => exact h.registered.2.nodup
  case mem => exact h.mem_registry
  case ancestor => exact h.before_ancestor
  case siblings =>
    intro a b i j hi hj hp hlt
    exact h.registered.2.siblings (System.job_record hi) (System.job_record hj) hp hlt
  -- Two siblings that are there in the end are ordered by their age, and the one that was there
  -- first is the older one.
  case later =>
    intro ops a b i j ha hb hi hj hp
    have hend := (hany.foldl (keep_any ops w)).registered.2
    exact hend.siblings (System.job_record hi) (System.job_record hj) hp
      (hany.lt_of_later ha hb hj)
  case visits =>
    intro σ f own enough hmemory hall
    unfold System.eachJob
    rw [if_pos hmemory, h.liveJobs_eq]
    exact eachOf_ok hall
  case failure =>
    intro σ f own enough ks rest k e hmemory hsplit hks he
    unfold System.eachJob
    rw [if_pos hmemory, h.liveJobs_eq, hsplit]
    exact eachOf_error hks he rest
  case noMemory =>
    intro σ f own enough hmemory
    unfold System.eachJob
    rw [if_neg hmemory]

/-- A root, a child with a child of its own, a younger child, and another root. -/
def registryOps : List Op :=
  [.createRootJob false, .createJob 1024, .createJob 1025, .createJob 1024, .createRootJob false]

/-- The younger child comes before the grandchild, and a function that fails there has seen three
jobs. -/
theorem Ran.registry_sound_of_interleaved :
    (run registryOps).RegistrySound ∧
      (run registryOps).system.registry = [1024, 1025, 1027, 1026, 1028] ∧
      (run registryOps).system.eachJob (fun _ => true)
        (seeing fun k n => (if k = 1027 then .error .notFound else .ok (), n + 1)) (0, []) =
          (.error .notFound, 3, [1024, 1025, 1027]) := by
  refine ⟨registry_sound (P := fun _ _ => True) (Ran.foldl .start (keep_any _ _)), by cbv, by cbv⟩

end World

end KernelObjects
