import KernelObjects.Proofs.Registry

/-
# Which job is killed when memory runs out

The scan for the victim goes through the registry and keeps the last marked job.  That says
nothing about the tree yet.  But a job stands behind its parent and behind its older siblings
(`World.Ran.registry_sound`), so whatever stands below the victim, or is a younger sibling of it,
stands behind it in the registry and cannot be marked.

The scan holds every job that it comes by until it is over, and the marked one besides.  Each of
these has another holder, so what the scan gives back destroys nothing, and only the reference to
the victim is left (`World.Ran.scan_eq`).

The scan goes from the front and replaces the victim whenever it comes by a marked job; to look
for the first marked job from behind comes to the same (`oomVictim_eq`).  The first is what runs,
and it is the one that takes and gives back references.
-/

namespace KernelObjects

/-! ## 1. The last one of a list

A fold that remembers the last entry with a mark is a search from behind. -/

section Last

variable {ks : List Koid} {k d : Koid} {p : Koid → Bool}

/-- To keep the last one that passes is to look for the first one from behind. -/
theorem foldl_last (p : Koid → Bool) (ks : List Koid) (v : Option Koid) :
    ks.foldl (fun v k => if p k then some k else v) v = (ks.reverse.find? p).or v := by
  induction ks generalizing v with
  | nil => rfl
  | cons k ks ih =>
    rw [List.foldl_cons, ih, List.reverse_cons, List.find?_append, Option.or_assoc]
    congr 1
    cases hk : p k <;> simp [hk]

/-- The last entry with a property: none after it has it. -/
theorem find?_reverse_eq_some_iff :
    ks.reverse.find? p = some k ↔ ∃ as bs, ks = as ++ k :: bs ∧ p k ∧ ∀ b ∈ bs, ¬ p b := by
  rw [List.find?_eq_some_iff_append]
  constructor
  · rintro ⟨hk, bs, as, hsplit, hbs⟩
    refine ⟨as.reverse, bs.reverse, ?_, hk, fun b hb => by simpa using hbs b (by simpa using hb)⟩
    rw [← List.reverse_reverse ks, hsplit]
    simp
  · rintro ⟨as, bs, rfl, hk, hbs⟩
    exact ⟨hk, bs.reverse, as.reverse, by simp,
      fun b hb => by simpa using hbs b (by simpa using hb)⟩

/-- What stands behind an entry is in the rest of the list behind that entry. -/
theorem mem_of_before {as bs : List Koid} (hn : (as ++ k :: bs).Nodup)
    (h : [k, d].Sublist (as ++ k :: bs)) : d ∈ bs := by
  induction as with
  | nil =>
    cases h with
    | cons _ h => exact h.subset (by simp)
    | cons_cons _ h => exact List.singleton_sublist.1 h
  | cons a as ih =>
    obtain ⟨ha, hn⟩ := List.nodup_cons.1 hn
    cases h with
    | cons _ h => exact ih hn h
    | cons_cons _ _ => simp at ha

end Last

/-! ## 2. References that are taken and given back

The scan holds each job while it looks at it.  Taking and giving back a reference of something
that others hold changes nothing. -/

namespace RefCounts

variable {rc : RefCounts}

theorem getElem?_retain (rc : RefCounts) (r q : Ref) :
    (rc.retain r)[q]? = if r = q then some (rc.count q + 1) else rc[q]? := by
  unfold retain
  rw [Std.ExtTreeMap.getElem?_insert]
  by_cases h : r = q
  · subst h; simp
  · simp [h]

/-- In which order references are taken does not matter. -/
theorem retain_comm (rc : RefCounts) (r q : Ref) :
    (rc.retain r).retain q = (rc.retain q).retain r := by
  refine Std.ExtTreeMap.ext_getElem? fun a => ?_
  simp only [getElem?_retain, count_retain]
  by_cases hq : q = a <;> by_cases hr : r = a <;> simp [hq, hr]

/-- To take a reference and give it back is to do nothing, if there was one before. -/
theorem release_retain {r : Ref} (h : 0 < rc.count r) : (rc.retain r).release r = rc := by
  have hcount : (rc.retain r).count r = rc.count r + 1 := by rw [count_retain, if_pos rfl]
  unfold release
  rw [if_neg (by omega), hcount, Nat.add_sub_cancel]
  refine Std.ExtTreeMap.ext_getElem? fun a => ?_
  rw [Std.ExtTreeMap.getElem?_insert, getElem?_retain]
  by_cases hr : r = a
  · subst hr
    -- an entry that counts something is there
    cases hc : rc[r]? with
    | none => simp [count, hc] at h
    | some n => simp [count, hc]
  · simp [hr]

end RefCounts

namespace System

variable {s : System} {r q : Ref} {rs : List Ref}

/-- References may be taken in any order. -/
theorem retain_comm (s : System) (r q : Ref) : (s.retain r).retain q = (s.retain q).retain r := by
  unfold retain
  rw [RefCounts.retain_comm]

theorem refCount_le_retain (s : System) (r q : Ref) : s.refCount q ≤ (s.retain r).refCount q :=
  s.refs.count_le_retain r q

/-- A reference that was taken is given back without a trace, if there was another one. -/
theorem release_retain (h : 0 < s.refCount r) : (s.retain r).release r = s := by
  have hmany : 1 < (s.retain r).refCount r := by
    show 1 < (s.refs.retain r).count r
    rw [RefCounts.count_retain, if_pos rfl]
    exact Nat.succ_lt_succ h
  rw [release_of_many hmany]
  show ({ s with refs := (s.refs.retain r).release r } : System) = s
  rw [RefCounts.release_retain h]

/-- A single reference can be taken before or after several. -/
theorem retainAll_retain (s : System) (r : Ref) (rs : List Ref) :
    (s.retain r).retainAll rs = (s.retainAll rs).retain r := by
  induction rs generalizing s with
  | nil => rfl
  | cons q rs ih => exact (congrArg (retainAll · rs) (s.retain_comm r q)).trans (ih _)

/-- References that are taken take none away, -/
theorem refCount_le_retainAll (s : System) (rs : List Ref) (q : Ref) :
    s.refCount q ≤ (s.retainAll rs).refCount q := by
  induction rs generalizing s with
  | nil => exact Nat.le_refl _
  | cons r rs ih => exact Nat.le_trans (s.refCount_le_retain r q) (ih _)

/-- Several references at once, given back in the order in which they were taken. -/
theorem releaseAll_retainAll (h : ∀ r ∈ rs, 0 < s.refCount r) :
    (s.retainAll rs).releaseAll rs = s := by
  induction rs with
  | nil => exact settle.eq_1 _
  | cons r rs ih =>
    have hr : 0 < (s.retainAll rs).refCount r :=
      Nat.lt_of_lt_of_le (h r List.mem_cons_self) (s.refCount_le_retainAll rs r)
    have hfirst : (s.retainAll (r :: rs)).release r = s.retainAll rs := by
      show ((s.retain r).retainAll rs).release r = s.retainAll rs
      rw [retainAll_retain, release_retain hr]
    show (s.retainAll (r :: rs)).settle ([.release r] ++ rs.map Task.release) = s
    rw [settle_append]
    show ((s.retainAll (r :: rs)).release r).releaseAll rs = s
    rw [hfirst, ih fun q hq => h q (.tail r hq)]

end System

/-! ## 3. The scan

By induction on the rest of the registry, with what was found so far. -/

namespace System

/-- A reference to a job, if there is one to be referred to. -/
def keepVictim (s : System) (v : Option Koid) : System := v.elim s fun k => s.retain (.object k)

/-- A scan on its way: the system, the jobs that are held until it is over, and the one that is held
for the caller. -/
structure Scan where
  system : System
  live : List Koid := []
  victim : Option Koid := none

namespace Scan

/-- The scan comes by a job.  It passes over one that nobody refers to any more; else it holds it,
and a marked one also in place of the one that was kept before. -/
def visit (x : Scan) (k : Koid) : Scan :=
  if x.system.refCount (.object k) = 0 then x else
    let s := x.system.retain (.object k)
    let live := x.live ++ [k]
    if s.killOnOom k then
      let s := s.retain (.object k)
      { system := x.victim.elim s fun v => s.release (.object v), live, victim := some k }
    else { x with system := s, live }

/-- The scan is over and gives back the jobs that it held, in the order in which it came by. -/
def finish (x : Scan) : Option Koid × System :=
  (x.victim, x.system.releaseAll (x.live.map .object))

end Scan

/-- The look for a victim with the references that it takes and gives back. -/
def scan (s : System) (enough : Nat → Bool) : Option Koid × System :=
  if enough s.registry.length then (s.registry.foldl Scan.visit { system := s }).finish
  else (none, s)

variable {s : System} {v : Option Koid} {k : Koid} {ks : List Koid}

/-- To keep the latest marked job on the way through the list is to search the list from its end. -/
theorem oomVictim_eq {enough : Nat → Bool} (h : enough s.registry.length) :
    s.oomVictim enough = s.liveJobs.reverse.find? s.killOnOom := by
  have hok : ∀ (ks : List Koid) (v : Option Koid),
      eachOf (fun k v => (.ok (), if s.killOnOom k then some k else v)) ks v =
        (.ok (), ks.foldl (fun v k => if s.killOnOom k then some k else v) v) := by
    intro ks
    induction ks with
    | nil => exact fun _ => rfl
    | cons k ks ih => exact fun _ => ih _
  unfold oomVictim eachJob
  rw [if_pos h, hok, foldl_last, Option.or_none]

/-- and neither does the one that the scan keeps. -/
theorem refCount_le_keepVictim (s : System) (v : Option Koid) (q : Ref) :
    s.refCount q ≤ (s.keepVictim v).refCount q := by
  cases v with
  | none => exact Nat.le_refl _
  | some k => exact s.refCount_le_retain _ q

/-- The reference to the victim so far can be taken first or last. -/
theorem keepVictim_retain (s : System) (v : Option Koid) (r : Ref) :
    (s.keepVictim v).retain r = (s.retain r).keepVictim v := by
  cases v with
  | none => rfl
  | some k => exact s.retain_comm _ r

/-- Letting go of the victim so far. -/
theorem release_keepVictim (h : ∀ k, v = some k → 0 < s.refCount (.object k)) :
    v.elim (s.keepVictim v) (fun k => (s.keepVictim v).release (.object k)) = s := by
  cases v with
  | none => rfl
  | some k => exact release_retain (h k rfl)

/-- The scan writes to no job. -/
theorem jobs_retainAll (s : System) (rs : List Ref) : (s.retainAll rs).jobs = s.jobs := by
  induction rs generalizing s with
  | nil => rfl
  | cons r rs ih => exact ih (s.retain r)

/-- The scan when it has come by some jobs: it holds them, and the last marked one once more. -/
def Scan.past (s : System) (ks : List Koid) : Scan where
  system := (s.retainAll (ks.map .object)).keepVictim (ks.reverse.find? s.killOnOom)
  live := ks
  victim := ks.reverse.find? s.killOnOom

theorem jobs_past (s : System) (ks : List Koid) : (Scan.past s ks).system.jobs = s.jobs := by
  unfold Scan.past keepVictim
  cases ks.reverse.find? s.killOnOom <;> exact jobs_retainAll s _

theorem refCount_le_past (s : System) (ks : List Koid) (r : Ref) :
    s.refCount r ≤ (Scan.past s ks).system.refCount r :=
  Nat.le_trans (s.refCount_le_retainAll _ r) (refCount_le_keepVictim _ _ r)

/-- **One visit of the scan.**  A marked job takes the place of the victim so far, whose reference
is given back.  That destroys nothing, since the scan holds every job that it came by. -/
theorem visit_past (hk : 0 < s.refCount (.object k)) (hks : ∀ c ∈ ks, 0 < s.refCount (.object c)) :
    (Scan.past s ks).visit k = Scan.past s (ks ++ [k]) := by
  set t := s.retainAll (ks.map .object) with ht
  set v := ks.reverse.find? s.killOnOom with hv
  have hcount : (Scan.past s ks).system.refCount (.object k) ≠ 0 :=
    Nat.ne_of_gt (Nat.lt_of_lt_of_le hk (refCount_le_past s ks _))
  have hmark : ((Scan.past s ks).system.retain (.object k)).killOnOom k = s.killOnOom k := by
    show ((Scan.past s ks).system.jobs[k]?.map Job.killOnOom).getD false = _
    rw [jobs_past]
    rfl
  have hpast : Scan.past s (ks ++ [k]) =
      { system := (t.retain (.object k)).keepVictim (if s.killOnOom k then some k else v)
        live := ks ++ [k]
        victim := if s.killOnOom k then some k else v } := by
    have hlast : (ks ++ [k]).reverse.find? s.killOnOom = if s.killOnOom k then some k else v := by
      rw [List.reverse_append, List.reverse_singleton, List.singleton_append, List.find?_cons]
      cases s.killOnOom k <;> rfl
    unfold Scan.past
    rw [hlast, List.map_append, retainAll, List.foldl_append]
    rfl
  have hnext : (Scan.past s ks).system.retain (.object k) = (t.retain (.object k)).keepVictim v :=
    keepVictim_retain t v _
  unfold Scan.visit
  rw [if_neg hcount]
  dsimp only
  rw [hmark, hpast]
  split
  · have hswap : ((Scan.past s ks).system.retain (.object k)).retain (.object k) =
        ((t.retain (.object k)).retain (.object k)).keepVictim v := by
      rw [hnext, keepVictim_retain]
    -- the one that was kept so far is among those that are held, so letting go of it is harmless
    have hheld : ∀ c, v = some c → 0 < ((t.retain (.object k)).retain (.object k)).refCount
        (.object c) := fun c hc =>
      Nat.lt_of_lt_of_le (hks c (List.mem_reverse.1 (List.mem_of_find?_eq_some hc)))
        (Nat.le_trans (s.refCount_le_retainAll _ _) (Nat.le_trans (t.refCount_le_retain _ _)
          (refCount_le_retain _ _ _)))
    have hgone := release_keepVictim hheld
    rw [← hswap] at hgone
    exact congrArg (Scan.mk · _ _) hgone
  · rw [hnext]
    rfl

/-- **The scan on its way.**  It holds the jobs that it came by and the last marked one of them. -/
theorem foldl_visit (h : ∀ k ∈ ks, 0 < s.refCount (.object k)) :
    ks.foldl Scan.visit { system := s } = Scan.past s ks := by
  have hrest : ∀ (rest seen : List Koid), (∀ k ∈ seen ++ rest, 0 < s.refCount (.object k)) →
      rest.foldl Scan.visit (Scan.past s seen) = Scan.past s (seen ++ rest) := by
    intro rest
    induction rest with
    | nil => intro seen _; rw [List.append_nil]; rfl
    | cons k rest ih =>
      intro seen hall
      rw [List.foldl_cons, visit_past (hall k (by simp)) fun c hc => hall c (by simp [hc]),
        ih (seen ++ [k]) (by simpa using hall), List.append_assoc, List.singleton_append]
  exact hrest ks [] (by simpa using h)

end System

/-! ## 4. In every run

The order of the registry turns "last in the list" into a statement about the tree. -/

namespace World

variable {P : System → Op → Prop} {w : World} {enough : Nat → Bool}

/-- **The victim.**  It is the last marked job of the registry, and there is none just if no live
job is marked.  Nothing below it is marked, and none of its younger siblings, whether one takes
the age from the koids or from what happened.  The scan leaves nothing behind but the reference to
it. -/
structure VictimSound (w : World) (enough : Nat → Bool) : Prop where
  none_iff : w.system.oomVictim enough = none ↔
    ∀ k : Nat, w.system.jobs.contains k → ¬ w.system.killOnOom k
  some_iff : ∀ k : Koid, w.system.oomVictim enough = some k ↔
    ∃ before behind, w.system.registry = before ++ k :: behind ∧ w.system.killOnOom k ∧
      ∀ b ∈ behind, ¬ w.system.killOnOom b
  descendant : ∀ {n k d : Nat}, w.system.oomVictim enough = some k →
    w.system.ancestor (n + 1) d = some k → ¬ w.system.killOnOom d
  sibling : ∀ {k b : Nat} {i j : Job}, w.system.oomVictim enough = some k →
    w.system.jobs[k]? = some i → w.system.jobs[b]? = some j → i.parent = j.parent → k < b →
      ¬ w.system.killOnOom b
  later : ∀ {v : World} {ops : List Op} {k b : Nat} {i j : Job},
    w.system.oomVictim enough = some k → v.Ran (fun _ _ => True) → w = ops.foldl World.act v →
      v.system.jobs.contains k → ¬ v.system.jobs.contains b →
        w.system.jobs[k]? = some i → w.system.jobs[b]? = some j → i.parent = j.parent →
          ¬ w.system.killOnOom b
  scan : w.system.scan enough =
    (w.system.oomVictim enough, w.system.keepVictim (w.system.oomVictim enough))

/-- In a run the registry lists live jobs only. -/
theorem Ran.oomVictim_eq (h : w.Ran P) (hmemory : enough w.system.registry.length) :
    w.system.oomVictim enough = w.system.registry.reverse.find? w.system.killOnOom := by
  rw [System.oomVictim_eq hmemory, h.liveJobs_eq]

/-- What stands behind the victim is not marked. -/
theorem Ran.not_marked_of_before (h : w.Ran P) (hmemory : enough w.system.registry.length)
    {k b : Nat} (hk : w.system.oomVictim enough = some k) (hb : [k, b].Sublist w.system.registry) :
    ¬ w.system.killOnOom b := by
  rw [h.oomVictim_eq hmemory, find?_reverse_eq_some_iff] at hk
  obtain ⟨before, behind, hsplit, -, hunmarked⟩ := hk
  have hn := h.registered.2.nodup
  have hreg : w.system.records.registry = w.system.registry := rfl
  rw [hreg, hsplit] at hn
  rw [hsplit] at hb
  exact hunmarked b (mem_of_before hn hb)

/-- **The scan gives back all that it took**, but for the reference to the victim. -/
theorem Ran.scan_eq (h : w.Ran P) (hmemory : enough w.system.registry.length) :
    w.system.scan enough =
      (w.system.oomVictim enough, w.system.keepVictim (w.system.oomVictim enough)) := by
  have hheld : ∀ k ∈ w.system.registry, 0 < w.system.refCount (.object k) := fun k hk =>
    (h.passed.accounted.present _).1 (.inl ((h.mem_registry k).1 hk))
  unfold System.scan
  rw [if_pos hmemory, System.foldl_visit hheld, h.oomVictim_eq hmemory]
  unfold System.Scan.finish System.Scan.past
  dsimp only
  have hswap : ∀ (s : System) (v : Option Koid) (rs : List Ref),
      (s.retainAll rs).keepVictim v = (s.keepVictim v).retainAll rs := by
    intro s v rs
    cases v with
    | none => rfl
    | some k => exact (s.retainAll_retain _ rs).symm
  rw [hswap, System.releaseAll_retainAll]
  intro r hr
  obtain ⟨k, hk, rfl⟩ := List.mem_map.1 hr
  exact Nat.lt_of_lt_of_le (hheld k hk) (System.refCount_le_keepVictim _ _ _)

/-- **The victim is the last marked job of the registry**, so no job below it and none of its
younger siblings is marked. -/
theorem Ran.victim_sound (h : w.Ran P) (hmemory : enough w.system.registry.length) :
    w.VictimSound enough where
  none_iff := by
    rw [h.oomVictim_eq hmemory, List.find?_eq_none]
    refine forall_congr' fun k => ?_
    rw [List.mem_reverse, h.mem_registry]
  some_iff k := by
    rw [h.oomVictim_eq hmemory]
    exact find?_reverse_eq_some_iff
  descendant hk hd := h.not_marked_of_before hmemory hk (h.before_ancestor hd)
  sibling hk hi hj hp hlt :=
    h.not_marked_of_before hmemory hk
      (h.registered.2.siblings (System.job_record hi) (System.job_record hj) hp hlt)
  later := by
    rintro v ops k b i j hk hv rfl hthere hnot hi hj hp
    have hlt : k < b := hv.lt_of_later hthere hnot hj
    exact h.not_marked_of_before hmemory hk
      (h.registered.2.siblings (System.job_record hi) (System.job_record hj) hp hlt)
  scan := h.scan_eq hmemory

/-- The jobs of `registryOps`, with the grandchild and both children of the first root marked. -/
def markedOps : List Op :=
  registryOps ++ [.setKillOnOom 1026 true, .setKillOnOom 1025 true, .setKillOnOom 1027 true]

/-- The grandchild goes first, for it stands behind both children. -/
theorem Ran.victim_sound_of_marked :
    (run markedOps).VictimSound (fun n => n ≤ 5) ∧
      (run markedOps).system.registry = [1024, 1025, 1027, 1026, 1028] ∧
      (run markedOps).system.oomVictim (fun n => n ≤ 5) = some 1026 ∧
      (run markedOps).system.oomVictim (fun n => n ≤ 4) = none := by
  refine ⟨victim_sound (P := fun _ _ => True) (Ran.foldl .start (keep_any _ _)) (by cbv),
    by cbv, by cbv, by cbv⟩

end World

end KernelObjects
