import KernelObjects.Proofs.CloneTree

/-
# Which bytes a change of a range reaches

A byte of a clone shows a byte of its parent, if the parent has it, and so on up the chain of
parents.  A range of an object that changes is passed down the tree of clones, cut to the window
of each clone on the way.  The two are the same thing seen from the two ends: a range arrives at a
byte of a clone exactly if that byte shows a byte of the range (`mem_affected_iff`).

The passing down carries a slack, the number of steps that may still keep the end of the range.
In a tree it never runs out, since every step leads to a younger member of the family and the
slack is at least the number of members that are younger still.

On the way down ranges are cut and moved, never rounded: pages are put around a range only where
mappings are told of it.  So what arrives is said in bytes first, and in pages as a consequence
(`mem_affected_pages_iff`).  The object itself is an exception to the second, since a range that
is empty has no byte and still lies in a page.
-/

namespace KernelObjects

/-! ## 1. Pages around a range -/

/-- Around a multiple of the page size there is room for another page less a byte. -/
theorem Page.add_le_max {n : Nat} (hd : Page.size ∣ n) (hn : n ≤ Word.max) :
    n + (Page.size - 1) ≤ Word.max := by
  obtain ⟨k, rfl⟩ := hd
  unfold Word.max UInt64.size Page.size at *
  omega

/-- Rounding up does not fail where there is room for the page. -/
theorem Page.ceil?_of_le {n : Nat} (hn : n + (Page.size - 1) ≤ Word.max) :
    Page.ceil? n = some (Page.floor (n + (Page.size - 1))) := by
  unfold ceil?
  rw [Word.add?_eq_some_iff.2 ⟨rfl, hn⟩, Option.map_some]

theorem Span.isEmpty_eq_true_iff {a : Span} : a.isEmpty = true ↔ a.stop ≤ a.start :=
  decide_eq_true_iff

theorem Span.isEmpty_eq_false_iff {a : Span} : a.isEmpty = false ↔ a.start < a.stop := by
  rw [isEmpty, decide_eq_false_iff_not]
  omega

/-- The hull of a range runs from the page it starts in to the page it ends in. -/
theorem Span.mem_pageHull_iff {a : Span} (ha : a.stop + (Page.size - 1) ≤ Word.max) {y : Nat} :
    y ∈ a.pageHull ↔ Page.floor a.start ≤ y ∧ y < Page.floor (a.stop + (Page.size - 1)) := by
  unfold pageHull Page.ceilSat
  rw [Page.ceil?_of_le ha]
  rfl

/-- The pages around a range that is not empty are the pages that it meets. -/
theorem Span.mem_pageHull {a : Span} (hne : a.isEmpty = false)
    (ha : a.stop + (Page.size - 1) ≤ Word.max) {y : Nat} :
    y ∈ a.pageHull ↔ ∃ z, z ∈ a ∧ z / Page.size = y / Page.size := by
  rw [isEmpty_eq_false_iff] at hne
  rw [mem_pageHull_iff ha]
  simp only [Page.floor, Page.size, mem_iff]
  constructor
  · rintro ⟨hstart, hstop⟩
    -- the byte of the range that is closest
    refine ⟨max a.start (min y (a.stop - 1)), ?_, ?_⟩
    · omega
    · omega
  · rintro ⟨z, ⟨hz, hz'⟩, he⟩
    omega

/-! ## 2. What the passing down visits

The visits are the closure of single steps, as long as the slack lasts.  Under it a step is
determined by the two members and the range. -/

namespace Family

variable {f : Family}

/-- The range of a member leads to the range of one of its clones. -/
def Leads (f : Family) (a b : Reach) : Prop := b ∈ f.reachClones a

/-- The passing down visits the ranges that those on the stack lead to, and no others. -/
theorem mem_sweep_iff {stack : List Reach} {r : Reach} :
    r ∈ f.sweep stack ↔ ∃ a ∈ stack, Relation.ReflTransGen f.Leads a r := by
  induction stack using Family.sweep.induct f with
  | case1 => simp [sweep]
  | case2 a rest ih =>
    rw [sweep, List.mem_cons, ih]
    constructor
    · rintro (rfl | ⟨b, hb, hr⟩)
      · exact ⟨r, List.mem_cons_self, .refl⟩
      · rcases List.mem_append.1 hb with hb | hb
        · exact ⟨a, List.mem_cons_self, .head (List.mem_reverse.1 hb) hr⟩
        · exact ⟨b, List.mem_cons_of_mem a hb, hr⟩
    · rintro ⟨b, hb, hr⟩
      rcases List.mem_cons.1 hb with rfl | hb
      · rcases Relation.ReflTransGen.cases_head hr with rfl | ⟨c, hc, hr⟩
        · exact .inl rfl
        · exact .inr ⟨c, List.mem_append_left _ (List.mem_reverse.2 hc), hr⟩
      · exact .inr ⟨b, List.mem_append_right _ hb, hr⟩

/-- What a change reaches is what the propagation leads to. -/
theorem mem_affected {v : VmoId} {span : Span} {r : Reach} :
    r ∈ f.affected v span ↔ Relation.ReflTransGen f.Leads ⟨v, span, f.size⟩ r := by
  rw [affected, mem_sweep_iff]
  simp

/-- The number of members that are younger. -/
def younger (f : Family) (v : VmoId) : Nat := (f.keys.filter (v < ·)).length

/-- No more members are younger than there are members, -/
theorem younger_le (f : Family) (v : VmoId) : f.younger v ≤ f.size := by
  rw [younger, ← Std.ExtTreeMap.length_keys (t := f)]
  exact List.length_filter_le _ _

/-- and fewer are younger than a clone than are younger than its original: the measure of the
propagation. -/
theorem younger_lt {v c : VmoId} {n : Member} (hn : f[c]? = some n) (h : v < c) :
    f.younger c < f.younger v := by
  have hc : c ∈ f.keys.filter (v < ·) := by
    rw [List.mem_filter, Store.mem_keys_iff, hn]
    simpa using h
  have hfilter : f.keys.filter (c < ·) = (f.keys.filter (v < ·)).filter (c < ·) := by
    rw [List.filter_filter]
    refine List.filter_congr fun x _ => ?_
    by_cases hx : c < x
    · simp [hx, Nat.lt_trans h hx]
    · simp [hx]
  rw [younger, younger, hfilter, List.length_filter_lt_length_iff_exists]
  exact ⟨c, hc, by simp⟩

/-- What a range of a member is for one of its clones. -/
def partFor (a : Span) (n : Member) : Span := (a.inter n.window).shiftDown n.parentOffset

/-- The part of a range that is a clone's is the part its window shows, seen from the clone. -/
theorem mem_partFor {a : Span} {n : Member} {y : Nat} (ha : a.stop ≤ Word.max) :
    y ∈ partFor a n ↔ n.parentOffset + y ∈ a ∧ y < n.size := by
  simp only [partFor, Span.shiftDown, Span.inter, Span.mem_iff, Member.window, Span.ofLength,
    Word.addSat]
  omega

theorem partFor_isEmpty (a : Span) (n : Member) :
    (partFor a n).isEmpty = (a.inter n.window).isEmpty := by
  have hstart : n.parentOffset ≤ (a.inter n.window).start := Nat.le_max_right _ _
  rw [Bool.eq_iff_iff]
  rw [Span.isEmpty_eq_true_iff, Span.isEmpty_eq_true_iff]
  simp only [partFor, Span.shiftDown]
  omega

theorem partFor_stop_le (a : Span) (n : Member) : (partFor a n).stop ≤ a.stop := by
  simp only [partFor, Span.shiftDown, Span.inter]
  omega

/-- What a step leads to. -/
theorem Leads.cases {a b : Reach} (h : f.Leads a b) :
    ∃ m n, f[a.vmo]? = some m ∧ b.vmo ∈ m.clones ∧ f[b.vmo]? = some n ∧
      b.span = partFor a.span n ∧ b.span.isEmpty = false := by
  unfold Leads reachClones at h
  split at h
  · cases h
  · rename_i m hm
    obtain ⟨c, hc, hb⟩ := List.mem_filterMap.1 h
    unfold reachClone at hb
    split at hb
    · cases hb
    · rename_i n hn
      dsimp only at hb
      split at hb
      · cases hb
      · rename_i hne
        have hne : (partFor a.span n).isEmpty = false := by
          rw [partFor_isEmpty]
          exact Bool.eq_false_iff.2 hne
        -- The two ways in which a step is made: the end gets lower, or it stays and one is taken
        -- off the slack.  Both give the same part of the span.
        split at hb
        · cases hb
          exact ⟨m, n, hm, hc, hn, rfl, hne⟩
        · split at hb
          · cases hb
          · cases hb
            exact ⟨m, n, hm, hc, hn, rfl, hne⟩

/-- What is visited is a member. -/
theorem member_of_affected {v : VmoId} {n : Member} (hn : f[v]? = some n) {span : Span} {r : Reach}
    (h : r ∈ f.affected v span) : ∃ m, f[r.vmo]? = some m := by
  rcases Relation.ReflTransGen.cases_tail (mem_affected.1 h) with rfl | ⟨b, -, hb⟩
  · exact ⟨n, hn⟩
  · obtain ⟨-, m, -, -, hm, -⟩ := hb.cases
    exact ⟨m, hm⟩

/-- A clone with a part of the range is reached, as long as there is slack for those younger. -/
theorem reachClone_of_mem {a : Reach} {n : Member} {c : VmoId} {y : Nat} (hn : f[c]? = some n)
    (hlt : a.vmo < c) (hslack : f.younger a.vmo ≤ a.slack) (hy : y ∈ partFor a.span n) :
    ∃ b, f.reachClone a c = some b ∧ b.vmo = c ∧ b.span = partFor a.span n ∧
      f.younger c ≤ b.slack := by
  have hyounger := younger_lt hn hlt
  have hne : (a.span.inter n.window).isEmpty = false := by
    rw [← partFor_isEmpty, Span.isEmpty_eq_false_iff]
    exact Nat.lt_of_le_of_lt hy.1 hy.2
  unfold reachClone
  rw [hn]
  dsimp only
  rw [hne, if_neg (by simp)]
  split
  · exact ⟨_, rfl, rfl, rfl, f.younger_le c⟩
  · -- the step keeps the end, and there is slack for it
    cases hs : a.slack with
    | zero => omega
    | succ k => exact ⟨_, rfl, rfl, rfl, by simp only; omega⟩

/-- **One step down**: a clone that shows some of a range is told of the part that it shows, as long
as there is slack, and the slack left is enough for those younger than it. -/
theorem leads_of_mem {a : Reach} {m n : Member} {c : VmoId} {y : Nat} (hm : f[a.vmo]? = some m)
    (hc : c ∈ m.clones) (hn : f[c]? = some n) (hlt : a.vmo < c) (hslack : f.younger a.vmo ≤ a.slack)
    (hy : y ∈ partFor a.span n) :
    ∃ b, f.Leads a b ∧ b.vmo = c ∧ b.span = partFor a.span n ∧ f.younger c ≤ b.slack := by
  obtain ⟨b, hb, hrest⟩ := reachClone_of_mem hn hlt hslack hy
  refine ⟨b, ?_, hrest⟩
  unfold Leads reachClones
  rw [hm]
  exact List.mem_filterMap.2 ⟨c, hc, hb⟩

end Family

/-! ## 3. What a byte shows

Seen from a clone upwards.  Each step moves the byte by the offset of a window and is possible
only inside of it. -/

namespace System

/-- A byte of a VM object shows a byte of another one, seen through the windows of the clones in
between. -/
inductive Shows (s : System) (v : VmoId) (x : Nat) : VmoId → Nat → Prop
  | self : Shows s v x v x
  | clone {p c : VmoId} {y : Nat} {o : Vmo} {m : Member} (ho : s.vmos[c]? = some o)
      (hp : o.parent = some p) (hm : s.member c = some m) (hy : y < m.size)
      (h : Shows s v x p (m.parentOffset + y)) : Shows s v x c y

variable {s : System} {F : FamilyId} {f : Family}

theorem memberIn_of_family (hf : s.families[F]? = some f) (v : Nat) : s.memberIn F v = f[v]? := by
  rw [memberIn, hf, Option.bind_some]

/-- A member of a family is what is known of its object. -/
theorem Cloned.member_eq {X : Prop} (h : s.Cloned X) (hf : s.families[F]? = some f) {v : Nat}
    {m : Member} (hm : f[v]? = some m) :
    ∃ o, s.vmos[v]? = some o ∧ o.family = F ∧ s.member v = some m := by
  have hin : s.memberIn F v = some m := (memberIn_of_family hf v).trans hm
  obtain ⟨q, hq, hqF⟩ := h.vmo (memberKin_of_get hin)
  obtain ⟨o, ho, rfl⟩ := Option.map_eq_some_iff.1 hq
  have hoF : o.family = F := hqF
  refine ⟨o, ho, hoF, ?_⟩
  rw [System.member, ho, Option.bind_some, hoF]
  exact hin

/-- What a member lists is a younger clone of the same family. -/
theorem Cloned.clone_of_listed {X : Prop} (h : s.Cloned X) (hf : s.families[F]? = some f)
    {p c : Nat}
    {m : Member} (hm : f[p]? = some m) (hc : c ∈ m.clones) :
    p < c ∧ ∃ o, s.vmos[c]? = some o ∧ o.parent = some p := by
  have hin : s.memberKin F p = some m.kin := memberKin_of_get ((memberIn_of_family hf p).trans hm)
  obtain ⟨q, hq, hqp⟩ := h.clone hin hc
  obtain ⟨o, ho, rfl⟩ := Option.map_eq_some_iff.1 hq
  exact ⟨(h.parent hq hqp).1, o, ho, hqp⟩

/-- A clone of a member is a member of the same family, and its parent lists it. -/
theorem CloneTrees.listed_of_clone (h : s.CloneTrees) (hf : s.families[F]? = some f) {p c : Nat}
    {m : Member} {o : Vmo} (hm : f[p]? = some m) (ho : s.vmos[c]? = some o)
    (hp : o.parent = some p) : p < c ∧ c ∈ m.clones ∧ s.member c = f[c]? := by
  have hin : s.memberKin F p = some m.kin := memberKin_of_get ((memberIn_of_family hf p).trans hm)
  have hc : s.vmoKin c = some o.kin := vmoKin_of_get ho
  obtain ⟨hlt, q, hq, hqf⟩ := h.parent hc hp
  obtain ⟨q', hq', hqF⟩ := h.vmo hin
  rw [hq] at hq'
  cases hq'
  refine ⟨hlt, h.listed trivial hc hp hin, ?_⟩
  rw [System.member, ho, Option.bind_some, ← memberIn_of_family hf]
  exact congrArg (fun a => s.memberIn a c) (hqf.symm.trans hqF)

/-- What shows a byte of an object is that object or a younger one. -/
theorem CloneTrees.le_of_shows (h : s.CloneTrees) {v d : VmoId} {x y : Nat}
    (hs : s.Shows v x d y) : v = d ∧ x = y ∨ v < d := by
  induction hs with
  | self => exact .inl ⟨rfl, rfl⟩
  | @clone p c y o m ho hp _ _ _ ih =>
    have hc : s.vmoKin c = some o.kin := vmoKin_of_get ho
    have hlt : p < c := (h.parent hc hp).1
    right
    rcases ih with ⟨rfl, -⟩ | ih
    · exact hlt
    · exact Nat.lt_trans ih hlt

/-- What a byte of a clone shows its parent's byte shows. -/
theorem shows_clone_iff {v c p : VmoId} {o : Vmo} {m : Member} {x y : Nat} (hne : c ≠ v)
    (ho : s.vmos[c]? = some o) (hp : o.parent = some p) (hm : s.member c = some m) :
    s.Shows v x c y ↔ y < m.size ∧ s.Shows v x p (m.parentOffset + y) := by
  constructor
  · intro h
    cases h with
    | self => exact absurd rfl hne
    | clone ho' hp' hm' hy h =>
      obtain rfl := Option.some.inj (ho.symm.trans ho')
      obtain rfl := Option.some.inj (hp.symm.trans hp')
      obtain rfl := Option.some.inj (hm.symm.trans hm')
      exact ⟨hy, h⟩
  · rintro ⟨hy, h⟩
    exact .clone ho hp hm hy h

/-- What a range leads to lies in the tree below, is not empty, ends no later, and shows the
range. -/
theorem CloneTrees.shows_of_leads (h : s.CloneTrees) (hf : s.families[F]? = some f) {a r : Reach}
    (ha : a.span.stop ≤ Word.max) (hr : Relation.ReflTransGen f.Leads a r) :
    r.span.stop ≤ a.span.stop ∧ (r = a ∨ a.vmo < r.vmo ∧ r.span.isEmpty = false) ∧
      ∀ y, y ∈ r.span → ∃ x, x ∈ a.span ∧ s.Shows a.vmo x r.vmo y := by
  induction hr with
  | refl => exact ⟨Nat.le_refl _, .inl rfl, fun y hy => ⟨y, hy, .self⟩⟩
  | @tail b c _ hstep ih =>
    obtain ⟨hstop, hor, hshow⟩ := ih
    obtain ⟨m, n, hm, hc, hn, hspan, hne⟩ := hstep.cases
    obtain ⟨hlt, o, ho, hp⟩ := h.clone_of_listed hf hm hc
    obtain ⟨-, -, -, hmember⟩ := h.member_eq hf hn
    have hstop' : b.span.stop ≤ Word.max := Nat.le_trans hstop ha
    refine ⟨?_, .inr ⟨?_, hne⟩, fun y hy => ?_⟩
    · rw [hspan]
      exact Nat.le_trans (Family.partFor_stop_le _ _) hstop
    · rcases hor with rfl | ⟨hlt', -⟩
      · exact hlt
      · exact Nat.lt_trans hlt' hlt
    · rw [hspan, Family.mem_partFor hstop'] at hy
      obtain ⟨x, hx, hxs⟩ := hshow _ hy.1
      exact ⟨x, hx, .clone ho hp hmember hy.2 hxs⟩

/-- What shows a byte of a range is led to from there. -/
theorem CloneTrees.leads_of_shows (h : s.CloneTrees) (hf : s.families[F]? = some f) {a : Reach}
    {n : Member} (ha : a.span.stop ≤ Word.max) (hn : f[a.vmo]? = some n)
    (hslack : f.younger a.vmo ≤ a.slack) {x : Nat} (hx : x ∈ a.span) {d : VmoId} {y : Nat}
    (hs : s.Shows a.vmo x d y) :
    ∃ r, Relation.ReflTransGen f.Leads a r ∧ r.vmo = d ∧ y ∈ r.span ∧ f.younger d ≤ r.slack ∧
      ∃ m, f[d]? = some m := by
  induction hs with
  | self => exact ⟨a, .refl, rfl, hx, hslack, n, hn⟩
  | @clone p c y o m ho hp hm hy _ ih =>
    obtain ⟨r, hr, rfl, hz, hyounger, q, hq⟩ := ih
    obtain ⟨hlt, hlisted, hmember⟩ := h.listed_of_clone hf hq ho hp
    have hget : f[c]? = some m := hmember.symm.trans hm
    have hstop : r.span.stop ≤ Word.max := Nat.le_trans (h.shows_of_leads hf ha hr).1 ha
    have hpart : y ∈ Family.partFor r.span m := (Family.mem_partFor hstop).2 ⟨hz, hy⟩
    obtain ⟨b, hb, rfl, hspan, hslack'⟩ :=
      Family.leads_of_mem hq hlisted hget hlt hyounger hpart
    exact ⟨b, hr.tail hb, rfl, hspan ▸ hpart, hslack', m, hget⟩

/-- **A change of a range arrives at a byte exactly if that byte shows a byte of the range.** -/
theorem CloneTrees.mem_affected_iff (h : s.CloneTrees) (hf : s.families[F]? = some f) {v d : VmoId}
    {n : Member} (hn : f[v]? = some n) {span : Span} (hstop : span.stop ≤ Word.max) {y : Nat} :
    (∃ r ∈ f.affected v span, r.vmo = d ∧ y ∈ r.span) ↔ ∃ x ∈ span, s.Shows v x d y := by
  constructor
  · rintro ⟨r, hr, rfl, hy⟩
    exact (h.shows_of_leads hf hstop (Family.mem_affected.1 hr)).2.2 y hy
  · rintro ⟨x, hx, hs⟩
    obtain ⟨r, hr, hd, hy, -⟩ :=
      h.leads_of_shows (a := ⟨v, span, f.size⟩) hf hstop hn (f.younger_le v) hx hs
    exact ⟨r, Family.mem_affected.2 hr, hd, hy⟩

/-- **Which pages of a clone a change arrives at:** those that have a byte which shows a byte of the
range.  In the object itself it is the pages around the range, be it empty or not. -/
theorem CloneTrees.mem_affected_pages_iff (h : s.CloneTrees) (hf : s.families[F]? = some f)
    {v d : VmoId} {n : Member} (hn : f[v]? = some n) {span : Span}
    (hstop : span.stop + (Page.size - 1) ≤ Word.max) {y : Nat} :
    (∃ r ∈ f.affected v span, r.vmo = d ∧ y ∈ r.span.pageHull) ↔
      d = v ∧ y ∈ span.pageHull ∨
        d ≠ v ∧ ∃ x z, x ∈ span ∧ s.Shows v x d z ∧ z / Page.size = y / Page.size := by
  have hle : span.stop ≤ Word.max := Nat.le_trans (Nat.le_add_right _ _) hstop
  constructor
  · rintro ⟨r, hr, rfl, hy⟩
    obtain ⟨hstop', hor, hshow⟩ := h.shows_of_leads hf hle (Family.mem_affected.1 hr)
    -- The object itself is told of the range as it is, which may be empty.  A clone is told of a
    -- part that is not, so its pages are those of the bytes in it.
    rcases hor with rfl | ⟨hlt, hne⟩
    · exact .inl ⟨rfl, hy⟩
    · obtain ⟨z, hz, he⟩ := (Span.mem_pageHull hne
        (Nat.le_trans (Nat.add_le_add_right hstop' _) hstop)).1 hy
      obtain ⟨x, hx, hxs⟩ := hshow z hz
      exact .inr ⟨(Nat.ne_of_lt hlt).symm, x, z, hx, hxs, he⟩
  · rintro (⟨rfl, hy⟩ | ⟨-, x, z, hx, hs, he⟩)
    · exact ⟨⟨d, span, f.size⟩, Family.mem_affected.2 .refl, rfl, hy⟩
    · obtain ⟨r, hr, hd, hz⟩ := (h.mem_affected_iff hf hn hle).2 ⟨x, hx, hs⟩
      have hstop' := (h.shows_of_leads hf hle (Family.mem_affected.1 hr)).1
      refine ⟨r, hr, hd, ?_⟩
      have hne : r.span.isEmpty = false := by
        rw [Span.isEmpty_eq_false_iff]
        exact Nat.lt_of_le_of_lt hz.1 hz.2
      exact (Span.mem_pageHull hne (Nat.le_trans (Nat.add_le_add_right hstop' _) hstop)).2
        ⟨z, hz, he⟩

end System

end KernelObjects
