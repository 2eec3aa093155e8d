import Mathlib.Logic.Hydra
import Mathlib.Tactic.Abel
import KernelObjects.Proofs.Propagate

/-
# The loop that tells of a change

A change of a range is passed on from a member of a family to those of its clones whose windows
have a part of it (`Family.Passes`).  What runs is a loop over a worklist of offsets and lengths
in machine words (`Family.Turn`): an entry is taken off, the pages around it are unmapped from the
mappings of the member, and what its clones have of it is put on.

**When the loop ends.**  It ends, whatever entry it takes next, exactly if nothing is passed on
for ever (`Family.acc_turn_iff`).  That is so in every tree of clones.  Lists of clones that were
written by hand may lead from a member back to itself, with the same range; then the loop has no
end (`Family.not_settles_of_cycle`), and the call that runs it never returns.

**What this means for the sweep.**  `Family.affected` gives an answer for every family, since the
entries of its stack run out of slack.  Slack runs out only after a row of steps that keep the
range and are more than the family has members, hence on a way round.  So where the loop ends, no
visit is lost, and what the sweep does is a run of the loop to its end
(`Family.Settles.sweep_runs`); where the loop has no end, the sweep stands for nothing that
happens.

**Why a row of steps that keep the range.**  A step to a clone moves a range to the start of the
window and cuts it at its end, so with each step the end of the range either stays or gets less.
It can get less only so often.  Between two such steps the range is handed on unchanged, and a
member that comes twice in such a row has been handed its own range.

An end of the loop is stated with accessibility and not with a number of turns.  It speaks of all
orders at once, and whether a family settles is a property of its lists alone, so it can be shown
once for all ranges.
-/

namespace KernelObjects

open Relation (ReflTransGen TransGen CutExpand)

/-! ## 1. The worklist -/

/-- The difference, if it does not fall below zero. -/
def Word.sub? (a b : Nat) : Option Nat := if b ≤ a then some (a - b) else none

theorem Word.sub?_of_le {a b : Nat} (h : b ≤ a) : sub? a b = some (a - b) := if_pos h

/-- An entry of the worklist: a range of a member as an offset and a length. -/
structure Part where
  vmo : VmoId
  offset : Nat
  length : Nat
  deriving DecidableEq, Repr

namespace Part

/-- The bytes of the range.  A length that runs past the largest word is cut off there. -/
def span (p : Part) : Span := Span.ofLength p.offset p.length

/-- Offset and length are words.  Their sum need not be one. -/
def Fits (p : Part) : Prop := p.offset ≤ Word.max ∧ p.length ≤ Word.max

/-- The pages around the range, as an offset and a length. -/
def pages? (p : Part) : Option (Nat × Nat) :=
  let first := Page.floor p.offset
  let last := Page.ceilSat (Word.addSat p.offset p.length)
  (Word.sub? last first).map fun count => (first, count)

/-- What a clone has of the range, seen from the start of its window. -/
def forClone? (p : Part) (clone : VmoId) (n : Member) : Option (List Part) :=
  let start := max p.offset n.parentOffset
  let stop := min (Word.addSat p.offset p.length) (Word.addSat n.parentOffset n.size)
  if start < stop then do
    let offset ← Word.sub? start n.parentOffset
    let length ← Word.sub? stop start
    return [⟨clone, offset, length⟩]
  else some []

end Part

/-- Unmaps a range of the object as far as the mapping shows it. -/
def Mapping.unmap? (m : Mapping) (offset length : Nat) : Option Mapping :=
  let start := max offset m.offset
  let stop := min (Word.addSat offset length) (Word.addSat m.offset m.size)
  if stop ≤ start then some m
  else (Word.sub? stop start).map fun count =>
    { m with unmapped := m.unmapped ++ [⟨start, start + count⟩] }

/-- Unmaps a range of its object from a mapping. -/
def System.unmapRange? (s : System) (i : MappingId) (offset length : Nat) : Option System :=
  match s.mappings[i]? with
  | none => some s
  | some m => (m.unmap? offset length).map fun m => { s with mappings := s.mappings.insert i m }

namespace Family

/-- What a clone has of a range, if the family knows the clone. -/
def partsOf? (f : Family) (p : Part) (clone : VmoId) : Option (List Part) :=
  match f[clone]? with
  | none => some []
  | some n => p.forClone? clone n

/-- Visits an entry: unmaps the pages around it from the mappings of the member and lists what its
clones have of it; `none` if a difference falls below zero on the way. -/
def visit? (f : Family) (p : Part) (s : System) : Option (List Part × System) :=
  match f[p.vmo]? with
  | none => some ([], s)
  | some m => do
    let (first, count) ← p.pages?
    let s ← m.mappings.foldlM (fun s i => s.unmapRange? i first count) s
    let parts ← m.clones.mapM (f.partsOf? p)
    return (parts.flatten, s)

/-- One turn of the loop: some entry is taken off the worklist and visited, and what that gives is
put on, anywhere. -/
inductive Turn (f : Family) : List Part × System → List Part × System → Prop
  | visit {p : Part} {work rest parts next : List Part} {s t : System}
      (htake : work.Perm (p :: rest)) (hvisit : f.visit? p s = some (parts, t))
      (hput : next.Perm (parts ++ rest)) : Turn f (work, s) (next, t)

end Family

/-! ## 2. No difference falls below zero

The words of the loop are sums and differences of offsets.  Each difference is taken of a number
that is known to be the larger one, because a window was met. -/

/-- To round up does not go down, also where it is cut off. -/
theorem Page.le_ceilSat {x : Nat} (h : x ≤ Word.max) : x ≤ ceilSat x := by
  unfold ceilSat
  cases hc : ceil? x with
  | none => exact h
  | some c => exact le_of_ceil? hc

/-- What is cut off fits a word. -/
theorem Page.ceilSat_le (x : Nat) : ceilSat x ≤ Word.max := by
  unfold ceilSat
  cases hc : ceil? x with
  | none => exact Nat.le_refl _
  | some c => exact ceil?_le hc

/-- A span as an offset and a length. -/
theorem Span.ofLength_length {a : Span} (h : a.start ≤ a.stop) (hstop : a.stop ≤ Word.max) :
    ofLength a.start a.length = a := by
  have hsum : a.start + a.length = a.stop := Nat.add_sub_cancel' h
  rw [ofLength, Word.addSat_of_le (by rw [hsum]; exact hstop), hsum]

/-- In a mapping the end of what is unmapped is past its start, or nothing is unmapped. -/
theorem Mapping.unmap?_eq (m : Mapping) (offset length : Nat) :
    m.unmap? offset length = some (m.unmap (Span.ofLength offset length)) := by
  have hinter : (Span.ofLength offset length).inter m.window =
      ⟨max offset m.offset, min (Word.addSat offset length) (Word.addSat m.offset m.size)⟩ := rfl
  unfold unmap? unmap meets
  dsimp only
  rw [hinter]
  split
  · rename_i h
    simp [Span.isEmpty, h]
  · rename_i h
    rw [Word.sub?_of_le (by omega), Option.map_some, Nat.add_sub_cancel' (by omega)]
    simp [Span.isEmpty, h]

/-- So unmapping in machine words is unmapping. -/
theorem System.unmapRange?_eq (s : System) (i : MappingId) (offset length : Nat) :
    s.unmapRange? i offset length = some (s.unmapSpan i (Span.ofLength offset length)).2 := by
  unfold unmapRange? unmapSpan
  split
  · rename_i hnone
    rw [Store.modify_of_none hnone]
  · rename_i m hm
    rw [Mapping.unmap?_eq, Option.map_some]
    congr 2
    ext1 k
    rw [Store.getElem?_insert, Store.getElem?_modify]
    split
    · rename_i hk
      subst hk
      rw [hm, Option.map_some]
    · rfl

namespace Part

theorem span_stop_le (p : Part) : p.span.stop ≤ Word.max := Word.addSat_le _ _

/-- The pages around a range start below it and end above it, so their length is a difference that
does not fall below zero. -/
theorem pages?_eq {p : Part} (hp : p.Fits) :
    p.pages? = some (p.span.pageHull.start, p.span.pageHull.length) ∧
      Span.ofLength p.span.pageHull.start p.span.pageHull.length = p.span.pageHull := by
  have hhull : p.span.pageHull =
      ⟨Page.floor p.offset, Page.ceilSat (Word.addSat p.offset p.length)⟩ := rfl
  have hle : Page.floor p.offset ≤ Page.ceilSat (Word.addSat p.offset p.length) :=
    calc Page.floor p.offset
      _ ≤ p.offset := Page.floor_le _
      _ ≤ Word.addSat p.offset p.length := Nat.le_min.2 ⟨Nat.le_add_right _ _, hp.1⟩
      _ ≤ Page.ceilSat (Word.addSat p.offset p.length) := Page.le_ceilSat (Word.addSat_le _ _)
  have hstop := Page.ceilSat_le (Word.addSat p.offset p.length)
  unfold pages?
  rw [hhull]
  generalize Page.ceilSat (Word.addSat p.offset p.length) = last at hle hstop ⊢
  generalize Page.floor p.offset = first at hle ⊢
  dsimp only
  refine ⟨?_, Span.ofLength_length (a := ⟨first, last⟩) hle hstop⟩
  rw [Word.sub?_of_le hle, Option.map_some, Span.length]

/-- What a clone has of the range. -/
def forClone (p : Part) (clone : VmoId) (n : Member) : List Part :=
  if (Family.partFor p.span n).isEmpty then []
  else [⟨clone, (Family.partFor p.span n).start, (Family.partFor p.span n).length⟩]

/-- What a clone has of a range starts at its window or later, and it ends past its start or is not
passed on. -/
theorem forClone?_eq (p : Part) (clone : VmoId) (n : Member) :
    p.forClone? clone n = some (p.forClone clone n) := by
  have hinter : p.span.inter n.window = ⟨max p.offset n.parentOffset,
      min (Word.addSat p.offset p.length) (Word.addSat n.parentOffset n.size)⟩ := rfl
  have hstart : n.parentOffset ≤ max p.offset n.parentOffset := Nat.le_max_right _ _
  have hempty := Family.partFor_isEmpty p.span n
  unfold forClone? forClone Family.partFor at *
  rw [hinter] at hempty ⊢
  generalize max p.offset n.parentOffset = start at hstart hempty ⊢
  generalize min (Word.addSat p.offset p.length) _ = stop at hempty ⊢
  dsimp only
  rw [hempty]
  by_cases h : start < stop
  · have hlength : stop - n.parentOffset - (start - n.parentOffset) = stop - start := by omega
    rw [if_pos h, Word.sub?_of_le hstart, Word.sub?_of_le (Nat.le_of_lt h),
      Span.isEmpty_eq_false_iff.2 h, if_neg Bool.false_ne_true, Span.length, Span.shiftDown,
      hlength]
    rfl
  · rw [if_neg h, Span.isEmpty_eq_true_iff.2 (Nat.le_of_not_lt h), if_pos rfl]

/-- What is found in a clone is the part of the range that the clone has. -/
theorem mem_forClone {p q : Part} {clone : VmoId} {n : Member} (h : q ∈ p.forClone clone n) :
    q.vmo = clone ∧ q.Fits ∧ (Family.partFor p.span n).isEmpty = false ∧
      q.span = Family.partFor p.span n := by
  unfold forClone at h
  split at h
  · cases h
  · rename_i hne
    obtain rfl := List.mem_singleton.1 h
    have hne : (Family.partFor p.span n).isEmpty = false := Bool.eq_false_iff.2 hne
    have hlt := Span.isEmpty_eq_false_iff.1 hne
    have hstop : (Family.partFor p.span n).stop ≤ Word.max :=
      Nat.le_trans (Family.partFor_stop_le _ _) p.span_stop_le
    refine ⟨rfl, ⟨?_, ?_⟩, hne, Span.ofLength_length (Nat.le_of_lt hlt) hstop⟩
    · exact Nat.le_trans (Nat.le_of_lt hlt) hstop
    · exact Nat.le_trans (Nat.sub_le _ _) hstop

/-- A part that is not empty is passed on. -/
theorem exists_mem_forClone {p : Part} (clone : VmoId) {n : Member}
    (h : (Family.partFor p.span n).isEmpty = false) : ∃ q, q ∈ p.forClone clone n :=
  ⟨⟨clone, _, _⟩, by rw [forClone, if_neg (by simp [h])]; exact List.mem_singleton_self _⟩

end Part

namespace Family

variable {f : Family}

/-- What the clones of a member have of a range. -/
def parts (f : Family) (p : Part) : List Part :=
  match f[p.vmo]? with
  | none => []
  | some m => m.clones.flatMap fun c => (f[c]?.map (p.forClone c)).getD []

/-- **A visit never fails**: no difference in it falls below zero. -/
theorem visit?_eq (f : Family) {p : Part} (hp : p.Fits) (s : System) :
    f.visit? p s = some (f.parts p, System.unmapReach f s ⟨p.vmo, p.span, 0⟩) := by
  unfold visit? parts System.unmapReach
  dsimp only
  cases f[p.vmo]? with
  | none => rfl
  | some m =>
    obtain ⟨hpages, hhull⟩ := p.pages?_eq hp
    have hunmap : (fun (s : System) i => s.unmapRange? i p.span.pageHull.start
        p.span.pageHull.length) = fun s i => pure (s.unmapSpan i p.span.pageHull).2 := by
      funext s i
      rw [System.unmapRange?_eq, hhull]
      rfl
    have hparts : f.partsOf? p = fun c => pure ((f[c]?.map (p.forClone c)).getD []) := by
      funext c
      unfold partsOf?
      cases f[c]? with
      | none => rfl
      | some n => exact p.forClone?_eq c n
    dsimp only
    rw [hpages, Option.bind_eq_bind, Option.bind_some]
    dsimp only
    rw [hunmap, hparts, List.foldlM_pure, List.mapM_pure]
    rfl

/-- What is found belongs to a clone that the member lists and the family knows, -/
theorem mem_parts {p q : Part} (h : q ∈ f.parts p) :
    ∃ m n, f[p.vmo]? = some m ∧ q.vmo ∈ m.clones ∧ f[q.vmo]? = some n ∧
      q ∈ p.forClone q.vmo n := by
  unfold parts at h
  split at h
  · cases h
  · rename_i m hm
    obtain ⟨c, hc, hq⟩ := List.mem_flatMap.1 h
    cases hn : f[c]? with
    | none => simp [hn] at hq
    | some n =>
      rw [hn, Option.map_some, Option.getD_some] at hq
      obtain rfl := (Part.mem_forClone hq).1
      exact ⟨m, n, hm, hc, hn, hq⟩

/-- and what such a clone has is found. -/
theorem mem_parts_of_mem {p q : Part} {m n : Member} (hm : f[p.vmo]? = some m) {c : VmoId}
    (hc : c ∈ m.clones) (hn : f[c]? = some n) (hq : q ∈ p.forClone c n) : q ∈ f.parts p := by
  unfold parts
  rw [hm]
  exact List.mem_flatMap.2 ⟨c, hc, by rw [hn]; exact hq⟩

/-! ## 3. When the loop ends

A worklist is a multiset that loses an entry and gets finitely many smaller ones, and that has an
end if the entries have one. -/

/-- A member that hears of a range passes on to a clone what the clone has of it. -/
inductive Passes (f : Family) : VmoId × Span → VmoId × Span → Prop
  | clone {v c : VmoId} {m n : Member} {a : Span} (hm : f[v]? = some m) (hc : c ∈ m.clones)
      (hn : f[c]? = some n) (hmeets : (partFor a n).isEmpty = false) :
      Passes f (v, a) (c, partFor a n)

/-- Whether nothing that a member hears of a range is passed on for ever. -/
def Settles (f : Family) (v : VmoId) (a : Span) : Prop := Acc (fun y x => f.Passes x y) (v, a)

/-- What a visit finds is what the member passes on. -/
theorem passes_of_mem_parts {p q : Part} (h : q ∈ f.parts p) :
    f.Passes (p.vmo, p.span) (q.vmo, q.span) := by
  obtain ⟨m, n, hm, hc, hn, hpart⟩ := mem_parts h
  obtain ⟨-, -, hne, hspan⟩ := Part.mem_forClone hpart
  rw [hspan]
  exact .clone hm hc hn hne

/-- Whatever a member passes on is found. -/
theorem exists_mem_parts {p : Part} {x : VmoId × Span} (h : f.Passes (p.vmo, p.span) x) :
    ∃ q ∈ f.parts p, (q.vmo, q.span) = x := by
  generalize hp : (p.vmo, p.span) = y at h
  cases h with
  | @clone v c m n a hm hc hn hmeets =>
    cases hp
    obtain ⟨q, hq⟩ := Part.exists_mem_forClone c hmeets
    obtain ⟨rfl, -, -, hspan⟩ := Part.mem_forClone hq
    exact ⟨q, mem_parts_of_mem hm hc hn hq, by rw [hspan]⟩

/-- What comes of something that settles settles. -/
theorem Settles.of_passes {v c : VmoId} {a b : Span} (h : f.Settles v a)
    (hp : f.Passes (v, a) (c, b)) : f.Settles c b := h.inv hp

/-- A range that comes back to a member as it was is passed on for ever. -/
theorem not_settles_of_cycle {v : VmoId} {a : Span} (h : TransGen f.Passes (v, a) (v, a)) :
    ¬ f.Settles v a := by
  intro hs
  have hacc : Acc (TransGen fun y x => f.Passes x y) (v, a) := Acc.transGen hs
  have hback : TransGen (fun y x => f.Passes x y) (v, a) (v, a) := Relation.transGen_swap.2 h
  generalize (v, a) = x at hacc hback
  induction hacc with
  | intro x _ ih => exact ih x hback hback

/-- The entries of the worklist stay words: what is found lies in the range that was taken. -/
theorem Turn.fits {x y : List Part × System} (h : f.Turn x y) (hfits : ∀ p ∈ x.1, p.Fits) :
    ∀ p ∈ y.1, p.Fits := by
  obtain @⟨p, work, rest, parts, next, s, t, htake, hvisit, hput⟩ := h
  rw [f.visit?_eq (hfits p (htake.mem_iff.2 List.mem_cons_self))] at hvisit
  cases hvisit
  intro q hq
  rcases List.mem_append.1 (hput.mem_iff.1 hq) with hq | hq
  · obtain ⟨_, _, -, -, -, hq⟩ := mem_parts hq
    exact (Part.mem_forClone hq).2.1
  · exact hfits q (htake.mem_iff.2 (List.mem_cons_of_mem p hq))

/-- The loop can always visit the entry that it is at. -/
theorem turn_head {p : Part} (hp : p.Fits) (rest : List Part) (s : System) :
    f.Turn (p :: rest, s) (f.parts p ++ rest, System.unmapReach f s ⟨p.vmo, p.span, 0⟩) :=
  .visit (.refl _) (f.visit?_eq hp s) (.refl _)

/-- What settles is passed on to what settles.  This order is well-founded, whatever else the family
has. -/
def Settling (f : Family) (y x : VmoId × Span) : Prop := f.Passes x y ∧ f.Settles x.1 x.2

/-- A way down through what settles comes to an end.  That holds in every family, as the order does
not speak of the rest. -/
theorem settling_wf (f : Family) : WellFounded f.Settling := by
  suffices hacc : ∀ x, Acc (fun y x => f.Passes x y) x → Acc f.Settling x from
    ⟨fun x => ⟨x, fun y hy => hacc y (hy.2.inv hy.1)⟩⟩
  intro x hx
  induction hx with
  | intro x _ ih => exact ⟨x, fun y hy => ih y hy.1⟩

/-- Every turn replaces what a member hears by what it passes on. -/
theorem Turn.cuts {x y : List Part × System} (h : f.Turn x y) (hfits : ∀ p ∈ x.1, p.Fits)
    (hsettles : ∀ p ∈ x.1, f.Settles p.vmo p.span) :
    CutExpand f.Settling (y.1.map fun p => (p.vmo, p.span) : Multiset (VmoId × Span))
      (x.1.map fun p => (p.vmo, p.span) : Multiset (VmoId × Span)) := by
  obtain @⟨p, work, rest, parts, next, s, t, htake, hvisit, hput⟩ := h
  have hp : p ∈ work := htake.mem_iff.2 List.mem_cons_self
  rw [f.visit?_eq (hfits p hp)] at hvisit
  cases hvisit
  refine ⟨(f.parts p).map fun q => (q.vmo, q.span), (p.vmo, p.span), fun a ha => ?_, ?_⟩
  · obtain ⟨q, hq, rfl⟩ := List.mem_map.1 (Multiset.mem_coe.1 ha)
    exact ⟨passes_of_mem_parts hq, hsettles p hp⟩
  · have htake' := Multiset.coe_eq_coe.2 (htake.map fun p => (p.vmo, p.span))
    have hput' := Multiset.coe_eq_coe.2 (hput.map fun p => (p.vmo, p.span))
    dsimp only
    rw [htake', hput', List.map_append, List.map_cons, ← Multiset.coe_add, ← Multiset.cons_coe,
      ← Multiset.singleton_add]
    abel

/-- What is put on the worklist settles as what was taken off did. -/
theorem Turn.settles {x y : List Part × System} (h : f.Turn x y) (hfits : ∀ p ∈ x.1, p.Fits)
    (hsettles : ∀ p ∈ x.1, f.Settles p.vmo p.span) : ∀ p ∈ y.1, f.Settles p.vmo p.span := by
  obtain @⟨p, work, rest, parts, next, s, t, htake, hvisit, hput⟩ := h
  have hp : p ∈ work := htake.mem_iff.2 List.mem_cons_self
  rw [f.visit?_eq (hfits p hp)] at hvisit
  cases hvisit
  intro q hq
  rcases List.mem_append.1 (hput.mem_iff.1 hq) with hq | hq
  · exact (hsettles p hp).of_passes (passes_of_mem_parts hq)
  · exact hsettles q (htake.mem_iff.2 (List.mem_cons_of_mem p hq))

/-- **When the loop ends**: whatever entry it takes next and wherever it puts what it finds, it ends
exactly if every entry settles. -/
theorem acc_turn_iff {x : List Part × System} (hfits : ∀ p ∈ x.1, p.Fits) :
    Acc (fun y x => f.Turn x y) x ↔ ∀ p ∈ x.1, f.Settles p.vmo p.span := by
  constructor
  · intro hacc
    induction hacc with
    | intro x _ ih =>
      obtain ⟨work, s⟩ := x
      intro p hp
      -- what `p` passes on is on the worklist after a turn that takes `p`
      have hturn : f.Turn (work, s) _ :=
        .visit (List.perm_cons_erase hp) (f.visit?_eq (hfits p hp) s) (.refl _)
      have hnext := ih _ hturn (hturn.fits hfits)
      refine ⟨_, fun y hy => ?_⟩
      obtain ⟨q, hq, rfl⟩ := exists_mem_parts hy
      exact hnext q (List.mem_append_left _ hq)
  · intro hsettles
    have hwf : WellFounded (CutExpand f.Settling) := f.settling_wf.cutExpand
    generalize hk : (x.1.map fun p => (p.vmo, p.span) : Multiset (VmoId × Span)) = k
    induction k using hwf.induction generalizing x with
    | _ k ih =>
      subst hk
      exact .intro x fun y hy =>
        ih _ (hy.cuts hfits hsettles) (hy.fits hfits) (hy.settles hfits hsettles) rfl

/-- Some run takes a loop that ends to its end. -/
theorem completes {x : List Part × System} (hacc : Acc (fun y x => f.Turn x y) x)
    (hfits : ∀ p ∈ x.1, p.Fits) : ∃ t, ReflTransGen f.Turn x ([], t) := by
  induction hacc with
  | intro x _ ih =>
    obtain ⟨_ | ⟨p, rest⟩, s⟩ := x
    · exact ⟨s, .refl⟩
    · have hturn := f.turn_head (hfits p List.mem_cons_self) rest s
      obtain ⟨t, ht⟩ := ih _ hturn (hturn.fits hfits)
      exact ⟨t, .head hturn ht⟩

/-! ## 4. The stack is one of the worklists

The sweep takes the entry that it put on last.  Its entries stand for those of the loop as long as
there is slack. -/

/-- A part that ends where the whole range ends is the whole range: the window starts at zero. -/
theorem partFor_eq_self {a : Span} {n : Member} (hmeets : (partFor a n).isEmpty = false)
    (hstop : ¬ (partFor a n).stop < a.stop) : partFor a n = a := by
  rw [Span.isEmpty_eq_false_iff] at hmeets
  unfold partFor Span.shiftDown Span.inter Member.window Span.ofLength at *
  obtain ⟨start, stop⟩ := a
  simp only [Span.mk.injEq] at *
  omega

/-- An entry of the stack stands for an entry of the worklist.  The members that kept its span on
the way down to it are all different, and it has slack for the others. -/
structure StandsFor (f : Family) (p : Part) (r : Reach) : Prop where
  vmo : p.vmo = r.vmo
  span : p.span = r.span
  fits : p.Fits
  settles : f.Settles r.vmo r.span
  row : ∃ row : List VmoId, row.Nodup ∧ f.size ≤ row.length + r.slack ∧
    ∀ u ∈ row, u ∈ f.keys ∧ TransGen f.Passes (u, r.span) (r.vmo, r.span)

/-- The first entry has slack for the whole family. -/
theorem StandsFor.start {p : Part} (hp : p.Fits) (h : f.Settles p.vmo p.span) :
    f.StandsFor p ⟨p.vmo, p.span, f.size⟩ where
  vmo := rfl
  span := rfl
  fits := hp
  settles := h
  row := ⟨[], .nil, Nat.le_add_left _ _, nofun⟩

/-- **Slack does not run out** at what settles: a row as long as the family would lead back to one
of its members with the same span. -/
theorem StandsFor.slack_pos {p : Part} {r : Reach} (h : f.StandsFor p r) {m : Member}
    (hm : f[r.vmo]? = some m) : ∃ row : List VmoId, (r.vmo :: row).Nodup ∧
      f.size < row.length + 1 + r.slack ∧ 0 < r.slack ∧
      ∀ u ∈ row, u ∈ f.keys ∧ TransGen f.Passes (u, r.span) (r.vmo, r.span) := by
  obtain ⟨row, hnodup, hsize, hrow⟩ := h.row
  have hfresh : r.vmo ∉ row := fun hin => not_settles_of_cycle (hrow _ hin).2 h.settles
  have hnodup : (r.vmo :: row).Nodup := List.nodup_cons.2 ⟨hfresh, hnodup⟩
  have hsub : r.vmo :: row ⊆ f.keys := by
    refine List.cons_subset.2 ⟨Store.mem_keys_iff.2 (by rw [hm]; rfl), fun u hu => (hrow u hu).1⟩
  have hlength : row.length + 1 ≤ f.size := by
    rw [← Std.ExtTreeMap.length_keys (t := f)]
    exact (List.subperm_of_subset hnodup hsub).length_le
  exact ⟨row, hnodup, by omega, by omega, hrow⟩

/-- What a clone has of the range is on the stack as it is on the worklist. -/
theorem StandsFor.reachClone {p q : Part} {r : Reach} (h : f.StandsFor p r) {m n : Member}
    {c : VmoId} (hm : f[r.vmo]? = some m) (hc : c ∈ m.clones) (hn : f[c]? = some n)
    (hq : q ∈ p.forClone c n) : ∃ t, f.reachClone r c = some t ∧ f.StandsFor q t := by
  obtain ⟨hqv, hqfits, hmeets, hqspan⟩ := Part.mem_forClone hq
  rw [h.span] at hmeets hqspan
  have hpass : f.Passes (r.vmo, r.span) (c, partFor r.span n) := .clone hm hc hn hmeets
  have hsettles : f.Settles c (partFor r.span n) := h.settles.of_passes hpass
  unfold Family.reachClone
  rw [hn]
  dsimp only
  rw [← partFor_isEmpty, hmeets, if_neg Bool.false_ne_true]
  split
  · -- the end drops, and a new row starts
    exact ⟨_, rfl, hqv, hqspan, hqfits, hsettles, [], .nil, Nat.le_add_left _ _, nofun⟩
  · rename_i hstop
    have hkept : partFor r.span n = r.span := partFor_eq_self hmeets hstop
    -- The end stays, so the row gets longer by a member that is not in it yet, and the slack that
    -- is left pays for that.
    obtain ⟨row, hnodup, hsize, hpos, hrow⟩ := h.slack_pos hm
    obtain ⟨k, hk⟩ := Nat.exists_eq_succ_of_ne_zero (Nat.ne_of_gt hpos)
    rw [hk]
    refine ⟨_, rfl, hqv, hqspan, hqfits, hsettles, r.vmo :: row, hnodup, ?_, ?_⟩
    · rw [List.length_cons]
      dsimp only
      omega
    · have hback : (r.span.inter n.window).shiftDown n.parentOffset = r.span := hkept
      rw [hkept] at hpass
      dsimp only
      rw [hback]
      intro u hu
      rcases List.mem_cons.1 hu with rfl | hu
      · exact ⟨Store.mem_keys_iff.2 (by rw [hm]; rfl), .single hpass⟩
      · exact ⟨(hrow u hu).1, (hrow u hu).2.tail hpass⟩

/-- **A visit leaves the stack standing for the worklist**: for each clone, both find nothing, or
both find the same. -/
theorem StandsFor.parts {p : Part} {r : Reach} (h : f.StandsFor p r) :
    List.Forall₂ f.StandsFor (f.parts p) (f.reachClones r) := by
  unfold Family.parts reachClones
  rw [h.vmo]
  cases hm : f[r.vmo]? with
  | none => exact .nil
  | some m =>
    dsimp only
    -- the entries and the stack are made from the list of clones one by one, so the induction is
    -- on that list; a clone without a part gives neither an entry nor a visit
    suffices hall : ∀ cs : List VmoId, (∀ c ∈ cs, c ∈ m.clones) →
        List.Forall₂ f.StandsFor (cs.flatMap fun c => (f[c]?.map (p.forClone c)).getD [])
          (cs.filterMap (f.reachClone r)) from hall m.clones fun _ hc => hc
    intro cs hcs
    induction cs with
    | nil => exact .nil
    | cons c cs ih =>
      have ih := ih fun d hd => hcs d (List.mem_cons_of_mem c hd)
      rw [List.flatMap_cons, List.filterMap_cons]
      cases hn : f[c]? with
      | none =>
        have hskip : f.reachClone r c = none := by rw [Family.reachClone, hn]
        rw [hskip]
        exact ih
      | some n =>
        rw [Option.map_some, Option.getD_some]
        cases hempty : (partFor p.span n).isEmpty with
        | true =>
          have hskip : f.reachClone r c = none := by
            rw [Family.reachClone, hn]
            dsimp only
            rw [← partFor_isEmpty, ← h.span, if_pos hempty]
          rw [hskip, Part.forClone, if_pos hempty]
          exact ih
        | false =>
          obtain ⟨q, hq⟩ := Part.exists_mem_forClone c hempty
          have hsingle : p.forClone c n = [q] := by
            rw [Part.forClone, hempty, if_neg Bool.false_ne_true] at hq ⊢
            rw [List.mem_singleton.1 hq]
          obtain ⟨t, ht, hstands⟩ := h.reachClone hm (hcs c List.mem_cons_self) hn hq
          rw [ht, hsingle]
          exact .cons hstands ih

/-- **The sweep is a run of the loop**, where what stands on the stack settles. -/
theorem sweep_runs {work : List Part} {stack : List Reach}
    (h : List.Forall₂ f.StandsFor work stack) (s : System) :
    ReflTransGen f.Turn (work, s) ([], (f.sweep stack).foldl (System.unmapReach f) s) := by
  induction stack using Family.sweep.induct f generalizing work s with
  | case1 =>
    cases h
    rw [sweep]
    exact .refl
  | case2 r rest ih =>
    cases h with
    | @cons p _ work _ hp hwork =>
      rw [sweep, List.foldl_cons]
      have hvisit := f.visit?_eq hp.fits s
      rw [hp.vmo, hp.span] at hvisit
      have hnext : List.Forall₂ f.StandsFor ((f.parts p).reverse ++ work)
          ((f.reachClones r).reverse ++ rest) :=
        List.rel_append (List.rel_reverse hp.parts) hwork
      exact .head (.visit (.refl _) hvisit ((List.reverse_perm _).append_right work))
        (ih hnext (System.unmapReach f s r))

end Family

/-! ## 5. Changes that come to an end

Said of a state and a call, so that whatever tells of a change can ask for it. -/

namespace System

variable {s : System} {F : FamilyId} {f : Family} {v : VmoId} {offset length : Nat}

/-- Whether the loop that tells a family of a changed range ends, whatever entry it takes next. -/
def ChangeEnds (s : System) (F : FamilyId) (v : VmoId) (offset length : Nat) : Prop :=
  ∀ f, s.families[F]? = some f → Acc (fun y x => f.Turn x y) ([⟨v, offset, length⟩], s)

/-- Whether the loop that tells a family of a changed range may end in a state. -/
def ChangeTold (s : System) (F : FamilyId) (v : VmoId) (offset length : Nat) (t : System) : Prop :=
  ∀ f, s.families[F]? = some f → ReflTransGen f.Turn ([⟨v, offset, length⟩], s) ([], t)

/-- Whether it ends to tell of a range is a matter of the lists of clones and the windows. -/
theorem changeEnds_iff (hf : s.families[F]? = some f) (hoffset : offset ≤ Word.max)
    (hlength : length ≤ Word.max) :
    s.ChangeEnds F v offset length ↔ f.Settles v (Span.ofLength offset length) := by
  have hfits : ∀ p ∈ [(⟨v, offset, length⟩ : Part)], p.Fits := fun p hp =>
    List.mem_singleton.1 hp ▸ ⟨hoffset, hlength⟩
  unfold ChangeEnds
  rw [hf]
  constructor
  · intro h
    exact (Family.acc_turn_iff hfits).1 (h f rfl) _ List.mem_cons_self
  · rintro h g hg
    cases hg
    exact (Family.acc_turn_iff hfits).2 fun p hp => List.mem_singleton.1 hp ▸ h

/-- **A change that comes to an end is told as the loop tells it.** -/
theorem ChangeEnds.told (h : s.ChangeEnds F v offset length) (hoffset : offset ≤ Word.max)
    (hlength : length ≤ Word.max) :
    s.ChangeTold F v offset length (s.rangeChanged F v offset length) := by
  intro f hf
  have hsettles := (changeEnds_iff hf hoffset hlength).1 h
  unfold rangeChanged
  rw [hf]
  exact Family.sweep_runs (.cons (.start ⟨hoffset, hlength⟩ hsettles) .nil) s

end System

end KernelObjects
