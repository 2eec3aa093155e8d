import KernelObjects.Proofs.Unmapping
import KernelObjects.Proofs.Worklist

/-
# How a change of a range spreads

The rule is recursive: a member of a family hears of a range, and each of its clones whose window
has a part of the range hears, in the same way, of that part (`Family.Hears`).  What runs is a
loop over a worklist of offsets and lengths in machine words.  This module proves that the two
agree: whatever entry the loop takes next, wherever it puts what it finds and in whatever order
clones are listed, it ends, no difference falls below zero, and every mapping ends up as the rule
says.

Clones are younger than their parents and have one parent each, so the lists of clones make a
forest (`Family.Forest`).  In a forest everything settles, since there is no end of younger
members only in a family without end, and so the loop ends.  The order does not matter since no
two entries of a worklist ever lead to the same member.

**The invariant of the loop** (`Underway`) has two halves.  What is still on the worklist is apart
from each other, so each member is told at most once; and a mapping has unmapped, compared with
the start, just what it was told through entries that are off the list.  Taking an entry off keeps
both: its clones are apart because each member has one parent, and the mappings of its member are
those that change.

Lists that were written by hand need not be a forest.  There the rule may tell a member of several
ranges, or of one range for ever (`World.not_changeEnds_of_circle`), and neither the order nor the
end is free.  So the result is about families whose clones were entered by cloning.
-/

namespace KernelObjects

open Relation (ReflTransGen)

namespace Family

variable {f g : Family}

/-! ## 1. Who hears of a range

The rule by itself, for any lists of clones; and then for forests, where nobody hears of two
ranges. -/

/-- **The rule.**  A member hears of the range itself.  A clone whose window has a part of the range
hears of that part, seen from the start of the window, and what the clone leads to hears of it by
the same rule. -/
inductive Hears (f : Family) : VmoId → Span → VmoId → Span → Prop
  | self (v : VmoId) (a : Span) : Hears f v a v a
  | clone {v c d : VmoId} {m n : Member} {a b : Span} (hm : f[v]? = some m) (hc : c ∈ m.clones)
      (hn : f[c]? = some n) (hmeets : (partFor a n).isEmpty = false)
      (h : Hears f c (partFor a n) d b) : Hears f v a d b

/-- A member lists a clone. -/
def Lists (f : Family) (p c : VmoId) : Prop := ∃ m, f[p]? = some m ∧ c ∈ m.clones

/-- The lists of clones make a forest: a clone is younger than its parent, has no other one, and is
listed once. -/
structure Forest (f : Family) : Prop where
  younger : ∀ {p c : VmoId}, f.Lists p c → p < c
  parent : ∀ {p q c : VmoId}, f.Lists p c → f.Lists q c → p = q
  nodup : ∀ {p : VmoId} {m : Member}, f[p]? = some m → m.clones.Nodup

/-- Nothing is below both of two members. -/
def Apart (f : Family) (u v : VmoId) : Prop :=
  ∀ d, ReflTransGen f.Lists u d → ¬ ReflTransGen f.Lists v d

/-- Whoever hears is below whoever passes it on. -/
theorem Hears.chain {v d : VmoId} {a b : Span} (h : f.Hears v a d b) :
    ReflTransGen f.Lists v d := by
  induction h with
  | self => exact .refl
  | clone hm hc _ _ _ ih => exact .head ⟨_, hm, hc⟩ ih

/-- What hears of an entry is its member or hears of what the visit finds. -/
theorem hears_iff {p : Part} {d : VmoId} {b : Span} :
    f.Hears p.vmo p.span d b ↔
      d = p.vmo ∧ b = p.span ∨ ∃ q ∈ f.parts p, f.Hears q.vmo q.span d b := by
  constructor
  · intro h
    generalize hv : p.vmo = v at h
    generalize ha : p.span = a at h
    cases h with
    | self => exact .inl ⟨rfl, rfl⟩
    | @clone _ c _ m n _ _ hm hc hn hmeets h =>
      subst hv ha
      obtain ⟨q, hq⟩ := Part.exists_mem_forClone c hmeets
      obtain ⟨rfl, -, -, hspan⟩ := Part.mem_forClone hq
      exact .inr ⟨q, mem_parts_of_mem hm hc hn hq, by rw [hspan]; exact h⟩
  · rintro (⟨rfl, rfl⟩ | ⟨q, hq, h⟩)
    · exact .self _ _
    · obtain ⟨m, n, hm, hc, hn, hpart⟩ := mem_parts hq
      obtain ⟨-, -, hne, hspan⟩ := Part.mem_forClone hpart
      exact .clone hm hc hn hne (hspan ▸ h)

namespace Forest

variable {u v c d : VmoId} (hf : f.Forest)
include hf

/-- Whoever is below is not older. -/
theorem le_of_below (h : ReflTransGen f.Lists v d) : v ≤ d := by
  induction h with
  | refl => exact Nat.le_refl _
  | tail _ hstep ih => exact Nat.le_trans ih (Nat.le_of_lt (hf.younger hstep))

/-- Two members above a third are above each other. -/
theorem below_total (hu : ReflTransGen f.Lists u d) (hv : ReflTransGen f.Lists v d) :
    ReflTransGen f.Lists u v ∨ ReflTransGen f.Lists v u := by
  have hunique : Relator.RightUnique (Function.swap f.Lists) := fun _ _ _ h h' => hf.parent h h'
  rcases Relation.ReflTransGen.total_of_right_unique hunique
    (Relation.reflTransGen_swap.2 hu) (Relation.reflTransGen_swap.2 hv) with h | h
  · exact .inr (Relation.reflTransGen_swap.1 h)
  · exact .inl (Relation.reflTransGen_swap.1 h)

/-- One clone of a member is not below another. -/
theorem not_below_clone {p : VmoId} (hu : f.Lists p u) (hv : f.Lists p v) (hne : u ≠ v) :
    ¬ ReflTransGen f.Lists u v := by
  intro h
  rcases Relation.ReflTransGen.cases_tail h with rfl | ⟨q, hq, hstep⟩
  · exact hne rfl
  · obtain rfl := hf.parent hv hstep
    exact Nat.not_lt_of_le (hf.le_of_below hq) (hf.younger hu)

/-- Two clones of one member have nobody below them in common, since everybody has one parent. -/
theorem apart_clones {p : VmoId} (hu : f.Lists p u) (hv : f.Lists p v) (hne : u ≠ v) :
    f.Apart u v := by
  intro d hud hvd
  rcases hf.below_total hud hvd with h | h
  · exact hf.not_below_clone hu hv hne h
  · exact hf.not_below_clone hv hu hne.symm h

/-- A member hears of one range only. -/
theorem hears_unique {a b b' : Span} (h : f.Hears v a d b) (h' : f.Hears v a d b') : b = b' := by
  induction h with
  | self v a =>
    cases h' with
    | self => rfl
    | clone hm hc _ _ h' =>
      exact absurd (hf.le_of_below h'.chain) (Nat.not_le_of_lt (hf.younger ⟨_, hm, hc⟩))
  | @clone v c d m n a b hm hc hn _ h ih =>
    cases h' with
    | self => exact absurd (hf.le_of_below h.chain) (Nat.not_le_of_lt (hf.younger ⟨_, hm, hc⟩))
    | @clone _ c' _ _ n' _ _ hm' hc' hn' _ h' =>
      by_cases he : c = c'
      · subst he
        obtain rfl := Option.some.inj (hn.symm.trans hn')
        exact ih h'
      · exact absurd h'.chain (hf.apart_clones ⟨_, hm, hc⟩ ⟨_, hm', hc'⟩ he d h.chain)

/-- Whatever a member hears of settles: it is passed on to members with fewer younger ones. -/
theorem settles (v : VmoId) (a : Span) : f.Settles v a := by
  have hwf : WellFounded fun y x : VmoId × Span => f.younger y.1 < f.younger x.1 :=
    (measure fun x : VmoId × Span => f.younger x.1).wf
  refine Subrelation.accessible (fun {y x} h => ?_) (hwf.apply (v, a))
  cases h with
  | clone hm hc hn _ => exact younger_lt hn (hf.younger ⟨_, hm, hc⟩)

end Forest

/-! ## 2. What a run of the loop does to a mapping

The entries that are off the worklist have told their mappings, and the ones on it have still to.
A mapping is registered once, so it is told once at most. -/

/-- No mapping is registered twice, with one member or with two. -/
structure ListsOnce (f : Family) : Prop where
  nodup : ∀ {v : VmoId} {m : Member}, f[v]? = some m → m.mappings.Nodup
  unique : ∀ {u v : VmoId} {m n : Member} {i : MappingId}, f[u]? = some m → i ∈ m.mappings →
    f[v]? = some n → i ∈ n.mappings → u = v

/-- The mappings that are registered with the members of a family. -/
def roster (f : Family) : List MappingId := f.toList.flatMap fun e => e.2.mappings

/-- That no mapping is registered twice can be read off the list of all that are registered. -/
theorem listsOnce (h : f.roster.Nodup) : f.ListsOnce := by
  obtain ⟨hnodup, hapart⟩ := List.nodup_flatMap.1 h
  have hmem : ∀ {v : VmoId} {m : Member}, f[v]? = some m → (v, m) ∈ f.toList := fun h =>
    Std.ExtTreeMap.mem_toList_iff_getElem?_eq_some.2 h
  refine ⟨fun hm => hnodup _ (hmem hm), fun {u v m n i} hm hi hn hi' => ?_⟩
  have : Std.Symm (Function.onFun List.Disjoint fun e : Nat × Member => e.2.mappings) :=
    ⟨fun _ _ h => h.symm⟩
  by_contra hne
  exact hapart.forall (hmem hm) (hmem hn) (fun he => hne (Prod.mk.inj he).1) hi hi'

/-- How a mapping comes out of a change of a range, by the rule. -/
def Spreads (f : Family) (v : VmoId) (a : Span) (i : MappingId) (m m' : Mapping) : Prop :=
  (∀ d n b, f[d]? = some n → i ∈ n.mappings → f.Hears v a d b → m' = m.unmap b.pageHull) ∧
    ((∀ d n b, f[d]? = some n → i ∈ n.mappings → ¬ f.Hears v a d b) → m' = m)

/-- A mapping unmaps once for each time that it is registered, here once at most. -/
theorem mappings_foldl (a : Span) {l : List MappingId} (hl : l.Nodup) (s : System)
    (i : MappingId) : (l.foldl (fun s j => (s.unmapSpan j a).2) s).mappings[i]? =
      if i ∈ l then s.mappings[i]?.map (·.unmap a) else s.mappings[i]? := by
  induction l generalizing s with
  | nil => simp
  | cons j l ih =>
    obtain ⟨hj, hl⟩ := List.nodup_cons.1 hl
    have hhead : (s.unmapSpan j a).2.mappings[i]? =
        if j = i then s.mappings[i]?.map (·.unmap a) else s.mappings[i]? :=
      Store.getElem?_modify _ _ _ _
    rw [List.foldl_cons, ih hl, hhead]
    by_cases hi : j = i
    · subst hi
      simp [hj]
    · simp [hi, Ne.symm hi]

/-- A visit unmaps from the mappings of its member and from no others. -/
theorem ListsOnce.mappings_unmapReach (hl : f.ListsOnce) (s : System) (r : Reach)
    (i : MappingId) : (System.unmapReach f s r).mappings[i]? =
      if ∃ m, f[r.vmo]? = some m ∧ i ∈ m.mappings then
        s.mappings[i]?.map (·.unmap r.span.pageHull)
      else s.mappings[i]? := by
  unfold System.unmapReach
  cases hm : f[r.vmo]? with
  | none => simp
  | some m =>
    dsimp only
    rw [mappings_foldl _ (hl.nodup hm)]
    simp

/-- A visit writes to mappings only. -/
theorem unmapReach_eq (f : Family) (s : System) (r : Reach) :
    ∃ mappings, System.unmapReach f s r = { s with mappings } := by
  unfold System.unmapReach
  split
  · exact ⟨s.mappings, rfl⟩
  · exact System.foldl_mappings (fun s m => ⟨_, rfl⟩) _ s

/-- What holds of a worklist and a state that a run has come to. -/
structure Underway (f : Family) (s : System) (p : Part) (x : List Part × System) : Prop where
  fits : ∀ q ∈ x.1, q.Fits
  /-- No two entries lead to the same member. -/
  apart : x.1.Pairwise fun q r => f.Apart q.vmo r.vmo
  frame : ∃ mappings, x.2 = { s with mappings }
  /-- A mapping that nobody has registered is as it was. -/
  idle : ∀ i, (∀ (d : VmoId) (n : Member), f[d]? = some n → i ∉ n.mappings) →
    x.2.mappings[i]? = s.mappings[i]?
  /-- For a mapping of a member, either all that the member is to hear is still ahead, or it heard
  of one range and hears of no other. -/
  course : ∀ (i : MappingId) (d : VmoId) (n : Member), f[d]? = some n → i ∈ n.mappings →
    x.2.mappings[i]? = s.mappings[i]? ∧
        (∀ b, f.Hears p.vmo p.span d b ↔ ∃ q ∈ x.1, f.Hears q.vmo q.span d b) ∨
      ∃ b, f.Hears p.vmo p.span d b ∧
        x.2.mappings[i]? = s.mappings[i]?.map (·.unmap b.pageHull) ∧
        ∀ q ∈ x.1, ∀ c, ¬ f.Hears q.vmo q.span d c

/-- At the start everything is still ahead. -/
theorem Underway.start (f : Family) (s : System) {p : Part} (hp : p.Fits) :
    f.Underway s p ([p], s) where
  fits q hq := List.mem_singleton.1 hq ▸ hp
  apart := List.pairwise_singleton _ _
  frame := ⟨s.mappings, rfl⟩
  idle _ _ := rfl
  course i d n _ _ := .inl ⟨rfl, fun b => by simp⟩

/-- What is found is apart from each other and from the rest. -/
theorem Forest.apart_parts (hf : f.Forest) {p : Part} {rest : List Part}
    (h : (p :: rest).Pairwise fun q r => f.Apart q.vmo r.vmo) :
    (f.parts p ++ rest).Pairwise fun q r => f.Apart q.vmo r.vmo := by
  obtain ⟨hp, hrest⟩ := List.pairwise_cons.1 h
  refine List.pairwise_append.2 ⟨?_, hrest, fun q hq r hr d hqd => ?_⟩
  · unfold parts
    cases hm : f[p.vmo]? with
    | none => exact .nil
    | some m =>
      dsimp only
      rw [List.pairwise_flatMap]
      refine ⟨fun c _ => ?_, ?_⟩
      · cases f[c]? with
        | none => exact .nil
        | some n =>
          rw [Option.map_some, Option.getD_some, Part.forClone]
          split
          · exact .nil
          · exact List.pairwise_singleton _ _
      · -- Two clones of one member are different and so are the trees below them; what is below a
        -- clone is below its original, and with that apart from the rest of the list.
        refine (hf.nodup hm).imp_of_mem fun {c c'} hc hc' hne q hq r hr => ?_
        have hvmo : ∀ {c : VmoId} {q : Part}, q ∈ (f[c]?.map (p.forClone c)).getD [] →
            q.vmo = c := by
          intro c q hq
          cases hn : f[c]? with
          | none => simp [hn] at hq
          | some n =>
            rw [hn] at hq
            exact (Part.mem_forClone hq).1
        rw [hvmo hq, hvmo hr]
        exact hf.apart_clones ⟨m, hm, hc⟩ ⟨m, hm, hc'⟩ hne
  · obtain ⟨m, _, hm, hc, -⟩ := mem_parts hq
    exact hp r hr d (.head ⟨m, hm, hc⟩ hqd)

/-- **What one turn does.** -/
theorem Underway.turn {s : System} {p : Part} (hf : f.Forest) (hl : f.ListsOnce)
    {x y : List Part × System} (h : f.Turn x y) (hx : f.Underway s p x) : f.Underway s p y := by
  have hfits := h.fits hx.fits
  obtain @⟨e, work, rest, parts, next, t, u, htake, hvisit, hput⟩ := h
  have hmem : ∀ q, q ∈ work ↔ q = e ∨ q ∈ rest := fun q => by
    rw [htake.mem_iff, List.mem_cons]
  rw [f.visit?_eq (hx.fits e ((hmem e).2 (.inl rfl)))] at hvisit
  cases hvisit
  have hput : ∀ q, q ∈ next ↔ q ∈ f.parts e ∨ q ∈ rest := fun q => by
    rw [hput.mem_iff, List.mem_append]
  have hsym : ∀ {q r : Part}, f.Apart q.vmo r.vmo → f.Apart r.vmo q.vmo :=
    fun h d hr hq => h d hq hr
  have happart := (htake.pairwise_iff hsym).1 hx.apart
  constructor
  case fits => exact hfits
  case apart => exact (‹next.Perm _›.pairwise_iff hsym).2 (hf.apart_parts happart)
  case frame =>
    obtain ⟨mappings, he⟩ := hx.frame
    obtain ⟨mappings', he'⟩ := unmapReach_eq f t ⟨e.vmo, e.span, 0⟩
    have he : t = { s with mappings } := he
    exact ⟨mappings', by rw [he', he]⟩
  case idle =>
    intro i hi
    dsimp only
    rw [hl.mappings_unmapReach, if_neg]
    · exact hx.idle i hi
    · rintro ⟨m, hm, hmi⟩
      exact hi _ m hm hmi
  case course =>
    intro i d n hn hi
    dsimp only
    -- the visit touches the mapping exactly if it is one to the member that has registered it
    have htouch : (∃ m, f[e.vmo]? = some m ∧ i ∈ m.mappings) ↔ e.vmo = d := by
      constructor
      · rintro ⟨m, hm, hmi⟩
        exact hl.unique hm hmi hn hi
      · rintro rfl
        exact ⟨n, hn, hi⟩
    rw [hl.mappings_unmapReach, if_congr htouch rfl rfl]
    have hrest : e.vmo = d → ∀ q ∈ next, ∀ c, ¬ f.Hears q.vmo q.span d c := by
      rintro rfl q hq c hc
      rcases (hput q).1 hq with hq | hq
      · obtain ⟨m, _, hm, hcl, -⟩ := mem_parts hq
        exact Nat.not_lt_of_le (hf.le_of_below hc.chain) (hf.younger ⟨m, hm, hcl⟩)
      · exact (List.pairwise_cons.1 happart).1 q hq _ .refl hc.chain
    rcases hx.course i d n hn hi with ⟨hsame, hheard⟩ | ⟨b, hb, hdone, hnone⟩
    · have hsame : t.mappings[i]? = s.mappings[i]? := hsame
      by_cases hd : e.vmo = d
      · refine .inr ⟨e.span, (hheard _).2 ⟨e, (hmem e).2 (.inl rfl), hd ▸ .self _ _⟩, ?_, hrest hd⟩
        rw [if_pos hd, hsame]
      · refine .inl ⟨by rw [if_neg hd]; exact hsame, fun b => ?_⟩
        rw [hheard]
        constructor
        · rintro ⟨q, hq, hqb⟩
          rcases (hmem q).1 hq with rfl | hq
          · rcases hears_iff.1 hqb with ⟨rfl, -⟩ | ⟨r, hr, hrb⟩
            · exact absurd rfl hd
            · exact ⟨r, (hput r).2 (.inl hr), hrb⟩
          · exact ⟨q, (hput q).2 (.inr hq), hqb⟩
        · rintro ⟨q, hq, hqb⟩
          rcases (hput q).1 hq with hq | hq
          · exact ⟨e, (hmem e).2 (.inl rfl), hears_iff.2 (.inr ⟨q, hq, hqb⟩)⟩
          · exact ⟨q, (hmem q).2 (.inr hq), hqb⟩
    · have hd : e.vmo ≠ d := fun hd =>
        hnone e ((hmem e).2 (.inl rfl)) e.span (hd ▸ .self _ _)
      refine .inr ⟨b, hb, by rw [if_neg hd]; exact hdone, fun q hq c hc => ?_⟩
      rcases (hput q).1 hq with hq | hq
      · exact hnone e ((hmem e).2 (.inl rfl)) c (hears_iff.2 (.inr ⟨q, hq, hc⟩))
      · exact hnone q ((hmem q).2 (.inr hq)) c hc

/-- So the invariant holds after any number of turns. -/
theorem Underway.run {s : System} {p : Part} (hf : f.Forest) (hl : f.ListsOnce)
    {x y : List Part × System} (h : ReflTransGen f.Turn x y) (hx : f.Underway s p x) :
    f.Underway s p y := by
  induction h with
  | refl => exact hx
  | tail _ hstep ih => exact ih.turn hf hl hstep

/-- A run that is over has done what the rule says. -/
theorem Underway.spreads {s t : System} {p : Part} (hf : f.Forest) (hl : f.ListsOnce)
    (h : f.Underway s p ([], t)) (i : MappingId) :
    Option.Rel (f.Spreads p.vmo p.span i) s.mappings[i]? t.mappings[i]? := by
  suffices hm : ∃ g : Mapping → Mapping, t.mappings[i]? = s.mappings[i]?.map g ∧
      ∀ m, f.Spreads p.vmo p.span i m (g m) by
    obtain ⟨g, hg, hspread⟩ := hm
    rw [hg]
    cases s.mappings[i]? with
    | none => exact .none
    | some m => exact .some (hspread m)
  -- A mapping that nobody lists is never come by.  One that is listed has one member, by `hl`, so
  -- what that member hears is all that counts.
  by_cases hreg : ∃ (d : VmoId) (n : Member), f[d]? = some n ∧ i ∈ n.mappings
  case neg =>
    refine ⟨id, ?_, fun m => ⟨fun d n b hn hi _ => absurd ⟨d, n, hn, hi⟩ hreg, fun _ => rfl⟩⟩
    rw [Option.map_id]
    exact h.idle i fun d n hn hi => hreg ⟨d, n, hn, hi⟩
  case pos =>
    obtain ⟨d, n, hn, hi⟩ := hreg
    rcases h.course i d n hn hi with ⟨hsame, hheard⟩ | ⟨b, hb, hdone, -⟩
    · refine ⟨id, by rw [Option.map_id]; exact hsame, fun m => ⟨fun d' n' b hn' hi' hb => ?_,
        fun _ => rfl⟩⟩
      obtain rfl := hl.unique hn hi hn' hi'
      obtain ⟨q, hq, -⟩ := (hheard b).1 hb
      cases hq
    · refine ⟨_, hdone, fun m => ⟨fun d' n' b' hn' hi' hb' => ?_, fun hnone => ?_⟩⟩
      · obtain rfl := hl.unique hn hi hn' hi'
        rw [hf.hears_unique hb' hb]
      · exact absurd hb (hnone d n b hn hi)

/-- The rule says one thing about each mapping. -/
theorem Spreads.unique {v : VmoId} {a : Span} {i : MappingId} {m m₁ m₂ : Mapping}
    (h₁ : f.Spreads v a i m m₁) (h₂ : f.Spreads v a i m m₂) : m₁ = m₂ := by
  by_cases hear : ∃ (d : VmoId) (n : Member) (b : Span),
      f[d]? = some n ∧ i ∈ n.mappings ∧ f.Hears v a d b
  · obtain ⟨d, n, b, hn, hi, hb⟩ := hear
    rw [h₁.1 d n b hn hi hb, h₂.1 d n b hn hi hb]
  · have hnone : ∀ d n b, f[d]? = some n → i ∈ n.mappings → ¬ f.Hears v a d b :=
      fun d n b hn hi hb => hear ⟨d, n, b, hn, hi, hb⟩
    rw [h₁.2 hnone, h₂.2 hnone]

/-! ## 3. Lists of clones in another order

The loop may find the clones of a member in any order.  To say that the order is of no account,
the loop is run on a family with other lists. -/

/-- The same members, with their clones listed in another order. -/
def Reordered (f g : Family) : Prop :=
  ∀ v : VmoId, Option.Rel
    (fun m n => ∃ clones, n = { m with clones } ∧ clones.Perm m.clones) f[v]? g[v]?

namespace Reordered

theorem refl (f : Family) : f.Reordered f := by
  intro v
  cases f[v]? with
  | none => exact .none
  | some m => exact .some ⟨m.clones, rfl, .refl _⟩

/-- To list clones in another order can be undone. -/
theorem symm (h : f.Reordered g) : g.Reordered f := by
  intro v
  have hv := h v
  generalize f[v]? = a at hv ⊢
  generalize g[v]? = b at hv ⊢
  cases hv with
  | none => exact .none
  | @some m n hmn =>
    obtain ⟨clones, rfl, hperm⟩ := hmn
    exact .some ⟨m.clones, rfl, hperm.symm⟩

/-- Each member is there in the other family, with the same clones. -/
theorem get (h : f.Reordered g) {v : VmoId} {m : Member} (hm : f[v]? = some m) :
    ∃ clones, g[v]? = some { m with clones } ∧ clones.Perm m.clones := by
  have hv := h v
  rw [hm] at hv
  generalize g[v]? = b at hv ⊢
  cases hv with
  | some hmn =>
    obtain ⟨clones, rfl, hperm⟩ := hmn
    exact ⟨clones, rfl, hperm⟩

/-- Who lists whom does not depend on the order, -/
theorem lists (h : f.Reordered g) {p c : VmoId} (hc : f.Lists p c) : g.Lists p c := by
  obtain ⟨m, hm, hc⟩ := hc
  obtain ⟨clones, hn, hperm⟩ := h.get hm
  exact ⟨_, hn, hperm.mem_iff.2 hc⟩

/-- so neither does being a forest, -/
theorem forest (h : f.Reordered g) (hf : f.Forest) : g.Forest where
  younger hc := hf.younger (h.symm.lists hc)
  parent hp hq := hf.parent (h.symm.lists hp) (h.symm.lists hq)
  nodup hn := by
    obtain ⟨clones, hm, hperm⟩ := h.symm.get hn
    exact hperm.nodup_iff.1 (hf.nodup hm)

/-- nor what is registered, -/
theorem listsOnce (h : f.Reordered g) (hl : f.ListsOnce) : g.ListsOnce where
  nodup hn := by
    obtain ⟨_, hm, -⟩ := h.symm.get hn
    have hnodup := hl.nodup hm
    exact hnodup
  unique hm hi hn hi' := by
    obtain ⟨_, hm', -⟩ := h.symm.get hm
    obtain ⟨_, hn', -⟩ := h.symm.get hn
    exact hl.unique hm' hi hn' hi'

/-- nor who hears of what, -/
theorem hears (h : f.Reordered g) {v d : VmoId} {a b : Span} (hb : f.Hears v a d b) :
    g.Hears v a d b := by
  induction hb with
  | self v a => exact .self v a
  | clone hm hc hn hmeets _ ih =>
    obtain ⟨_, hm', hperm⟩ := h.get hm
    obtain ⟨_, hn', -⟩ := h.get hn
    exact .clone hm' (hperm.mem_iff.2 hc) hn' hmeets ih

/-- nor what the rule says. -/
theorem spreads (h : f.Reordered g) {v : VmoId} {a : Span} {i : MappingId} {m m' : Mapping}
    (hm : f.Spreads v a i m m') : g.Spreads v a i m m' := by
  refine ⟨fun d n b hn hi hb => ?_, fun hnone => hm.2 fun d n b hn hi hb => ?_⟩
  · obtain ⟨_, hn', -⟩ := h.symm.get hn
    exact hm.1 d _ b hn' hi (h.symm.hears hb)
  · obtain ⟨_, hn', -⟩ := h.get hn
    exact hnone d _ b hn' hi (h.hears hb)

/-- An example: the clones of one member listed the other way round. -/
theorem reverse (f : Family) (v : VmoId) :
    f.Reordered (f.modify v fun m => { m with clones := m.clones.reverse }) := by
  intro u
  rw [Store.getElem?_modify]
  split
  · cases f[u]? with
    | none => exact .none
    | some m => exact .some ⟨m.clones.reverse, rfl, List.reverse_perm _⟩
  · exact refl f u

end Reordered

end Family

/-! ## 4. The loop and the rule agree

A run of the loop that is over has visited what the rule names, each once, and the pages around
each part were unmapped. -/

/-- In a state that was reached with clones entered by cloning only, the lists of clones make a
forest. -/
theorem System.Cloned.forest {X : Prop} {s : System} (h : s.Cloned X) {F : FamilyId} {f : Family}
    (hf : s.families[F]? = some f) : f.Forest where
  younger := by
    rintro p c ⟨m, hm, hc⟩
    exact (h.clone_of_listed hf hm hc).1
  parent := by
    rintro p q c ⟨m, hm, hc⟩ ⟨n, hn, hc'⟩
    obtain ⟨-, o, ho, hp⟩ := h.clone_of_listed hf hm hc
    obtain ⟨-, o', ho', hq⟩ := h.clone_of_listed hf hn hc'
    obtain rfl := Option.some.inj (ho.symm.trans ho')
    exact Option.some.inj (hp.symm.trans hq)
  nodup hm := by
    exact h.nodup (memberKin_of_get ((memberIn_of_family hf _).trans hm))

/-- So every change of a range comes to an end there. -/
theorem System.Cloned.changeEnds {X : Prop} {s : System} (h : s.Cloned X) (F : FamilyId) (v : VmoId)
    {offset length : Nat} (hoffset : offset ≤ Word.max) (hlength : length ≤ Word.max) :
    s.ChangeEnds F v offset length := by
  intro f hf
  exact (System.changeEnds_iff hf hoffset hlength).2 ((h.forest hf).settles _ _) f hf

/-- An object that is entered in its own list of clones by hand. -/
def circleOps : List Op := [.createVmo 0x1000 0, .recordClone 1 1 1]

/-- The object hears of a change of itself again and again, so to tell of it has no end. -/
theorem World.not_changeEnds_of_circle :
    ¬ (World.run circleOps).system.ChangeEnds 1 1 0 0x1000 := by
  have hmember : ((World.run circleOps).system.memberIn 1 1).map
      (fun m => (m.parentOffset, m.size, m.clones)) = some (0, 0x1000, [1]) := by decide +kernel
  obtain ⟨m, hm, he⟩ := Option.map_eq_some_iff.1 hmember
  obtain ⟨f, hf, hm⟩ := Option.bind_eq_some_iff.1 hm
  simp only [Prod.mk.injEq] at he
  obtain ⟨hoffset, hsize, hclones⟩ := he
  rw [System.changeEnds_iff hf (by decide) (by decide)]
  have hpart : Family.partFor (Span.ofLength 0 0x1000) m = Span.ofLength 0 0x1000 := by
    rw [Family.partFor, Member.window, hoffset, hsize]
    decide
  have hpass :
    f.Passes (1, Span.ofLength 0 0x1000) (1, Family.partFor (Span.ofLength 0 0x1000) m) :=
    .clone hm (by rw [hclones]; decide) hm (by rw [hpart]; decide)
  rw [hpart] at hpass
  exact Family.not_settles_of_cycle (.single hpass)

/-- **A change of a range spreads by the recursive rule.**  In every family whose clones were
entered by cloning only and whose mappings are registered once, for every member and every offset
and length: the loop ends, whatever entry it takes next, wherever it puts what it finds and in
whatever order clones are listed; on the way its entries are words and no difference falls below
zero; and every run that is over has come to the same state, in which each mapping is as the rule
says and all else is as it was. -/
theorem World.Ran.rangeChanged_spreads {w : World} (h : w.Ran fun _ => Op.ListsByCloning)
    {F : FamilyId} {f g : Family} (hf : w.system.families[F]? = some f) (honce : f.roster.Nodup)
    (hg : f.Reordered g) (v : VmoId) {offset length : Nat} (hoffset : offset ≤ Word.max)
    (hlength : length ≤ Word.max) :
    let start : List Part × System := ([⟨v, offset, length⟩], w.system)
    let t := w.system.rangeChanged F v offset length
    Acc (fun y x => g.Turn x y) start ∧
      (∀ work s, ReflTransGen g.Turn start (work, s) →
        ∀ p ∈ work, p.Fits ∧ (g.visit? p s).isSome) ∧
      (∀ s, ReflTransGen g.Turn start ([], s) ↔ s = t) ∧
      t = { w.system with mappings := t.mappings } ∧
      ∀ i, Option.Rel (f.Spreads v (Span.ofLength offset length) i) w.system.mappings[i]?
        t.mappings[i]? := by
  intro start t
  have hfits : Part.Fits ⟨v, offset, length⟩ := ⟨hoffset, hlength⟩
  have hforest : f.Forest := h.cloned.forest hf
  have honce : f.ListsOnce := f.listsOnce honce
  have hrun : ∀ {x}, ReflTransGen g.Turn start x → g.Underway w.system ⟨v, offset, length⟩ x :=
    fun hx => (Family.Underway.start g w.system hfits).run (hg.forest hforest)
      (hg.listsOnce honce) hx
  -- what runs is one of the runs, with the lists in the order in which they stand
  have ht : ReflTransGen f.Turn start ([], t) := by
    have hsweep : t = (f.sweep [⟨v, Span.ofLength offset length, f.size⟩]).foldl
        (System.unmapReach f) w.system := by
      show w.system.rangeChanged F v offset length = _
      rw [System.rangeChanged, hf]
      rfl
    rw [hsweep]
    exact Family.sweep_runs (.cons (.start hfits (hforest.settles _ _)) .nil) w.system
  have htover := (Family.Underway.start f w.system hfits).run hforest honce ht
  have hspread := htover.spreads hforest honce
  have hframe : t = { w.system with mappings := t.mappings } := by
    obtain ⟨mappings, he⟩ := htover.frame
    have he : t = { w.system with mappings } := he
    rw [he]
  have hunique : ∀ s, ReflTransGen g.Turn start ([], s) → s = t := by
    intro s hs
    have hover := hrun hs
    obtain ⟨mappings, he⟩ := hover.frame
    obtain rfl : s = { w.system with mappings } := he
    suffices hsame : mappings = t.mappings by rw [hsame, ← hframe]
    ext1 i
    have hi := hover.spreads (hg.forest hforest) (hg.listsOnce honce) i
    have hi' := hspread i
    dsimp only at hi
    generalize w.system.mappings[i]? = a at hi hi'
    generalize mappings[i]? = b at hi ⊢
    generalize t.mappings[i]? = c at hi' ⊢
    cases hi with
    | none =>
      cases hi'
      rfl
    | some hm =>
      cases hi' with
      | some hm' => rw [(hg.symm.spreads hm).unique hm']
  have hacc : Acc (fun y x => g.Turn x y) start :=
    (Family.acc_turn_iff (hrun .refl).fits).2 fun _ _ => (hg.forest hforest).settles _ _
  refine ⟨hacc, fun work s hs p hp => ?_, fun s => ⟨hunique s, ?_⟩, hframe, hspread⟩
  · have hpfits := (hrun hs).fits p hp
    exact ⟨hpfits, by rw [g.visit?_eq hpfits]; rfl⟩
  · rintro rfl
    obtain ⟨s, hs⟩ := Family.completes hacc (hrun .refl).fits
    rw [← hunique s hs]
    exact hs

/-- An object with two clones, the first of which has a clone of its own, and a mapping of that
one. -/
def branchingOps : List Op :=
  [.createVmo 0x4000 0,
    .cloneVmo 1 { resizable := false, offset := 0x800, size := 0x2000, copyName := false },
    .cloneVmo 2 { resizable := false, offset := 0x1000, size := 0x1000, copyName := false },
    .cloneVmo 1 { resizable := false, offset := 0, size := 0x4000, copyName := false },
    .openSpace true, .createMapping ⟨1, true⟩ 3 0 0x1000, .addMapping 1 3 1]

/-- A range of the object is seen two clones further down, also if the clones of the object are
listed the other way round. -/
theorem World.Ran.rangeChanged_spreads_branching :
    let s := (World.run branchingOps).system
    ∃ f g : Family, s.families[1]? = some f ∧ f.roster.Nodup ∧ f.Reordered g ∧
      g[1]?.map Member.clones = some [4, 2] ∧
      ReflTransGen g.Turn ([⟨1, 0x1900, 0x100⟩], s) ([], s.rangeChanged 1 1 0x1900 0x100) ∧
      (s.rangeChanged 1 1 0x1900 0x100).mappings[1]? =
        some ⟨⟨1, true⟩, 3, 0, 0x1000, [⟨0, 0x1000⟩]⟩ := by
  have hran : (World.run branchingOps).Ran fun _ => Op.ListsByCloning :=
    Ran.start.foldl ⟨trivial, trivial, trivial, trivial, trivial, trivial, trivial, trivial⟩
  have hroster : ((World.run branchingOps).system.families[1]?.map Family.roster) = some [1] := by
    decide +kernel
  have hmembers : [1, 2, 3].map (fun v => ((World.run branchingOps).system.memberIn 1 v).map
      fun m => (m.parentOffset, m.size, m.clones, m.mappings)) =
        [some (0, 0x4000, [2, 4], []), some (0x800, 0x2000, [3], []),
          some (0x1000, 0x1000, [], [1])] := by
    decide +kernel
  have hmapping : (World.run branchingOps).system.mappings[1]? =
      some ⟨⟨1, true⟩, 3, 0, 0x1000, []⟩ := by decide +kernel
  obtain ⟨f, hf, hroster⟩ := Option.map_eq_some_iff.1 hroster
  have honce : f.roster.Nodup := hroster ▸ by decide
  have hg : f.Reordered (f.modify 1 fun m => { m with clones := m.clones.reverse }) :=
    .reverse f 1
  obtain ⟨-, -, hover, -, hspread⟩ :=
    rangeChanged_spreads hran hf honce hg 1 (show 0x1900 ≤ Word.max by decide)
      (show 0x100 ≤ Word.max by decide)
  simp only [List.map_cons, List.map_nil, List.cons.injEq, Option.map_eq_some_iff, Prod.mk.injEq,
    and_true, System.memberIn_of_family hf] at hmembers
  -- the range ends up two clones further down, moved by the windows of both on the way
  obtain ⟨⟨m₁, hm₁, -, -, hc₁, -⟩, ⟨m₂, hm₂, ho₂, hs₂, hc₂, -⟩, ⟨m₃, hm₃, ho₃, hs₃, -, hi₃⟩⟩ :=
    hmembers
  have hpart₂ : Family.partFor (Span.ofLength 0x1900 0x100) m₂ = ⟨0x1100, 0x1200⟩ := by
    rw [Family.partFor, Member.window, ho₂, hs₂]
    decide
  have hpart₃ : Family.partFor ⟨0x1100, 0x1200⟩ m₃ = ⟨0x100, 0x200⟩ := by
    rw [Family.partFor, Member.window, ho₃, hs₃]
    decide
  have hhears : f.Hears 1 (Span.ofLength 0x1900 0x100) 3 ⟨0x100, 0x200⟩ := by
    refine .clone hm₁ (c := 2) (by rw [hc₁]; decide) hm₂ (by rw [hpart₂]; decide) ?_
    rw [hpart₂]
    refine .clone hm₂ (c := 3) (by rw [hc₂]; decide) hm₃ (by rw [hpart₃]; decide) ?_
    rw [hpart₃]
    exact .self _ _
  refine ⟨f, _, hf, honce, hg, ?_, (hover _).2 rfl, ?_⟩
  · rw [Store.getElem?_modify, if_pos rfl, hm₁, Option.map_some, Option.map_some, hc₁]
    rfl
  · have hrel := hspread 1
    rw [hmapping] at hrel
    generalize ((World.run branchingOps).system.rangeChanged 1 1 0x1900 0x100).mappings[1]? = t
      at hrel ⊢
    cases hrel with
    | some hm =>
      rw [hm.1 3 m₃ _ hm₃ (by rw [hi₃]; decide) hhears]
      rfl

end KernelObjects
