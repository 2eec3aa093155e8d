import Mathlib.Data.List.Basic
import KernelObjects.Proofs.Run

/-
# The trees of clones

A clone names its parent, and what the family keeps of the parent lists the clone.  As long as
nobody writes into such a list by hand the two agree: every VM object has a member in its family
and every member an object, a parent is older than its clones and of the same family, and it lists
each of them once.  Sizes are whole numbers of pages.

Only four changes touch any of that: an object is born, alone or as a clone, an object goes, and a
size is changed.  An object that goes has no clone left, since a clone holds a reference to its
parent.

The order of a list is no part of the tree.  A clone that is taken out leaves its place to the
last one, so what is kept is which clones are on the list and that none is twice.

Two strengths of the property are wanted.  In `CloneTrees` a parent lists all of its clones; in
`Cloned X` this is asked for only under `X`, so that with `X` false the property survives clones
that are taken off a list by hand.  What is still listed is a clone then, which is all that is
needed for a change of a range to come to an end.
-/

namespace KernelObjects

/-! ## 1. Lists of clones

An entry that is taken out is replaced by the last one, so lists are compared up to order. -/

/-- Taking an entry out of a list and putting the last one in its place is taking it out, up to
order. -/
theorem Member.removeSwapping_perm {xs : List VmoId} {x : VmoId} (h : x ∈ xs) :
    ∃ ys, removeSwapping xs x = some ys ∧ ys.Perm (xs.erase x) := by
  obtain ⟨front, rest, rfl, hfront⟩ := List.eq_append_cons_of_mem h
  have hidx : (front ++ x :: rest).idxOf? x = some front.length := by
    clear h
    induction front with
    | nil => simp [List.idxOf?_cons]
    | cons a front ih =>
      rw [List.mem_cons, not_or] at hfront
      rw [List.cons_append, List.idxOf?_cons, ih hfront.2, if_neg (by simp [Ne.symm hfront.1])]
      rfl
  have herase : (front ++ x :: rest).erase x = front ++ rest := by
    rw [List.erase_append_right _ hfront, List.erase_cons_head]
  refine ⟨_, by rw [removeSwapping, hidx, Option.map_some], ?_⟩
  rw [herase, List.set_append_right _ _ (Nat.le_refl _), Nat.sub_self, List.set_cons_zero]
  -- the list ends with the entry itself or with some other one
  rcases List.eq_nil_or_concat rest with rfl | ⟨rest, l, rfl⟩
  · rw [List.getLastD_concat, List.dropLast_concat, List.append_nil]
  · have hend : ∀ a, front ++ a :: (rest ++ [l]) = (front ++ a :: rest) ++ [l] := by simp
    rw [List.concat_eq_append, hend x, List.getLastD_concat, hend l, List.dropLast_concat]
    exact (List.Perm.append_left _ (List.perm_append_singleton l rest)).symm

/-- Only what is on a list can be taken out. -/
theorem Member.removeSwapping_eq_none_iff {xs : List VmoId} {x : VmoId} :
    removeSwapping xs x = none ↔ x ∉ xs := by
  rw [removeSwapping, Option.map_eq_none_iff, List.idxOf?_eq_none_iff]

/-- One entry is lost.  The others may stand in another order, since the last takes its place. -/
theorem Member.of_removeSwapping {xs ys : List VmoId} {x : VmoId}
    (h : removeSwapping xs x = some ys) : x ∈ xs ∧ ys.Perm (xs.erase x) := by
  have hx : x ∈ xs := by
    by_contra hx
    rw [removeSwapping_eq_none_iff.2 hx] at h
    cases h
  obtain ⟨zs, hzs, hperm⟩ := removeSwapping_perm hx
  cases h.symm.trans hzs
  exact ⟨hx, hperm⟩

/-- A member that forgets a clone loses one entry for it and nothing else. -/
theorem Member.of_forgetClone {m m' : Member} {c : VmoId} (h : m.forgetClone c = some m') :
    c ∈ m.clones ∧ m'.size = m.size ∧ m'.clones.Perm (m.clones.erase c) := by
  obtain ⟨rest, hrest, rfl⟩ := Option.map_eq_some_iff.1 h
  exact ⟨(of_removeSwapping hrest).1, rfl, (of_removeSwapping hrest).2⟩

/-! ## 2. The two ways to write a tree of clones

An object goes up by its parent, and a member down by its list.  The laws are stated for functions
that read the two, so that states, and states in the midst of a destruction, are instances. -/

/-- What is read of a VM object. -/
def System.vmoKin (s : System) (v : Nat) : Option Vmo.Kin := s.vmos[v]?.map Vmo.kin

/-- What is read of a member of a family. -/
def System.memberKin (s : System) (f v : Nat) : Option Member.Kin := (s.memberIn f v).map Member.kin

/-- **The trees of clones are in order**, for given objects and members.  A parent lists each of its
clones if `X` holds; without it, some may have been taken off. -/
structure CloneTree (X : Prop) (V : Nat → Option Vmo.Kin) (M : Nat → Nat → Option Member.Kin) :
    Prop where
  /-- Every object has a member in its family, -/
  member : ∀ {v : Nat} {o : Vmo.Kin}, V v = some o → ∃ m, M o.family v = some m
  /-- and every member an object. -/
  vmo : ∀ {f v : Nat} {m : Member.Kin}, M f v = some m → ∃ o, V v = some o ∧ o.family = f
  /-- A family is named after its oldest object. -/
  family : ∀ {v : Nat} {o : Vmo.Kin}, V v = some o → o.family ≤ v
  parent : ∀ {c p : Nat} {o : Vmo.Kin}, V c = some o → o.parent = some p →
    p < c ∧ ∃ q, V p = some q ∧ q.family = o.family
  clone : ∀ {f v c : Nat} {m : Member.Kin}, M f v = some m → c ∈ m.clones →
    ∃ o, V c = some o ∧ o.parent = some v
  listed : X → ∀ {f c p : Nat} {o : Vmo.Kin} {m : Member.Kin}, V c = some o →
    o.parent = some p → M f p = some m → c ∈ m.clones
  nodup : ∀ {f v : Nat} {m : Member.Kin}, M f v = some m → m.clones.Nodup
  size : ∀ {f v : Nat} {m : Member.Kin}, M f v = some m → Page.size ∣ m.size ∧ m.size ≤ Word.max

namespace CloneTree

variable {X : Prop} {V V' : Nat → Option Vmo.Kin} {M M' : Nat → Nat → Option Member.Kin}

/-- An object is born.  Its parent, if it has one, lists it last. -/
theorem born {c : Nat} {o : Vmo.Kin} {n : Member.Kin} (h : CloneTree X V M)
    (hfresh : ∀ u q, V u = some q → u < c)
    (hfamily : o.family ≤ c)
    (hparent : ∀ p, o.parent = some p → ∃ q, V p = some q ∧ q.family = o.family)
    (hclones : n.clones = []) (hsize : Page.size ∣ n.size ∧ n.size ≤ Word.max)
    (hV : ∀ u, V' u = if c = u then some o else V u)
    (hself : ∀ f, M' f c = if o.family = f then some n else none)
    (hM : ∀ f u, u ≠ c → M' f u = (M f u).map fun m =>
      if o.parent = some u then { m with clones := m.clones ++ [c] } else m) :
    CloneTree X V' M' := by
  have hnew : V' c = some o := by rw [hV, if_pos rfl]
  have hold : ∀ {u q}, V u = some q → V' u = some q := by
    intro u q hq
    rw [hV, if_neg (Nat.ne_of_gt (hfresh u q hq)), hq]
  -- a member of the state after the birth is the new one or comes from an old one
  have hcases : ∀ {f u m}, M' f u = some m → u = c ∧ o.family = f ∧ m = n ∨
      u ≠ c ∧ ∃ a, M f u = some a ∧ m.size = a.size ∧
        m.clones = if o.parent = some u then a.clones ++ [c] else a.clones := by
    intro f u m hm
    by_cases hu : u = c
    · subst hu
      rw [hself] at hm
      split at hm
      · rename_i hf
        cases hm
        exact .inl ⟨rfl, hf, rfl⟩
      · cases hm
    · rw [hM f u hu, Option.map_eq_some_iff] at hm
      obtain ⟨a, ha, rfl⟩ := hm
      refine .inr ⟨hu, a, ha, ?_, ?_⟩
      · split <;> rfl
      · split <;> rfl
  have hvmo : ∀ {u q}, V' u = some q → u = c ∧ q = o ∨ u ≠ c ∧ V u = some q := by
    intro u q hq
    rw [hV] at hq
    split at hq
    · rename_i hu
      cases hq
      exact .inl ⟨hu.symm, rfl⟩
    · rename_i hu
      exact .inr ⟨Ne.symm hu, hq⟩
  constructor
  case member =>
    intro v q hq
    rcases hvmo hq with ⟨rfl, rfl⟩ | ⟨hne, hq⟩
    · exact ⟨n, by rw [hself, if_pos rfl]⟩
    · obtain ⟨m, hm⟩ := h.member hq
      exact ⟨_, by rw [hM _ _ hne, hm, Option.map_some]⟩
  case vmo =>
    intro f v m hm
    rcases hcases hm with ⟨rfl, hf, -⟩ | ⟨-, a, ha, -⟩
    · exact ⟨o, hnew, hf⟩
    · obtain ⟨q, hq, hf⟩ := h.vmo ha
      exact ⟨q, hold hq, hf⟩
  case family =>
    intro v q hq
    rcases hvmo hq with ⟨rfl, rfl⟩ | ⟨-, hq⟩
    · exact hfamily
    · exact h.family hq
  case parent =>
    intro a p q hq hp
    rcases hvmo hq with ⟨rfl, rfl⟩ | ⟨-, hq⟩
    · obtain ⟨r, hr, hf⟩ := hparent p hp
      exact ⟨hfresh p r hr, r, hold hr, hf⟩
    · obtain ⟨hlt, r, hr, hf⟩ := h.parent hq hp
      exact ⟨hlt, r, hold hr, hf⟩
  case clone =>
    intro f v a m hm ha
    rcases hcases hm with ⟨-, -, rfl⟩ | ⟨-, b, hb, -, hlist⟩
    · rw [hclones] at ha
      cases ha
    · rw [hlist] at ha
      split at ha
      · rename_i hp
        rcases List.mem_append.1 ha with ha | ha
        · obtain ⟨q, hq, hqp⟩ := h.clone hb ha
          exact ⟨q, hold hq, hqp⟩
        · rw [List.mem_singleton.1 ha]
          exact ⟨o, hnew, hp⟩
      · obtain ⟨q, hq, hqp⟩ := h.clone hb ha
        exact ⟨q, hold hq, hqp⟩
  case listed =>
    intro hX f a p q m hq hp hm
    rcases hvmo hq with ⟨rfl, rfl⟩ | ⟨-, hq⟩
    · rcases hcases hm with ⟨rfl, -, -⟩ | ⟨-, b, -, -, hlist⟩
      · obtain ⟨r, hr, -⟩ := hparent _ hp
        exact absurd (hfresh _ r hr) (Nat.lt_irrefl _)
      · rw [hlist, if_pos hp]
        exact List.mem_append_right _ (List.mem_singleton_self _)
    · rcases hcases hm with ⟨rfl, -, -⟩ | ⟨-, b, hb, -, hlist⟩
      · obtain ⟨-, r, hr, -⟩ := h.parent hq hp
        exact absurd (hfresh _ r hr) (Nat.lt_irrefl _)
      · have hmem := h.listed hX hq hp hb
        rw [hlist]
        split
        · exact List.mem_append_left _ hmem
        · exact hmem
  case nodup =>
    intro f v m hm
    rcases hcases hm with ⟨-, -, rfl⟩ | ⟨-, b, hb, -, hlist⟩
    · rw [hclones]
      exact List.nodup_nil
    · rw [hlist]
      split
      · rename_i hp
        refine List.nodup_append.2 ⟨h.nodup hb, List.nodup_singleton c, fun x hx y hy he => ?_⟩
        rw [List.mem_singleton.1 hy] at he
        subst he
        obtain ⟨q, hq, -⟩ := h.clone hb hx
        exact Nat.lt_irrefl _ (hfresh _ q hq)
      · exact h.nodup hb
  case size =>
    intro f v m hm
    rcases hcases hm with ⟨-, -, rfl⟩ | ⟨-, b, hb, hs, -⟩
    · exact hsize
    · rw [hs]
      exact h.size hb

/-- An object goes that nobody is a clone of.  No list names it any more. -/
theorem gone {v : Nat} (h : CloneTree X V M)
    (hchild : ∀ c o, V c = some o → o.parent ≠ some v)
    (hV : ∀ u, V' u = if v = u then none else V u)
    (hself : ∀ f, M' f v = none)
    (hM : ∀ f u a, u ≠ v → M f u = some a → ∃ m, M' f u = some m ∧ m.size = a.size ∧
      m.clones.Perm (a.clones.erase v))
    (hback : ∀ f u, M f u = none → M' f u = none) : CloneTree X V' M' := by
  have hvmo : ∀ {u q}, V' u = some q → u ≠ v ∧ V u = some q := by
    intro u q hq
    rw [hV] at hq
    split at hq
    · cases hq
    · rename_i hu
      exact ⟨Ne.symm hu, hq⟩
  have hkept : ∀ {u q}, u ≠ v → V u = some q → V' u = some q := by
    intro u q hu hq
    rw [hV, if_neg (Ne.symm hu), hq]
  -- whatever is left of the members was there before, with the object taken off its list
  have hcases : ∀ {f u m}, M' f u = some m → u ≠ v ∧ ∃ a, M f u = some a ∧ m.size = a.size ∧
      m.clones.Perm (a.clones.erase v) := by
    intro f u m hm
    have hu : u ≠ v := by
      rintro rfl
      rw [hself] at hm
      cases hm
    cases ha : M f u with
    | none =>
      rw [hback f u ha] at hm
      cases hm
    | some a =>
      obtain ⟨m', hm', hs, hp⟩ := hM f u a hu ha
      rw [hm] at hm'
      cases hm'
      exact ⟨hu, a, rfl, hs, hp⟩
  constructor
  case member =>
    intro u q hq
    obtain ⟨hu, hq⟩ := hvmo hq
    obtain ⟨a, ha⟩ := h.member hq
    obtain ⟨m, hm, -⟩ := hM _ _ a hu ha
    exact ⟨m, hm⟩
  case vmo =>
    intro f u m hm
    obtain ⟨hu, a, ha, -⟩ := hcases hm
    obtain ⟨q, hq, hf⟩ := h.vmo ha
    exact ⟨q, hkept hu hq, hf⟩
  case family =>
    intro u q hq
    exact h.family (hvmo hq).2
  case parent =>
    intro c p q hq hp
    obtain ⟨-, hq⟩ := hvmo hq
    obtain ⟨hlt, r, hr, hf⟩ := h.parent hq hp
    refine ⟨hlt, r, hkept ?_ hr, hf⟩
    rintro rfl
    exact hchild c q hq hp
  case clone =>
    intro f u c m hm hc
    obtain ⟨-, a, ha, -, hperm⟩ := hcases hm
    obtain ⟨hne, hc⟩ := ((h.nodup ha).mem_erase_iff).1 (hperm.mem_iff.1 hc)
    obtain ⟨q, hq, hp⟩ := h.clone ha hc
    exact ⟨q, hkept hne hq, hp⟩
  case listed =>
    intro hX f c p q m hq hp hm
    obtain ⟨hne, hq⟩ := hvmo hq
    obtain ⟨-, a, ha, -, hperm⟩ := hcases hm
    exact hperm.mem_iff.2 (((h.nodup ha).mem_erase_iff).2 ⟨hne, h.listed hX hq hp ha⟩)
  case nodup =>
    intro f u m hm
    obtain ⟨-, a, ha, -, hperm⟩ := hcases hm
    exact hperm.nodup_iff.2 ((h.nodup ha).erase v)
  case size =>
    intro f u m hm
    obtain ⟨-, a, ha, hs, -⟩ := hcases hm
    rw [hs]
    exact h.size ha

/-- Members are rewritten: sizes may change to whole numbers of pages, and lists may get shorter,
unless parents have to list all of their clones. -/
theorem rewritten (h : CloneTree X V M)
    (hM : ∀ f u a, M f u = some a → ∃ m, M' f u = some m ∧
      (m.size = a.size ∨ Page.size ∣ m.size ∧ m.size ≤ Word.max) ∧
      m.clones.Subperm a.clones ∧ (X → a.clones ⊆ m.clones))
    (hback : ∀ f u, M f u = none → M' f u = none) : CloneTree X V M' := by
  have hcases : ∀ {f u m}, M' f u = some m → ∃ a, M f u = some a ∧
      (m.size = a.size ∨ Page.size ∣ m.size ∧ m.size ≤ Word.max) ∧
      m.clones.Subperm a.clones ∧ (X → a.clones ⊆ m.clones) := by
    intro f u m hm
    cases ha : M f u with
    | none =>
      rw [hback f u ha] at hm
      cases hm
    | some a =>
      obtain ⟨m', hm', hrest⟩ := hM f u a ha
      rw [hm] at hm'
      cases hm'
      exact ⟨a, rfl, hrest⟩
  -- No parent is rewritten, so the clauses on parents stand.  The others are read back to the
  -- member of before: what is listed now was listed then, and a size is the old one or a new
  -- whole number of pages.
  refine { h with member := ?_, vmo := ?_, clone := ?_, listed := ?_, nodup := ?_, size := ?_ }
  · intro v o ho
    obtain ⟨a, ha⟩ := h.member ho
    obtain ⟨m, hm, -⟩ := hM _ _ a ha
    exact ⟨m, hm⟩
  · intro f v m hm
    obtain ⟨a, ha, -⟩ := hcases hm
    exact h.vmo ha
  · intro f v c m hm hc
    obtain ⟨a, ha, -, hsub, -⟩ := hcases hm
    exact h.clone ha (hsub.subset hc)
  · intro hX f c p o m ho hp hm
    obtain ⟨a, ha, -, -, hall⟩ := hcases hm
    exact hall hX (h.listed hX ho hp ha)
  · intro f v m hm
    obtain ⟨a, ha, -, ⟨l, hl, hlist⟩, -⟩ := hcases hm
    exact hl.nodup_iff.1 ((h.nodup ha).sublist hlist)
  · intro f v m hm
    obtain ⟨a, ha, hsame | hwhole, -⟩ := hcases hm
    · rw [hsame]
      exact h.size ha
    · exact hwhole

end CloneTree

/-! ## 3. The trees of the state

The same said of the records, with the functions of the object layer that write to them. -/

/-- The trees of clones of a state are in order, up to clones that were taken off a list by hand. -/
def System.Cloned (X : Prop) (s : System) : Prop := CloneTree X s.vmoKin s.memberKin

/-- The trees of clones of a state are in order. -/
abbrev System.CloneTrees (s : System) : Prop := s.Cloned True

namespace System

variable {X : Prop} {s t : System} {d : List Task}

theorem vmoKin_of_get {v : Nat} {o : Vmo} (ho : s.vmos[v]? = some o) : s.vmoKin v = some o.kin := by
  rw [vmoKin, ho, Option.map_some]

theorem memberKin_of_get {f v : Nat} {m : Member} (hm : s.memberIn f v = some m) :
    s.memberKin f v = some m.kin := by
  rw [memberKin, hm, Option.map_some]

theorem memberKin_eq_none_iff {f v : Nat} : s.memberKin f v = none ↔ s.memberIn f v = none :=
  Option.map_eq_none_iff

/-- There are no clones at first. -/
theorem cloned_initial : Cloned X .initial where
  member h := by simp [vmoKin, System.initial] at h
  vmo h := by simp [memberKin, memberIn, System.initial] at h
  family h := by simp [vmoKin, System.initial] at h
  parent h := by simp [vmoKin, System.initial] at h
  clone h := by simp [memberKin, memberIn, System.initial] at h
  listed _ _ _ _ _ _ h := by simp [vmoKin, System.initial] at h
  nodup h := by simp [memberKin, memberIn, System.initial] at h
  size h := by simp [memberKin, memberIn, System.initial] at h

/-- Trees of clones are a matter of VM objects and of families. -/
theorem Cloned.congr (h : s.Cloned X) (hv : t.vmos = s.vmos) (hf : t.families = s.families) :
    t.Cloned X := by
  have hV : t.vmoKin = s.vmoKin := by
    unfold vmoKin
    rw [hv]
  have hM : t.memberKin = s.memberKin := by
    unfold memberKin memberIn
    rw [hf]
  unfold Cloned
  rw [hV, hM]
  exact h

/-- What is inert leaves them alone. -/
theorem Cloned.inert (h : s.Cloned X) (hi : Inert s t) : t.Cloned X := by
  have hV : t.vmoKin = s.vmoKin := funext hi.vmo
  have hM : t.memberKin = s.memberKin := funext fun f => funext (hi.member f)
  unfold Cloned
  rw [hV, hM]
  exact h

/-- Objects that are there were handed out. -/
theorem vmoKin_lt (hacc : Accounted s d) {u : Nat} {q : Vmo.Kin} (h : s.vmoKin u = some q) :
    u < s.nextVmo := by
  obtain ⟨o, ho, -⟩ := Option.map_eq_some_iff.1 h
  exact hacc.bounded.vmo (Store.contains_iff.2 ⟨o, ho⟩)

/-- An id that was not given out yet belongs to no member, -/
theorem memberKin_of_lt (h : s.Cloned X) (hacc : Accounted s d) {u : Nat}
    (hu : s.nextVmo ≤ u) (f : Nat) : s.memberKin f u = none := by
  cases hm : s.memberKin f u with
  | none => rfl
  | some m =>
    obtain ⟨q, hq, -⟩ := h.vmo hm
    exact absurd (vmoKin_lt hacc hq) (Nat.not_lt.2 hu)

/-- and names no family. -/
theorem memberKin_family (h : s.Cloned X) (hacc : Accounted s d) {f : Nat}
    (hf : s.nextVmo ≤ f) (u : Nat) : s.memberKin f u = none := by
  cases hm : s.memberKin f u with
  | none => rfl
  | some m =>
    obtain ⟨q, hq, rfl⟩ := h.vmo hm
    exact absurd (Nat.le_trans hf (h.family hq)) (Nat.not_le.2 (vmoKin_lt hacc hq))

theorem vmoKin_insert (v u : Nat) (o : Vmo) :
    (s.vmos.insert v o)[u]?.map Vmo.kin = if v = u then some o.kin else s.vmoKin u := by
  rw [Store.getElem?_insert]
  split <;> rfl

/-- The founder of a family is its only member. -/
theorem memberKin_withVmo (vmo : Vmo) (member : Member) (f u : Nat) :
    (s.withVmo vmo member).memberKin f u = if s.nextVmo = f then
      if s.nextVmo = u then some member.kin else none else s.memberKin f u := by
  unfold memberKin memberIn withVmo
  dsimp only
  rw [Store.getElem?_insert]
  by_cases hf : s.nextVmo = f
  · rw [if_pos hf, if_pos hf, Option.bind_some, Store.getElem?_insert, Store.getElem?_empty]
    split <;> rfl
  · rw [if_neg hf, if_neg hf]

/-- An object that founds a family is nobody's clone and has none. -/
theorem Cloned.vmo_born (h : s.Cloned X) (hacc : Accounted s d) {vmo : Vmo}
    {member : Member} (hp : vmo.parent = none) (hf : vmo.family = s.nextVmo)
    (hc : member.clones = []) (hs : Page.size ∣ member.size ∧ member.size ≤ Word.max) :
    (s.withVmo vmo member).Cloned X := by
  refine h.born (c := s.nextVmo) (o := vmo.kin) (n := member.kin) (fun u q => vmoKin_lt hacc)
    (Nat.le_of_eq hf) (fun p hq => ?_) hc hs (fun u => vmoKin_insert s.nextVmo u vmo)
    (fun f => ?_) fun f u hu => ?_
  · have hq : vmo.parent = some p := hq
    rw [hp] at hq
    cases hq
  · rw [memberKin_withVmo, if_pos rfl, memberKin_of_lt h hacc (Nat.le_refl _)]
    exact if_congr (by rw [← hf]; rfl) rfl rfl
  · have hnone : vmo.kin.parent ≠ some u := by simp [Vmo.kin, hp]
    rw [memberKin_withVmo, if_neg (Ne.symm hu)]
    simp only [if_neg hnone, Option.map_id']
    split
    · rename_i he
      exact (memberKin_family h hacc (Nat.le_of_eq he) u).symm
    · rfl

/-- What a change of one family does to the members. -/
theorem memberIn_modifyFamily (s : System) (a : FamilyId) (g : Family → Family) (f u : Nat) :
    memberIn { s with families := s.families.modify a g } f u =
      if a = f then s.families[f]?.bind fun x => (g x)[u]? else s.memberIn f u := by
  unfold memberIn
  dsimp only
  rw [Store.getElem?_modify]
  split
  · rw [Option.bind_map]
    rfl
  · rfl

/-- What leaves a family leaves the others in it. -/
theorem memberIn_eraseMember (s : System) (a : FamilyId) {v u : Nat} (hu : v ≠ u) (f : Nat) :
    memberIn { s with families := s.families.modify a fun x => x.erase v } f u =
      s.memberIn f u := by
  rw [memberIn_modifyFamily]
  split
  · unfold memberIn
    refine Option.bind_congr fun x _ => ?_
    rw [Store.getElem?_erase, if_neg hu]
  · rfl

/-- A VM object that is entered anew into a family, if there is that family. -/
theorem memberIn_addVmo (s : System) (v : VmoId) (vmo : Vmo) (member : Member) (f u : Nat) :
    (s.addVmo v vmo member).memberIn f u =
      if vmo.family = f ∧ v = u then s.families[f]?.map fun _ => member else s.memberIn f u := by
  show memberIn
    { s with families := s.families.modify vmo.family fun x => x.insert v member } f u = _
  rw [memberIn_modifyFamily]
  unfold memberIn
  by_cases hf : vmo.family = f
  · rw [if_pos hf]
    cases s.families[f]? with
    | none => simp
    | some x =>
      rw [Option.bind_some, Store.getElem?_insert, Option.bind_some, Option.map_some]
      simp [hf]
  · rw [if_neg hf, if_neg fun h => hf h.1]

/-- A clone is a new member of the family of its original, whose list gets it as its last entry; all
others stay. -/
theorem memberKin_withClone {v : VmoId} {vmo : Vmo} {member m : Member} (hne : v ≠ s.nextVmo)
    (hm : s.memberIn vmo.family v = some m) (f u : Nat) :
    (s.withClone v vmo member).memberKin f u =
      if vmo.family = f ∧ s.nextVmo = u then some member.kin
      else if vmo.family = f ∧ v = u then some { m.kin with clones := m.clones ++ [s.nextVmo] }
      else s.memberKin f u := by
  obtain ⟨g, hg, hgm⟩ := Option.bind_eq_some_iff.1 hm
  have hin : (s.withClone v vmo member).memberIn f u = if vmo.family = f then
      ((g.insert s.nextVmo member).modify v fun m =>
        { m with clones := m.clones ++ [s.nextVmo] })[u]? else s.memberIn f u := by
    unfold withClone memberIn
    dsimp only
    rw [Store.getElem?_modify, Store.getElem?_modify]
    split
    · rename_i hf
      subst hf
      rw [hg, Option.map_some, Option.map_some, Option.bind_some]
    · rfl
  unfold memberKin
  rw [hin]
  -- In the family of the original there are two places to look at: the new member and the
  -- original; every other family is as it was.
  by_cases hf : vmo.family = f
  · subst hf
    rw [if_pos rfl, Store.getElem?_modify, Store.getElem?_insert]
    simp only [true_and]
    by_cases hv : v = u
    · subst hv
      rw [if_pos rfl, if_neg (Ne.symm hne), if_neg (Ne.symm hne), if_pos rfl, hgm]
      rfl
    · rw [if_neg hv, if_neg hv]
      split
      · rfl
      · rw [memberIn, hg, Option.bind_some]
  · simp [hf]

/-- A clone is younger than its original, is listed by it alone, and lists nobody. -/
theorem Cloned.clone_born (h : s.Cloned X) (hacc : Accounted s d) {v : VmoId} {o vmo : Vmo}
    {member : Member} (ho : s.vmos[v]? = some o) (hp : vmo.parent = some v)
    (hf : vmo.family = o.family) (hc : member.clones = [])
    (hs : Page.size ∣ member.size ∧ member.size ≤ Word.max) :
    (s.withClone v vmo member).Cloned X := by
  have hv : s.vmoKin v = some o.kin := vmoKin_of_get ho
  have hlt : v < s.nextVmo := vmoKin_lt hacc hv
  obtain ⟨a, ha⟩ := h.member hv
  obtain ⟨m, hm, rfl⟩ := Option.map_eq_some_iff.1 ha
  have hmv : s.memberIn vmo.family v = some m := hf ▸ hm
  -- The new object is younger than all that are there, so it stands on no list yet and no member
  -- has its number.
  refine h.born (c := s.nextVmo) (o := vmo.kin) (n := member.kin) (fun u q => vmoKin_lt hacc)
    ?_ (fun p hq => ?_) hc hs (fun u => vmoKin_insert s.nextVmo u vmo)
    (fun f => ?_) fun f u hu => ?_
  · exact Nat.le_trans (Nat.le_of_eq hf) (Nat.le_trans (h.family hv) (Nat.le_of_lt hlt))
  · obtain rfl : v = p := Option.some.inj (hp.symm.trans hq)
    exact ⟨o.kin, hv, hf.symm⟩
  · rw [memberKin_withClone (Nat.ne_of_lt hlt) hmv, memberKin_of_lt h hacc (Nat.le_refl _)]
    have hne : ¬ (vmo.family = f ∧ v = s.nextVmo) := fun hq => Nat.ne_of_lt hlt hq.2
    rw [if_neg hne]
    exact if_congr (by simp [Vmo.kin]) rfl rfl
  · rw [memberKin_withClone (Nat.ne_of_lt hlt) hmv, if_neg fun hq => hu hq.2.symm]
    have hparent : vmo.kin.parent = some v := hp
    rw [hparent]
    by_cases hvu : v = u
    · subst hvu
      by_cases hfa : vmo.family = f
      · subst hfa
        rw [if_pos ⟨rfl, rfl⟩, memberKin, hmv]
        simp [Member.kin]
      · -- no other family knows the parent
        have hnone : s.memberKin f v = none := by
          cases hn : s.memberKin f v with
          | none => rfl
          | some n =>
            obtain ⟨q, hq, rfl⟩ := h.vmo hn
            rw [hv] at hq
            cases hq
            exact absurd hf hfa
        rw [if_neg fun hq => hfa hq.1, hnone, Option.map_none]
    · simp [hvu]

/-- No other family knows an object. -/
theorem Cloned.family_eq (h : s.Cloned X) {u : Nat} {r : Vmo} (hr : s.vmos[u]? = some r) {f : Nat}
    {m : Member} (hm : s.memberIn f u = some m) : r.family = f := by
  obtain ⟨q, hq, hf⟩ := h.vmo (memberKin_of_get hm)
  cases (vmoKin_of_get hr).symm.trans hq
  exact hf

/-- A member whose object is not the parent does not list the clone. -/
theorem Cloned.erase_clones (h : s.Cloned X) {v : VmoId} {o : Vmo}
    (ho : s.vmos[v]? = some o) {f u : Nat} {a : Member} (ha : s.memberIn f u = some a)
    (hp : o.parent ≠ some u) : a.clones.erase v = a.clones := by
  have hm : s.memberKin f u = some a.kin := memberKin_of_get ha
  refine List.erase_of_not_mem fun hv => hp ?_
  obtain ⟨q, hq, hqp⟩ := h.clone hm hv
  rw [vmoKin_of_get ho] at hq
  cases hq
  exact hqp

/-- What the members are after the parent of an object dropped it from its list. -/
theorem Cloned.memberIn_dropClone (h : s.Cloned X) {v p : VmoId} {o : Vmo}
    (ho : s.vmos[v]? = some o) (hp : o.parent = some p) (refs : RefCounts)
    (vmoList : Store Unit) (f u : Nat) :
    ∃ g : Member → Member,
      (dropClone { s with refs, vmos := s.vmos.erase v, vmoList } p v).memberIn f u =
        (s.memberIn f u).map g ∧
      ∀ a, s.memberIn f u = some a → (g a).size = a.size ∧
        (g a).clones.Perm (a.clones.erase v) := by
  obtain ⟨hlt, q, hq, -⟩ := h.parent (vmoKin_of_get ho) hp
  obtain ⟨r, hr, rfl⟩ := Option.map_eq_some_iff.1 hq
  have hget : (s.vmos.erase v)[p]? = some r := by
    rw [Store.getElem?_erase, if_neg (Nat.ne_of_gt hlt), hr]
  -- only what the parent's family keeps of the parent lists the object
  have hother : ∀ {a}, s.memberIn f u = some a → ¬ (r.family = f ∧ p = u) →
      a.clones.erase v = a.clones := by
    intro a ha hfu
    refine h.erase_clones ho ha fun hpu => hfu ?_
    obtain rfl : p = u := Option.some.inj (hp.symm.trans hpu)
    exact ⟨h.family_eq hr ha, rfl⟩
  obtain ⟨he, hkeep⟩ | ⟨r', m, m', hr', hm, hforget, he⟩ :=
    dropClone_cases { s with refs, vmos := s.vmos.erase v, vmoList } p v
  · -- it was taken off by hand before
    refine ⟨id, by rw [he, Option.map_id]; rfl, fun a ha => ⟨rfl, ?_⟩⟩
    suffices hnot : v ∉ a.clones by
      rw [List.erase_of_not_mem hnot]
      exact .refl _
    by_cases hfu : r.family = f ∧ p = u
    · obtain ⟨rfl, rfl⟩ := hfu
      have hforget := hkeep a (Option.bind_eq_some_iff.2 ⟨r, hget, ha⟩)
      rwa [Member.forgetClone, Option.map_eq_none_iff, Member.removeSwapping_eq_none_iff] at hforget
    · intro hv
      have herase := congrArg List.length (hother ha hfu)
      rw [List.length_erase_of_mem hv] at herase
      have hpos := List.length_pos_of_mem hv
      omega
  · obtain rfl : r = r' := Option.some.inj (hget.symm.trans hr')
    have hm : s.memberIn r.family p = some m := hm
    rw [he, memberIn_modifyMember]
    split
    · rename_i hfu
      obtain ⟨rfl, rfl⟩ := hfu
      refine ⟨fun _ => m', rfl, fun a ha => ?_⟩
      cases hm.symm.trans ha
      exact (Member.of_forgetClone hforget).2
    · rename_i hfu
      refine ⟨id, by rw [Option.map_id]; rfl, fun a ha => ⟨rfl, ?_⟩⟩
      rw [hother ha hfu]
      exact .refl _

/-- What the members are after an object is gone: the parent drops it, and its family forgets it. -/
theorem Cloned.memberIn_withoutVmo (h : s.Cloned X) {v : VmoId} {o : Vmo}
    (ho : s.vmos[v]? = some o) (f u : Nat) :
    ∃ g : Member → Member,
      (s.withoutVmo v o).memberIn f u =
        (if o.family = f ∧ v = u then none else (s.memberIn f u).map g) ∧
      ∀ a, s.memberIn f u = some a → (g a).size = a.size ∧
        (g a).clones.Perm (a.clones.erase v) := by
  -- First the parent drops the clone, if there is one; then the family forgets the member.
  -- Without a parent the first step is that nothing is listed which could be dropped.
  obtain ⟨t, g, ht, hg, hkeep⟩ : ∃ (t : System) (g : Member → Member),
      s.withoutVmo v o = { t with families := t.families.modify o.family fun f => f.erase v } ∧
      t.memberIn f u = (s.memberIn f u).map g ∧
      ∀ a, s.memberIn f u = some a → (g a).size = a.size ∧
        (g a).clones.Perm (a.clones.erase v) := by
    cases hp : o.parent with
    | none =>
      refine ⟨{ s with
        refs := s.refs.release (.vmo v)
        vmos := s.vmos.erase v
        vmoList := s.vmoList.erase v }, id, ?_, ?_, ?_⟩
      · rw [withoutVmo, hp]
      · rw [Option.map_id]
        rfl
      · intro a ha
        rw [h.erase_clones ho ha (by simp [hp])]
        exact ⟨rfl, .refl _⟩
    | some p =>
      obtain ⟨g, hg, hkeep⟩ := h.memberIn_dropClone ho hp (s.refs.release (.vmo v)) _ f u
      refine ⟨_, g, ?_, hg, hkeep⟩
      rw [withoutVmo, hp]
  refine ⟨g, ?_, hkeep⟩
  rw [ht, memberIn_modifyFamily, ← hg]
  by_cases hf : o.family = f
  · simp only [hf, if_true, true_and]
    unfold memberIn
    cases t.families[f]? with
    | none => simp
    | some x => exact Store.getElem?_erase x v u
  · simp [hf]

/-- An object that nobody is a clone of can go: it is taken off the one list that has it. -/
theorem Cloned.vmo_gone (h : s.Cloned X) {v : VmoId} {o : Vmo}
    (ho : s.vmos[v]? = some o)
    (hchild : ∀ (c : Nat) (q : Vmo), s.vmos[c]? = some q → q.parent ≠ some v) :
    (s.withoutVmo v o).Cloned X := by
  -- The clauses of the tree in turn: nobody names what goes as parent, its record and its member
  -- go, and whoever is left has lost no more than this one entry.
  refine h.gone (v := v) (fun c q hq => ?_) (fun u => ?_) (fun f => ?_) (fun f u a hu ha => ?_)
    fun f u hn => ?_
  · obtain ⟨r, hr, rfl⟩ := Option.map_eq_some_iff.1 hq
    exact hchild c r hr
  · obtain ⟨families, he, -⟩ := s.withoutVmo_eq v o
    rw [vmoKin, he, Store.getElem?_erase]
    split <;> rfl
  · obtain ⟨g, hg, -⟩ := h.memberIn_withoutVmo ho f v
    rw [memberKin, hg]
    split
    · rfl
    · rename_i hne
      cases hm : s.memberIn f v with
      | none => rfl
      | some m => exact absurd ⟨h.family_eq ho hm, rfl⟩ hne
  · obtain ⟨g, hg, hkeep⟩ := h.memberIn_withoutVmo ho f u
    obtain ⟨m, hm, rfl⟩ := Option.map_eq_some_iff.1 ha
    refine ⟨(g m).kin, ?_, (hkeep m hm).1, (hkeep m hm).2⟩
    rw [memberKin, hg, if_neg fun hq => hu hq.2.symm, hm]
    rfl
  · obtain ⟨g, hg, -⟩ := h.memberIn_withoutVmo ho f u
    rw [memberKin_eq_none_iff] at hn
    rw [memberKin, hg, hn]
    split <;> rfl

/-- One member is rewritten. -/
theorem Cloned.modifyMember (h : s.Cloned X) {f : FamilyId} {v : VmoId} {g : Member → Member}
    (hg : ∀ m, s.memberIn f v = some m →
      ((g m).size = m.size ∨ Page.size ∣ (g m).size ∧ (g m).size ≤ Word.max) ∧
      (g m).clones.Subperm m.clones ∧ (X → m.clones ⊆ (g m).clones)) :
    (s.modifyMember f v g).Cloned X := by
  refine CloneTree.rewritten h (fun a u b hb => ?_) fun a u hn => ?_
  · obtain ⟨m, hm, rfl⟩ := Option.map_eq_some_iff.1 hb
    rw [memberKin, memberIn_modifyMember, hm]
    split
    · rename_i hau
      obtain ⟨rfl, rfl⟩ := hau
      exact ⟨_, rfl, hg m hm⟩
    · exact ⟨_, rfl, .inl rfl, .refl _, fun _ => List.Subset.refl _⟩
  · rw [memberKin_eq_none_iff] at hn
    rw [memberKin, memberIn_modifyMember, hn]
    split <;> rfl

end System

/-! ## 4. The trees through all moves

Births and declines in turn.  Only those that touch VM objects are more than a look at what they
leave alone. -/

variable {X : Prop}

/-- Declines that touch trees of clones are those of VM objects, which go without clones, since each
clone holds its original. -/
theorem Decline.cloned {K P : Koid → Prop} {w w' : World} (h : Decline K P w w')
    (hacc : Accounted w.system w.dues) (ht : w.system.Cloned X) : w'.system.Cloned X := by
  cases h with
  | inert hi => exact ht.inert hi
  | vmo h ho =>
    refine ht.vmo_gone ho fun c q hq hp => ?_
    have hheld := held_of_clone hq hp
    rw [hacc.held_eq_zero h] at hheld
    exact Nat.lt_irrefl 0 hheld
  | _ => exact ht.congr rfl rfl

/-- Births that touch trees of clones are those of VM objects and of clones. -/
theorem Birth.cloned {A : Prop} {w w' : World} (h : Birth A False w w')
    (hacc : Accounted w.system w.dues) (ht : w.system.Cloned X) : w'.system.Cloned X := by
  cases h with
  | vmo hp hf hc hs => exact ht.vmo_born hacc hp hf hc hs
  | clone ho hp hf hc hs => exact ht.clone_born hacc ho hp hf hc hs
  | @resize s d f v g size hg hs =>
    refine ht.modifyMember fun m hm => ?_
    have hclones : (g m).clones = m.clones := congrArg Member.Kin.clones (hg m hm)
    have hsize : (g m).size = size := congrArg Member.Kin.size (hg m hm)
    rw [hclones, hsize]
    exact ⟨.inr hs, .refl _, fun _ => List.Subset.refl _⟩
  | rewire hC => exact hC.elim
  | _ => exact ht.congr rfl rfl

/-- **In every state that is passed the trees of clones are in order**, unless a client wrote into a
list of clones by hand. -/
theorem World.Passed.cloneTrees {A : Prop} {w : World} (h : Passed A False w) :
    w.system.CloneTrees := by
  refine h.keeps (I := fun w => w.system.CloneTrees) System.cloned_initial
    fun v v' hacc hmove ht => ?_
  rcases hmove with hmove | hmove
  · exact hmove.cloned hacc ht
  · exact hmove.cloned hacc ht

/-! ## 5. Clones that are taken off by hand

Half of the property survives that: what is listed is a clone, but a clone need not be listed any
more. -/

/-- Taking a clone off a list by hand leaves the rest of the trees in order. -/
theorem System.Cloned.forgetClone {s : System} (h : s.Cloned False) (v c : VmoId) :
    (s.forgetClone v c).Cloned False := by
  obtain ⟨objects, trace, he, -⟩ := s.forgetClone_eq v c
  rw [he]
  suffices hdrop : (s.dropClone v c).Cloned False from hdrop.congr rfl rfl
  obtain ⟨he, -⟩ | ⟨o, m, m', -, hm, hforget, he⟩ := s.dropClone_cases v c
  · rw [he]
    exact h
  · rw [he]
    refine h.modifyMember fun a ha => ?_
    cases hm.symm.trans ha
    obtain ⟨-, hsize, hperm⟩ := Member.of_forgetClone hforget
    exact ⟨.inl hsize, ⟨_, hperm.symm, List.erase_sublist⟩, nofun⟩

/-- So a run of moves keeps the trees in order: induction on the run. -/
theorem Moves.cloned {A : Prop} {w w' : World} (h : Moves A False w w')
    (hacc : Accounted w.system w.dues) (ht : w.system.Cloned X) : w'.system.Cloned X := by
  induction h with
  | refl => exact ht
  | tail hrun hmove ih =>
    have hacc' := Moves.accounted hrun hacc
    rcases hmove with hmove | hmove
    · exact hmove.cloned hacc' ih
    · exact hmove.cloned hacc' ih

/-- Whether an operation leaves it to cloning to enter clones in lists. -/
def Op.ListsByCloning : Op → Prop
  | recordClone _ _ _ => False
  | _ => True

/-- Where clones are entered by cloning only, what is listed is always a clone, however many were
taken off by hand. -/
theorem World.Ran.cloned {w : World} (h : w.Ran fun _ => Op.ListsByCloning) :
    w.system.Cloned False := by
  induction h with
  | start => exact System.cloned_initial
  | @act w op h hop ih =>
    by_cases hr : op.Rewires
    · unfold Op.Rewires at hr
      split at hr
      · exact hop.elim
      · exact ih.forgetClone _ _
      · exact hr.elim
    · exact (act_moves (A := True) h.passed.accounted op (fun _ => trivial) hr).cloned
        h.passed.accounted ih
  | reorder _ _ ih => exact ih

end KernelObjects
