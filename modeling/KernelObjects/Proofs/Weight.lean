import Mathlib.Algebra.BigOperators.Group.Finset.Basic
import Mathlib.Algebra.Order.BigOperators.Group.Finset
import KernelObjects.Store
import KernelObjects.Total

/-
# Weights of stores

Counting over a whole store, as in "how many records refer to this object", is adding up what each
record contributes.  Operations change one record at a time, so one law carries everything: two
stores whose contributions agree at all numbers but one differ in weight by what they have there
(`weight_add_share`).

The law is written as a sum on both sides, so that no truncated subtraction stands in it and
`omega` can go on with what it gives.  Inserting, erasing and replacing a record are then the
three cases of one equation, and a count that an operation keeps is one whose two shares are the
same.

The weight is defined over the numbers of the store and not along its listing: the law is about
numbers, and the listing is needed only where a result speaks of it (`weight_eq_total_toList`).
-/

namespace KernelObjects.Store

variable {α β : Type}

/-- What the record of a number contributes; nothing if there is none. -/
def share (s : Store α) (f : Nat → α → Nat) (k : Nat) : Nat := s[k]?.elim 0 (f k)

/-- What all records contribute together. -/
def weight (s : Store α) (f : Nat → α → Nat) : Nat := ∑ k ∈ s.keys.toFinset, s.share f k

@[simp] theorem share_of_some {s : Store α} {f : Nat → α → Nat} {k : Nat} {v : α}
    (h : s[k]? = some v) : s.share f k = f k v := by
  simp [share, h]

@[simp] theorem share_of_none {s : Store α} {f : Nat → α → Nat} {k : Nat} (h : s[k]? = none) :
    s.share f k = 0 := by
  simp [share, h]

/-- The weight may be added up over any larger set of numbers. -/
theorem weight_eq_sum {s : Store α} {f : Nat → α → Nat} {S : Finset Nat}
    (h : s.keys.toFinset ⊆ S) : s.weight f = ∑ k ∈ S, s.share f k := by
  refine Finset.sum_subset h fun k _ hk => ?_
  have hn : s[k]? = none := by
    rw [List.mem_toFinset, mem_keys_iff, Option.not_isSome_iff_eq_none] at hk
    exact hk
  exact share_of_none hn

/-- **The law of weights.**  Stores that agree off one number differ by their shares there. -/
theorem weight_add_share {s : Store α} {t : Store β} {f : Nat → α → Nat} {g : Nat → β → Nat}
    {k : Nat} (h : ∀ a, a ≠ k → s.share f a = t.share g a) :
    s.weight f + t.share g k = t.weight g + s.share f k := by
  have hs : s.keys.toFinset ⊆ insert k (s.keys.toFinset ∪ t.keys.toFinset) :=
    Finset.subset_union_left.trans (Finset.subset_insert _ _)
  have ht : t.keys.toFinset ⊆ insert k (s.keys.toFinset ∪ t.keys.toFinset) :=
    Finset.subset_union_right.trans (Finset.subset_insert _ _)
  have hk : k ∈ insert k (s.keys.toFinset ∪ t.keys.toFinset) := Finset.mem_insert_self _ _
  have hrest : ∑ a ∈ (insert k (s.keys.toFinset ∪ t.keys.toFinset)).erase k, s.share f a
      = ∑ a ∈ (insert k (s.keys.toFinset ∪ t.keys.toFinset)).erase k, t.share g a :=
    Finset.sum_congr rfl fun a ha => h a (Finset.ne_of_mem_erase ha)
  rw [weight_eq_sum hs, weight_eq_sum ht, ← Finset.sum_erase_add _ _ hk,
    ← Finset.sum_erase_add _ (fun a => t.share g a) hk, hrest]
  omega

/-- Stores whose entries weigh the same weigh the same, -/
theorem weight_congr {s : Store α} {t : Store β} {f : Nat → α → Nat} {g : Nat → β → Nat}
    (h : ∀ a, s.share f a = t.share g a) : s.weight f = t.weight g := by
  have := weight_add_share (k := 0) fun a _ => h a
  rw [h 0] at this
  omega

/-- and stores whose entries weigh no more weigh no more. -/
theorem weight_le {s : Store α} {t : Store β} {f : Nat → α → Nat} {g : Nat → β → Nat}
    (h : ∀ a, s.share f a ≤ t.share g a) : s.weight f ≤ t.weight g := by
  rw [weight_eq_sum (S := s.keys.toFinset ∪ t.keys.toFinset) Finset.subset_union_left,
    weight_eq_sum (s := t) (S := s.keys.toFinset ∪ t.keys.toFinset) Finset.subset_union_right]
  exact Finset.sum_le_sum fun a _ => h a

/-- One entry weighs no more than all. -/
theorem share_le_weight (s : Store α) (f : Nat → α → Nat) (k : Nat) : s.share f k ≤ s.weight f := by
  rw [weight_eq_sum (Finset.subset_insert k s.keys.toFinset)]
  exact Finset.single_le_sum (f := fun a => s.share f a) (fun _ _ => Nat.zero_le _)
    (Finset.mem_insert_self _ _)

/-- Records that contribute at most one each weigh at most their number. -/
theorem weight_le_size {s : Store α} {f : Nat → α → Nat} (h : ∀ k v, f k v ≤ 1) :
    s.weight f ≤ s.size := by
  have hone : ∀ k ∈ s.keys.toFinset, s.share f k ≤ 1 := by
    intro k _
    cases hv : s[k]? with
    | none => rw [share_of_none hv]; exact Nat.zero_le _
    | some v => rw [share_of_some hv]; exact h k v
  calc s.weight f ≤ ∑ _k ∈ s.keys.toFinset, 1 := Finset.sum_le_sum hone
    _ = s.keys.toFinset.card := (Finset.card_eq_sum_ones _).symm
    _ ≤ s.keys.length := List.toFinset_card_le _
    _ = s.size := Std.ExtTreeMap.length_keys ..

/-- The values are what stands beside the numbers in the listing. -/
theorem values_eq_map (s : Store α) : s.values = s.toList.map Prod.snd := by
  obtain ⟨inner⟩ := s
  refine Std.ExtDTreeMap.inductionOn inner fun m => ?_
  obtain ⟨t, _⟩ := m
  show t.values = (Std.DTreeMap.Internal.Impl.Const.toList t).map Prod.snd
  rw [Std.DTreeMap.Internal.Impl.values_eq_map_snd,
    Std.DTreeMap.Internal.Impl.Const.toList_eq_toListModel_map]
  simp [List.map_map, Function.comp_def]

theorem mem_values_iff {s : Store α} {v : α} : v ∈ s.values ↔ ∃ k : Nat, s[k]? = some v := by
  rw [values_eq_map, List.mem_map]
  constructor
  · rintro ⟨⟨k, u⟩, hu, rfl⟩
    exact ⟨k, Std.ExtTreeMap.mem_toList_iff_getElem?_eq_some.1 hu⟩
  · rintro ⟨k, hk⟩
    exact ⟨(k, v), Std.ExtTreeMap.mem_toList_iff_getElem?_eq_some.2 hk, rfl⟩

/-- The weight may be added up along the listing. -/
theorem weight_eq_total_toList (s : Store α) (f : Nat → α → Nat) :
    s.weight f = total (fun p => f p.1 p.2) s.toList := by
  have htotal : ∀ ks : List Nat, (ks.map (s.share f)).sum = total (s.share f) ks := by
    intro ks
    induction ks with
    | nil => rfl
    | cons k ks ih => rw [List.map_cons, List.sum_cons, total_cons, ih]
  have hkeys : s.toList.map Prod.fst = s.keys := Std.ExtTreeMap.map_fst_toList_eq_keys
  have hsum : s.weight f = (s.keys.map (s.share f)).sum :=
    List.sum_toFinset _ Std.ExtTreeMap.nodup_keys
  rw [hsum, htotal, ← hkeys, total_map]
  refine total_congr fun p hp => ?_
  exact share_of_some (Std.ExtTreeMap.mem_toList_iff_getElem?_eq_some.1 hp)

/-- Adding up over the values. -/
theorem total_values (s : Store α) (g : α → Nat) :
    total g s.values = s.weight fun _ v => g v := by
  rw [weight_eq_total_toList, values_eq_map, total_map]

/-- Stores that agree in a part of their records agree in every weight of that part. -/
theorem weight_of_map {s t : Store α} {φ : α → β} (h : ∀ k : Nat, t[k]?.map φ = s[k]?.map φ)
    (f : Nat → β → Nat) : t.weight (fun k a => f k (φ a)) = s.weight fun k a => f k (φ a) := by
  refine weight_congr fun k => ?_
  have hk := h k
  cases hs : s[k]? with
  | none =>
    rw [hs, Option.map_none, Option.map_eq_none_iff] at hk
    rw [share_of_none hs, share_of_none hk]
  | some a =>
    rw [hs, Option.map_some, Option.map_eq_some_iff] at hk
    obtain ⟨b, hb, he⟩ := hk
    rw [share_of_some hs, share_of_some hb, he]

/-- A record that contributes something makes the weight positive. -/
theorem weight_pos {s : Store α} {f : Nat → α → Nat} {k : Nat} {v : α} (h : s[k]? = some v)
    (hf : 0 < f k v) : 0 < s.weight f := by
  have := share_le_weight s f k
  rw [share_of_some h] at this
  omega

/-- Records that contribute nothing weigh nothing. -/
theorem weight_eq_zero {s : Store α} {f : Nat → α → Nat}
    (h : ∀ k v, s[k]? = some v → f k v = 0) : s.weight f = 0 := by
  refine Finset.sum_eq_zero fun k _ => ?_
  cases hv : s[k]? with
  | none => exact share_of_none hv
  | some v => rw [share_of_some hv, h k v hv]

/-! ## What the operations do to shares -/

theorem share_insert_ne (s : Store α) (f : Nat → α → Nat) {k a : Nat} (v : α) (h : a ≠ k) :
    share (s.insert k v) f a = s.share f a := by
  simp [share, getElem?_insert, h.symm]

theorem share_erase_ne (s : Store α) (f : Nat → α → Nat) {k a : Nat} (h : a ≠ k) :
    share (s.erase k) f a = s.share f a := by
  simp [share, getElem?_erase, h.symm]

/-- A new record adds its contribution. -/
theorem weight_insert {s : Store α} {k : Nat} (h : s[k]? = none) (f : Nat → α → Nat) (v : α) :
    weight (s.insert k v) f = s.weight f + f k v := by
  have := weight_add_share (s := s.insert k v) (t := s) (f := f) (g := f) (k := k)
    fun a ha => share_insert_ne s f v ha
  rw [share_of_none h, share_of_some (v := v) (by simp)] at this
  omega

/-- A record that goes takes its contribution with it. -/
theorem weight_erase {s : Store α} {k : Nat} {v : α} (h : s[k]? = some v) (f : Nat → α → Nat) :
    weight (s.erase k) f + f k v = s.weight f := by
  have := weight_add_share (s := s.erase k) (t := s) (f := f) (g := f) (k := k)
    fun a ha => share_erase_ne s f ha
  rw [share_of_some h, share_of_none (by simp)] at this
  omega

/-- Erasing a number takes away what its record contributes, if there is one. -/
theorem weight_erase_share (s : Store α) (k : Nat) (f : Nat → α → Nat) :
    weight (s.erase k) f + s.share f k = s.weight f := by
  cases hv : s[k]? with
  | none => rw [erase_of_none hv, share_of_none hv]; rfl
  | some v => rw [share_of_some hv]; exact weight_erase hv f

/-- Two records contribute both. -/
theorem add_le_weight {s : Store α} {f : Nat → α → Nat} {k l : Nat} {v u : α}
    (hk : s[k]? = some v) (hl : s[l]? = some u) (hne : k ≠ l) : f k v + f l u ≤ s.weight f := by
  have hrest : (s.erase k)[l]? = some u := by rw [getElem?_erase, if_neg hne, hl]
  have hsplit := weight_erase hk f
  have hle := share_le_weight (s.erase k) f l
  rw [share_of_some hrest] at hle
  omega

/-- A replaced record contributes in the place of the old one. -/
theorem weight_replace {s : Store α} {k : Nat} {v : α} (h : s[k]? = some v) (f : Nat → α → Nat)
    (g : α → α) : weight (s.modify k g) f + f k v = s.weight f + f k (g v) := by
  have := weight_add_share (s := s.modify k g) (t := s) (f := f) (g := f) (k := k)
    fun a ha => by simp [share, getElem?_modify, ha.symm]
  rw [share_of_some h, share_of_some (v := g v) (by simp [h])] at this
  exact this

/-! ## Whether there is a record -/

/-- One if there is a record of a number, zero if there is none. -/
def has (s : Store α) (k : Nat) : Nat := if s[k]?.isSome then 1 else 0

theorem has_le_one (s : Store α) (k : Nat) : s.has k ≤ 1 := by
  unfold has; split <;> omega

theorem has_of_some {s : Store α} {k : Nat} {v : α} (h : s[k]? = some v) : s.has k = 1 := by
  simp [has, h]

theorem has_of_none {s : Store α} {k : Nat} (h : s[k]? = none) : s.has k = 0 := by
  simp [has, h]

theorem has_eq_one_iff {s : Store α} {k : Nat} : s.has k = 1 ↔ s.contains k := by
  rw [contains_eq_isSome]
  unfold has
  split <;> simp_all

theorem has_eq_zero_iff {s : Store α} {k : Nat} : s.has k = 0 ↔ s[k]? = none := by
  unfold has
  split <;> simp_all

theorem has_insert (s : Store α) (k a : Nat) (v : α) :
    has (s.insert k v) a = if k = a then 1 else s.has a := by
  unfold has
  rw [getElem?_insert]
  by_cases h : k = a <;> simp [h]

theorem has_erase (s : Store α) (k a : Nat) :
    has (s.erase k) a = if k = a then 0 else s.has a := by
  unfold has
  rw [getElem?_erase]
  by_cases h : k = a <;> simp [h]

/-- Whether there is an entry is not changed by a change of what it says. -/
theorem has_of_map {s t : Store α} {φ : α → β} {k : Nat} (h : t[k]?.map φ = s[k]?.map φ) :
    t.has k = s.has k := by
  unfold has
  rw [← Option.isSome_map (f := φ), h, Option.isSome_map]

theorem contains_insert (s : Store α) (k a : Nat) (v : α) :
    (s.insert k v).contains a = true ↔ k = a ∨ s.contains a := by
  simp only [contains_eq_isSome, getElem?_insert]
  by_cases h : k = a <;> simp [h]

theorem contains_erase (s : Store α) (k a : Nat) :
    (s.erase k).contains a = true ↔ k ≠ a ∧ s.contains a := by
  simp only [contains_eq_isSome, getElem?_erase]
  by_cases h : k = a <;> simp [h]

theorem contains_of_map {s t : Store α} {φ : α → β} {k : Nat} (h : t[k]?.map φ = s[k]?.map φ) :
    t.contains k = s.contains k := by
  simp only [contains_eq_isSome]
  rw [← Option.isSome_map (f := φ), h, Option.isSome_map]

end KernelObjects.Store
