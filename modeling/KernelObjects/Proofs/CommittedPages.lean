import KernelObjects.Proofs.Spread
import KernelObjects.Proofs.CloneFamilies

/-
# The pages that a range gives and takes

A range of bytes is committed and given back in whole pages: all those that have a byte of the
range.  The first page is found by rounding the start down and the last one by rounding the end up,
so a range that is empty and lies in the midst of a page still touches that page
(`Page.mem_covering_iff`).  That is the only range that touches more than it has bytes in.

**Why no call runs into the end of the words.**  The size of an object that is there is a whole
number of pages (`System.Lodged`), whatever clients wrote into lists of clones, and so the end of a
range that lies inside can be rounded up.

**When giving back returns.**  Pages that are given back are told of to the family, and where lists
of clones were written by hand that may have no end (`System.ChangeEnds`).  What is said of a call
that gives back is said for the case that telling ends; where clones are entered by cloning only, it
always does.
-/

namespace KernelObjects

/-! ## 1. Every VM object has a size

The trees of clones say the same and more, but only as long as nobody writes into a list by hand.
Pages are committed in any run, so the size alone is followed here, through all runs. -/

/-- **Every VM object is lodged**: its family keeps a member of it, with a whole number of pages. -/
structure System.Lodged (s : System) : Prop where
  /-- A family is named after its oldest object. -/
  family : ∀ {v : Nat} {o : Vmo.Kin}, s.vmoKin v = some o → o.family ≤ v
  member : ∀ {v : Nat} {o : Vmo.Kin}, s.vmoKin v = some o →
    ∃ m, s.memberKin o.family v = some m ∧ Page.size ∣ m.size ∧ m.size ≤ Word.max

namespace System

variable {s t : System} {d : List Task}

/-- Whether every object that is there was there before and is still a member of its family, of the
same size or of another one in whole pages. -/
def KeepsLodgings (s t : System) : Prop :=
  ∀ (v : Nat) (o : Vmo.Kin), t.vmoKin v = some o → s.vmoKin v = some o ∧
    ∀ m, s.memberKin o.family v = some m → ∃ n, t.memberKin o.family v = some n ∧
      (n.size = m.size ∨ Page.size ∣ n.size ∧ n.size ≤ Word.max)

/-- Objects that keep their lodgings are lodged. -/
theorem Lodged.kept (h : s.Lodged) (hk : KeepsLodgings s t) : t.Lodged where
  family ho := h.family (hk _ _ ho).1
  member ho := by
    obtain ⟨hold, hmember⟩ := hk _ _ ho
    obtain ⟨m, hm, hsize⟩ := h.member hold
    obtain ⟨n, hn, he | hwhole⟩ := hmember m hm
    · exact ⟨n, hn, by rwa [he]⟩
    · exact ⟨n, hn, hwhole⟩

/-- Lodgings are a matter of the kin of objects and of members, -/
theorem keepsLodgings_of_kin (hV : t.vmoKin = s.vmoKin) (hM : t.memberKin = s.memberKin) :
    KeepsLodgings s t :=
  fun _ _ ho => ⟨hV ▸ ho, fun m hm => ⟨m, hM ▸ hm, .inl rfl⟩⟩

/-- so nothing else moves anybody. -/
theorem keepsLodgings_of_same (hv : t.vmos = s.vmos) (hf : t.families = s.families) :
    KeepsLodgings s t := by
  refine keepsLodgings_of_kin ?_ ?_
  · unfold vmoKin
    rw [hv]
  · unfold memberKin memberIn
    rw [hf]

/-- A member is written to that keeps its size, or gets one in whole pages. -/
theorem modifyMember_keepsLodgings {f : FamilyId} {v : VmoId} {g : Member → Member}
    (hg : ∀ m, s.memberIn f v = some m →
      (g m).size = m.size ∨ Page.size ∣ (g m).size ∧ (g m).size ≤ Word.max) :
    KeepsLodgings s (s.modifyMember f v g) := by
  refine fun u o ho => ⟨ho, fun a ha => ?_⟩
  obtain ⟨m, hm, rfl⟩ := Option.map_eq_some_iff.1 ha
  rw [memberKin, memberIn_modifyMember, hm]
  split
  · rename_i hfu
    obtain ⟨rfl, rfl⟩ := hfu
    exact ⟨_, rfl, hg m hm⟩
  · exact ⟨_, rfl, .inl rfl⟩

/-- A list that loses a clone is no lodging. -/
theorem dropClone_keepsLodgings (s : System) (v c : VmoId) : KeepsLodgings s (s.dropClone v c) := by
  obtain ⟨he, -⟩ | ⟨o, m, m', -, hm, hforget, he⟩ := s.dropClone_cases v c
  · rw [he]
    exact keepsLodgings_of_same rfl rfl
  · rw [he]
    refine modifyMember_keepsLodgings fun a ha => .inl ?_
    cases hm.symm.trans ha
    exact (Member.of_forgetClone hforget).2.1

/-- Who keeps a lodging twice keeps it. -/
theorem KeepsLodgings.trans {u : System} (h : KeepsLodgings s t) (h' : KeepsLodgings t u) :
    KeepsLodgings s u := by
  intro v o ho
  obtain ⟨hmid, hmember'⟩ := h' v o ho
  obtain ⟨hold, hmember⟩ := h v o hmid
  refine ⟨hold, fun m hm => ?_⟩
  obtain ⟨n, hn, hsize⟩ := hmember m hm
  obtain ⟨r, hr, he | hwhole⟩ := hmember' n hn
  · exact ⟨r, hr, by rwa [he]⟩
  · exact ⟨r, hr, .inr hwhole⟩

/-- An object goes; what stays has lost nothing. -/
theorem withoutVmo_keepsLodgings (s : System) (v : VmoId) (o : Vmo) :
    KeepsLodgings s (s.withoutVmo v o) := by
  set t : System := { s with
    refs := s.refs.release (.vmo v)
    vmos := s.vmos.erase v
    vmoList := s.vmoList.erase v }
  have hgone : ∀ {u : Nat} {r : Vmo.Kin}, t.vmoKin u = some r → v ≠ u ∧ s.vmoKin u = some r := by
    intro u r hr
    have hr : (s.vmos.erase v)[u]?.map Vmo.kin = some r := hr
    rw [Store.getElem?_erase] at hr
    split at hr
    · cases hr
    · rename_i hne
      exact ⟨hne, hr⟩
  have herased : KeepsLodgings s t := fun _ _ hr => ⟨(hgone hr).2, fun m hm => ⟨m, hm, .inl rfl⟩⟩
  -- The object may leave a list before its family forgets it.  Neither touches a size, and the
  -- object that is forgotten has lost its record by then.
  obtain ⟨u, hu, hkeep, hkin⟩ : ∃ u : System,
      s.withoutVmo v o = { u with families := u.families.modify o.family fun f => f.erase v } ∧
      KeepsLodgings t u ∧ u.vmoKin = t.vmoKin := by
    unfold withoutVmo
    cases o.parent with
    | none => exact ⟨t, rfl, keepsLodgings_of_same rfl rfl, rfl⟩
    | some p =>
      obtain ⟨families, he, -⟩ := t.dropClone_eq p v
      refine ⟨t.dropClone p v, rfl, dropClone_keepsLodgings t p v, ?_⟩
      rw [he]
      rfl
  refine (herased.trans hkeep).trans ?_
  rw [hu]
  intro a r hr
  have hr : u.vmoKin a = some r := hr
  refine ⟨hr, fun m hm => ⟨m, ?_, .inl rfl⟩⟩
  have hne : v ≠ a := (hgone (hkin ▸ hr)).1
  obtain ⟨n, hn, rfl⟩ := Option.map_eq_some_iff.1 hm
  obtain ⟨g, hg, hgn⟩ := Option.bind_eq_some_iff.1 hn
  rw [memberKin, memberIn_modifyFamily]
  split
  · rw [hg, Option.bind_some, Store.getElem?_erase, if_neg hne, hgn, Option.map_some]
  · rw [hn, Option.map_some]

/-! ### Births -/

/-- An object of a state with one more is the new one or an old one. -/
theorem vmoKin_born (hacc : Accounted s d) {vmo : Vmo}
    (hV : t.vmos = s.vmos.insert s.nextVmo vmo) {u : Nat} {r : Vmo.Kin}
    (hr : t.vmoKin u = some r) :
    u = s.nextVmo ∧ r = vmo.kin ∨ u < s.nextVmo ∧ s.vmoKin u = some r := by
  have hr : (s.vmos.insert s.nextVmo vmo)[u]?.map Vmo.kin = some r := hV ▸ hr
  rw [vmoKin_insert] at hr
  split at hr
  · rename_i he
    cases hr
    exact .inl ⟨he.symm, rfl⟩
  · exact .inr ⟨vmoKin_lt hacc hr, hr⟩

/-- The founder of a family is lodged in it. -/
theorem Lodged.vmo_born (h : s.Lodged) (hacc : Accounted s d) {vmo : Vmo} {member : Member}
    (hf : vmo.family = s.nextVmo) (hs : Page.size ∣ member.size ∧ member.size ≤ Word.max) :
    (s.withVmo vmo member).Lodged := by
  constructor
  case family =>
    intro u r hr
    rcases vmoKin_born hacc rfl hr with ⟨rfl, rfl⟩ | ⟨-, hold⟩
    · exact Nat.le_of_eq hf
    · exact h.family hold
  case member =>
    intro u r hr
    rw [memberKin_withVmo]
    rcases vmoKin_born hacc rfl hr with ⟨rfl, rfl⟩ | ⟨hlt, hold⟩
    · exact ⟨member.kin, (if_pos hf.symm).trans (if_pos rfl), hs⟩
    · -- an old object is of an old family
      have hne : s.nextVmo ≠ r.family :=
        Nat.ne_of_gt (Nat.lt_of_le_of_lt (h.family hold) hlt)
      rw [if_neg hne]
      exact h.member hold

/-- A clone is lodged with its original, whose list is written to but not its size. -/
theorem Lodged.clone_born (h : s.Lodged) (hacc : Accounted s d) {v : VmoId} {o vmo : Vmo}
    {member : Member} (ho : s.vmos[v]? = some o) (hf : vmo.family = o.family)
    (hs : Page.size ∣ member.size ∧ member.size ≤ Word.max) :
    (s.withClone v vmo member).Lodged := by
  have hv : s.vmoKin v = some o.kin := vmoKin_of_get ho
  have hlt : v < s.nextVmo := vmoKin_lt hacc hv
  obtain ⟨a, ha, hsize⟩ := h.member hv
  obtain ⟨m, hm, rfl⟩ := Option.map_eq_some_iff.1 ha
  have hmv : s.memberIn vmo.family v = some m := hf ▸ hm
  constructor
  case family =>
    intro u r hr
    rcases vmoKin_born hacc rfl hr with ⟨rfl, rfl⟩ | ⟨-, hold⟩
    · exact Nat.le_trans (Nat.le_of_eq hf) (Nat.le_trans (h.family hv) (Nat.le_of_lt hlt))
    · exact h.family hold
  case member =>
    intro u r hr
    rw [memberKin_withClone (Nat.ne_of_lt hlt) hmv]
    -- The member of the new object, the one of its original, whose list is longer, and the
    -- others.
    rcases vmoKin_born hacc rfl hr with ⟨rfl, rfl⟩ | ⟨hu, hold⟩
    · exact ⟨member.kin, if_pos ⟨rfl, rfl⟩, hs⟩
    · rw [if_neg fun he => Nat.ne_of_gt hu he.2]
      obtain ⟨b, hb, hwhole⟩ := h.member hold
      split
      · rename_i he
        obtain ⟨hfam, rfl⟩ := he
        rw [hv] at hold
        cases hold
        exact ⟨_, rfl, hsize⟩
      · exact ⟨b, hb, hwhole⟩

end System

/-! ### Runs -/

/-- Nobody is put out: an object that goes takes its own member along and no other. -/
theorem Decline.lodged {K P : Koid → Prop} {w w' : World} (h : Decline K P w w')
    (hl : w.system.Lodged) : w'.system.Lodged := by
  cases h with
  | inert hi =>
    exact hl.kept (System.keepsLodgings_of_kin (funext hi.vmo)
      (funext fun f => funext (hi.member f)))
  | @vmo s _ v o => exact hl.kept (s.withoutVmo_keepsLodgings v o)
  | _ => exact hl.kept (System.keepsLodgings_of_same rfl rfl)

/-- Births lodge what is born; a resize gives another size in whole pages. -/
theorem Birth.lodged {A : Prop} {w w' : World} (h : Birth A False w w')
    (hacc : Accounted w.system w.dues) (hl : w.system.Lodged) : w'.system.Lodged := by
  cases h with
  | vmo _ hf _ hs => exact hl.vmo_born hacc hf hs
  | clone ho _ hf _ hs => exact hl.clone_born hacc ho hf hs
  | @resize s d f v g size hg hs =>
    refine hl.kept (System.modifyMember_keepsLodgings fun m hm => .inr ?_)
    have hsize : (g m).size = size := congrArg Member.Kin.size (hg m hm)
    rwa [hsize]
  | rewire hC => exact hC.elim
  | _ => exact hl.kept (System.keepsLodgings_of_same rfl rfl)

/-- So lodgings are kept along every run of moves. -/
theorem Moves.lodged {A : Prop} {w w' : World} (h : Moves A False w w')
    (hacc : Accounted w.system w.dues) (hl : w.system.Lodged) : w'.system.Lodged := by
  induction h with
  | refl => exact hl
  | tail hrun hmove ih =>
    rcases hmove with hmove | hmove
    · exact hmove.lodged ih
    · exact hmove.lodged (Moves.accounted hrun hacc) ih

namespace World

variable {P : System → Op → Prop} {w : World}

/-- **In every state that operations lead to every VM object is lodged**, also where lists of clones
were written by hand. -/
theorem Ran.lodged (h : w.Ran P) : w.system.Lodged := by
  induction h with
  | start =>
    exact ⟨fun ho => by simp [System.vmoKin, System.initial] at ho,
      fun ho => by simp [System.vmoKin, System.initial] at ho⟩
  | reorder _ _ ih => exact ih
  | @act w op h _ ih =>
    -- What writes lists by hand is no move, so it is looked at apart: it changes no size and no
    -- family.  Every other operation is a run of moves.
    by_cases hr : op.Rewires
    · unfold Op.Rewires at hr
      split at hr
      · rename_i f v c _
        refine ih.kept ?_
        show System.KeepsLodgings w.system (w.system.recordClone f v c).2
        rw [System.recordClone_eq]
        exact System.modifyMember_keepsLodgings fun m _ => .inl rfl
      · rename_i v c _
        refine ih.kept ?_
        show System.KeepsLodgings w.system (w.system.forgetClone v c)
        obtain ⟨objects, trace, he, -⟩ := w.system.forgetClone_eq v c
        rw [he]
        exact (w.system.dropClone_keepsLodgings v c).trans
          (System.keepsLodgings_of_same rfl rfl)
      · exact hr.elim
    · exact (act_moves (A := True) h.passed.accounted op (fun _ => trivial) hr).lodged
        h.passed.accounted ih

end World

/-! ## 2. The pages of a range

A range in bytes and the pages that it covers.  The two ends of the range are rounded outwards, so
an empty range that lies in the midst of a page covers that page; at the border of two pages it
covers none. -/

namespace Page

variable {offset length p : Nat} {bytes : Nat} {pages : Nat × Nat}

/-- Whether a page has a byte of a range. -/
def Meets (offset length p : Nat) : Prop :=
  ∃ x, (p * size ≤ x ∧ x < (p + 1) * size) ∧ offset ≤ x ∧ x < offset + length

/-- Whether a range is empty and lies in the midst of a page. -/
def Pricks (offset length p : Nat) : Prop := length = 0 ∧ ¬ size ∣ offset ∧ p = offset / size

/-- A range touches the pages that have a byte of it, or the one that it lies in the midst of. -/
def Touches (offset length p : Nat) : Prop := Meets offset length p ∨ Pricks offset length p

/-- A range meets a page if it is not empty, starts before the end of the page and ends after its
start. -/
theorem meets_iff : Meets offset length p ↔
    0 < length ∧ offset < (p + 1) * size ∧ p * size < offset + length := by
  constructor
  · rintro ⟨x, hx, hr⟩
    omega
  · rintro ⟨hpos, hfirst, hlast⟩
    have hpage : p * size < (p + 1) * size := Nat.mul_lt_mul_of_pos_right (Nat.lt_succ_self p)
      (by decide)
    rcases Nat.le_total offset (p * size) with hle | hle
    · exact ⟨p * size, ⟨Nat.le_refl _, hpage⟩, hle, hlast⟩
    · exact ⟨offset, ⟨hle, hfirst⟩, Nat.le_refl _, Nat.lt_add_of_pos_right hpos⟩

/-- **What is covered is what is touched.** -/
theorem mem_covering_iff (h : covering bytes offset length = .ok pages) (p : Nat) :
    pages.1 ≤ p ∧ p < pages.1 + pages.2 ↔ Touches offset length p := by
  obtain ⟨-, -, last, hlast, rfl⟩ := covering_eq_ok h
  have hroom : offset + length + (size - 1) ≤ Word.max := by
    obtain ⟨c, hc, -⟩ := Option.map_eq_some_iff.1 hlast
    exact (Word.add?_eq_some_iff.1 hc).2
  rw [ceil?_of_le hroom] at hlast
  cases hlast
  unfold Touches Pricks
  rw [meets_iff]
  simp only [floor, size]
  omega

/-- A range that ends inside of whole pages covers some of them. -/
theorem covering_of_le (hd : size ∣ bytes) (hmax : bytes ≤ Word.max)
    (hle : offset + length ≤ bytes) : ∃ pages, covering bytes offset length = .ok pages := by
  have hroom : offset + length + (size - 1) ≤ Word.max :=
    Nat.le_trans (Nat.add_le_add_right hle _) (add_le_max hd hmax)
  have hsum : Word.add? offset length = some (offset + length) :=
    Word.add?_eq_some_iff.2 ⟨rfl, Nat.le_trans hle hmax⟩
  unfold covering
  rw [hsum]
  dsimp only
  rw [if_neg (Nat.not_lt.2 hle), ceil?_of_le hroom]
  exact ⟨_, rfl⟩

/-- A range that does not fit into a word or does not end inside covers nothing. -/
theorem covering_of_lt (h : Word.max < offset + length ∨ bytes < offset + length) :
    covering bytes offset length = .error .outOfRange := by
  unfold covering
  cases hsum : Word.add? offset length with
  | none => rfl
  | some stop =>
    obtain ⟨rfl, hmax⟩ := Word.add?_eq_some_iff.1 hsum
    dsimp only
    rw [if_pos (h.resolve_left (Nat.not_lt.2 hmax))]

/-- Only a range that is empty and lies in the midst of a page touches a page of which it has no
byte. -/
theorem not_meets_of_pricks (h : Pricks offset length p) : ¬ Meets offset length p := by
  rw [meets_iff, h.1]
  exact fun hm => Nat.lt_irrefl 0 hm.1

end Page

/-! ## 3. What the calls do

A range is looked at only after the calls have found that it ends inside of the object. -/

namespace System

variable {s : System} {v : Nat} {o : Vmo} {m : Member} {offset length : Nat}

/-- The state in which other pages of an object have memory. -/
def withPages (s : System) (v : VmoId) (pages : PageSet) : System :=
  s.modifyMember (s.familyOf v) v fun m => { m with committed := pages }

/-- Other pages of a member are all that changes of it. -/
theorem member_withPages (hm : s.member v = some m) (pages : PageSet) :
    (s.withPages v pages).member v = some { m with committed := pages } := by
  obtain ⟨o, ho, -⟩ := Option.bind_eq_some_iff.1 hm
  rw [withPages, familyOf_of_get ho, member_modifyMember ho, if_pos rfl, hm, Option.map_some]

/-- What is written to the one member that there is. -/
theorem modifyMember_eq (hm : s.member v = some m) (pages : PageSet) :
    (s.modifyMember (s.familyOf v) v fun _ => { m with committed := pages }) =
      s.withPages v pages := by
  obtain ⟨o, ho, hin⟩ := Option.bind_eq_some_iff.1 hm
  obtain ⟨f, hf, hfv⟩ := Option.bind_eq_some_iff.1 hin
  unfold withPages modifyMember
  rw [familyOf_of_get ho]
  congr 1
  ext1 a
  rw [Store.getElem?_modify, Store.getElem?_modify]
  split
  · rename_i ha
    subst ha
    rw [hf, Option.map_some, Option.map_some]
    congr 1
    ext1 u
    rw [Store.getElem?_modify, Store.getElem?_modify]
    split
    · rename_i hu
      subst hu
      rw [hfv, Option.map_some, Option.map_some]
    · rfl
  · rfl

/-- A commit past the end is refused before anything is written, -/
theorem commitRange_of_lt (hm : s.member v = some m)
    (h : Word.max < offset + length ∨ m.size < offset + length) :
    s.commitRange v offset length = (.error .outOfRange, s) := by
  unfold commitRange Member.commit
  rw [hm]
  dsimp only
  rw [Page.covering_of_lt h]
  rfl

/-- and one that ends inside writes the pages that the range covers. -/
theorem commitRange_of_le (hm : s.member v = some m) {pages : Nat × Nat}
    (h : Page.covering m.size offset length = .ok pages) :
    s.commitRange v offset length =
      (.ok (), s.withPages v (m.committed.insertFrom pages.1 pages.2)) := by
  unfold commitRange Member.commit
  rw [hm]
  dsimp only
  rw [h]
  dsimp only [Except.map]
  rw [modifyMember_eq hm]

/-- That it is a clone is seen first, whatever the range is. -/
theorem decommitRange_of_clone (ho : s.vmos[v]? = some o) (hp : o.parent.isSome) :
    s.decommitRange v offset length = (.error .notSupported, s) := by
  unfold decommitRange
  rw [ho, Option.bind_some, if_pos hp]

/-- Then a range past the end is refused. -/
theorem decommitRange_of_lt (ho : s.vmos[v]? = some o) (hp : o.parent = none)
    (hm : s.member v = some m) (h : Word.max < offset + length ∨ m.size < offset + length) :
    s.decommitRange v offset length = (.error .outOfRange, s) := by
  unfold decommitRange Member.decommit
  rw [ho, Option.bind_some, hp, if_neg (by decide), hm]
  dsimp only
  rw [Page.covering_of_lt h]
  rfl

/-- Mappings hear of what is given back, and nothing else changes besides. -/
theorem decommitRange_of_le (ho : s.vmos[v]? = some o) (hp : o.parent = none)
    (hm : s.member v = some m) {pages : Nat × Nat}
    (h : Page.covering m.size offset length = .ok pages) :
    let t := s.withPages v (m.committed.eraseFrom pages.1 pages.2)
    ∃ mappings, t.rangeChanged o.family v offset length = { t with mappings } ∧
      s.decommitRange v offset length = (.ok (), { t with mappings }) := by
  intro t
  obtain ⟨mappings, he⟩ := t.rangeChanged_eq o.family v offset length
  refine ⟨mappings, he, ?_⟩
  unfold decommitRange Member.decommit
  rw [ho, Option.bind_some, hp, if_neg (by decide), hm]
  dsimp only
  rw [h]
  dsimp only [Except.map]
  rw [modifyMember_eq hm, familyOf_of_get ho, he]

/-- What other pages have memory makes no difference to the lists of clones. -/
theorem Cloned.withPages {X : Prop} (h : s.Cloned X) (v : VmoId) (pages : PageSet) :
    (s.withPages v pages).Cloned X :=
  h.modifyMember fun _ _ => ⟨.inl rfl, .refl _, fun _ => List.Subset.refl _⟩

end System

/-! ## 4. Ranges in every run

The statement about one call is put together from its parts; what depends on the lists of clones,
that telling the family ends, stands as a condition in it. -/

/-- What holds of a VM object and of all ranges of it that are committed or given back. -/
structure System.RangesCovered (s : System) (v : VmoId) (o : Vmo) (m : Member) : Prop where
  /-- A range that does not fit into a word or does not end inside is refused. -/
  refused : ∀ {offset length : Nat}, Word.max < offset + length ∨ m.size < offset + length →
    s.commitRange v offset length = (.error .outOfRange, s) ∧
      ∃ e, s.decommitRange v offset length = (.error e, s)
  /-- A clone gives nothing back. -/
  clone : o.parent.isSome → ∀ offset length,
    s.decommitRange v offset length = (.error .notSupported, s)
  /-- The pages that are touched get memory, -/
  commit : ∀ {offset length : Nat}, offset + length ≤ m.size → ∃ c : PageSet,
    s.commitRange v offset length = (.ok (), s.withPages v c) ∧
      (s.withPages v c).member v = some { m with committed := c } ∧
      (∀ p, p ∈ c ↔ p ∈ m.committed ∨ Page.Touches offset length p) ∧
      ((∀ p, p ∈ c ↔ p ∈ m.committed ∨ Page.Meets offset length p) ↔
        ∀ p, Page.Pricks offset length p → p ∈ m.committed)
  /-- or lose it.  If it ends to tell the family, the call succeeds and has told it. -/
  decommit : o.parent = none → ∀ {offset length : Nat}, offset + length ≤ m.size →
    ∃ c : PageSet,
      ((s.withPages v c).ChangeEnds o.family v offset length → ∃ mappings : Store Mapping,
        s.decommitRange v offset length = (.ok (), { s.withPages v c with mappings }) ∧
        (s.withPages v c).ChangeTold o.family v offset length
          { s.withPages v c with mappings }) ∧
      (s.withPages v c).member v = some { m with committed := c } ∧
      (∀ p, p ∈ c ↔ p ∈ m.committed ∧ ¬ Page.Touches offset length p) ∧
      ((∀ p, p ∈ c ↔ p ∈ m.committed ∧ ¬ Page.Meets offset length p) ↔
        ∀ p, Page.Pricks offset length p → p ∉ m.committed)

namespace World

variable {P : System → Op → Prop} {w : World}

/-- **Ranges cover the pages that they touch**, for every VM object that is there, in every state
that operations lead to.  The pages that have a byte of the range get memory or lose it, and no
others do; but an empty range in the midst of a page counts as a range of that page.  So the set
of the pages that have a byte of the range is what is added or taken away just as long as the range
is not such a one, or the page had memory already, or had none.

A call that gives back returns if it ends to tell the family, which is always so where clones are
entered in lists by cloning only. -/
theorem Ran.ranges_covered (h : w.Ran P) {v : Nat} {o : Vmo} (ho : w.system.vmos[v]? = some o) :
    ∃ m, w.system.member v = some m ∧ w.system.RangesCovered v o m ∧
      ((∀ s op, P s op → op.ListsByCloning) → ∀ c {offset length : Nat}, offset + length ≤ m.size →
        (w.system.withPages v c).ChangeEnds o.family v offset length) := by
  obtain ⟨k, hk, hd, hmax⟩ := h.lodged.member (System.vmoKin_of_get ho)
  obtain ⟨m, hin, rfl⟩ := Option.map_eq_some_iff.1 hk
  have hm : w.system.member v = some m := Option.bind_eq_some_iff.2 ⟨o, ho, hin⟩
  have hwords : ∀ {offset length : Nat}, offset + length ≤ m.size →
      offset ≤ Word.max ∧ length ≤ Word.max := by
    intro offset length hle
    exact ⟨Nat.le_trans (Nat.le_trans (Nat.le_add_right _ _) hle) hmax,
      Nat.le_trans (Nat.le_trans (Nat.le_add_left _ _) hle) hmax⟩
  refine ⟨m, hm, ?_, fun hP c offset length hle => ?_⟩
  -- clones that were entered by cloning make a forest, where every change comes to an end
  case refine_2 =>
    have hcloned : w.system.Cloned False := (h.mono fun s op hop => hP s op hop).cloned
    exact (hcloned.withPages v c).changeEnds _ _ (hwords hle).1 (hwords hle).2
  constructor
  case refused =>
    intro offset length hlt
    refine ⟨System.commitRange_of_lt hm hlt, ?_⟩
    cases hp : o.parent with
    | none => exact ⟨_, System.decommitRange_of_lt ho hp hm hlt⟩
    | some p => exact ⟨_, System.decommitRange_of_clone ho (by rw [hp]; rfl)⟩
  case clone => exact fun hp offset length => System.decommitRange_of_clone ho hp
  case commit =>
    intro offset length hle
    obtain ⟨pages, hpages⟩ := Page.covering_of_le hd hmax hle
    -- the pages with memory afterwards, by what covering means
    have hmem : ∀ p, p ∈ m.committed.insertFrom pages.1 pages.2 ↔
        p ∈ m.committed ∨ Page.Touches offset length p := fun p => by
      rw [PageSet.mem_insertFrom, Page.mem_covering_iff hpages]
    refine ⟨_, System.commitRange_of_le hm hpages, System.member_withPages hm _, hmem, ?_⟩
    constructor
    · intro hall p hp
      exact ((hall p).1 ((hmem p).2 (.inr (.inr hp)))).resolve_right (Page.not_meets_of_pricks hp)
    · intro hpricks p
      rw [hmem, Page.Touches, ← or_assoc]
      exact or_iff_left_of_imp fun hp => .inl (hpricks p hp)
  case decommit =>
    intro hp offset length hle
    obtain ⟨pages, hpages⟩ := Page.covering_of_le hd hmax hle
    have hmem : ∀ p, p ∈ m.committed.eraseFrom pages.1 pages.2 ↔
        p ∈ m.committed ∧ ¬ Page.Touches offset length p := fun p => by
      rw [PageSet.mem_eraseFrom, Page.mem_covering_iff hpages]
    obtain ⟨mappings, htold, hrun⟩ := System.decommitRange_of_le ho hp hm hpages
    -- what is written does not depend on the end of the loop, that the call returns does
    refine ⟨_, fun hends => ⟨mappings, hrun, ?_⟩, System.member_withPages hm _, hmem, ?_⟩
    · rw [← htold]
      exact hends.told (hwords hle).1 (hwords hle).2
    constructor
    · intro hall p hprick hin
      have hkept := (hall p).2 ⟨hin, Page.not_meets_of_pricks hprick⟩
      exact ((hmem p).1 hkept).2 (.inr hprick)
    · intro hpricks p
      rw [hmem, Page.Touches]
      refine and_congr_right fun hin => not_congr ?_
      exact or_iff_left_of_imp fun hprick => absurd hin (hpricks p hprick)

/-- An object of four pages, and a clone of it. -/
def rangeOps : List Op :=
  [.createVmo 0x4000 0,
    .cloneVmo 1 { resizable := false, offset := 0, size := 0x1000, copyName := false }]

theorem ran_range : (run rangeOps).Ran fun _ => Op.ListsByCloning :=
  Ran.start.foldl ⟨trivial, trivial, trivial⟩

/-- A range of one page that starts in the midst of a page has bytes of two.  To give it back
succeeds. -/
theorem Ran.ranges_covered_of_two :
    let s := (run rangeOps).system
    ∃ (o : Vmo) (m : Member), s.vmos[1]? = some o ∧ s.member 1 = some m ∧ s.RangesCovered 1 o m ∧
      (∃ c : PageSet, s.commitRange 1 0x800 0x1000 = (.ok (), s.withPages 1 c) ∧
        ∀ p, p ∈ c ↔ p = 0 ∨ p = 1) ∧
      (∀ c, (s.withPages 1 c).ChangeEnds o.family 1 0x800 0x1000) ∧
      (s.decommitRange 1 0x800 0x1000).1 = .ok () := by
  have hthere : ((run rangeOps).system.vmos[1]?).map Vmo.parent = some none := by decide +kernel
  have hpages : ((run rangeOps).system.member 1).map (fun m => (m.size, m.committed.toList)) =
      some (0x4000, []) := by decide +kernel
  obtain ⟨o, ho, hp⟩ := Option.map_eq_some_iff.1 hthere
  obtain ⟨m, hm, hcovered, hends⟩ := ran_range.ranges_covered ho
  rw [hm, Option.map_some, Option.some_inj] at hpages
  obtain ⟨hsize, hnone⟩ := Prod.mk.inj hpages
  have hle : 0x800 + 0x1000 ≤ m.size := by
    rw [hsize]
    decide
  -- The range ends inside of the object, so it is committed; what the pages are is then
  -- arithmetic.
  obtain ⟨c, hrun, -, hmem, -⟩ := hcovered.commit hle
  have hends : ∀ c, ((run rangeOps).system.withPages 1 c).ChangeEnds o.family 1 0x800 0x1000 :=
    fun c => hends (fun _ _ hop => hop) c hle
  refine ⟨o, m, ho, hm, hcovered, ⟨c, hrun, fun p => ?_⟩, hends, ?_⟩
  case refine_2 =>
    obtain ⟨c, hgive, -⟩ := hcovered.decommit hp hle
    obtain ⟨mappings, hrun, -⟩ := hgive (hends c)
    rw [hrun]
  have hempty : p ∉ m.committed := by
    rw [← Std.ExtTreeSet.mem_toList, hnone]
    exact List.not_mem_nil
  rw [hmem, or_iff_right hempty, Page.Touches, Page.meets_iff, Page.Pricks]
  simp only [Page.size]
  omega

/-- So an empty range may bring memory: the page that it lies in gets it, and has no byte of it. -/
theorem exists_page_of_empty_range :
    let s := (run rangeOps).system
    ∃ m n, s.member 1 = some m ∧ (s.commitRange 1 0x800 0).1 = .ok () ∧
      (s.commitRange 1 0x800 0).2.member 1 = some n ∧
      ¬ ∀ p, p ∈ n.committed ↔ p ∈ m.committed ∨ Page.Meets 0x800 0 p := by
  have hbefore : ((run rangeOps).system.member 1).map (fun m => m.committed.toList) = some [] := by
    decide +kernel
  have hafter : ((((run rangeOps).system.commitRange 1 0x800 0).2.member 1).map
      fun m => m.committed.toList) = some [0] := by decide +kernel
  obtain ⟨m, hm, hnone⟩ := Option.map_eq_some_iff.1 hbefore
  obtain ⟨n, hn, hone⟩ := Option.map_eq_some_iff.1 hafter
  refine ⟨m, n, hm, by decide +kernel, hn, fun hall => ?_⟩
  have hin : 0 ∈ n.committed := by
    rw [← Std.ExtTreeSet.mem_toList, hone]
    exact List.mem_singleton.2 rfl
  rcases (hall 0).1 hin with hold | hmeets
  · rw [← Std.ExtTreeSet.mem_toList, hnone] at hold
    exact List.not_mem_nil hold
  · exact Nat.lt_irrefl 0 (Page.meets_iff.1 hmeets).1

end World

end KernelObjects
