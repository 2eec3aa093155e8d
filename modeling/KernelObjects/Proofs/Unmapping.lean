import KernelObjects.Proofs.Propagate

/-
# What mappings unmap when pages are released

Releasing pages means two things: the object forgets that they have memory, and the mappings that
show some of them write down which parts they unmapped.  The first works on whole pages, the
second starts from the range that the caller named.

Shrinking an object names whole pages, and then every byte that shows a released page is
unmapped.  Giving back a range need not name whole pages.  In the object itself that makes no
difference, since there the range is widened to pages.  In a clone it does: the window of a clone
may start within a page, so the rest of a released page may lie in another page of the clone, or
in the window of a clone that has nothing of the named range
(`World.Reachable.released_unmapped`).

**The two directions.**  That a byte is unmapped if it is covered, and only then, is one
equivalence, and it comes from one: a change arrives at a byte exactly if the byte shows a byte of
the range (`CloneTrees.mem_affected_iff`).  What is left to do is to compare the named range with
the pages that it releases, and that is where the two calls differ (`PageCall.Covers`).

The results ask for a mapping that is registered with one object.  A mapping that a client
registers with several is told by each of them, in offsets of each, and what it writes down is no
longer a matter of what it shows.
-/

namespace KernelObjects

/-! ## 1. What is written down

A mapping adds to its list and takes nothing off it.  What is new is said by the bytes that it
has, and not by the spans, which may overlap. -/

/-- A mapping after it wrote down that the bytes of its window with a property were unmapped. -/
def Mapping.Unmaps (m m' : Mapping) (P : Nat → Prop) : Prop :=
  ∃ new : List Span, m' = { m with unmapped := m.unmapped ++ new } ∧
    ∀ y, (∃ a ∈ new, y ∈ a) ↔ y ∈ m.window ∧ P y

theorem Mapping.unmap_unmaps (m : Mapping) (s : Span) : m.Unmaps (m.unmap s) fun y => y ∈ s := by
  by_cases h : m.meets s
  · refine ⟨[s.inter m.window], by rw [unmap, if_pos h], fun y => ?_⟩
    simp only [List.mem_singleton, exists_eq_left, Span.mem_inter]
    exact and_comm
  · refine ⟨[], ?_, fun y => ?_⟩
    · rw [unmap_of_not_meets (Bool.eq_false_iff.2 h), List.append_nil]
    · refine iff_of_false (by simp) fun hy => h ?_
      exact mem_inter_window_of_mem hy.2 hy.1

/-- What happens to one mapping from one state to the next. -/
def System.Unmaps (i : MappingId) (P : Nat → Prop) (s t : System) : Prop :=
  ∀ m, s.mappings[i]? = some m → ∃ m', t.mappings[i]? = some m' ∧ m.Unmaps m' P

namespace System

variable {i : MappingId} {P Q : Nat → Prop} {s t u : System}

theorem Unmaps.of_same (h : t.mappings = s.mappings) (hP : ∀ y, ¬ P y) : Unmaps i P s t := by
  intro m hm
  refine ⟨m, h ▸ hm, [], by rw [List.append_nil], fun y => ?_⟩
  exact iff_of_false (by simp) fun hy => hP y hy.2

theorem Unmaps.trans (h : Unmaps i P s t) (h' : Unmaps i Q t u) :
    Unmaps i (fun y => P y ∨ Q y) s u := by
  intro m hm
  obtain ⟨m', hm', new, rfl, hnew⟩ := h m hm
  obtain ⟨m'', hm'', new', rfl, hnew'⟩ := h' _ hm'
  refine ⟨_, hm'', new ++ new', by rw [List.append_assoc], fun y => ?_⟩
  simp only [List.mem_append, or_and_right, exists_or, hnew, and_or_left]
  exact or_congr_right (hnew' y)

theorem Unmaps.congr (h : Unmaps i P s t) (hPQ : ∀ y, P y ↔ Q y) : Unmaps i Q s t := by
  obtain rfl : P = Q := funext fun y => propext (hPQ y)
  exact h

/-- What the steps of a fold unmap together. -/
theorem Unmaps.foldl {α : Type} {step : System → α → System} {R : α → Nat → Prop}
    (h : ∀ s a, Unmaps i (R a) s (step s a)) (as : List α) (s : System) :
    Unmaps i (fun y => ∃ a ∈ as, R a y) s (as.foldl step s) := by
  induction as generalizing s with
  | nil => exact .of_same rfl (by simp)
  | cons a as ih =>
    refine ((h s a).trans (ih (step s a))).congr fun y => ?_
    simp

/-- One mapping is told, and the others stay as they are. -/
theorem unmapSpan_unmaps (s : System) (j : MappingId) (span : Span) :
    Unmaps i (fun y => j = i ∧ y ∈ span) s (s.unmapSpan j span).2 := by
  intro m hm
  unfold unmapSpan
  dsimp only
  rw [Store.getElem?_modify, hm]
  by_cases hj : j = i
  · rw [if_pos hj]
    obtain ⟨new, he, hnew⟩ := m.unmap_unmaps span
    exact ⟨_, rfl, new, he, fun y => (hnew y).trans (and_congr_right' (and_iff_right hj).symm)⟩
  · rw [if_neg hj]
    refine ⟨m, rfl, [], by rw [List.append_nil], fun y => ?_⟩
    exact iff_of_false (by simp) fun hy => hj hy.2.1

/-- An object tells the mappings that are registered with it. -/
theorem unmapReach_unmaps (f : Family) (s : System) (r : Reach) :
    Unmaps i (fun y => ∃ o, f[r.vmo]? = some o ∧ i ∈ o.mappings ∧ y ∈ r.span.pageHull) s
      (unmapReach f s r) := by
  unfold unmapReach
  split
  · rename_i hn
    refine .of_same rfl ?_
    rintro y ⟨o, ho, -⟩
    rw [hn] at ho
    cases ho
  · rename_i o ho
    refine (Unmaps.foldl (fun s m => s.unmapSpan_unmaps m r.span.pageHull) o.mappings s).congr
      fun y => ?_
    simp [ho]

/-- What a mapping unmaps when the family hears of a change. -/
theorem rangeChanged_unmaps {F : FamilyId} {f : Family} (hf : s.families[F]? = some f) (v : VmoId)
    (offset length : Nat) :
    Unmaps i (fun y => ∃ r ∈ f.affected v (Span.ofLength offset length),
        ∃ o, f[r.vmo]? = some o ∧ i ∈ o.mappings ∧ y ∈ r.span.pageHull) s
      (s.rangeChanged F v offset length) := by
  unfold rangeChanged
  rw [hf]
  exact Unmaps.foldl (fun s r => unmapReach_unmaps f s r) _ s

/-- The VM objects that a mapping is registered with. -/
def registrants (s : System) (i : MappingId) : List VmoId :=
  s.vmos.keys.filter fun v => (s.member v).any fun m => i ∈ m.mappings

/-- The objects that a mapping is registered with are those that list it. -/
theorem mem_registrants {v : VmoId} :
    v ∈ s.registrants i ↔ ∃ m, s.member v = some m ∧ i ∈ m.mappings := by
  unfold registrants
  rw [List.mem_filter, Store.mem_keys_iff]
  constructor
  · rintro ⟨-, h⟩
    cases hm : s.member v with
    | none => simp [hm] at h
    | some m => exact ⟨m, rfl, by simpa [hm] using h⟩
  · rintro ⟨m, hm, hi⟩
    obtain ⟨o, ho, -⟩ := Option.bind_eq_some_iff.1 hm
    exact ⟨by rw [ho]; rfl, by rw [hm]; simpa using hi⟩

/-! ## 2. What a change of one member leaves alone

A call writes pages or a size first and tells the family afterwards.  Who shows what of whom is
the same in between, so the second step can be described in terms of the state before the call. -/

theorem member_modifyMember {v : Nat} {o : Vmo} (ho : s.vmos[v]? = some o) (g : Member → Member)
    (c : Nat) : (s.modifyMember o.family v g).member c =
      if v = c then (s.member c).map g else s.member c := by
  have hvmos : (s.modifyMember o.family v g).vmos = s.vmos := rfl
  unfold System.member
  rw [hvmos]
  cases hc : s.vmos[c]? with
  | none => simp
  | some q =>
    rw [Option.bind_some, Option.bind_some, memberIn_modifyMember]
    by_cases hv : v = c
    · subst hv
      obtain rfl : o = q := Option.some.inj (ho.symm.trans hc)
      rw [if_pos ⟨rfl, rfl⟩, if_pos rfl]
    · rw [if_neg fun h => hv h.2, if_neg hv]

/-- A change that leaves the list of mappings alone leaves the registrations alone. -/
theorem registrants_modifyMember {v : Nat} {o : Vmo} {n : Member} {g : Member → Member}
    (ho : s.vmos[v]? = some o) (hn : s.member v = some n) (hg : (g n).mappings = n.mappings)
    (i : MappingId) : (s.modifyMember o.family v g).registrants i = s.registrants i := by
  unfold registrants
  refine List.filter_congr fun c _ => ?_
  rw [member_modifyMember ho]
  split
  · rename_i hv
    subst hv
    simp [hn, hg]
  · rfl

/-- What a byte shows depends on the clones in between only, and these are younger. -/
theorem Shows.congr {v d : VmoId} {x y : Nat} (hs : s.CloneTrees) (hv : t.vmos = s.vmos)
    (hm : ∀ c, v < c → t.member c = s.member c) (h : s.Shows v x d y) : t.Shows v x d y := by
  induction h with
  | self => exact .self
  | @clone p c y o m ho hp hmem hy hz ih =>
    have hc : s.vmoKin c = some o.kin := vmoKin_of_get ho
    have hlt : v < c := by
      rcases hs.le_of_shows hz with ⟨rfl, -⟩ | hlt
      · exact (hs.parent hc hp).1
      · exact Nat.lt_trans hlt (hs.parent hc hp).1
    exact .clone (hv ▸ ho) hp ((hm c hlt).trans hmem) hy ih

/-- **What a mapping of one object unmaps when a range changes**: in the object itself the pages
around the range, in a clone the pages with a byte that shows a byte of the range. -/
theorem CloneTrees.rangeChanged_unmaps (hs : s.CloneTrees) {v d : VmoId} {o : Vmo} {n : Member}
    {g : Member → Member} (ho : s.vmos[v]? = some o) (hn : s.member v = some n)
    (ht : (s.modifyMember o.family v g).CloneTrees) (hg : (g n).mappings = n.mappings)
    (hreg : s.registrants i = [d]) {offset length : Nat}
    (hstop : (Span.ofLength offset length).stop + (Page.size - 1) ≤ Word.max) :
    Unmaps i
      (fun y => d = v ∧ y ∈ (Span.ofLength offset length).pageHull ∨
        d ≠ v ∧ ∃ x z, x ∈ Span.ofLength offset length ∧ s.Shows v x d z ∧
          z / Page.size = y / Page.size) s
      ((s.modifyMember o.family v g).rangeChanged o.family v offset length) := by
  -- the change of the one member is over by the time the family hears of it; whoever is younger,
  -- and what bytes show, is as it was before
  have hother : ∀ c, v < c → (s.modifyMember o.family v g).member c = s.member c := by
    intro c hc
    rw [member_modifyMember ho, if_neg (Nat.ne_of_lt hc)]
  have hregt := (registrants_modifyMember ho hn hg i).trans hreg
  have hgn : (s.modifyMember o.family v g).memberIn o.family v = some (g n) := by
    rw [System.member, ho, Option.bind_some] at hn
    rw [memberIn_modifyMember, if_pos ⟨rfl, rfl⟩, hn, Option.map_some]
  have hvmos : (s.modifyMember o.family v g).vmos = s.vmos := rfl
  have hmap : (s.modifyMember o.family v g).mappings = s.mappings := rfl
  generalize s.modifyMember o.family v g = t at ht hother hregt hgn hvmos hmap ⊢
  obtain ⟨f, hf, hfv⟩ := Option.bind_eq_some_iff.1 hgn
  have hrun := t.rangeChanged_unmaps (i := i) hf v offset length
  refine Unmaps.congr (P := _) (fun m hm => hrun m (hmap ▸ hm)) fun y => ?_
  have hshows : ∀ x z, t.Shows v x d z ↔ s.Shows v x d z := fun x z =>
    ⟨fun h => h.congr ht hvmos.symm fun c hc => (hother c hc).symm,
      fun h => h.congr hs hvmos hother⟩
  simp only [← hshows]
  rw [← ht.mem_affected_pages_iff hf hfv hstop]
  constructor
  · rintro ⟨r, hr, b, hb, hi, hy⟩
    obtain ⟨-, -, -, hmember⟩ := ht.member_eq hf hb
    have hd : r.vmo ∈ t.registrants i := mem_registrants.2 ⟨b, hmember, hi⟩
    rw [hregt, List.mem_singleton] at hd
    exact ⟨r, hr, hd, hy⟩
  · rintro ⟨r, hr, rfl, hy⟩
    obtain ⟨b, hb, hi⟩ := mem_registrants.1 (hregt ▸ List.mem_singleton_self r.vmo)
    obtain ⟨c, hc⟩ := Family.member_of_affected hfv hr
    obtain ⟨-, -, -, hmember⟩ := ht.member_eq hf hc
    rw [hb] at hmember
    cases hmember
    exact ⟨r, hr, b, hc, hi, hy⟩

end System

/-! ## 3. Calls that release pages

The two calls, and for each of them which pages it releases and of which bytes a mapping is
told. -/

/-- A call that may release pages of a VM object. -/
inductive PageCall where
  | decommit (offset length : Nat)
  | resize (size : Nat)

namespace PageCall

/-- Does what the call asks for. -/
def run (call : PageCall) (s : System) (v : VmoId) : Outcome Unit × System :=
  match call with
  | decommit offset length => s.decommitRange v offset length
  | resize size => s.resize v size

/-- Whether a call releases the page of a byte: one that the named range touches, or one past the
new end. -/
def Frees (call : PageCall) (s : System) (v : VmoId) (x : Nat) : Prop :=
  match call with
  | decommit offset length => ∃ pages, Page.covering (s.vmoSize v) offset length = .ok pages ∧
      pages.1 ≤ x / Page.size ∧ x / Page.size < pages.1 + pages.2
  | resize size => ∃ stop, Page.ceil? size = some stop ∧ stop ≤ x ∧ x < s.vmoSize v

/-- Whether a call is heard of at a byte of an object.  A range that is given back is heard of in a
clone only on pages that show a byte of the range itself. -/
def Covers (call : PageCall) (s : System) (v d : VmoId) (y : Nat) : Prop :=
  match call with
  | decommit offset length => d = v ∨ ∃ x z, x ∈ Span.ofLength offset length ∧
      s.Shows v x d z ∧ z / Page.size = y / Page.size
  | resize _ => True

end PageCall

/-- What the pages that a range touches are. -/
theorem Page.covering_eq_ok {size offset length : Nat} {pages : Nat × Nat}
    (h : Page.covering size offset length = .ok pages) :
    offset + length ≤ size ∧ (offset + length ≤ Word.max) ∧
      ∃ last, Page.ceil? (offset + length) = some last ∧ pages =
        (Page.floor offset / Page.size, last / Page.size - Page.floor offset / Page.size) := by
  unfold Page.covering at h
  split at h
  · cases h
  · rename_i stop hstop
    obtain ⟨rfl, hmax⟩ := Word.add?_eq_some_iff.1 hstop
    split at h
    · cases h
    · rename_i hle
      split at h
      · cases h
      · rename_i last hlast
        cases h
        exact ⟨by omega, hmax, last, hlast, rfl⟩

namespace System

variable {s : System} {v d : VmoId} {i : MappingId}

/-- A byte of a page that a range touches lies in the pages around the range. -/
theorem mem_pageHull_of_covering {size offset length x : Nat} {pages : Nat × Nat}
    (h : Page.covering size offset length = .ok pages) (hx : pages.1 ≤ x / Page.size)
    (hx' : x / Page.size < pages.1 + pages.2) : x ∈ (Span.ofLength offset length).pageHull := by
  obtain ⟨-, hmax, last, hlast, rfl⟩ := Page.covering_eq_ok h
  have hroom : offset + length + (Page.size - 1) ≤ Word.max := by
    unfold Page.ceil? at hlast
    obtain ⟨c, hc, -⟩ := Option.map_eq_some_iff.1 hlast
    exact (Word.add?_eq_some_iff.1 hc).2
  have hstop : (Span.ofLength offset length).stop = offset + length := Word.addSat_of_le hmax
  rw [Span.mem_pageHull_iff (by rw [hstop]; exact hroom), hstop]
  rw [Page.ceil?_of_le hroom] at hlast
  cases hlast
  simp only [Page.floor, Page.size, Span.ofLength] at hx hx' ⊢
  omega

/-- What giving back a range does, if it is not refused. -/
theorem decommitRange_ok {offset length : Nat}
    (hok : (s.decommitRange v offset length).1 = .ok ()) :
    ∃ o n pages, s.vmos[v]? = some o ∧ s.member v = some n ∧
      Page.covering n.size offset length = .ok pages ∧
      (s.decommitRange v offset length).2 = (s.modifyMember o.family v fun _ =>
        { n with committed := n.committed.eraseFrom pages.1 pages.2 }).rangeChanged
          o.family v offset length := by
  obtain ⟨e, he⟩ | ⟨o, n, pages, ho, -, hn, hcover, he⟩ := s.decommitRange_cases v offset length
  · rw [he] at hok
    cases hok
  · exact ⟨o, n, pages, ho, Option.bind_eq_some_iff.2 ⟨o, ho, hn⟩, hcover, congrArg Prod.snd he⟩

/-- What a change of the size does, if it is not refused. -/
theorem resize_ok {size : Nat} (hok : (s.resize v size).1 = .ok ()) :
    ∃ o n stop, s.vmos[v]? = some o ∧ s.member v = some n ∧ Page.ceil? size = some stop ∧
      (s.resize v size).2 = if stop < n.size then
        (s.modifyMember o.family v fun m => m.resize stop).rangeChanged o.family v stop
          (n.size - stop)
      else s.modifyMember o.family v fun m => m.resize stop := by
  obtain ⟨e, he⟩ | ⟨o, n, stop, ho, -, hn, hstop, he⟩ := s.resize_cases v size
  · rw [he] at hok
    cases hok
  · exact ⟨o, n, stop, ho, Option.bind_eq_some_iff.2 ⟨o, ho, hn⟩, hstop, congrArg Prod.snd he⟩

/-- The range from a new end to the old one. -/
theorem ofLength_tail {stop size : Nat} (h : stop < size) (hsize : size ≤ Word.max) :
    Span.ofLength stop (size - stop) = ⟨stop, size⟩ := by
  have hsum : stop + (size - stop) = size := Nat.add_sub_cancel' (Nat.le_of_lt h)
  rw [Span.ofLength, Word.addSat_of_le (by rw [hsum]; exact hsize), hsum]

/-- The size of an object that is there leaves room for another page less a byte. -/
theorem CloneTrees.size_room (hs : s.CloneTrees) {n : Member} (hn : s.member v = some n) :
    n.size + (Page.size - 1) ≤ Word.max := by
  obtain ⟨o, ho, hin⟩ := Option.bind_eq_some_iff.1 hn
  have hsize := hs.size (memberKin_of_get hin)
  exact Page.add_le_max hsize.1 hsize.2

/-- **Memory that is given back goes out of the mappings that show it**: at the object itself the
pages that the range touches, at a clone the pages with a byte that shows a byte of the range. -/
theorem CloneTrees.decommit_unmaps (hs : s.CloneTrees) {offset length : Nat}
    (hok : (s.decommitRange v offset length).1 = .ok ()) (hreg : s.registrants i = [d]) :
    Unmaps i
      (fun y => d = v ∧ y ∈ (Span.ofLength offset length).pageHull ∨
        d ≠ v ∧ ∃ x z, x ∈ Span.ofLength offset length ∧ s.Shows v x d z ∧
          z / Page.size = y / Page.size) s
      (s.decommitRange v offset length).2 := by
  obtain ⟨o, n, pages, ho, hn, hcover, hrun⟩ := decommitRange_ok hok
  obtain ⟨hle, hmax, -⟩ := Page.covering_eq_ok hcover
  rw [hrun]
  refine hs.rangeChanged_unmaps ho hn (hs.inert ?_) rfl hreg ?_
  · refine s.inert_modifyMember fun b hb => ?_
    rw [System.member, ho, Option.bind_some, hb] at hn
    cases hn
    rfl
  · have hstop : (Span.ofLength offset length).stop = offset + length := Word.addSat_of_le hmax
    rw [hstop]
    exact Nat.le_trans (Nat.add_le_add_right hle _) (hs.size_room hn)

/-- **Memory beyond a new end goes out of the mappings that show it**, and an object that does not
shrink leaves its mappings alone. -/
theorem CloneTrees.resize_unmaps (hs : s.CloneTrees) {e : List Task} (hacc : Accounted s e)
    {size : Nat} (hok : (s.resize v size).1 = .ok ()) (hreg : s.registrants i = [d]) :
    ∃ n stop, s.member v = some n ∧ Page.ceil? size = some stop ∧
      Unmaps i
        (fun y => stop < n.size ∧ (d = v ∧ y ∈ (Span.mk stop n.size).pageHull ∨
          d ≠ v ∧ ∃ x z, x ∈ Span.mk stop n.size ∧ s.Shows v x d z ∧
            z / Page.size = y / Page.size)) s
        (s.resize v size).2 := by
  obtain ⟨o, n, stop, ho, hn, hstop, hrun⟩ := resize_ok hok
  refine ⟨n, stop, hn, hstop, ?_⟩
  rw [hrun]
  have hborn : Birth True False ⟨s, e⟩
      ⟨s.modifyMember o.family v fun m => m.resize stop, e⟩ :=
    .resize (fun m _ => kin_resize m stop) ⟨Page.size_dvd_of_ceil? hstop, Page.ceil?_le hstop⟩
  have hlists : (n.resize stop).mappings = n.mappings := by
    unfold Member.resize
    -- Only shrinking tells of a change, and what it tells of is the part beyond the new end.
    split <;> rfl
  split
  · rename_i hlt
    have hroom := hs.size_room hn
    have htail := ofLength_tail hlt (Nat.le_trans (Nat.le_add_right _ _) hroom)
    refine (hs.rangeChanged_unmaps ho hn (hborn.cloned hacc hs) hlists hreg ?_).congr
      fun y => ?_
    · rw [htail]
      exact hroom
    · rw [htail, and_iff_right hlt]
  · rename_i hge
    exact .of_same rfl fun y hy => hge hy.1

end System

/-! ## 4. The pages that a call releases

Giving back and shrinking, seen as one thing: pages that lose their memory, and a range that the
family is told of. -/

namespace System

/-- What changes the mappings only, does so step by step. -/
theorem foldl_mappings {α : Type} {step : System → α → System}
    (h : ∀ s a, ∃ mappings, step s a = { s with mappings }) (as : List α) (s : System) :
    ∃ mappings, as.foldl step s = { s with mappings } := by
  induction as generalizing s with
  | nil => exact ⟨s.mappings, rfl⟩
  | cons a as ih =>
    obtain ⟨mappings, he⟩ := h s a
    obtain ⟨mappings', he'⟩ := ih (step s a)
    exact ⟨mappings', by rw [List.foldl_cons, he', he]⟩

/-- Hearing of a change is written down in mappings only. -/
theorem rangeChanged_eq (s : System) (F : FamilyId) (v : VmoId) (offset length : Nat) :
    ∃ mappings, s.rangeChanged F v offset length = { s with mappings } := by
  unfold rangeChanged
  split
  · exact ⟨s.mappings, rfl⟩
  · refine foldl_mappings (fun s r => ?_) _ s
    unfold unmapReach
    split
    · exact ⟨s.mappings, rfl⟩
    · exact foldl_mappings (fun s m => ⟨_, rfl⟩) _ s

end System

/-- A page that a call releases has no memory afterwards. -/
theorem PageCall.not_committed {call : PageCall} {s : System} {v : VmoId} {x : Nat}
    (hok : (call.run s v).1 = .ok ()) (hx : call.Frees s v x) :
    ∃ m, (call.run s v).2.member v = some m ∧ x / Page.size ∉ m.committed := by
  cases call with
  | decommit offset length =>
    have hok : (s.decommitRange v offset length).1 = .ok () := hok
    obtain ⟨o, n, pages, ho, hn, hcover, hrun⟩ := System.decommitRange_ok hok
    obtain ⟨mappings, he⟩ := System.rangeChanged_eq (s.modifyMember o.family v fun _ =>
      { n with committed := n.committed.eraseFrom pages.1 pages.2 }) o.family v offset length
    rw [he] at hrun
    refine ⟨{ n with committed := n.committed.eraseFrom pages.1 pages.2 }, ?_, fun hmem => ?_⟩
    · calc (s.decommitRange v offset length).2.member v
        _ = (s.modifyMember o.family v fun _ =>
              { n with committed := n.committed.eraseFrom pages.1 pages.2 }).member v := by
            rw [hrun]; rfl
        _ = _ := by rw [System.member_modifyMember ho, if_pos rfl, hn, Option.map_some]
    · obtain ⟨pages', hpages, hfirst, hlast⟩ := hx
      rw [System.vmoSize, System.memberNat, hn] at hpages
      cases hcover.symm.trans hpages
      exact (PageSet.mem_eraseFrom.1 hmem).2 ⟨hfirst, hlast⟩
  -- What is left are the pages below the new end, and the page is not one of these.
  | resize size =>
    have hok : (s.resize v size).1 = .ok () := hok
    obtain ⟨o, n, stop, ho, hn, hstop, hrun⟩ := System.resize_ok hok
    obtain ⟨stop', hstop', hle, hlt⟩ := hx
    rw [System.vmoSize, System.memberNat, hn] at hlt
    cases hstop.symm.trans hstop'
    have hshrinks : stop < n.size := Nat.lt_of_le_of_lt hle hlt
    rw [if_pos hshrinks] at hrun
    obtain ⟨mappings, he⟩ := System.rangeChanged_eq
      (s.modifyMember o.family v fun m => m.resize stop) o.family v stop (n.size - stop)
    rw [he] at hrun
    refine ⟨n.resize stop, ?_, fun hmem => ?_⟩
    · calc (s.resize v size).2.member v
        _ = (s.modifyMember o.family v fun m => m.resize stop).member v := by rw [hrun]; rfl
        _ = _ := by rw [System.member_modifyMember ho, if_pos rfl, hn, Option.map_some]
    · rw [Member.resize, if_pos hshrinks] at hmem
      have hbelow := (PageSet.mem_below.1 hmem).2
      exact absurd (Nat.div_le_div_right hle) (Nat.not_le.2 hbelow)

/-! ## 5. What is unmapped where a released page is shown

The two do not match where a clone's window starts in the midst of a page.  Here it is said when
they do, and shown that they may not. -/

/-- **Where a released page is shown, exactly what is covered is unmapped.**  For a mapping that is
registered with one VM object, the released object itself or a clone below it: after an object
shrank, every byte of the window that shows a byte of a released page is newly unmapped; after a
range was given back such a byte is newly unmapped exactly if the mapping is one of the object
itself, or some byte of the same page of the clone shows a byte of the range. -/
theorem World.Reachable.released_unmapped {A : Prop} {w : World} (h : w.Reachable A False)
    {call : PageCall} {v d : VmoId} {i : MappingId} {m : Mapping}
    (hok : (call.run w.system v).1 = .ok ()) (hm : w.system.mappings[i]? = some m)
    (hreg : w.system.registrants i = [d]) :
    ∃ new, (call.run w.system v).2.mappings[i]? = some { m with unmapped := m.unmapped ++ new } ∧
      ∀ x y, call.Frees w.system v x → w.system.Shows v x d y → y ∈ m.window →
        ((∃ a ∈ new, y ∈ a) ↔ call.Covers w.system v d y) := by
  have hs : w.system.CloneTrees := h.passed.cloneTrees
  cases call with
  | decommit offset length =>
    have hok : (w.system.decommitRange v offset length).1 = .ok () := hok
    obtain ⟨m', hm', new, rfl, hnew⟩ := hs.decommit_unmaps hok hreg m hm
    refine ⟨new, hm', fun x y hfree hshow hy => ?_⟩
    rw [hnew, and_iff_right hy]
    constructor
    · rintro (⟨hd, -⟩ | ⟨-, hrest⟩)
      · exact .inl hd
      · exact .inr hrest
    · intro hcover
      by_cases hd : d = v
      · -- in the object itself the released page is the page around the range
        subst hd
        obtain ⟨pages, hpages, hx, hx'⟩ := hfree
        obtain ⟨-, rfl⟩ | hlt := hs.le_of_shows hshow
        · exact .inl ⟨rfl, System.mem_pageHull_of_covering hpages hx hx'⟩
        · exact absurd hlt (Nat.lt_irrefl d)
      · exact .inr ⟨hd, hcover.resolve_left hd⟩
  | resize size =>
    have hok : (w.system.resize v size).1 = .ok () := hok
    obtain ⟨n, stop, hn, hstop, hunmaps⟩ := hs.resize_unmaps h.accounted hok hreg
    obtain ⟨m', hm', new, rfl, hnew⟩ := hunmaps m hm
    refine ⟨new, hm', fun x y hfree hshow hy => ?_⟩
    have hcovers : (PageCall.resize size).Covers w.system v d y := True.intro
    rw [hnew, and_iff_right hy, iff_true_intro hcovers, iff_true]
    obtain ⟨stop', hstop', hle, hlt⟩ := hfree
    rw [hstop] at hstop'
    cases hstop'
    have hsize : w.system.vmoSize v = n.size := by
      rw [System.vmoSize, System.memberNat, hn]
      rfl
    rw [hsize] at hlt
    -- what lies past the new end is named by the call itself, so every byte that shows it is
    -- covered
    have hmem : x ∈ Span.mk stop n.size := ⟨hle, hlt⟩
    have hshrinks : stop < n.size := Nat.lt_of_le_of_lt hle hlt
    refine ⟨hshrinks, ?_⟩
    by_cases hd : d = v
    · subst hd
      obtain ⟨-, rfl⟩ | hlt' := hs.le_of_shows hshow
      · have hpages := Span.mem_pageHull (a := ⟨stop, n.size⟩) (y := x)
          (Span.isEmpty_eq_false_iff.2 hshrinks) (hs.size_room hn)
        exact .inl ⟨rfl, hpages.2 ⟨x, hmem, rfl⟩⟩
      · exact absurd hlt' (Nat.lt_irrefl d)
    · exact .inr ⟨hd, x, y, hmem, hshow, rfl⟩

/-- An object of four pages, a clone of a page of it that starts half a page in, and a mapping of
the clone; the object has all its memory. -/
def straddlingOps : List Op :=
  [.createVmo 0x4000 0,
    .cloneVmo 1 { resizable := false, offset := 0x800, size := 0x1000, copyName := false },
    .openSpace true, .createMapping ⟨1, true⟩ 2 0 0x1000, .addMapping 1 2 1, .commit 1 0 0x4000]

theorem reachable_straddling : (World.run straddlingOps).Reachable False False :=
  ⟨straddlingOps, by simp [straddlingOps, Op.Attaches, Op.Rewires], rfl⟩

/-- The clone shows what lies half a page further on in the object. -/
theorem shows_straddling_iff {x y : Nat} :
    (World.run straddlingOps).system.Shows 1 x 2 y ↔ y < 0x1000 ∧ x = 0x800 + y := by
  have htree := reachable_straddling.passed.cloneTrees
  generalize hs : (World.run straddlingOps).system = s at htree ⊢
  have hparent : s.vmos[2]?.bind Vmo.parent = some 1 := by
    rw [← hs]
    decide +kernel
  have hwindow : (s.member 2).map (fun m => (m.size, m.parentOffset)) = some (0x1000, 0x800) := by
    rw [← hs]
    decide +kernel
  obtain ⟨o, ho, hp⟩ := Option.bind_eq_some_iff.1 hparent
  obtain ⟨m, hm, hw⟩ := Option.map_eq_some_iff.1 hwindow
  obtain ⟨hsize, hoffset⟩ := Prod.mk.inj hw
  rw [System.shows_clone_iff (by decide) ho hp hm, hsize, hoffset]
  refine and_congr_right fun _ => ⟨fun h => ?_, ?_⟩
  · rcases htree.le_of_shows h with ⟨-, he⟩ | hlt
    · exact he
    · exact absurd hlt (Nat.lt_irrefl 1)
  · rintro rfl
    exact .self

/-- A range that begins where the clone does is heard of on the whole page of the clone. -/
theorem World.Reachable.released_unmapped_straddling :
    let s := (World.run straddlingOps).system
    ∃ new, (s.decommitRange 1 0x800 0x400).2.mappings[1]? =
        some ⟨⟨1, true⟩, 2, 0, 0x1000, [] ++ new⟩ ∧ ∃ a ∈ new, 0x7ff ∈ a := by
  have hok : ((PageCall.decommit 0x800 0x400).run (World.run straddlingOps).system 1).1
      = .ok () := by decide +kernel
  have hm : (World.run straddlingOps).system.mappings[1]? =
      some ⟨⟨1, true⟩, 2, 0, 0x1000, []⟩ := by decide +kernel
  have hreg : (World.run straddlingOps).system.registrants 1 = [2] := by decide +kernel
  obtain ⟨new, hnew, hiff⟩ := released_unmapped reachable_straddling hok hm hreg
  refine ⟨new, hnew, (hiff 0xfff 0x7ff ⟨(0, 1), by decide +kernel, by decide, by decide⟩
    (shows_straddling_iff.2 (by decide)) (by decide)).2 ?_⟩
  exact .inr ⟨0x800, 0, by decide, shows_straddling_iff.2 (by decide), by decide⟩

/-- So giving back a range may release a page that stays mapped: a byte of the clone shows a byte of
the page, and no new part of the mapping has it. -/
theorem decommit_leaves_page_mapped :
    let s := (World.run straddlingOps).system
    let r := s.decommitRange 1 0 0x400
    r.1 = .ok () ∧ s.registrants 1 = [2] ∧
      (∃ m, s.member 1 = some m ∧ 0 ∈ m.committed) ∧
      (∃ m, r.2.member 1 = some m ∧ 0 ∉ m.committed) ∧
      s.Shows 1 0x800 2 0 ∧
      ∃ new, r.2.mappings[1]? = some ⟨⟨1, true⟩, 2, 0, 0x1000, [] ++ new⟩ ∧
        0 ∈ Span.mk 0 0x1000 ∧ ¬ ∃ a ∈ new, 0 ∈ a := by
  have hok : ((World.run straddlingOps).system.decommitRange 1 0 0x400).1 = .ok () := by
    decide +kernel
  have hm : (World.run straddlingOps).system.mappings[1]? =
      some ⟨⟨1, true⟩, 2, 0, 0x1000, []⟩ := by decide +kernel
  have hreg : (World.run straddlingOps).system.registrants 1 = [2] := by decide +kernel
  have hpages : ((World.run straddlingOps).system.member 1).map (fun m => m.committed.toList) =
      some [0, 1, 2, 3] := by decide +kernel
  refine ⟨hok, hreg, ?_, ?_, shows_straddling_iff.2 (by decide), ?_⟩
  · obtain ⟨m, hm, he⟩ := Option.map_eq_some_iff.1 hpages
    exact ⟨m, hm, Std.ExtTreeSet.mem_toList.1 (he ▸ by decide)⟩
  · have hfrees : (PageCall.decommit 0 0x400).Frees (World.run straddlingOps).system 1 0 :=
      ⟨(0, 1), by decide +kernel, by decide, by decide⟩
    have hrun : ((PageCall.decommit 0 0x400).run (World.run straddlingOps).system 1).1 = .ok () :=
      hok
    exact PageCall.not_committed hrun hfrees
  · obtain ⟨m', hm', new, rfl, hiff⟩ :=
      reachable_straddling.passed.cloneTrees.decommit_unmaps hok hreg _ hm
    refine ⟨new, hm', by decide, fun hnew => ?_⟩
    -- The clone has a byte of the page, but none of the range.  So it is not told, and its
    -- mapping still shows the byte.
    obtain ⟨-, ⟨hd, -⟩ | ⟨-, x, z, hx, hshow, -⟩⟩ := (hiff 0).1 hnew
    · exact absurd hd (by decide)
    · rw [shows_straddling_iff] at hshow
      have hlt : x < 0x400 := hx.2
      omega

end KernelObjects
