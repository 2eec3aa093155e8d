import KernelObjects.Proofs.Isolation
import KernelObjects.Proofs.Generations
import KernelObjects.Proofs.Paces

/-
# Rights shrink along derivations

A table makes a duplicate with the rights of its source or with fewer (`System.DuplicateSound`).
A source may be a duplicate itself, may have moved through several tables since, and may be closed
long before the last handle that was derived from it.  So derivations are looked up in the history
of a run (`World.Derives`), and what they say holds of all handles that there ever were.

**Why the bound carries over.**  What a handle grants is decided when it is made: nothing writes
into its object or its rights after that, and its identity is not used a second time.  So the
rights that the source had when it was duplicated are those that it had when it was derived
itself.

A record of a run therefore says of each handle the one thing that it ever granted (`Recorded`),
and a derivation compares two entries of the record.  Chains of derivations are transitive
closures, and along them inclusion is transitive.

The request may name the bit for "the same rights" together with others.  Then the others are not
looked at, and the duplicate has the rights of its source, no matter what they are.
-/

namespace KernelObjects

/-! ## 1. What a handle grants is decided when it is made

Object and rights are written once.  So a chain of derivations, which may be spread over a long
run, can be read off the handles as they were made. -/

/-- What a handle grants: rights to an object. -/
def Handle.grant (r : Handle) : Koid × Rights := (r.object, r.rights)

namespace System

variable {s t : System} {x : HandleId} {g : Koid × Rights}

/-- What a handle grants, and to which object, as long as it is there. -/
def grant (s : System) (x : HandleId) : Option (Koid × Rights) := s.handles[x]?.map Handle.grant

theorem grant_of_handles (h : t.handles = s.handles) : t.grant x = s.grant x := by
  unfold grant
  rw [h]

theorem grant_of_hands (h : t.hands = s.hands) : t.grant x = s.grant x :=
  grant_of_handles (congrArg Hands.handles h)

/-- What is given up grants nothing new. -/
theorem Sheds.grant (h : Sheds s t) (hg : t.grant x = some g) : s.grant x = some g := by
  obtain ⟨r, hr, rfl⟩ := Option.map_eq_some_iff.1 hg
  exact Option.map_eq_some_iff.2 ⟨r, h.handles hr, rfl⟩

/-- A process is nothing that a handle grants. -/
theorem grant_setProcess (s : System) (process : Nat) (h : HandleId) :
    (s.setProcess process h).grant x = s.grant x := by
  unfold grant
  rw [handles_setProcess]
  split
  · rw [Option.map_map]
    rfl
  · rfl

/-- A table that is emptied closes handles and rewrites no grant. -/
theorem grant_emptied (s : System) (i : TableId) (table : Table) :
    (s.emptied i table).grant x = s.grant x := by
  obtain ⟨handles, he, hhandles⟩ := s.emptied_eq i table
  unfold grant
  rw [he]
  dsimp only
  rw [hhandles]
  split
  · rw [Option.map_map]
    rfl
  · rfl

/-- What is granted after a table was cleared was granted before. -/
theorem grant_tableClear (i : TableId) (hg : (s.tableClear i).2.grant x = some g) :
    s.grant x = some g := by
  cases hi : s.tables[i]? with
  | none =>
    rw [tableClear_of_none hi] at hg
    exact hg
  | some table =>
    rw [tableClear_of_some hi] at hg
    rw [← s.grant_emptied i table]
    exact (Sheds.settle _ _).grant hg

/-- A handle that is made is new, so the grants of the others stay. -/
theorem grant_withHandle (s : System) (a : ArenaId) (arena : Arena) (k : Koid) (rights : Rights)
    (hg : (s.withHandle a arena k rights).grant x = some g) :
    s.grant x = some g ∨ s.nextId ≤ x := by
  have hx : (s.withHandle a arena k rights).handles[x]? = if s.nextId = x
      then some { base := (arena.insert s.nextId).1, object := k, rights, arena := a }
      else s.handles[x]? := Store.getElem?_insert _ _ _ _
  by_cases he : s.nextId = x
  · exact .inr (Nat.le_of_eq he)
  · rw [if_neg he] at hx
    unfold grant at hg ⊢
    rw [hx] at hg
    exact .inl hg

end System

/-- **After a stage every handle grants what it did before, or it is new.** -/
theorem Stage.grant {L : Liberties} {w w' : World} (h : Stage L w w') {x : HandleId}
    {g : Koid × Rights} (hg : w'.system.grant x = some g) :
    w.system.grant x = some g ∨ w.system.nextId ≤ x := by
  -- Only making and duplicating bring a handle in, under the next id.  The process of a handle is
  -- written in some stages, but its object and its rights never are.
  cases h with
  | still h => exact .inl ((System.grant_of_hands h.hands).symm.trans hg)
  | beside h hj hp hh => exact .inl ((System.grant_of_hands hh).symm.trans hg)
  | drop => exact .inl ((System.Sheds.settle _ _).grant hg)
  | @refusedJob s t d signals job p q hs hl hq hp' hj hr hh ht =>
    have hborn : System.Sheds s (s.withJob signals job) := .of_eq rfl rfl
    exact .inl (((hborn.trans (.of_hands ht.hands)).trans (.settle _ _)).grant hg)
  | @refusedProcess s t d signals process hj ht =>
    have hborn : System.Sheds s (s.withProcess signals process) := .of_eq rfl rfl
    exact .inl (((hborn.trans (.of_hands ht.hands)).trans (.settle _ _)).grant hg)
  | handle => exact System.grant_withHandle _ _ _ _ _ hg
  | adopt => exact .inl ((System.grant_setProcess _ _ _).symm.trans hg)
  | duplicate =>
    exact System.grant_withHandle _ _ _ _ _ ((System.grant_setProcess _ _ _).symm.trans hg)
  | expel => exact .inl ((System.grant_setProcess _ _ _).symm.trans hg)
  | clear i => exact .inl (System.grant_tableClear i hg)
  | stamp hL process h => exact .inl ((System.grant_setProcess _ _ _).symm.trans hg)
  | tell hL => exact .inl ((System.Sheds.zeroHandles _ _).grant hg)
  | condemn =>
    exact .inl ((System.grant_of_hands (System.commitKill_upkeep _ _ _ _).hands).symm.trans hg)
  | @kill s d code k =>
    obtain he | ⟨p, -, -, he⟩ := s.killProcess_cases code k
    · rw [he] at hg
      exact .inl hg
    · rw [he, System.grant_of_hands (System.detachProcess_upkeep _ _ _).hands] at hg
      have hended := System.grant_tableClear _ hg
      exact .inl ((System.grant_of_hands (System.hands_endProcess _ _ _)).symm.trans hended)
  | attach hL k p => exact .inl ((System.grant_of_hands (System.hands_attach _ _ _)).symm.trans hg)
  | detach hL k p =>
    exact .inl ((System.grant_of_hands (System.detachProcess_upkeep _ _ _).hands).symm.trans hg)
  | _ => exact .inl hg

namespace World

variable {w v : World} {op : Op} {x : HandleId} {g : Koid × Rights}

/-- Ids only go up. -/
theorem act_nextId_le (h : Accounted w.system w.dues) (op : Op) :
    w.system.nextId ≤ (w.act op).system.nextId :=
  Moves.nextId_le (act_moves (A := True) (C := True) h op (fun _ => trivial) fun _ => trivial)

/-- And so after an operation. -/
theorem act_grant (h : Accounted w.system w.dues) (hg : (w.act op).system.grant x = some g) :
    w.system.grant x = some g ∨ w.system.nextId ≤ x := by
  suffices hall : ∀ v, Stages (op.liberties w.system) w v → w.system.nextId ≤ v.system.nextId ∧
      ∀ g, v.system.grant x = some g → w.system.grant x = some g ∨ w.system.nextId ≤ x from
    (hall _ (act_stages h op)).2 g hg
  intro v hv
  induction hv with
  | refl => exact ⟨Nat.le_refl _, fun _ => .inl⟩
  | tail _ hstep ih =>
    obtain ⟨hle, hkept⟩ := ih
    have hnext := Moves.nextId_le
      (hstep.moves (A := True) (C := True) (fun _ => trivial) fun _ => trivial)
    refine ⟨Nat.le_trans hle hnext, fun g hg => ?_⟩
    rcases hstep.grant hg with hg | hnew
    · exact hkept g hg
    · exact .inr (Nat.le_trans hle hnew)

end World

/-! ## 2. One duplicate

All that holds of one request, refusals included, so that nothing has to be looked up in the
program again. -/

/-- What holds of a duplicate that a table is asked for. -/
structure System.DuplicateSound (s : System) (t : TableId) (v : Nat) (asked : Rights) : Prop where
  /-- It is a new handle to the object of its source, with rights that the source has: all of them
  if the same rights are asked for, and else those that are asked for. -/
  created : ∀ seen s', s.tableDuplicate t v asked = (.ok seen, s') →
    ∃ (h d : HandleId) (r r' : Handle), s.tableGet t v = .ok h ∧ s.handles[h]? = some r ∧
      s.handles[d]? = none ∧ s'.tableGet t seen = .ok d ∧ s'.handles[d]? = some r' ∧
      Rights.duplicate ⊆ r.rights ∧ r'.object = r.object ∧ r'.arena = r.arena ∧
      r'.rights ⊆ r.rights ∧
      r'.rights = if Rights.sameRights ⊆ asked then r.rights else asked
  /-- It is refused exactly if there is a reason. -/
  refused : ∀ e, (s.tableDuplicate t v asked).1 = .error e ↔ s.DuplicateRefused t v asked e
  /-- A refusal may be counted, and nothing else changes. -/
  unchanged : ∀ e s', s.tableDuplicate t v asked = (.error e, s') →
    s' = { s with counters := s'.counters }

namespace World

variable {w : World} {ls : List Leg} {x h d : HandleId} {g g' : Koid × Rights}

/-- **Duplicating a handle is sound at every point of a run.**  Either all the conditions held and
the table shows a new handle, or one of them failed; the two are told apart by the answer. -/
theorem Ran.duplicate_sound (hran : Ran Op.Tame w) (t : TableId) (v : Nat) (asked : Rights) :
    w.system.DuplicateSound t v asked := by
  have hp := hran.passed
  have houtcome := hran.stamped.tableDuplicate_outcome hp t v asked
  constructor
  case created =>
    intro seen s' hdone
    obtain ⟨e, he⟩ | ⟨table, y, r, arena, u, hmade⟩ := houtcome
    · obtain ⟨counters, he⟩ := he.eq
      rw [hdone] at he
      cases he
    · have he := hmade.eq
      rw [hdone] at he
      cases he
      have hafter : Ran Op.Tame (w.act (.tableDuplicate t v asked)) := hran.act trivial
      have hsystem : (w.act (.tableDuplicate t v asked)).system = s' := congrArg Prod.snd hdone
      have htable : s'.tables[t]? = some { table with
          owned := table.owned.insert (arena.insert w.system.nextId).1 w.system.nextId } := by
        rw [hmade.tables, Store.getElem?_modify, if_pos rfl, hmade.there]
        rfl
      have hfound := hafter.stamped.tableGet hafter.passed (hsystem ▸ htable)
        Std.ExtTreeMap.getElem?_insert_self
      rw [hsystem] at hfound
      have hnew : s'.handles[w.system.nextId]? = some
          { base := (arena.insert w.system.nextId).1, object := r.object
            rights := if Rights.sameRights ⊆ asked then r.rights else asked
            arena := r.arena, process := table.process } := by
        rw [hmade.handles]
        exact Std.ExtTreeMap.getElem?_insert_self
      refine ⟨y, w.system.nextId, r, _, hmade.source, hmade.handle, hp.accounted.handles_fresh,
        hfound, hnew, hmade.may, rfl, rfl, ?_, rfl⟩
      dsimp only
      split
      · exact Rights.subset_refl _
      · rename_i hsame
        exact hmade.shrinks.resolve_left hsame
  -- The answer tells the two outcomes apart: an error comes with a reason, and where there is a
  -- reason there is no other answer.
  case refused =>
    intro e
    constructor
    · intro he
      obtain ⟨e', he'⟩ | ⟨table, y, r, arena, u, hmade⟩ := houtcome
      · obtain ⟨counters, hdone⟩ := he'.eq
        rw [hdone] at he
        cases he
        exact he'
      · rw [hmade.eq] at he
        cases he
    · intro he
      obtain ⟨counters, hdone⟩ := he.eq
      rw [hdone]
  case unchanged =>
    intro e s' hdone
    obtain ⟨e', he'⟩ | ⟨table, y, r, arena, u, hmade⟩ := houtcome
    · obtain ⟨counters, he⟩ := he'.eq
      rw [hdone] at he
      cases he
      rfl
    · rw [hmade.eq] at hdone
      cases hdone

/-! ## 3. Derivations

The history is a list of legs, one for each operation, with the states at which they begin.  A
derivation is a leg that duplicates and succeeds. -/

/-- In one operation of a run, a table duplicated a handle, which gave another one. -/
def Leg.Derives (l : Leg) (h d : HandleId) : Prop :=
  ∃ t v asked seen s', l.op = .tableDuplicate t v asked ∧ l.start.system.tableGet t v = .ok h ∧
    l.start.system.tableDuplicate t v asked = (.ok seen, s') ∧ s'.tableGet t seen = .ok d

/-- At some time in a run, one handle was made as a duplicate of another one. -/
def Derives (ls : List Leg) (h d : HandleId) : Prop := ∃ l ∈ ls, l.Derives h d

/-- A handle as it was before or after some operation of a run. -/
def Seen (ls : List Leg) (h : HandleId) (r : Handle) : Prop :=
  ∃ l ∈ ls, l.start.system.handles[h]? = some r ∨ (l.start.act l.op).system.handles[h]? = some r

/-- What a handle granted before or after some operation of a run. -/
def Granted (ls : List Leg) (h : HandleId) (g : Koid × Rights) : Prop :=
  ∃ r, Seen ls h r ∧ r.grant = g

/-- What is on record after one more operation: the old record, and what was granted at its two
ends. -/
theorem granted_concat {l : Leg} : Granted (ls ++ [l]) h g ↔
    Granted ls h g ∨ l.start.system.grant h = some g ∨
      (l.start.act l.op).system.grant h = some g := by
  unfold Granted Seen System.grant
  simp only [List.mem_append, List.mem_singleton, Option.map_eq_some_iff]
  constructor
  · rintro ⟨r, ⟨l', hl | rfl, hr⟩, rfl⟩
    · exact .inl ⟨r, ⟨l', hl, hr⟩, rfl⟩
    · exact .inr (hr.imp (fun hr => ⟨r, hr, rfl⟩) fun hr => ⟨r, hr, rfl⟩)
  · rintro (⟨r, ⟨l', hl, hr⟩, rfl⟩ | ⟨r, hr, rfl⟩ | ⟨r, hr, rfl⟩)
    · exact ⟨r, ⟨l', .inl hl, hr⟩, rfl⟩
    · exact ⟨r, ⟨l, .inr rfl, .inl hr⟩, rfl⟩
    · exact ⟨r, ⟨l, .inr rfl, .inr hr⟩, rfl⟩

/-- **What is on record of a run**: no handle ever granted two things, and none is derived from
one that granted less. -/
structure Recorded (ls : List Leg) (s : System) : Prop where
  old : ∀ {h : HandleId} {g : Koid × Rights}, Granted ls h g → h < s.nextId
  now : ∀ {h : HandleId} {g : Koid × Rights}, s.grant h = some g → Granted ls h g
  same : ∀ {h : HandleId} {g g' : Koid × Rights}, Granted ls h g → Granted ls h g' → g = g'
  derived : ∀ {h d : HandleId}, Derives ls h d → ∃ g g', Granted ls h g ∧ Granted ls d g' ∧
    g'.1 = g.1 ∧ g'.2 ⊆ g.2

/-- One more operation. -/
theorem Recorded.act {v : World} {op : Op} {es : List (System × System)} (hv : Ran Op.Tame v)
    (hop : Op.Tame v.system op) (hi : Recorded ls v.system) :
    Recorded (ls ++ [⟨v, op, es⟩]) (v.act op).system := by
  have hacc := hv.passed.accounted
  have hle := act_nextId_le hacc op
  -- what was there before the operation was on record already
  have hconcat : ∀ {h : HandleId} {g : Koid × Rights}, Granted (ls ++ [⟨v, op, es⟩]) h g ↔
      Granted ls h g ∨ (v.act op).system.grant h = some g := by
    intro h g
    rw [granted_concat]
    exact ⟨fun hg => hg.elim .inl fun hg => hg.imp hi.now id, fun hg => hg.imp id .inr⟩
  -- and what is there after it was so too, or nothing is on record of it
  have hnew : ∀ {h : HandleId} {g g' : Koid × Rights}, (v.act op).system.grant h = some g →
      Granted ls h g' → Granted ls h g := by
    intro h g g' hg hg'
    exact (act_grant hacc hg).elim hi.now fun hle => absurd (hi.old hg') (Nat.not_lt.2 hle)
  constructor
  case old =>
    intro h g hg
    rcases hconcat.1 hg with hg | hg
    · exact Nat.lt_of_lt_of_le (hi.old hg) hle
    · obtain ⟨r, hr, -⟩ := Option.map_eq_some_iff.1 hg
      exact (hv.act hop).passed.accounted.bounded.handle (Store.contains_iff.2 ⟨r, hr⟩)
  case now => exact fun hg => hconcat.2 (.inr hg)
  case same =>
    intro h g g' hg hg'
    rcases hconcat.1 hg with hg | hg <;> rcases hconcat.1 hg' with hg' | hg'
    · exact hi.same hg hg'
    · exact hi.same hg (hnew hg' hg)
    · exact hi.same (hnew hg hg') hg'
    · exact Option.some_inj.1 (hg.symm.trans hg')
  case derived =>
    rintro h d ⟨l, hl, hd⟩
    rcases List.mem_append.1 hl with hl | hl
    · obtain ⟨g, g', hg, hg', hshrinks⟩ := hi.derived ⟨l, hl, hd⟩
      exact ⟨g, g', hconcat.2 (.inl hg), hconcat.2 (.inl hg'), hshrinks⟩
    · cases List.mem_singleton.1 hl
      obtain ⟨t, u, asked, seen, s', rfl, hsource, hdone, hfound⟩ := hd
      obtain ⟨h', d', r, r', hsource', hr, -, hfound', hr', -, hobject, -, hsub, -⟩ :=
        (hv.duplicate_sound t u asked).created seen s' hdone
      cases hsource.symm.trans hsource'
      cases hfound.symm.trans hfound'
      have hsystem : (v.act (.tableDuplicate t u asked)).system = s' := congrArg Prod.snd hdone
      refine ⟨r.grant, r'.grant, hconcat.2 (.inl (hi.now ?_)), hconcat.2 (.inr ?_), hobject, hsub⟩
      · exact Option.map_eq_some_iff.2 ⟨r, hr, rfl⟩
      · rw [hsystem]
        exact Option.map_eq_some_iff.2 ⟨r', hr', rfl⟩

/-- **Whole runs keep the record.** -/
theorem Journey.recorded (hj : Journey Op.Tame {} ls w) : Ran Op.Tame w ∧ Recorded ls w.system := by
  induction hj with
  | refl =>
    refine ⟨.start, ⟨?_, ?_, ?_, ?_⟩⟩
    · rintro h g ⟨r, ⟨l, hl, -⟩, -⟩
      cases hl
    · intro h g hg
      simp [System.grant, System.initial] at hg
    · rintro h g g' ⟨r, ⟨l, hl, -⟩, -⟩
      cases hl
    · rintro h d ⟨l, hl, -⟩
      cases hl
  | act _ hop _ ih => exact ⟨ih.1.act hop, ih.2.act ih.1 hop⟩
  | reorder _ hp ih => exact ⟨ih.1.reorder hp, ih.2⟩

/-- A handle has what its source has, or less, and so along a chain of derivations. -/
theorem Recorded.shrinks {s : System} (hi : Recorded ls s)
    (h : Relation.TransGen (Derives ls) x d) :
    ∃ g g', Granted ls x g ∧ Granted ls d g' ∧ g'.1 = g.1 ∧ g'.2 ⊆ g.2 := by
  induction h with
  | single h => exact hi.derived h
  | tail _ h ih =>
    obtain ⟨g, m, hg, hm, hobject, hsub⟩ := ih
    obtain ⟨m', g', hm', hg', hobject', hsub'⟩ := hi.derived h
    cases hi.same hm hm'
    exact ⟨g, g', hg, hg', hobject'.trans hobject, Rights.subset_trans hsub' hsub⟩

/-- **Rights only shrink along derivations**, whatever operations led here, if tables alone wrote
processes into handles and every table got handles of its arena only.  Every duplicate that a table
is asked for is a handle to the same object with rights that its source has, or is refused without
any change; and in any history of the run, all that was derived from a handle, at first or second
hand, grants at most what that handle ever granted. -/
theorem Ran.rights_shrink (hran : Ran Op.Tame w) :
    (∀ t v asked, w.system.DuplicateSound t v asked) ∧
    (∃ ls, Journey Op.Tame {} ls w) ∧ ∀ ls, Journey Op.Tame {} ls w →
      ∀ a d, Relation.TransGen (Derives ls) a d →
        (∃ r r', Seen ls a r ∧ Seen ls d r') ∧
        ∀ r r', Seen ls a r → Seen ls d r' → r'.object = r.object ∧ r'.rights ⊆ r.rights := by
  refine ⟨hran.duplicate_sound, hran.journey, fun ls hls a d hd => ?_⟩
  have hi := hls.recorded.2
  obtain ⟨g, g', ⟨q, hq, hqg⟩, ⟨q', hq', hqg'⟩, hobject, hsub⟩ := hi.shrinks hd
  refine ⟨⟨q, q', hq, hq'⟩, fun r r' hr hr' => ?_⟩
  -- at whatever time the two are looked at, they grant what is on record
  obtain rfl : g = r.grant := hi.same ⟨q, hq, hqg⟩ ⟨r, hr, rfl⟩
  obtain rfl : g' = r'.grant := hi.same ⟨q', hq', hqg'⟩ ⟨r', hr', rfl⟩
  exact ⟨hobject, hsub⟩

/-- A handle with rights of all kinds is duplicated with the same rights, whatever else is asked
for; the duplicate moves to another table and is duplicated there with fewer. -/
def derivingOps : List Op :=
  [.newArena 4, .createWitness "w" .empty, .openTable 7 1, .openTable 9 1,
    .makeHandle 1 1024 ⟨0x88000005⟩ true, .tableAdd 2 4, .tableDuplicate 2 396759 ⟨0x80000002⟩,
    .tableRemove 2 396758, .tableAdd 3 5, .tableDuplicate 3 286821 ⟨0x08000001⟩]

theorem Ran.rights_shrink_of_chain :
    let w := run derivingOps
    ((∀ t v asked, w.system.DuplicateSound t v asked) ∧
      (∃ ls, Journey Op.Tame {} ls w) ∧ ∀ ls, Journey Op.Tame {} ls w →
        ∀ a d, Relation.TransGen (Derives ls) a d →
          (∃ r r', Seen ls a r ∧ Seen ls d r') ∧
          ∀ r r', Seen ls a r → Seen ls d r' → r'.object = r.object ∧ r'.rights ⊆ r.rights) ∧
    w.system.handles.toList.map (fun p => (p.1, p.2.process, p.2.rights)) =
      [(4, 7, ⟨0x88000005⟩), (5, 9, ⟨0x88000005⟩), (6, 9, ⟨0x08000001⟩)] := by
  have hran : Ran Op.Tame (run derivingOps) :=
    Ran.start.foldl ⟨trivial, trivial, trivial, trivial, trivial, Op.tame_tableAdd (by cbv),
      trivial, trivial, Op.tame_tableAdd (by cbv), trivial, trivial⟩
  exact ⟨hran.rights_shrink, by cbv⟩

end World

end KernelObjects
