import KernelObjects.Proofs.Edits
import KernelObjects.Script.Policies

/-
# What a request makes of a policy

An entry of a request may cover several conditions, so a request is read as a list of demands, one
condition and one action each (`Policy.asked`).  What a request leaves is the same in both modes:
every condition keeps the action that it got first, from the policy or from a demand
(`Policy.fill`).  The modes differ in what they refuse, and that can be said without the policies
in between: an entry fails by what the policy said before the request and by what the entries before
this one ask for (`Policy.FailsAt`).

In absolute mode a request that is not refused demands one action at most of any condition, so the
order of its entries is of no account.
-/

namespace KernelObjects

/-! ## 1. Entries and what they ask for

An entry comes as two numbers, and is read as a list of demands.  One that names no condition or
no action asks for nothing, and is found out when its turn comes. -/

namespace Condition

theorem ofRaw?_eq_some_iff {n : Nat} {c : Condition} : ofRaw? n = some c ↔ c.raw = n := by
  refine ⟨fun h => ?_, fun h => h ▸ ofRaw?_raw c⟩
  have hraw : ∀ i : Fin all.length, (all.get i).raw = i := by decide
  obtain ⟨hlt, rfl⟩ := List.getElem?_eq_some_iff.1 h
  exact hraw ⟨n, hlt⟩

end Condition

namespace Action

theorem ofRaw?_eq_some_iff {n : Nat} {a : Action} : ofRaw? n = some a ↔ a.raw = n := by
  refine ⟨fun h => ?_, fun h => h ▸ ofRaw?_raw a⟩
  have hraw : ∀ i : Fin all.length, (all.get i).raw = i := by decide
  obtain ⟨hlt, rfl⟩ := List.getElem?_eq_some_iff.1 h
  exact hraw ⟨n, hlt⟩

end Action

namespace PolicyMode

theorem ofRaw?_eq_some_iff {n : Nat} {m : PolicyMode} : ofRaw? n = some m ↔ m.raw = n := by
  unfold ofRaw?
  cases m <;> split <;> simp_all [raw, eq_comm]

end PolicyMode

namespace PolicyEntry

variable {e : PolicyEntry}

/-- The numbers of the entry are those of a condition and of an action. -/
def Valid (e : PolicyEntry) : Prop := ∃ c a, e = .of c a

/-- What the entry asks for: its action, for all that its condition covers. -/
def asks (e : PolicyEntry) : List (Condition × Action) :=
  match Condition.ofRaw? e.condition, Action.ofRaw? e.action with
  | some c, some a => c.covered.map (·, a)
  | _, _ => []

theorem asks_of (c : Condition) (a : Action) : (of c a).asks = c.covered.map (·, a) := by
  unfold asks of
  rw [Condition.ofRaw?_raw, Action.ofRaw?_raw]

example (a : Action) : (of .newAny a).asks =
    [(.newAny, a), (.newVmo, a), (.newChannel, a), (.newEvent, a), (.newEventPair, a),
      (.newPort, a), (.newSocket, a), (.newFifo, a), (.newTimer, a), (.newProcess, a),
      (.newProfile, a)] := by
  rw [asks_of]
  rfl

/-- Only valid entries ask for something. -/
theorem valid_of_asks {x : Condition × Action} (h : x ∈ e.asks) : e.Valid := by
  unfold asks at h
  split at h
  · rename_i c a hc ha
    refine ⟨c, a, ?_⟩
    rw [of, Condition.ofRaw?_eq_some_iff.1 hc, Action.ofRaw?_eq_some_iff.1 ha]
  · cases h

/-- One entry asks for one action. -/
theorem asks_agree {c d : Condition} {a b : Action} (hc : (c, a) ∈ e.asks) (hd : (d, b) ∈ e.asks) :
    a = b := by
  revert hc hd
  unfold asks
  split
  · intro hc hd
    obtain ⟨_, -, he⟩ := List.mem_map.1 hc
    obtain ⟨_, -, he'⟩ := List.mem_map.1 hd
    cases he
    cases he'
    rfl
  · intro hc
    cases hc

/-- An entry is valid, or its condition is unknown, or it is only its action that is. -/
theorem valid_or (e : PolicyEntry) : e.Valid ∨ (∀ c : Condition, c.raw ≠ e.condition) ∨
    (∃ c : Condition, c.raw = e.condition) ∧ ∀ a : Action, a.raw ≠ e.action := by
  by_cases hc : ∃ c : Condition, c.raw = e.condition
  · by_cases ha : ∃ a : Action, a.raw = e.action
    · obtain ⟨c, hc⟩ := hc
      obtain ⟨a, ha⟩ := ha
      refine .inl ⟨c, a, ?_⟩
      rw [of, hc, ha]
    · exact .inr (.inr ⟨hc, fun a h => ha ⟨a, h⟩⟩)
  · exact .inr (.inl fun c h => hc ⟨c, h⟩)

end PolicyEntry

namespace Script.PolicyCommand

variable {s : Session} {ref : String} {f : Policy → Outcome Policy} {r : Refusal}

/-- A change that is refused leaves everything as it was, whatever it was to change. -/
theorem change_refused (h : (change s ref f).2 = .refused r) : (change s ref f).1 = s := by
  revert h
  unfold change Session.given
  cases target s ref with
  | error name => exact fun _ => rfl
  | ok t =>
    cases t with
    | own p =>
      dsimp only
      cases f p with
      | error e => exact fun _ => rfl
      | ok q => exact fun h => (nomatch h)
    | job k =>
      dsimp only [Session.attempt]
      obtain ⟨e, he⟩ | ⟨j, q, -, -, -, -, he⟩ := s.system.amendPolicy_cases k f
      · rw [he]
        exact fun _ => rfl
      · rw [he]
        exact fun h => (nomatch h)

end Script.PolicyCommand

namespace Policy

variable {p q : Policy} {m : PolicyMode} {A B : List (Condition × Action)} {c : Condition}
  {a b : Action} {e : PolicyEntry} {es : List PolicyEntry} {r : Refusal} {mode : Nat}

/-! ## 2. Demands on a policy

A request is a list of demands on single conditions.  Filling in what is free can be done in any
order, as long as the demands agree. -/

/-- The demands of a request, one after the other. -/
def asked (es : List PolicyEntry) : List (Condition × Action) := es.flatMap PolicyEntry.asks

@[simp] theorem asked_nil : asked [] = [] := rfl

@[simp] theorem asked_cons : asked (e :: es) = e.asks ++ asked es := List.flatMap_cons

/-- The policy with a list of demands met where it left the condition free; of several demands on
one condition the first one counts. -/
def fill (p : Policy) (A : List (Condition × Action)) : Policy :=
  { p with rule := fun c => (p.rule c).or (A.lookup c) }

/-- No demand is at odds with the policy or with another demand. -/
def Agrees (p : Policy) (A : List (Condition × Action)) : Prop :=
  ∀ c a b, (c, a) ∈ A → p.rule c = some b ∨ (c, b) ∈ A → b = a

/-- What a mode demands of a list of demands. -/
def Admits (m : PolicyMode) (p : Policy) (A : List (Condition × Action)) : Prop :=
  m = .absolute → p.Agrees A

theorem rule_fill : (p.fill A).rule c = (p.rule c).or (A.lookup c) := rfl

@[simp] theorem fill_nil : p.fill [] = p := by
  unfold fill
  simp only [List.lookup_nil, Option.or_none]

/-- Demands may be met in pieces. -/
theorem fill_append : p.fill (A ++ B) = (p.fill A).fill B := by
  unfold fill
  simp only [List.lookup_append, Option.or_assoc]

theorem fill_cons {x : Condition × Action} : p.fill (x :: A) = (p.fill [x]).fill A :=
  fill_append (A := [x])

/-- What is said after demands was said before or is demanded. -/
theorem rule_of_fill (h : (p.fill A).rule c = some b) : p.rule c = some b ∨ (c, b) ∈ A := by
  rcases Option.or_eq_some_iff.1 h with h | ⟨-, h⟩
  · exact .inl h
  · obtain ⟨_, _, rfl, -⟩ := List.lookup_eq_some_iff.1 h
    exact .inr (List.mem_append_right _ List.mem_cons_self)

/-- Where nothing is at odds, that is exactly what is said. -/
theorem Agrees.rule_fill_iff (h : p.Agrees A) :
    (p.fill A).rule c = some b ↔ p.rule c = some b ∨ (c, b) ∈ A := by
  refine ⟨rule_of_fill, fun hb => ?_⟩
  cases hp : (p.fill A).rule c with
  | none =>
    obtain ⟨hfree, hlookup⟩ := Option.or_eq_none_iff.1 hp
    rcases hb with hb | hb
    · rw [hfree] at hb
      cases hb
    · simpa using List.lookup_eq_none_iff.1 hlookup (c, b) hb
  | some x =>
    rcases rule_of_fill hp with hx | hx
    · rcases hb with hb | hb
      · rw [← hb, hx]
      · rw [h c b x hb (.inl hx)]
    · rw [h c x b hx hb]

theorem agrees_nil : p.Agrees [] := fun _ _ _ h => absurd h List.not_mem_nil

/-- Demands agree if the first ones do and the others do with what these leave. -/
theorem agrees_append : p.Agrees (A ++ B) ↔ p.Agrees A ∧ (p.fill A).Agrees B := by
  constructor
  · intro h
    refine ⟨fun c a b ha hb => ?_, fun c a b ha hb => ?_⟩
    · exact h c a b (List.mem_append_left _ ha) (hb.imp_right (List.mem_append_left _))
    · refine h c a b (List.mem_append_right _ ha) ?_
      rcases hb with hb | hb
      · exact (rule_of_fill hb).imp_right (List.mem_append_left _)
      · exact .inr (List.mem_append_right _ hb)
  · rintro ⟨hA, hB⟩ c a b ha hb
    rw [List.mem_append, ← or_assoc, ← hA.rule_fill_iff] at hb
    rcases List.mem_append.1 ha with ha | ha
    · have hrule : (p.fill A).rule c = some a := hA.rule_fill_iff.2 (.inr ha)
      rcases hb with hb | hb
      · rw [hrule] at hb
        exact (Option.some_inj.1 hb).symm
      · exact (hB c b a hb (.inl hrule)).symm
    · exact hB c a b ha hb

theorem admits_nil : p.Admits m [] := fun _ => agrees_nil

/-- A list of demands is admitted if its first part is, and its second by what the first part
leaves. -/
theorem admits_append : p.Admits m (A ++ B) ↔ p.Admits m A ∧ (p.fill A).Admits m B := by
  unfold Admits
  rw [← imp_and, agrees_append]

theorem admits_cons {x : Condition × Action} :
    p.Admits m (x :: A) ↔ p.Admits m [x] ∧ (p.fill [x]).Admits m A :=
  admits_append (A := [x])

/-- Where demands do not agree, there is one that is at odds with the policy or with another
demand. -/
theorem exists_of_not_agrees (h : ¬ p.Agrees A) :
    ∃ c a b, (c, a) ∈ A ∧ (p.rule c = some b ∨ (c, b) ∈ A) ∧ b ≠ a := by
  simpa only [Agrees, Classical.not_forall, exists_prop] using h

/-- A demand alone can only be at odds with the policy. -/
theorem agrees_singleton : p.Agrees [(c, a)] ↔ ∀ b, p.rule c = some b → b = a := by
  refine ⟨fun h b hb => h c a b List.mem_cons_self (.inl hb), fun h c' a' b' ha hb => ?_⟩
  cases List.mem_singleton.1 ha
  rcases hb with hb | hb
  · exact h b' hb
  · cases List.mem_singleton.1 hb
    rfl

theorem fill_free (h : p.rule c = none) : p.fill [(c, a)] = p.set c a := by
  unfold fill set
  congr 1
  funext d
  by_cases hd : d = c
  · subst hd
    rw [if_pos rfl, h, Option.none_or, List.lookup_cons_self]
  · rw [if_neg hd, List.lookup_cons, beq_false_of_ne hd, List.lookup_nil, Option.or_none]

theorem fill_taken (h : p.rule c = some b) : p.fill [(c, a)] = p := by
  have hrule : (fun d => (p.rule d).or ([(c, a)].lookup d)) = p.rule := by
    funext d
    by_cases hd : d = c
    · rw [hd, h, Option.some_or]
    · rw [List.lookup_cons, beq_false_of_ne hd, List.lookup_nil, Option.or_none]
  unfold fill
  rw [hrule]

/-! ## 3. What each function makes of its demands

From the inside out: one demand, one entry, a list of entries.  Each of them fills in its demands
if they are admitted, and refuses if not. -/

theorem request_of_admits (h : p.Admits m [(c, a)]) :
    p.request m c a = .ok (p.fill [(c, a)]) := by
  unfold request
  cases hp : p.rule c with
  | none =>
    dsimp only
    rw [fill_free hp]
  | some b =>
    rw [fill_taken hp]
    dsimp only
    split
    · rfl
    · rename_i hne
      cases m with
      | relative => rfl
      | absolute => exact absurd (agrees_singleton.1 (h rfl) b hp) hne

theorem request_of_not_admits (h : ¬ p.Admits m [(c, a)]) :
    p.request m c a = .error .alreadyExists := by
  obtain ⟨rfl, hodds⟩ := Classical.not_imp.1 h
  rw [agrees_singleton] at hodds
  unfold request
  cases hp : p.rule c with
  | none => exact absurd (fun b hb => by rw [hp] at hb; cases hb) hodds
  | some b =>
    dsimp only
    rw [if_neg]
    rintro rfl
    refine hodds fun x hx => ?_
    rw [hp] at hx
    exact (Option.some_inj.1 hx).symm

/-- An entry that is admitted sets what it covers and nobody has set, -/
theorem requestAll_of_admits {cs : List Condition} (h : p.Admits m (cs.map (·, a))) :
    requestAll m a cs p = .ok (p.fill (cs.map (·, a))) := by
  induction cs generalizing p with
  | nil =>
    rw [List.map_nil, fill_nil]
    rfl
  | cons c cs ih =>
    rw [List.map_cons] at h ⊢
    obtain ⟨hhead, htail⟩ := admits_cons.1 h
    rw [fill_cons, requestAll, request_of_admits hhead]
    exact ih htail

/-- and one that is not admitted is refused as a whole. -/
theorem requestAll_of_not_admits {cs : List Condition} (h : ¬ p.Admits m (cs.map (·, a))) :
    requestAll m a cs p = .error .alreadyExists := by
  induction cs generalizing p with
  | nil => exact absurd admits_nil h
  | cons c cs ih =>
    rw [List.map_cons, admits_cons] at h
    rw [requestAll]
    by_cases hhead : p.Admits m [(c, a)]
    · rw [request_of_admits hhead]
      exact ih fun htail => h ⟨hhead, htail⟩
    · rw [request_of_not_admits hhead]
      rfl

theorem applyEntry_of (m : PolicyMode) (p : Policy) (c : Condition) (a : Action) :
    p.applyEntry m (.of c a) = requestAll m a c.covered p := by
  unfold applyEntry PolicyEntry.of
  rw [Condition.ofRaw?_raw]
  dsimp only
  rw [Action.ofRaw?_raw]

theorem applyEntry_of_condition (h : ∀ c : Condition, c.raw ≠ e.condition) :
    p.applyEntry m e = .error .invalidArgs := by
  unfold applyEntry
  cases hc : Condition.ofRaw? e.condition with
  | none => rfl
  | some c => exact absurd (Condition.ofRaw?_eq_some_iff.1 hc) (h c)

theorem applyEntry_of_action (hc : ∃ c : Condition, c.raw = e.condition)
    (ha : ∀ a : Action, a.raw ≠ e.action) : p.applyEntry m e = .error .notSupported := by
  obtain ⟨c, hc⟩ := hc
  unfold applyEntry
  rw [← hc, Condition.ofRaw?_raw]
  dsimp only
  cases haction : Action.ofRaw? e.action with
  | none => rfl
  | some a => exact absurd (Action.ofRaw?_eq_some_iff.1 haction) (ha a)

/-! ## 4. The entries that fail

A failure is found by looking at what comes before the entry, so that the first one that fails is
the one that is reported. -/

/-- Why an entry fails that stands after some demands. -/
inductive Refuses (m : PolicyMode) (p : Policy) (A : List (Condition × Action)) (e : PolicyEntry) :
    Refusal → Prop
  /-- Its condition is unknown. -/
  | condition (h : ∀ c : Condition, c.raw ≠ e.condition) : Refuses m p A e .invalidArgs
  /-- Its condition is known and its action is not. -/
  | action (hc : ∃ c : Condition, c.raw = e.condition) (ha : ∀ a : Action, a.raw ≠ e.action) :
      Refuses m p A e .notSupported
  /-- In absolute mode, the policy or a demand before it says another action. -/
  | conflict {c : Condition} {a b : Action} (hm : m = .absolute) (ha : (c, a) ∈ e.asks)
      (hb : p.rule c = some b ∨ (c, b) ∈ A) (hne : b ≠ a) : Refuses m p A e .alreadyExists

/-- The entry of a request that stands at a place fails after those before it. -/
def FailsAt (m : PolicyMode) (p : Policy) (es : List PolicyEntry) (i : Nat) (r : Refusal) : Prop :=
  ∃ e, es[i]? = some e ∧ p.Refuses m (asked (es.take i)) e r

/-- Demands that were let through can as well be counted to the policy. -/
theorem refuses_fill (h : p.Admits m A) :
    (p.fill A).Refuses m B e r ↔ p.Refuses m (A ++ B) e r := by
  constructor
  · intro hr
    cases hr with
    | condition hc => exact .condition hc
    | action hc ha => exact .action hc ha
    | conflict hm ha hb hne =>
      refine .conflict hm ha ?_ hne
      rwa [List.mem_append, ← or_assoc, ← (h hm).rule_fill_iff]
  · intro hr
    cases hr with
    | condition hc => exact .condition hc
    | action hc ha => exact .action hc ha
    | conflict hm ha hb hne =>
      refine .conflict hm ha ?_ hne
      rwa [List.mem_append, ← or_assoc, ← (h hm).rule_fill_iff] at hb

/-- An entry goes through if it is valid and its demands are. -/
theorem applyEntry_eq_ok_iff : p.applyEntry m e = .ok q ↔
    e.Valid ∧ p.Admits m e.asks ∧ q = p.fill e.asks := by
  rcases e.valid_or with ⟨c, a, rfl⟩ | hc | ⟨hc, ha⟩
  · rw [applyEntry_of, PolicyEntry.asks_of]
    by_cases h : p.Admits m (c.covered.map (·, a))
    · rw [requestAll_of_admits h, Except.ok.injEq]
      exact ⟨fun hq => ⟨⟨c, a, rfl⟩, h, hq.symm⟩, fun hq => hq.2.2.symm⟩
    · rw [requestAll_of_not_admits h]
      exact ⟨fun hq => (nomatch hq), fun hq => absurd hq.2.1 h⟩
  · rw [applyEntry_of_condition hc]
    refine ⟨fun hq => (nomatch hq), ?_⟩
    rintro ⟨⟨c, a, rfl⟩, -⟩
    exact absurd rfl (hc c)
  · rw [applyEntry_of_action hc ha]
    refine ⟨fun hq => (nomatch hq), ?_⟩
    rintro ⟨⟨c, a, rfl⟩, -⟩
    exact absurd rfl (ha a)

/-- Else it fails for the reason that there is. -/
theorem applyEntry_eq_error_iff : p.applyEntry m e = .error r ↔ p.Refuses m [] e r := by
  constructor
  · intro h
    -- An entry names a condition and an action, or its condition is not one, or only its action
    -- is not one: the condition is looked at first.
    rcases e.valid_or with ⟨c, a, rfl⟩ | hc | ⟨hc, ha⟩
    · have hodds : ¬ p.Admits m (c.covered.map (·, a)) := fun hadmits => by
        rw [applyEntry_of, requestAll_of_admits hadmits] at h
        cases h
      rw [applyEntry_of, requestAll_of_not_admits hodds] at h
      cases h
      rw [← PolicyEntry.asks_of] at hodds
      obtain ⟨hm, hodds⟩ := Classical.not_imp.1 hodds
      obtain ⟨d, x, y, hx, hy, hne⟩ := exists_of_not_agrees hodds
      refine .conflict hm hx (.inl (hy.resolve_right fun hy => hne ?_)) hne
      exact PolicyEntry.asks_agree hy hx
    · rw [applyEntry_of_condition hc] at h
      cases h
      exact .condition hc
    · rw [applyEntry_of_action hc ha] at h
      cases h
      exact .action hc ha
  · intro h
    cases h with
    | condition hc => exact applyEntry_of_condition hc
    | action hc ha => exact applyEntry_of_action hc ha
    | @conflict d x y hm hx hy hne =>
      have hodds : ¬ p.Admits m e.asks := fun hadmits =>
        hne (hadmits hm d x y hx (.inl (hy.resolve_right List.not_mem_nil)))
      obtain ⟨c, a, rfl⟩ := PolicyEntry.valid_of_asks hx
      rw [PolicyEntry.asks_of] at hodds
      rw [applyEntry_of, requestAll_of_not_admits hodds]

/-- **What it takes to succeed**: every entry is one, and all demands together are admitted. -/
theorem applyEntries_eq_ok_iff : applyEntries m es p = .ok q ↔
    (∀ e ∈ es, e.Valid) ∧ p.Admits m (asked es) ∧ q = p.fill (asked es) := by
  induction es generalizing p with
  | nil =>
    rw [asked_nil, fill_nil]
    exact ⟨fun h => ⟨fun _ he => absurd he List.not_mem_nil, admits_nil, (Except.ok.inj h).symm⟩,
      fun h => congrArg Except.ok h.2.2.symm⟩
  | cons e es ih =>
    rw [asked_cons, admits_append, fill_append, List.forall_mem_cons, applyEntries]
    constructor
    · intro h
      cases hx : p.applyEntry m e with
      | error r =>
        rw [hx] at h
        cases h
      | ok t =>
        rw [hx] at h
        obtain ⟨hvalid, hadmits, rfl⟩ := applyEntry_eq_ok_iff.1 hx
        obtain ⟨hvalids, hadmits', hq⟩ := ih.1 h
        exact ⟨⟨hvalid, hvalids⟩, ⟨hadmits, hadmits'⟩, hq⟩
    · rintro ⟨⟨hvalid, hvalids⟩, ⟨hadmits, hadmits'⟩, hq⟩
      rw [applyEntry_eq_ok_iff.2 ⟨hvalid, hadmits, rfl⟩]
      exact ih.2 ⟨hvalids, hadmits', hq⟩

theorem failsAt_zero : p.FailsAt m (e :: es) 0 r ↔ p.applyEntry m e = .error r := by
  rw [applyEntry_eq_error_iff]
  refine ⟨?_, fun h => ⟨e, rfl, h⟩⟩
  rintro ⟨e', he, h⟩
  cases he
  exact h

/-- A later entry fails in the policy that the first one leaves. -/
theorem failsAt_succ (h : p.Admits m e.asks) {i : Nat} :
    p.FailsAt m (e :: es) (i + 1) r ↔ (p.fill e.asks).FailsAt m es i r := by
  unfold FailsAt
  simp only [List.getElem?_cons_succ, List.take_succ_cons, asked_cons, refuses_fill h]

/-- **What is refused is refused for the first entry that fails.** -/
theorem applyEntries_eq_error_iff : applyEntries m es p = .error r ↔
    ∃ i, p.FailsAt m es i r ∧ ∀ j < i, ∀ r', ¬ p.FailsAt m es j r' := by
  induction es generalizing p with
  | nil =>
    refine ⟨fun h => (nomatch h), ?_⟩
    rintro ⟨i, ⟨e, he, -⟩, -⟩
    cases he
  | cons e es ih =>
    rw [applyEntries]
    -- An entry fails if it does so after all entries before it were applied.  So the first one is
    -- looked at by itself, and the later ones from the policy that it leaves.
    cases hx : p.applyEntry m e with
    | error r' =>
      have hfirst : p.FailsAt m (e :: es) 0 r' := failsAt_zero.2 hx
      constructor
      · intro h
        cases h
        exact ⟨0, hfirst, fun j hj => absurd hj (Nat.not_lt_zero j)⟩
      · rintro ⟨i, hi, hbefore⟩
        cases i with
        | zero =>
          rw [failsAt_zero, hx] at hi
          exact hi
        | succ i => exact absurd hfirst (hbefore 0 (Nat.succ_pos i) r')
    | ok t =>
      obtain ⟨-, hadmits, rfl⟩ := applyEntry_eq_ok_iff.1 hx
      have hnot : ∀ r', ¬ p.FailsAt m (e :: es) 0 r' := fun r' h => by
        rw [failsAt_zero, hx] at h
        cases h
      refine Iff.trans ih ?_
      constructor
      · rintro ⟨i, hi, hbefore⟩
        refine ⟨i + 1, (failsAt_succ hadmits).2 hi, fun j hj r' => ?_⟩
        cases j with
        | zero => exact hnot r'
        | succ j =>
          rw [failsAt_succ hadmits]
          exact hbefore j (Nat.lt_of_succ_lt_succ hj) r'
      · rintro ⟨i, hi, hbefore⟩
        cases i with
        | zero => exact absurd hi (hnot r)
        | succ i =>
          refine ⟨i, (failsAt_succ hadmits).1 hi, fun j hj r' => ?_⟩
          rw [← failsAt_succ hadmits]
          exact hbefore (j + 1) (Nat.succ_lt_succ hj) r'

/-! ### Orders of demands -/

/-- Whether demands agree is not a matter of their order. -/
theorem Agrees.perm (h : p.Agrees A) (hp : A.Perm B) : p.Agrees B := fun c a b ha hb =>
  h c a b (hp.mem_iff.2 ha) (hb.imp_right hp.mem_iff.2)

/-- Demands that agree leave the same in every order. -/
theorem Agrees.fill_perm (h : p.Agrees A) (hp : A.Perm B) : p.fill B = p.fill A := by
  have hrule : (p.fill B).rule = (p.fill A).rule := by
    funext c
    ext1 a
    rw [(h.perm hp).rule_fill_iff, h.rule_fill_iff, hp.mem_iff]
  unfold fill at hrule ⊢
  exact congrArg (fun rule => { p with rule }) hrule

/-! ## 5. Whole requests

A request is looked at before its entries are: the mode has to be one, and there has to be an
entry. -/

theorem amend_eq (hm : m.raw = mode) (hes : es ≠ []) : p.amend mode es = applyEntries m es p := by
  unfold amend
  rw [if_neg (by simpa using hes), PolicyMode.ofRaw?_eq_some_iff.2 hm]

/-- What holds of a request. -/
structure AmendSound (p : Policy) (mode : Nat) (es : List PolicyEntry) : Prop where
  /-- It is refused if it is empty or names no mode. -/
  malformed : es = [] ∨ (∀ m : PolicyMode, m.raw ≠ mode) → p.amend mode es = .error .invalidArgs
  /-- Else it is refused for its first entry that fails. -/
  refused : ∀ m : PolicyMode, m.raw = mode → es ≠ [] → ∀ r, p.amend mode es = .error r ↔
    ∃ i, p.FailsAt m es i r ∧ ∀ j < i, ∀ r', ¬ p.FailsAt m es j r'
  /-- Whatever is refused leaves everything as it was: the policy, or the job that has it. -/
  unchanged : ∀ (s : Script.Session) (ref : String) (r : Refusal),
    ((Script.PolicyCommand.amend ref mode es).run s).2 = .refused r →
      ((Script.PolicyCommand.amend ref mode es).run s).1 = s
  /-- In relative mode all valid entries pass, what was explicit stays, and else the first demand
  counts. -/
  relative : mode = PolicyMode.relative.raw → es ≠ [] →
    ((∃ q, p.amend mode es = .ok q) ↔ ∀ e ∈ es, e.Valid) ∧
    ∀ q, p.amend mode es = .ok q → q.slack = p.slack ∧ ∀ c,
      (∀ a, p.rule c = some a → q.rule c = some a) ∧
      (p.rule c = none → q.rule c = (asked es).lookup c)
  /-- In absolute mode they pass if no demand is at odds with another one or with what was explicit,
  and then what is explicit is what was so and what is demanded, in whatever order. -/
  absolute : mode = PolicyMode.absolute.raw → es ≠ [] →
    ((∃ q, p.amend mode es = .ok q) ↔ (∀ e ∈ es, e.Valid) ∧ p.Agrees (asked es)) ∧
    ∀ q, p.amend mode es = .ok q → q.slack = p.slack ∧
      (∀ c a, q.rule c = some a ↔ p.rule c = some a ∨ (c, a) ∈ asked es) ∧
      ∀ es', es.Perm es' → p.amend mode es' = .ok q

/-- **A request is refused for its first entry that fails, or it is met as a whole**, for every
policy, every mode and all entries.  Both modes leave what was explicit; they differ in what they
take for a failure. -/
theorem amend_sound (p : Policy) (mode : Nat) (es : List PolicyEntry) : p.AmendSound mode es := by
  constructor
  case malformed =>
    intro h
    unfold amend
    split
    · rfl
    · rename_i hne
      have hnone : PolicyMode.ofRaw? mode = none := by
        refine Option.eq_none_iff_forall_ne_some.2 fun m hm => ?_
        rcases h with rfl | h
        · exact hne rfl
        · exact h m (PolicyMode.ofRaw?_eq_some_iff.1 hm)
      rw [hnone]
  case refused =>
    intro m hm hes r
    rw [amend_eq hm hes, applyEntries_eq_error_iff]
  case unchanged =>
    intro s ref r h
    exact Script.PolicyCommand.change_refused h
  case relative =>
    intro hm hes
    -- what a request comes to, said by its demands: in this mode only numbers can be wrong
    have hok : ∀ q, p.amend mode es = .ok q ↔ (∀ e ∈ es, e.Valid) ∧ q = p.fill (asked es) := by
      intro q
      rw [amend_eq hm.symm hes, applyEntries_eq_ok_iff]
      exact and_congr_right fun _ => and_iff_right fun h => (nomatch h)
    refine ⟨⟨fun ⟨q, hq⟩ => ((hok q).1 hq).1, fun h => ⟨_, (hok _).2 ⟨h, rfl⟩⟩⟩, fun q hq => ?_⟩
    obtain ⟨-, rfl⟩ := (hok q).1 hq
    refine ⟨rfl, fun c => ⟨fun a ha => ?_, fun hfree => ?_⟩⟩
    · rw [rule_fill, ha, Option.some_or]
    · rw [rule_fill, hfree, Option.none_or]
  case absolute =>
    intro hm hes
    have hok : ∀ es', es' ≠ [] → ∀ q, p.amend mode es' = .ok q ↔
        (∀ e ∈ es', e.Valid) ∧ p.Agrees (asked es') ∧ q = p.fill (asked es') := by
      intro es' hes' q
      rw [amend_eq hm.symm hes', applyEntries_eq_ok_iff]
      exact and_congr_right fun _ => and_congr_left fun _ => forall_prop_of_true rfl
    refine ⟨⟨fun ⟨q, hq⟩ => ?_, fun h => ⟨_, (hok es hes _).2 ⟨h.1, h.2, rfl⟩⟩⟩, fun q hq => ?_⟩
    · obtain ⟨hvalid, hagrees, -⟩ := (hok es hes q).1 hq
      exact ⟨hvalid, hagrees⟩
    · obtain ⟨hvalid, hagrees, rfl⟩ := (hok es hes q).1 hq
      refine ⟨rfl, fun c a => hagrees.rule_fill_iff, fun es' hperm => ?_⟩
      have hasked : (asked es).Perm (asked es') := hperm.flatMap_right _
      refine (hok es' (fun h => hes (h ▸ hperm).eq_nil) _).2 ⟨?_, hagrees.perm hasked, ?_⟩
      · exact fun e he => hvalid e (hperm.mem_iff.2 he)
      · exact (hagrees.fill_perm hasked).symm

end Policy

end KernelObjects
