import KernelObjects.Proofs.Isolation
import KernelObjects.Proofs.Wear

/-
# Generations go round

The first handle in a slot is made in generation one, and each time the slot loses its handle the
generation moves on.  A handle is made only in a slot that has none; so between two handles in one
slot the generation has moved on exactly once, however many other slots were taken and freed in
between, and whichever of them the list of free slots offered first.  The number of handles that
were made in a slot says everything about the slot (`Turned`).

A *course* is a run of operations with the handles that were made on it; a walk that calls the
client back is such a run too (`World.Guides.walk_onward`).  On every course the base values in a
slot are a cycle (`World.Course.slot_cycle`): they differ until all generations were used, and
then they come back in the same order.

The values are given as words of 32 bits (`Packed`), since a value that a client stores is such a
word.  Nothing is lost by that: the generation has 14 bits and the index the other 18, so the
shift drops no bit and the two do not overlap.

The period is exact.  That values repeat after as many handles as there are generations, and not
before, is said of every course; that there are courses on which it comes to a repetition is a
statement of its own (`exists_round`).
-/

namespace KernelObjects

open HandleValue

/-! ## 1. Base values in 32 bits

The same value twice, as a number and as a word. -/

namespace HandleValue

/-- A generation and an index, packed into 32 bits: the shifted generation loses nothing and has
nothing where the index goes. -/
structure Packed (g n base : Nat) : Prop where
  pos : 0 < g
  lt : g < 2 ^ 14
  index_lt : n < 2 ^ 18
  shifted : (UInt32.ofNat g <<< UInt32.ofNat indexBits).toNat = g * 2 ^ 18
  apart : UInt32.ofNat g <<< UInt32.ofNat indexBits &&& UInt32.ofNat (indexCount - 1) = 0
  packed : (UInt32.ofNat g <<< UInt32.ofNat indexBits ||| UInt32.ofNat n).toNat = base

/-- A generation in the high bits is the generation times the number of indexes. -/
theorem toNat_shift {g : Nat} (hg : g < 2 ^ 14) :
    (UInt32.ofNat g <<< UInt32.ofNat indexBits).toNat = g * 2 ^ 18 := by
  rw [UInt32.toNat_shiftLeft, UInt32.toNat_ofNat', UInt32.toNat_ofNat',
    Nat.mod_eq_of_lt (by omega : g < 2 ^ 32), show indexBits % 2 ^ 32 % 32 = 18 from rfl,
    Nat.shiftLeft_eq]
  exact Nat.mod_eq_of_lt (by omega)

/-- The value of a slot in the words of the machine: no bit is lost in the shift, as generations
have 14 bits. -/
theorem packed_encode {g n : Nat} (hpos : 0 < g) (hg : g < generationCount) (hn : n < indexCount) :
    Packed g n (encode g n) := by
  have hindex : indexCount = 2 ^ 18 := rfl
  have hg : g < 2 ^ 14 := hg
  rw [hindex] at hn
  refine ⟨hpos, hg, hn, toNat_shift hg, ?_, ?_⟩
  · rw [← UInt32.toNat_inj, UInt32.toNat_and, toNat_shift hg, hindex, UInt32.toNat_ofNat',
      Nat.mod_eq_of_lt (by omega : 2 ^ 18 - 1 < 2 ^ 32), Nat.and_two_pow_sub_one_eq_mod,
      Nat.mul_mod_left]
    rfl
  · rw [UInt32.toNat_or, toNat_shift hg, UInt32.toNat_ofNat',
      Nat.mod_eq_of_lt (by omega : n < 2 ^ 32), encode, hindex, Nat.mul_comm,
      ← Nat.two_pow_add_eq_or_of_lt hn]

/-! ## 2. Turns

A slot in which a number of handles were made is in one of two conditions, and both are determined
by the number. -/

/-- The generation of the handle that is made in a slot after so many others. -/
def turn (k : Nat) : Nat := k % (generationCount - 1) + 1

theorem turn_eq (k : Nat) : turn k = k % 16383 + 1 := rfl

/-- A turn is a generation, -/
theorem turn_lt (k : Nat) : turn k < generationCount := by
  have hcount : generationCount = 16384 := rfl
  rw [turn_eq, hcount]
  omega

/-- and the next generation is the next turn, also where it starts again at one. -/
theorem nextGeneration_turn (k : Nat) : nextGeneration (turn k) = turn (k + 1) := by
  have hcount : generationCount = 16384 := rfl
  rw [turn_eq, turn_eq]
  unfold nextGeneration
  rw [hcount]
  dsimp only
  split <;> omega

/-- Two turns are the same if whole rounds lie between them. -/
theorem turn_eq_turn_iff {j k : Nat} (h : j ≤ k) : turn k = turn j ↔ 16383 ∣ k - j := by
  rw [turn_eq, turn_eq]
  omega

/-- Two values of one slot are the same if their generations are. -/
theorem encode_inj_left {g c n : Nat} : encode g n = encode c n ↔ g = c := by
  have hindex : indexCount = 262144 := rfl
  unfold encode
  rw [hindex]
  omega

end HandleValue

/-- A slot in which so many handles were made: the last one stands in it, or is gone and the slot
has moved on to the next generation. -/
inductive Turned : Nat → Option Slot → Prop
  | unopened : Turned 0 none
  | taken {k : Nat} {h : HandleId} : Turned (k + 1) (some ⟨turn k, some h⟩)
  | freed {k : Nat} : Turned (k + 1) (some ⟨turn (k + 1), none⟩)

/-- A slot in which a handle of the generation may be made: it is empty or not yet opened. -/
inductive Offers : Nat → Option Slot → Prop
  | opens : Offers 1 none
  | again {g : Nat} : Offers g (some ⟨g, none⟩)

variable {k : Nat} {x y : Option Slot}

/-- A slot that wears has turned as often, or once more if it was emptied. -/
theorem Turned.worn (h : Turned k x) (hw : Worn x y) : Turned k y := by
  cases hw with
  | kept => exact h
  | freed =>
    cases h with
    | taken =>
      rw [nextGeneration_turn]
      exact .freed

/-- A slot offers the generation whose turn it is. -/
theorem Turned.generation (h : Turned k x) {g : Nat} (ho : Offers g x) : g = turn k := by
  cases ho with
  | opens =>
    cases h
    rfl
  | again =>
    cases h
    rfl

/-! ## 3. Making a handle

The one place where the count of a slot moves.  What is made in other slots leaves it alone. -/

namespace Arena

variable {a : Arena}

/-- A slot that is opened starts in the first generation. -/
theorem Wf.insert_opens (h : a.Wf) (x : HandleId)
    (hnew : a.slots[index (a.insert x).1]? = none) : (a.insert x).1 = encode 1 a.slots.size := by
  cases hfree : a.free with
  | nil => rw [insert_of_nil hfree]
  | cons n rest =>
    obtain ⟨s, hs, -⟩ := (h.mem_free n).1 (hfree ▸ List.mem_cons_self)
    rw [insert_of_cons hfree, index_encode (h.index_lt hs), hs] at hnew
    cases hnew

/-- **A handle goes into a slot that offers its generation.** -/
theorem Wf.insert_offers (h : a.Wf) (hf : a.isFull = false) (x : HandleId) :
    ∃ n g, n < indexCount ∧ (a.insert x).1 = encode g n ∧ Offers g a.slots[n]? ∧
      ∀ m, (a.insert x).2.slots[m]? = if n = m then some ⟨g, some x⟩ else a.slots[m]? := by
  obtain ⟨n, g, hn, -, -, hbase, hempty, hslots⟩ := h.insert_slots hf x
  refine ⟨n, g, hn, hbase, ?_, hslots⟩
  cases hs : a.slots[n]? with
  | some s =>
    cases hempty s hs
    exact .again
  | none =>
    have hroom : a.slots.size < indexCount := by
      have hle := (h.insert hf x).size_le
      have hcap := h.capacity_le
      rw [insert_capacity] at hle
      obtain ⟨hlt, -⟩ := Array.getElem?_eq_some_iff.1 ((hslots n).trans (if_pos rfl))
      have hsize : a.slots.size ≤ n := Array.getElem?_eq_none_iff.1 hs
      omega
    have hopens := h.insert_opens x (by rw [hbase, index_encode hn, hs])
    have hg := congrArg HandleValue.generation (hbase.symm.trans hopens)
    rw [generation_encode hn, generation_encode hroom] at hg
    rw [hg]
    exact .opens

end Arena

namespace System

variable {s : System}

/-- A handle that is made turns the slot that its value points to, and no other. -/
theorem slot_withHandle {i : ArenaId} {a : Arena} (ha : s.arenas[i]? = some a) (hwf : a.Wf)
    (hfull : a.isFull = false) (k : Koid) (rights : Rights) :
    ∃ n g, n < indexCount ∧ (a.insert s.nextId).1 = encode g n ∧ Offers g (s.slot i n) ∧
      ∀ j m, (s.withHandle i a k rights).slot j m =
        if i = j ∧ n = m then some ⟨g, some s.nextId⟩ else s.slot j m := by
  obtain ⟨n, g, hn, hbase, hoffers, hslots⟩ := hwf.insert_offers hfull s.nextId
  have hthere : ∀ m, s.slot i m = a.slots[m]? := fun m => by rw [slot, ha, Option.bind_some]
  refine ⟨n, g, hn, hbase, (hthere n).symm ▸ hoffers, fun j m => ?_⟩
  have harenas : (s.withHandle i a k rights).arenas[j]? =
      if i = j then some (a.insert s.nextId).2 else s.arenas[j]? := Store.getElem?_insert _ _ _ _
  by_cases hi : i = j
  · subst hi
    rw [if_pos rfl] at harenas
    rw [slot, harenas, Option.bind_some, hslots, hthere]
    simp only [true_and]
  · rw [if_neg hi] at harenas
    rw [slot, harenas, if_neg fun h => hi h.1]
    rfl

/-- A request is refused, which changes no slot and no handle, or a handle is made. -/
theorem answer_cases (s : System) (q : HandleRequest) :
    s.gives q = none ∧ Still s (s.answer q).2 ∨
    ∃ a, s.arenas[q.arena]? = some a ∧ a.isFull = false ∧
      s.gives q = some { base := (a.insert s.nextId).1, object := q.object, rights := q.rights
                         arena := q.arena } ∧
      (s.answer q).2 = s.withHandle q.arena a q.object q.rights := by
  unfold gives answer
  cases hm : s.makeHandle q.arena q.object q.rights q.mayGrow with
  | mk result t =>
    cases result with
    | error e => exact .inl ⟨rfl, still_of_makeHandle_error hm⟩
    | ok h =>
      obtain ⟨a, ha, hfull, rfl, rfl⟩ := makeHandle_ok hm
      exact .inr ⟨a, ha, hfull, Std.ExtTreeMap.getElem?_insert_self, rfl⟩

end System

/-- Those of several handles that were made in a slot. -/
def madeIn (hs : List Handle) (i : ArenaId) (n : Nat) : List Handle :=
  hs.filter fun r => r.arena = i ∧ index r.base = n

section MadeIn

variable {hs : List Handle} {r : Handle} {i : ArenaId} {n : Nat}

/-- The handles made in a slot are those with its arena and its index. -/
theorem mem_madeIn : r ∈ madeIn hs i n ↔ r ∈ hs ∧ r.arena = i ∧ index r.base = n := by
  unfold madeIn
  rw [List.mem_filter, decide_eq_true_iff]

theorem madeIn_append (hs js : List Handle) (i : ArenaId) (n : Nat) :
    madeIn (hs ++ js) i n = madeIn hs i n ++ madeIn js i n := List.filter_append ..

theorem madeIn_singleton_of_pos (h : r.arena = i ∧ index r.base = n) : madeIn [r] i n = [r] :=
  List.filter_cons_of_pos (decide_eq_true h)

theorem madeIn_singleton_of_neg (h : ¬ (r.arena = i ∧ index r.base = n)) : madeIn [r] i n = [] :=
  List.filter_cons_of_neg (decide_eq_false h ▸ Bool.false_ne_true)

end MadeIn

namespace World

variable {w : World} {i : ArenaId} {n : Nat}

/-- Where an operation makes a handle, it is the turn of its generation. -/
theorem Passed.answered_turned (hp : w.Passed True True) (ht : Turned k (w.system.slot i n))
    (op : Op) :
    Turned (k + (madeIn (w.made op).toList i n).length) ((w.answered op).slot i n) ∧
      ∀ r ∈ madeIn (w.made op).toList i n, r.base = encode (turn k) n := by
  unfold made answered
  cases w.asks op with
  | none => exact ⟨ht, fun _ hr => by cases hr⟩
  | some q =>
    dsimp only [Option.bind_some]
    obtain ⟨hgives, hstill⟩ | ⟨a, ha, hfull, hgives, he⟩ := w.system.answer_cases q
    · rw [hgives]
      refine ⟨?_, fun _ hr => by cases hr⟩
      rw [System.slot_congr_arenas hstill.arenas]
      exact ht
    · rw [hgives, he]
      obtain ⟨m, g, hm, hbase, hoffers, hslots⟩ :=
        System.slot_withHandle ha (hp.slotted.wf ha) hfull q.object q.rights
      rw [hslots, hbase]
      -- The handle goes into this slot, and then it takes the turn that the slot offers; or into
      -- another one, and then nothing is made here.
      by_cases hin : q.arena = i ∧ m = n
      · obtain ⟨rfl, rfl⟩ := hin
        have hturn := ht.generation hoffers
        subst hturn
        rw [Option.toList_some, madeIn_singleton_of_pos ⟨rfl, index_encode hm⟩,
          if_pos ⟨rfl, rfl⟩]
        refine ⟨.taken, fun r hr => ?_⟩
        rw [List.mem_singleton.1 hr]
      · rw [Option.toList_some, madeIn_singleton_of_neg fun h => hin ⟨h.1, index_encode hm ▸ h.2⟩,
          if_neg hin]
        exact ⟨ht, fun _ hr => by cases hr⟩

/-- **One operation** turns a slot as often as it makes a handle in it. -/
theorem Passed.act_turned (hp : w.Passed True True) (ht : Turned k (w.system.slot i n)) (op : Op) :
    Turned (k + (madeIn (w.made op).toList i n).length) ((w.act op).system.slot i n) ∧
      ∀ r ∈ madeIn (w.made op).toList i n, r.base = encode (turn k) n := by
  obtain ⟨hturned, hbase⟩ := hp.answered_turned ht op
  exact ⟨hturned.worn ((hp.act_wears op).slot i n), hbase⟩

/-- What is there after an operation was there before, or is what the operation made. -/
theorem Passed.act_handle (hp : w.Passed True True) {op : Op} {x : HandleId} {r : Handle}
    (hr : (w.act op).system.handles[x]? = some r) :
    (∃ q, w.system.handles[x]? = some q ∧ q.kin = r.kin) ∨
      ∃ q, w.made op = some q ∧ q.kin = r.kin := by
  obtain ⟨q, hq, hkin⟩ := (hp.act_wears op).handle hr
  unfold answered at hq
  unfold made
  cases hasks : w.asks op with
  | none =>
    rw [hasks] at hq
    exact .inl ⟨q, hq, hkin⟩
  | some ask =>
    rw [hasks] at hq
    dsimp only [Option.bind_some] at hq ⊢
    obtain ⟨hgives, hstill⟩ | ⟨a, ha, hfull, hgives, he⟩ := w.system.answer_cases ask
    · rw [show (w.system.answer ask).2.handles = w.system.handles from
        congrArg Hands.handles hstill.hands] at hq
      exact .inl ⟨q, hq, hkin⟩
    · rw [he] at hq
      have hq := (Store.getElem?_insert _ _ _ _).symm.trans hq
      split at hq
      · cases hq
        exact .inr ⟨_, hgives, hkin⟩
      · exact .inl ⟨q, hq, hkin⟩

/-! ## 4. Courses

The handles that were made are kept in a list beside the run; those of one slot are a part of it,
in the same order. -/

/-- A run of operations with the handles that were made on it, in order. -/
inductive Course : List Handle → World → Prop
  | start : Course [] {}
  | act {hs : List Handle} {w : World} (h : Course hs w) (op : Op) :
      Course (hs ++ (w.made op).toList) (w.act op)
  /-- The dues stand in no order. -/
  | reorder {hs : List Handle} {s : System} {d e : List Task} (h : Course hs ⟨s, d⟩)
      (hd : d.Perm e) : Course hs ⟨s, e⟩

/-- The handles that operations make one after the other. -/
def makes : World → List Op → List Handle
  | _, [] => []
  | w, op :: ops => (w.made op).toList ++ makes (w.act op) ops

/-- What a run makes is what its parts make. -/
theorem makes_append (w : World) (ops ops' : List Op) :
    w.makes (ops ++ ops') = w.makes ops ++ (List.foldl act w ops).makes ops' := by
  induction ops generalizing w with
  | nil => rfl
  | cons op ops ih => rw [List.cons_append, makes, ih, makes, List.append_assoc, List.foldl_cons]

namespace Course

variable {hs : List Handle}

/-- A course goes on with any operations. -/
theorem foldl (h : Course hs w) (ops : List Op) :
    Course (hs ++ w.makes ops) (List.foldl World.act w ops) := by
  induction ops generalizing hs w with
  | nil =>
    rw [makes, List.append_nil]
    exact h
  | cons op ops ih =>
    rw [makes, ← List.append_assoc]
    exact ih (h.act op)

/-- **Every run is a course.** -/
theorem of_run (ops : List Op) : Course (makes {} ops) (run ops) := Course.start.foldl ops

theorem passed (h : Course hs w) : w.Passed True True := by
  induction h with
  | start => exact (reachable_run []).passed
  | act h op ih => exact ih.trans (act_moves ih.accounted op (fun _ => trivial) fun _ => trivial)
  | reorder _ hd ih => exact ih.trans (System.reorder_moves _ hd)

/-- **The handles in a slot are made in turn**, and their number says how often the slot turned. -/
theorem turned (h : Course hs w) (i : ArenaId) (n : Nat) :
    Turned (madeIn hs i n).length (w.system.slot i n) ∧
      (madeIn hs i n).map Handle.base =
        (List.range (madeIn hs i n).length).map fun k => encode (turn k) n := by
  induction h with
  | start => exact ⟨.unopened, rfl⟩
  | reorder _ _ ih => exact ih
  | @act hs w h op ih =>
    obtain ⟨hturned, hbases⟩ := ih
    obtain ⟨hnext, hbase⟩ := h.passed.act_turned hturned op
    rw [madeIn_append, List.length_append, List.map_append, hbases]
    refine ⟨hnext, ?_⟩
    -- an operation makes no more than one handle
    cases hmade : w.made op with
    | none => exact List.append_nil _
    | some r =>
      rw [hmade, Option.toList_some] at hbase
      rw [Option.toList_some]
      by_cases hin : r.arena = i ∧ index r.base = n
      · rw [madeIn_singleton_of_pos hin] at hbase ⊢
        rw [List.length_singleton, List.range_succ, List.map_append, List.map_singleton,
          List.map_singleton, hbase r (List.mem_singleton_self r)]
      · rw [madeIn_singleton_of_neg hin, List.map_nil, List.append_nil, List.length_nil,
          Nat.add_zero]

/-- Every handle that there is was made on the way. -/
theorem known (h : Course hs w) {x : HandleId} {r : Handle} (hr : w.system.handles[x]? = some r) :
    ∃ q ∈ hs, q.kin = r.kin := by
  induction h generalizing x r with
  | start => simp [System.initial] at hr
  | reorder _ _ ih => exact ih hr
  | @act hs w h op ih =>
    rcases h.passed.act_handle hr with ⟨q, hq, hkin⟩ | ⟨q, hq, hkin⟩
    · obtain ⟨p, hp, hkin'⟩ := ih hq
      exact ⟨p, List.mem_append_left _ hp, hkin'.trans hkin⟩
    · exact ⟨q, List.mem_append_right _ (by rw [hq]; exact List.mem_singleton_self q), hkin⟩

/-- The base value of the handle that is made in a slot after `k` others. -/
theorem base_eq (h : Course hs w) {k : Nat} {r : Handle}
    (hr : (madeIn hs i n)[k]? = some r) :
    n < indexCount ∧ r.base = encode (turn k) n := by
  obtain ⟨-, hbases⟩ := h.turned i n
  obtain ⟨-, -, hindex⟩ := mem_madeIn.1 (List.mem_of_getElem? hr)
  constructor
  · rw [← hindex]
    exact Nat.mod_lt _ (by decide)
  · obtain ⟨hk, -⟩ := List.getElem?_eq_some_iff.1 hr
    have hget := congrArg (·[k]?) hbases
    rw [List.getElem?_map, List.getElem?_map, hr, List.getElem?_range hk] at hget
    exact Option.some_inj.1 hget

end Course

/-! ## 5. Round and round

Positions in the cycle are counted from the first handle of the slot, so that equality of values
becomes divisibility of differences. -/

/-- A stretch of a list repeats nothing, if what repeats is further apart. -/
theorem nodup_window {α : Type} {l : List α} {m : Nat}
    (h : ∀ {j k : Nat} {a b : α}, l[j]? = some a → l[k]? = some b → j < k → k < j + m → b ≠ a)
    (j : Nat) : ((l.drop j).take m).Nodup := by
  rw [List.nodup_iff_getElem?_ne_getElem?]
  intro a b hab hb he
  rw [List.length_take, List.length_drop] at hb
  rw [List.getElem?_take_of_lt (by omega), List.getElem?_take_of_lt (by omega), List.getElem?_drop,
    List.getElem?_drop] at he
  have hget : l[j + b]? = some l[j + b] := List.getElem?_eq_getElem (by omega)
  exact h (he.trans hget) hget (by omega) (by omega) rfl

/-- **The cycle of a slot**, as it shows in the handles that were made in it on a course. -/
structure SlotCycle (hs : List Handle) (w : World) (i : ArenaId) (n : Nat) : Prop where
  /-- The generation of the handle that is made after `k` others. -/
  generation : ∀ {k : Nat} {r : Handle}, (madeIn hs i n)[k]? = some r →
    generation r.base = k % 16383 + 1
  packed : ∀ r ∈ madeIn hs i n, Packed (HandleValue.generation r.base) n r.base
  /-- So many handles in a row have base values that differ. -/
  nodup : ∀ j, ((((madeIn hs i n).map Handle.base).drop j).take 16383).Nodup
  /-- A base value is used again when all generations were used since. -/
  again : ∀ {j k : Nat} {r q : Handle}, (madeIn hs i n)[j]? = some r →
    (madeIn hs i n)[k]? = some q → j ≤ k → (q.base = r.base ↔ 16383 ∣ k - j)
  /-- It is used in no other slot of the arena. -/
  only : ∀ r ∈ madeIn hs i n, ∀ q ∈ hs, q.arena = i → q.base = r.base → q ∈ madeIn hs i n
  turned : Turned (madeIn hs i n).length (w.system.slot i n)
  /-- No other handles were made in the slot. -/
  known : ∀ {x : HandleId} {r : Handle}, w.system.handles[x]? = some r → r.arena = i →
    index r.base = n → ∃ q ∈ madeIn hs i n, q.kin = r.kin

/-- **Generations go round with period 16383**, in every slot of every arena on every course. -/
theorem Course.slot_cycle {hs : List Handle} (h : Course hs w) (i : ArenaId) (n : Nat) :
    SlotCycle hs w i n := by
  -- Two handles of a slot have one value just if a multiple of the period lies between them.  The
  -- clauses on windows and on repetition both come of this.
  have hagain : ∀ {j k : Nat} {r q : Handle}, (madeIn hs i n)[j]? = some r →
      (madeIn hs i n)[k]? = some q → j ≤ k → (q.base = r.base ↔ 16383 ∣ k - j) := by
    intro j k r q hr hq hjk
    rw [(h.base_eq hr).2, (h.base_eq hq).2, encode_inj_left, turn_eq_turn_iff hjk]
  constructor
  case generation =>
    intro k r hr
    obtain ⟨hn, hbase⟩ := h.base_eq hr
    rw [hbase, generation_encode hn, turn_eq]
  case packed =>
    intro r hr
    obtain ⟨k, hk⟩ := List.mem_iff_getElem?.1 hr
    obtain ⟨hn, hbase⟩ := h.base_eq hk
    rw [hbase, generation_encode hn]
    exact packed_encode (Nat.succ_pos _) (turn_lt k) hn
  case nodup =>
    refine nodup_window fun {j k b c} hb hc hjk hk he => ?_
    rw [List.getElem?_map] at hb hc
    obtain ⟨r, hr, rfl⟩ := Option.map_eq_some_iff.1 hb
    obtain ⟨q, hq, rfl⟩ := Option.map_eq_some_iff.1 hc
    have hdvd := (hagain hr hq (Nat.le_of_lt hjk)).1 he
    omega
  case again => exact hagain
  case only =>
    intro r hr q hq harena hbase
    exact mem_madeIn.2 ⟨hq, harena, hbase ▸ (mem_madeIn.1 hr).2.2⟩
  case turned => exact (h.turned i n).1
  case known =>
    intro x r hr hi hn
    obtain ⟨q, hq, hkin⟩ := h.known hr
    have harena : q.arena = r.arena := congrArg Handle.Kin.arena hkin
    have hbase : q.base = r.base := congrArg Handle.Kin.base hkin
    exact ⟨q, mem_madeIn.2 ⟨hq, harena.trans hi, hbase ▸ hn⟩, hkin⟩

/-- A slot that is freed and taken again. -/
def reusingOps : List Op :=
  [.newArena 1, .createWitness "w" .empty, .makeHandle 1 1024 .basic true, .drop (.close 2),
    .makeHandle 1 1024 .basic true]

theorem Course.slot_cycle_of_reusing :
    Course (makes {} reusingOps) (run reusingOps) ∧
      SlotCycle (makes {} reusingOps) (run reusingOps) 1 0 ∧
      (madeIn (makes {} reusingOps) 1 0).map Handle.base = [262144, 524288] :=
  ⟨.of_run _, (Course.of_run _).slot_cycle 1 0, by cbv⟩

/-! ## 6. The cycle closes

A run that uses one slot as often as there are generations, and comes back to the first value. -/

/-- The handle that is made in the only slot of an arena. -/
theorem Vacant.made {g : Nat} (h : w.Vacant g) :
    ∃ r, w.made (.makeHandle 1 1024 .basic true) = some r ∧ r.arena = 1 ∧ index r.base = 0 := by
  obtain ⟨a, ha, hfull, -, hslot⟩ := h.make
  have hthere : w.system.Present (.object 1024) :=
    h.passed.accounted.present_of_owed (owed_pos h.due (by simp [Task.holds]))
  have hasks : w.asks (.makeHandle 1 1024 .basic true) = some ⟨1, 1024, .basic, true⟩ :=
    if_pos hthere
  obtain ⟨n, c, hn, hbase, -, hslots⟩ :=
    System.slot_withHandle ha (h.passed.slotted.wf ha) hfull 1024 .basic
  have hzero : n = 0 := by
    by_contra hne
    rw [hslots, if_neg fun he => hne he.2, h.slot] at hslot
    cases hslot
  refine ⟨{ base := (a.insert w.system.nextId).1, object := 1024, rights := .basic, arena := 1 },
    ?_, rfl, by rw [hbase, index_encode hn, hzero]⟩
  have hmakes := System.makeHandle_growing ha 1024 .basic
  rw [hfull] at hmakes
  unfold World.made System.gives System.answer
  rw [hasks, Option.bind_some]
  dsimp only
  rw [hmakes]
  exact Std.ExtTreeMap.getElem?_insert_self

/-- The slot can be made to turn any number of times. -/
theorem Vacant.exists_makes {g : Nat} (h : w.Vacant g) (m : Nat) :
    ∃ ops, (madeIn (w.makes ops) 1 0).length = m := by
  induction m generalizing w g with
  | zero => exact ⟨[], rfl⟩
  | succ m ih =>
    obtain ⟨ops, hops⟩ := ih h.reuse.1
    obtain ⟨r, hr, hin⟩ := h.made
    refine ⟨.makeHandle 1 1024 .basic true :: .drop (.close w.system.nextId) :: ops, ?_⟩
    have hmakes : w.makes (.makeHandle 1 1024 .basic true :: .drop (.close w.system.nextId) ::
        ops) = [r] ++ w.reuse.makes ops := by
      rw [makes, hr]
      rfl
    rw [hmakes, madeIn_append, madeIn_singleton_of_pos hin, List.length_append, hops,
      List.length_singleton, Nat.add_comm]

/-- **The cycle closes**: there is a run on which the first base value of a slot is used again,
after all other generations of the slot were used. -/
theorem exists_round : ∃ ops r q, (madeIn (makes {} ops) 1 0)[0]? = some r ∧
    (madeIn (makes {} ops) 1 0)[16383]? = some q ∧ q.base = r.base := by
  have hvacant : (run (reusingOps.take 4)).Vacant 2 :=
    { passed := (reachable_run _).passed
      due := by decide +kernel
      capacity := by cbv
      slot := by cbv }
  obtain ⟨ops, hops⟩ := hvacant.exists_makes 16383
  have hfirst : (madeIn (makes {} (reusingOps.take 4)) 1 0).length = 1 := by cbv
  have hlength : (madeIn (makes {} (reusingOps.take 4 ++ ops)) 1 0).length = 16384 := by
    rw [makes_append, madeIn_append, List.length_append, hfirst]
    exact congrArg (1 + ·) hops
  have hcourse := Course.of_run (reusingOps.take 4 ++ ops)
  have hr := List.getElem?_eq_getElem (Nat.lt_of_lt_of_eq (by decide : 0 < 16384) hlength.symm)
  have hq := List.getElem?_eq_getElem (Nat.lt_of_lt_of_eq (by decide : 16383 < 16384) hlength.symm)
  exact ⟨_, _, _, hr, hq, (hcourse.base_eq hq).2.trans (hcourse.base_eq hr).2.symm⟩

end World

end KernelObjects
