/-
The memo of parsed queries, shared by calls that interleave.  A call looks its query up,
parses it if no tree is kept, and keeps the tree; nothing may happen to the memo between looking
up and keeping, or anything.  Still no call can tell that there is a memo.
-/
import Mathlib.Data.List.Perm.Basic
import QueryBatch.Memo

namespace QueryBatch

namespace Memo

/-- What parsing gives for a key. -/
def Key.parse (key : Key) : Except Error Condition :=
  Condition.parse key.coding key.query

/-- A memo within its capacity, whose trees are each kept once and are what their keys parse
to. -/
structure Sound (m : Memo) : Prop where
  room : 1 ≤ m.capacity
  size : m.size ≤ m.capacity
  distinct : (m.entries.map Prod.fst).Nodup
  parsed : ∀ entry ∈ m.entries, entry.1.parse = .ok entry.2

variable {m : Memo} {key : Key} {tree : Condition}

theorem mem_of_get?_eq_some (h : m.get? key = some tree) : (key, tree) ∈ m.entries := by
  obtain ⟨before, after, hentries, -⟩ := List.lookup_eq_some_iff.mp h
  simp [hentries]

theorem contains_iff : m.contains key = true ↔ key ∈ m.entries.map Prod.fst := by
  rw [contains, get?, List.lookup_isSome_iff]
  simp only [beq_iff_eq, List.mem_map]
  simp only [eq_comm]

theorem sound_empty (capacity : Nat) : (empty capacity).Sound where
  room := Nat.le_max_right capacity 1
  size := Nat.zero_le _
  distinct := List.nodup_nil
  parsed := List.forall_mem_nil _

theorem Sound.clear (h : m.Sound) : m.clear.Sound where
  room := h.room
  size := Nat.zero_le _
  distinct := List.nodup_nil
  parsed := List.forall_mem_nil _

theorem kept_sublist (m : Memo) (victim : Nat) (key : Key) :
    (m.kept victim key).Sublist m.entries := by
  unfold kept
  split
  · exact List.filter_sublist
  · split
    · exact List.eraseIdx_sublist _ _
    · exact List.Sublist.refl _

theorem key_notMem_kept (m : Memo) (victim : Nat) (key : Key) :
    key ∉ (m.kept victim key).map Prod.fst := by
  unfold kept
  by_cases hcontains : m.contains key = true
  · rw [if_pos hcontains]
    simp
  · rw [if_neg hcontains]
    intro hmem
    apply hcontains
    rw [contains_iff]
    split at hmem
    · exact ((List.eraseIdx_sublist _ _).map Prod.fst).subset hmem
    · exact hmem

/-- One more entry always fits beside those that stay. -/
theorem Sound.length_kept_lt (h : m.Sound) (victim : Nat) (key : Key) :
    (m.kept victim key).length < m.capacity := by
  have hroom := h.room
  have hsize := h.size
  have hlength : m.size = m.entries.length := rfl
  unfold kept
  by_cases hcontains : m.contains key = true
  · rw [if_pos hcontains]
    obtain ⟨entry, hentry, rfl⟩ := List.mem_map.mp (contains_iff.mp hcontains)
    have hlt := List.length_filter_lt_length_iff_exists (p := fun other => other.1 != entry.1)
      |>.mpr ⟨entry, hentry, by simp⟩
    omega
  · rw [if_neg hcontains]
    by_cases hfull : m.capacity ≤ m.size
    · have hvictim : victim % m.size < m.entries.length := Nat.mod_lt _ (by omega)
      rw [if_pos hfull, List.length_eraseIdx_of_lt hvictim]
      omega
    · rw [if_neg hfull]
      exact Nat.lt_of_not_le hfull

theorem Sound.insert (h : m.Sound) (victim : Nat) (hparse : key.parse = .ok tree) :
    (m.insert victim key tree).Sound where
  room := h.room
  size := h.length_kept_lt victim key
  distinct := by
    rw [Memo.insert, List.map_cons, List.nodup_cons]
    exact ⟨key_notMem_kept m victim key, h.distinct.sublist ((kept_sublist m victim key).map _)⟩
  parsed := by
    rw [Memo.insert, List.forall_mem_cons]
    exact ⟨hparse, fun entry hentry => h.parsed entry ((kept_sublist m victim key).subset hentry)⟩

theorem Sound.get?_parse (h : m.Sound) (hkept : m.get? key = some tree) :
    key.parse = .ok tree :=
  h.parsed _ (mem_of_get?_eq_some hkept)

/-- A query that does not parse is not kept. -/
theorem Sound.get?_eq_none (h : m.Sound) {e : Error} (hparse : key.parse = .error e) :
    m.get? key = none := by
  cases hkept : m.get? key with
  | none => rfl
  | some tree =>
      rw [h.get?_parse hkept] at hparse
      cases hparse

/-- A call finds the tree of its query, or the query does not parse, or its tree is kept. -/
theorem parse_cases (m : Memo) (victim : Nat) (key : Key) :
    (∃ tree, m.get? key = some tree ∧ m.parse victim key = (.ok tree, m)) ∨
    (m.get? key = none ∧ ∃ e, key.parse = .error e ∧ m.parse victim key = (.error e, m)) ∨
    (m.get? key = none ∧ ∃ tree, key.parse = .ok tree ∧
      m.parse victim key = (.ok tree, m.insert victim key tree)) := by
  have hdef : Condition.parse key.coding key.query = key.parse := rfl
  simp only [Memo.parse, hdef]
  cases hkept : m.get? key with
  | some tree => exact Or.inl ⟨tree, rfl, rfl⟩
  | none =>
      cases hparse : key.parse with
      | error e => exact Or.inr (Or.inl ⟨rfl, e, rfl, rfl⟩)
      | ok tree => exact Or.inr (Or.inr ⟨rfl, tree, rfl, rfl⟩)

/-- What a sound memo answers is what parsing gives. -/
theorem Sound.parse_fst (h : m.Sound) (victim : Nat) (key : Key) :
    (m.parse victim key).1 = key.parse := by
  obtain ⟨tree, hkept, hcall⟩ | ⟨-, e, hparse, hcall⟩ | ⟨-, tree, hparse, hcall⟩ :=
    parse_cases m victim key
  · rw [hcall, h.get?_parse hkept]
  · rw [hcall, hparse]
  · rw [hcall, hparse]

theorem get?_insert (m : Memo) (victim : Nat) (key : Key) (tree : Condition) :
    (m.insert victim key tree).get? key = some tree := by
  rw [get?, Memo.insert, List.lookup_cons_self]

theorem contains_insert (m : Memo) (victim : Nat) (key : Key) (tree : Condition) :
    (m.insert victim key tree).contains key = true := by
  rw [contains, get?_insert, Option.isSome_some]

/-- A tree that is new takes the place of one other at most. -/
theorem size_le_size_insert (hnone : m.get? key = none) (victim : Nat) (tree : Condition) :
    m.size ≤ (m.insert victim key tree).size := by
  have hcontains : ¬ m.contains key = true := by simp [contains, hnone]
  rw [size, size, Memo.insert, List.length_cons, kept, if_neg hcontains]
  split
  · rw [List.length_eraseIdx]
    split <;> omega
  · exact Nat.le_succ _

/-- A memo after a call for a key.  It is sound and as large as before; the tree of the key is
there if the key has one, and if not nothing has changed.  No entry came in but that of the key,
and not more than one gave way. -/
structure Updated (m : Memo) (key : Key) (m' : Memo) : Prop where
  sound : m'.Sound
  capacity : m'.capacity = m.capacity
  present : ∀ tree, key.parse = .ok tree → m'.get? key = some tree
  failed : ∀ e, key.parse = .error e → m' = m
  known : m.contains key = true → m' = m
  entries : ∀ entry ∈ m'.entries, entry.1 = key ∨ entry ∈ m.entries
  size : m.size ≤ m'.size

theorem Sound.updated_self (h : m.Sound)
    (hpresent : ∀ tree, key.parse = .ok tree → m.get? key = some tree) : Updated m key m where
  sound := h
  capacity := rfl
  present := hpresent
  failed := fun _ _ => rfl
  known := fun _ => rfl
  entries := fun _ hentry => Or.inr hentry
  size := Nat.le_refl _

theorem Sound.updated_insert (h : m.Sound) (hnone : m.get? key = none) (victim : Nat)
    (hparse : key.parse = .ok tree) : Updated m key (m.insert victim key tree) where
  sound := h.insert victim hparse
  capacity := rfl
  present := by
    intro other hother
    obtain rfl := Except.ok.inj (hparse.symm.trans hother)
    exact get?_insert m victim key tree
  failed := fun e herror => by cases hparse.symm.trans herror
  known := fun hcontains => by simp [contains, hnone] at hcontains
  entries := by
    rw [Memo.insert, List.forall_mem_cons]
    exact ⟨Or.inl rfl, fun entry hentry => Or.inr ((kept_sublist m victim key).subset hentry)⟩
  size := size_le_size_insert hnone victim tree

/-- What a call does to a sound memo. -/
theorem Sound.updated_parse (h : m.Sound) (victim : Nat) (key : Key) :
    Updated m key (m.parse victim key).2 := by
  obtain ⟨tree, hkept, hcall⟩ | ⟨-, e, hparse, hcall⟩ | ⟨hnone, tree, hparse, hcall⟩ :=
    parse_cases m victim key
  · rw [hcall]
    refine h.updated_self fun other hother => ?_
    rw [hkept, Except.ok.inj ((h.get?_parse hkept).symm.trans hother)]
  · rw [hcall]
    exact h.updated_self fun other hother => by cases hparse.symm.trans hother
  · rw [hcall]
    exact h.updated_insert hnone victim hparse

/-- What happens to a memo that calls share. -/
inductive Event where
  /-- A call that nothing interrupts. -/
  | parse (key : Key) (victim : Nat)
  /-- A call looks its query up, and parses it if no tree is kept. -/
  | lookUp (key : Key)
  /-- A call that has parsed its query keeps the tree; `call` is its place among those that
  wait, and `victim` the entry that gives way if there is no room. -/
  | keep (call victim : Nat)
  /-- Somebody asks whether a tree is kept. -/
  | contains (key : Key)
  | clear
deriving Repr

/-- The query of a call that starts. -/
def Event.started? : Event → Option Key
  | .parse key _ | .lookUp key => some key
  | _ => none

/-- A shared memo, the calls that have parsed their query and not yet kept its tree, and the
answers that calls were given, the latest first. -/
structure History where
  memo : Memo
  waiting : List (Key × Condition) := []
  answers : List (Key × Except Error Condition) := []

namespace History

/-- Before the first call. -/
def start (capacity : Nat) : History :=
  { memo := empty capacity }

/-- A call or one of its sections, which nothing interrupts. -/
def step (s : History) : Event → History
  | .parse key victim =>
      { s with
        memo := (s.memo.parse victim key).2
        answers := (key, (s.memo.parse victim key).1) :: s.answers }
  | .lookUp key =>
      match s.memo.get? key with
      | some tree => { s with answers := (key, .ok tree) :: s.answers }
      | none =>
          match key.parse with
          | .error e => { s with answers := (key, .error e) :: s.answers }
          | .ok tree => { s with waiting := (key, tree) :: s.waiting }
  | .keep call victim =>
      match s.waiting[call]? with
      | some (key, tree) =>
          { memo := s.memo.insert victim key tree
            waiting := s.waiting.eraseIdx call
            answers := (key, .ok tree) :: s.answers }
      | none => s
  | .contains _ => s
  | .clear => { s with memo := s.memo.clear }

/-- Any calls and sections of calls, one after the other. -/
def run (s : History) (events : List Event) : History :=
  events.foldl step s

/-- The queries of all calls that have started: those answered and those that wait. -/
def calls (s : History) : List Key :=
  s.answers.map Prod.fst ++ s.waiting.map Prod.fst

/-- A history in which nobody was told anything but what parsing gives. -/
structure Sound (capacity : Nat) (s : History) : Prop where
  memo : s.memo.Sound
  bound : s.memo.capacity = max capacity 1
  waiting : ∀ call ∈ s.waiting, call.1.parse = .ok call.2
  answers : ∀ answer ∈ s.answers, answer.2 = answer.1.parse

variable {capacity : Nat} {s : History}

theorem sound_start (capacity : Nat) : (start capacity).Sound capacity where
  memo := sound_empty capacity
  bound := rfl
  waiting := List.forall_mem_nil _
  answers := List.forall_mem_nil _

/-- A call whose query does not parse is told so and changes nothing else. -/
theorem Sound.step_lookUp_of_error (h : s.Sound capacity) {key : Key} {e : Error}
    (hparse : key.parse = .error e) :
    s.step (.lookUp key) = { s with answers := (key, key.parse) :: s.answers } := by
  simp only [step, h.memo.get?_eq_none hparse, hparse]

theorem Sound.lookUp (h : s.Sound capacity) (key : Key) :
    (s.step (.lookUp key)).Sound capacity := by
  cases hparse : key.parse with
  | error e =>
      rw [h.step_lookUp_of_error hparse]
      exact { h with answers := List.forall_mem_cons.mpr ⟨rfl, h.answers⟩ }
  | ok tree =>
      simp only [step, hparse]
      cases hkept : s.memo.get? key with
      | some kept =>
          have hanswer : Except.ok kept = key.parse := (h.memo.get?_parse hkept).symm
          exact { h with answers := List.forall_mem_cons.mpr ⟨hanswer, h.answers⟩ }
      | none => exact { h with waiting := List.forall_mem_cons.mpr ⟨hparse, h.waiting⟩ }

/-- A call that waits keeps its tree and is told it. -/
theorem step_keep {call : Nat} {key : Key} {tree : Condition}
    (hcall : s.waiting[call]? = some (key, tree)) (victim : Nat) :
    s.step (.keep call victim) =
      { memo := s.memo.insert victim key tree
        waiting := s.waiting.eraseIdx call
        answers := (key, .ok tree) :: s.answers } := by
  simp only [step, hcall]

theorem Sound.keep (h : s.Sound capacity) (call victim : Nat) :
    (s.step (.keep call victim)).Sound capacity := by
  cases hcall : s.waiting[call]? with
  | none => simpa only [step, hcall] using h
  | some waiter =>
      obtain ⟨key, tree⟩ := waiter
      have hparse : key.parse = .ok tree := h.waiting _ (List.mem_of_getElem? hcall)
      rw [step_keep hcall]
      exact {
        memo := h.memo.insert victim hparse
        bound := h.bound
        waiting := fun other hother => h.waiting other (List.mem_of_mem_eraseIdx hother)
        answers := List.forall_mem_cons.mpr ⟨hparse.symm, h.answers⟩ }

theorem Sound.parse (h : s.Sound capacity) (key : Key) (victim : Nat) :
    (s.step (.parse key victim)).Sound capacity where
  memo := (h.memo.updated_parse victim key).sound
  bound := (h.memo.updated_parse victim key).capacity.trans h.bound
  waiting := h.waiting
  answers := List.forall_mem_cons.mpr ⟨h.memo.parse_fst victim key, h.answers⟩

/-- Every step keeps a history sound. -/
theorem Sound.step (h : s.Sound capacity) : ∀ event, (s.step event).Sound capacity
  | .parse key victim => h.parse key victim
  | .lookUp key => h.lookUp key
  | .keep call victim => h.keep call victim
  | .contains _ => h
  | .clear => { h with memo := h.memo.clear }

/-- So does every run. -/
theorem Sound.run (h : s.Sound capacity) (events : List Event) :
    (s.run events).Sound capacity := by
  induction events generalizing s with
  | nil => exact h
  | cons event events ih => exact ih (h.step event)

theorem perm_cons_eraseIdx {α : Type} {l : List α} {i : Nat} {a : α} (h : l[i]? = some a) :
    List.Perm l (a :: l.eraseIdx i) := by
  induction l generalizing i with
  | nil => cases h
  | cons b l ih =>
      cases i with
      | zero =>
          obtain rfl := Option.some.inj h
          exact .refl _
      | succ i => exact ((ih h).cons b).trans (.swap a b _)

/-- A call that starts is answered or waits; keeping a tree answers one that waits. -/
theorem calls_step (s : History) (event : Event) :
    List.Perm (s.step event).calls (event.started?.toList ++ s.calls) := by
  cases event with
  | parse key victim => exact .refl _
  | lookUp key =>
      simp only [History.step]
      cases s.memo.get? key with
      | some tree => exact .refl _
      | none =>
          cases key.parse with
          | error e => exact .refl _
          | ok tree => exact List.perm_middle
  | keep call victim =>
      cases hcall : s.waiting[call]? with
      | none =>
          simp only [History.step, hcall]
          exact .refl _
      | some waiter =>
          obtain ⟨key, tree⟩ := waiter
          have hwaiting := (perm_cons_eraseIdx hcall).map Prod.fst
          rw [step_keep hcall]
          exact (List.perm_middle.symm.trans (hwaiting.symm.append_left _))
  | contains _ => exact .refl _
  | clear => exact .refl _

/-- Every call that starts is answered once or waits. -/
theorem calls_run (s : History) (events : List Event) :
    List.Perm (s.run events).calls (events.filterMap Event.started? ++ s.calls) := by
  induction events generalizing s with
  | nil => exact .refl _
  | cons event events ih =>
      have hrest := (ih (s.step event)).trans ((calls_step s event).append_left _)
      refine hrest.trans ?_
      cases hstarted : event.started? with
      | none =>
          rw [List.filterMap_cons_none hstarted]
          exact .refl _
      | some key =>
          rw [List.filterMap_cons_some hstarted]
          exact List.perm_middle

/-- A call that waits is one call if its tree is kept at once. -/
theorem run_lookUp_keep {key : Key} {tree : Condition} (s : History)
    (hcontains : s.memo.contains key = false) (hparse : key.parse = .ok tree) (victim : Nat) :
    s.run [.lookUp key, .keep 0 victim] = s.step (.parse key victim) := by
  obtain ⟨kept, hkept, -⟩ | ⟨-, e, herror, -⟩ | ⟨hnone, other, hother, hcall⟩ :=
    parse_cases s.memo victim key
  · simp [contains, hkept] at hcontains
  · cases hparse.symm.trans herror
  · simp only [run, List.foldl_cons, List.foldl_nil, History.step, hnone, hother, hcall,
      List.getElem?_cons_zero, List.eraseIdx_cons_zero]

/-- A call that does not wait is done when it has looked its query up. -/
theorem step_lookUp {key : Key} (s : History)
    (hanswered : s.memo.contains key = true ∨ ∃ e, key.parse = .error e) (victim : Nat) :
    s.step (.lookUp key) = s.step (.parse key victim) := by
  obtain ⟨kept, hkept, hcall⟩ | ⟨hnone, e, herror, hcall⟩ | ⟨hnone, other, hother, -⟩ :=
    parse_cases s.memo victim key
  · simp only [History.step, hkept, hcall]
  · simp only [History.step, hnone, herror, hcall]
  · rcases hanswered with hcontains | ⟨e, herror⟩
    · simp [contains, hnone] at hcontains
    · cases hother.symm.trans herror

end History

/-- The memo is transparent and bounded.  However the calls that share it interleave, whatever
its capacity is and whichever entries give way: it never holds more than it has room for, it
holds under each key once what the key parses to, and every call is answered once with what
parsing gives.  A call whose query does not parse leaves the memo alone, and one that has kept
its tree finds it there.  A call that nothing interrupts is its sections one after the other,
and updates the memo accordingly.  So conversions that use the memo give what those that parse
do. -/
theorem transparent_of_run (capacity : Nat) (events : List Event) :
    let s := (History.start capacity).run events
    s.memo.size ≤ max capacity 1 ∧
    s.memo.capacity = max capacity 1 ∧
    (s.memo.entries.map Prod.fst).Nodup ∧
    (∀ entry ∈ s.memo.entries,
      Condition.parse entry.1.coding entry.1.query = .ok entry.2) ∧
    (∀ key, s.memo.contains key = true ↔ key ∈ s.memo.entries.map Prod.fst) ∧
    (∀ answer ∈ s.answers, answer.2 = Condition.parse answer.1.coding answer.1.query) ∧
    List.Perm s.calls (events.filterMap Event.started?) ∧
    (∀ key e, Condition.parse key.coding key.query = .error e →
      s.step (.lookUp key) = { s with answers := (key, .error e) :: s.answers }) ∧
    (∀ call key tree, s.waiting[call]? = some (key, tree) → ∀ victim,
      (s.step (.keep call victim)).memo.contains key = true) ∧
    (∀ key tree, s.memo.contains key = false → Condition.parse key.coding key.query = .ok tree →
      ∀ victim, s.run [.lookUp key, .keep 0 victim] = s.step (.parse key victim)) ∧
    (∀ key, (s.memo.contains key = true ∨ ∃ e, Condition.parse key.coding key.query = .error e) →
      ∀ victim, s.step (.lookUp key) = s.step (.parse key victim)) ∧
    (∀ victim key, (s.memo.parse victim key).1 = Condition.parse key.coding key.query ∧
      Updated s.memo key (s.memo.parse victim key).2) ∧
    (∀ victim query, s.memo.toFilter victim query =
      (Filter.ofQuery query, (s.memo.parse victim ⟨query, .plain⟩).2)) ∧
    ∀ victim target query, s.memo.toSearchCond victim target query =
      (SearchCond.ofQuery target query, (s.memo.parse victim ⟨query, .formEncoded⟩).2) := by
  intro s
  have hsound : s.Sound capacity := (History.sound_start capacity).run events
  refine ⟨?_, hsound.bound, hsound.memo.distinct, hsound.memo.parsed, fun _ => contains_iff,
    hsound.answers, ?_, ?_, ?_,
    fun key tree hcontains hparse => s.run_lookUp_keep hcontains hparse,
    fun key hanswered => s.step_lookUp hanswered,
    fun victim key => ⟨hsound.memo.parse_fst victim key, hsound.memo.updated_parse victim key⟩,
    ?_, ?_⟩
  · rw [← hsound.bound]
    exact hsound.memo.size
  · have hcalls := History.calls_run (History.start capacity) events
    have hnone : (History.start capacity).calls = [] := rfl
    rwa [hnone, List.append_nil] at hcalls
  · intro key e hparse
    have hkey : key.parse = .error e := hparse
    rw [hsound.step_lookUp_of_error hkey, hkey]
  · intro call key tree hcall victim
    rw [History.step_keep hcall]
    exact contains_insert s.memo victim key tree
  · intro victim query
    have hparse := hsound.memo.parse_fst victim ⟨query, .plain⟩
    exact Prod.ext (congrArg (Filter.ofParsed query) hparse) rfl
  · intro victim target query
    have hparse := hsound.memo.parse_fst victim ⟨query, .formEncoded⟩
    exact Prod.ext (congrArg (SearchCond.ofParsed target query) hparse) rfl

/-- Two calls for one query, in either coding, that both find nothing kept, and between them a
call for a query that does not parse. -/
def crossing : List Event :=
  [.lookUp ⟨"name==a+b".toList, .plain⟩, .lookUp ⟨"name==a+b".toList, .formEncoded⟩, .keep 1 0,
    .parse ⟨"name==".toList, .plain⟩ 0, .keep 0 0]

/-- Where there is room for one tree, the second call's has taken the place of the first one's,
which takes it back. -/
theorem transparent_of_run_crossing :
    let s := (History.start 0).run crossing
    let called := s.memo.parse 0 ⟨"name==a+b".toList, .plain⟩
    s.memo.contains ⟨"name==a+b".toList, .formEncoded⟩ = true ∧ s.memo.size ≤ 1 ∧
      called.1 = .ok (.statement ⟨"name".toList, .equals, "a+b".toList, none⟩) ∧
      called.2.get? ⟨"name==a+b".toList, .plain⟩ =
        some (.statement ⟨"name".toList, .equals, "a+b".toList, none⟩) ∧
      called.2.contains ⟨"name==a+b".toList, .formEncoded⟩ = false ∧ called.2.size ≤ 1 := by
  have hlast : ((History.start 0).run crossing).memo.contains
      ⟨"name==a+b".toList, .formEncoded⟩ = true := by
    decide +kernel
  have hgone : (((History.start 0).run crossing).memo.parse 0
      ⟨"name==a+b".toList, .plain⟩).2.contains ⟨"name==a+b".toList, .formEncoded⟩ = false := by
    decide +kernel
  have hparse : Key.parse ⟨"name==a+b".toList, .plain⟩ =
      .ok (.statement ⟨"name".toList, .equals, "a+b".toList, none⟩) := by
    decide +kernel
  obtain ⟨hsize, hcapacity, -, -, -, -, -, -, -, -, -, hcall, -⟩ := transparent_of_run 0 crossing
  obtain ⟨hanswer, hupdated⟩ := hcall 0 ⟨"name==a+b".toList, .plain⟩
  refine ⟨hlast, hsize, hanswer.trans hparse, hupdated.present _ hparse, hgone, ?_⟩
  exact Nat.le_trans hupdated.sound.size (Nat.le_of_eq (hupdated.capacity.trans hcapacity))

end Memo

end QueryBatch
