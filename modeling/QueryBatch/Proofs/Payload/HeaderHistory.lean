/-
Header fields after any number of changes.  The changes have one history, and it tells what the
fields are: a name has the values that were added since it was last removed, and the names stand
in the order in which they came in.
-/
import QueryBatch.Proofs.Payload.Headers

namespace QueryBatch.Headers

/-- A change to header fields. -/
inductive Edit where
  | append (name value : Text)
  | appendElements (name value : Text)
  | set (name value : Text)
  | remove (name : Text)
deriving DecidableEq, Repr

/-- The name that a change is about. -/
def Edit.name : Edit → Text
  | .append name _ | .appendElements name _ | .set name _ | .remove name => name

/-- Header fields after a change. -/
def edit (h : Headers) : Edit → Headers
  | .append name value => h.append name value
  | .appendElements name value => h.appendElements name value
  | .set name value => h.set name value
  | .remove name => (h.remove name).2

/-- Header fields after changes to empty ones. -/
def ofEdits (edits : List Edit) : Headers :=
  edits.foldl edit {}

/-- What can happen to header fields: a value is added, or a name is removed. -/
inductive Event where
  | added (name value : Text)
  | removed (name : Text)
deriving DecidableEq, Repr

namespace Event

/-- The value that an event adds to a name, if it adds one. -/
def value? (name : Text) : Event → Option Text
  | .added other value => if Text.sameIgnoringCase other name then some value else none
  | .removed _ => none

/-- Whether an event removes a name. -/
def removes (name : Text) : Event → Bool
  | .added _ _ => false
  | .removed other => Text.sameIgnoringCase other name

end Event

/-- What a change makes happen.  A value that is set is added afresh, one that is added in elements
is cut at its commas and the texts between them are added in order, without the blanks around
them. -/
inductive Edit.Makes : Edit → List Event → Prop where
  | append (name value : Text) : Makes (.append name value) [.added name value]
  | appendElements (name : Text) {value : Text} {texts : List Text}
      (htexts : AreElements value texts) :
      Makes (.appendElements name value) (texts.map fun element => .added name element)
  | set (name value : Text) : Makes (.set name value) [.removed name, .added name value]
  | remove (name : Text) : Makes (.remove name) [.removed name]

/-- Events are what changes make happen, in order. -/
inductive IsHistory : List Edit → List Event → Prop where
  | nil : IsHistory [] []
  | cons {e : Edit} {edits : List Edit} {made later : List Event} (hmade : e.Makes made)
      (hlater : IsHistory edits later) : IsHistory (e :: edits) (made ++ later)

/-- The events of a change. -/
def Edit.events : Edit → List Event
  | .append name value => [.added name value]
  | .appendElements name value => (elements value).map fun element => .added name element
  | .set name value => [.removed name, .added name value]
  | .remove name => [.removed name]

/-- The events of changes, in order. -/
def history (edits : List Edit) : List Event :=
  edits.flatMap Edit.events

theorem Edit.makes_iff {e : Edit} {events : List Event} : e.Makes events ↔ events = e.events := by
  constructor
  · intro h
    cases h with
    | append name value => rfl
    | appendElements name htexts => rw [Edit.events, elements_eq_iff.mpr htexts]
    | set name value => rfl
    | remove name => rfl
  · rintro rfl
    cases e with
    | append name value => exact .append name value
    | appendElements name value => exact .appendElements name (elements_eq_iff.mp rfl)
    | set name value => exact .set name value
    | remove name => exact .remove name

/-- Changes have one history. -/
theorem isHistory_iff {edits : List Edit} {events : List Event} :
    IsHistory edits events ↔ events = history edits := by
  constructor
  · intro h
    induction h with
    | nil => rfl
    | cons hmade _ ih => rw [Edit.makes_iff.mp hmade, ih, history, history, List.flatMap_cons]
  · rintro rfl
    induction edits with
    | nil => exact .nil
    | cons e edits ih => exact .cons (Edit.makes_iff.mpr rfl) ih

/-- The values added to a name since it was last removed, in order. -/
def valuesSince (name : Text) (events : List Event) : List Text :=
  (events.reverse.takeWhile fun event => !event.removes name).reverse.filterMap
    (Event.value? name)

/-- A name comes in at a place of the history: there a value is added to it, it had none
before, and it is not removed after. -/
def ComesIn (events : List Event) (place : Nat) (name : Text) : Prop :=
  ∃ before value after, events = before ++ .added name value :: after ∧
    before.length = place ∧ valuesSince name before = [] ∧
      ∀ event ∈ after, event.removes name = false

/-- The names of header fields, in order. -/
def names (h : Headers) : List Text :=
  h.entries.map Prod.fst

/-- Header fields but for those of a name. -/
def others (h : Headers) (name : Text) : List (Text × List Text) :=
  h.entries.filter fun entry => !Text.sameIgnoringCase entry.1 name

theorem others_append (h : Headers) (name value : Text) :
    (h.append name value).others name = h.others name := by
  obtain ⟨entries⟩ := h
  unfold others append
  induction entries with
  | nil => simp [appendTo, Text.sameIgnoringCase]
  | cons entry entries ih =>
      rw [appendTo]
      by_cases hsame : Text.sameIgnoringCase entry.1 name = true
      · simp [hsame]
      · rw [if_neg hsame, List.filter_cons, List.filter_cons, ih]

theorem others_remove (h : Headers) (name : Text) :
    (h.remove name).2.others name = h.others name := by
  obtain ⟨entries⟩ := h
  unfold others remove
  induction entries with
  | nil => rfl
  | cons entry entries ih =>
      rw [removeFrom]
      by_cases hsame : Text.sameIgnoringCase entry.1 name = true
      · simp [hsame]
      · rw [if_neg hsame, List.filter_cons, List.filter_cons, ih]

/-- A change leaves the fields of all other names, and their order, as they are. -/
theorem others_edit (h : Headers) (e : Edit) : (h.edit e).others e.name = h.others e.name := by
  cases e with
  | append name value => exact others_append h name value
  | appendElements name value =>
      refine List.foldlRecOn (elements value) _
        (motive := fun g : Headers => g.others name = h.others name) rfl fun g hg element _ => ?_
      rw [others_append, hg]
  | set name value => exact (others_append _ name value).trans (others_remove h name)
  | remove name => exact others_remove h name

/-- Removing a name tells the values that it had. -/
theorem remove_fst (h : Headers) (name : Text) : (h.remove name).1 = h.get? name := by
  obtain ⟨entries⟩ := h
  induction entries with
  | nil => rfl
  | cons entry entries ih =>
      rw [remove, removeFrom, get?_cons]
      by_cases hsame : Text.sameIgnoringCase entry.1 name = true
      · rw [if_pos hsame, if_pos hsame]
      · rw [if_neg hsame, if_neg hsame]
        exact ih

/-- Names are distinct, so a name is gone once its first field is. -/
theorem entries_remove {h : Headers} (hh : h.WellFormed) (name : Text) :
    (h.remove name).2.entries = h.others name := by
  obtain ⟨entries⟩ := h
  rw [← others_remove, others, List.filter_eq_self.mpr]
  unfold remove
  induction entries with
  | nil => simp [removeFrom]
  | cons entry entries ih =>
      obtain ⟨hnew, -, hrest⟩ := wellFormedEntries_cons.mp hh
      rw [removeFrom]
      by_cases hsame : Text.sameIgnoringCase entry.1 name = true
      · rw [if_pos hsame]
        intro other hother
        have hdistinct : Text.sameIgnoringCase entry.1 other.1 = false := hnew other hother
        rw [sameIgnoringCase_congr hsame, sameIgnoringCase_comm] at hdistinct
        simp [hdistinct]
      · rw [if_neg hsame, List.forall_mem_cons]
        exact ⟨by simpa using hsame, ih hrest⟩

/-- Every field is what its name is looked up as. -/
theorem get?_of_mem {h : Headers} (hh : h.WellFormed) {entry : Text × List Text}
    (hentry : entry ∈ h.entries) : h.get? entry.1 = some entry.2 := by
  obtain ⟨entries⟩ := h
  induction entries with
  | nil => cases hentry
  | cons first entries ih =>
      obtain ⟨hnew, -, hrest⟩ := wellFormedEntries_cons.mp hh
      rw [get?_cons]
      rcases List.mem_cons.mp hentry with rfl | hentry
      · rw [if_pos (Text.sameIgnoringCase_iff.mpr rfl)]
      · have hdistinct : Text.sameIgnoringCase first.1 entry.1 = false := hnew entry hentry
        rw [hdistinct, if_neg (by decide)]
        exact ih hrest hentry

/-- The removed name has no values any more, and all others have theirs. -/
theorem get?_remove {h : Headers} (hh : h.WellFormed) (name key : Text) :
    (h.remove name).2.get? key =
      if Text.sameIgnoringCase name key then none else h.get? key := by
  rw [get?, entries_remove hh, others, List.find?_filter]
  have hkept : ∀ entry : Text × List Text, Text.sameIgnoringCase entry.1 key = true →
      Text.sameIgnoringCase entry.1 name = Text.sameIgnoringCase name key := by
    intro entry hkey
    rw [sameIgnoringCase_congr hkey, sameIgnoringCase_comm]
  by_cases hsame : Text.sameIgnoringCase name key = true
  · rw [if_pos hsame, List.find?_eq_none.mpr, Option.map_none]
    intro entry _
    by_cases hkey : Text.sameIgnoringCase entry.1 key = true <;> simp [hkey, hkept entry, hsame]
  · rw [if_neg hsame, get?]
    congr 2
    funext entry
    by_cases hkey : Text.sameIgnoringCase entry.1 key = true <;> simp [hkey, hkept entry, hsame]

/-- What happens to header fields, one event at a time. -/
def happen (h : Headers) : Event → Headers
  | .added name value => h.append name value
  | .removed name => (h.remove name).2

theorem edit_eq (h : Headers) (e : Edit) : h.edit e = e.events.foldl happen h := by
  cases e with
  | append name value => rfl
  | appendElements name value => rw [edit, Edit.events, List.foldl_map]; rfl
  | set name value => rfl
  | remove name => rfl

theorem ofEdits_eq (edits : List Edit) : ofEdits edits = (history edits).foldl happen {} := by
  rw [ofEdits, history, List.foldl_flatMap]
  congr 1
  funext h e
  exact edit_eq h e

section

variable {events : List Event} {name : Text} {h : Headers}

theorem valuesSince_added (key name value : Text) (events : List Event) :
    valuesSince key (events ++ [.added name value]) =
      valuesSince key events ++ valuesOf key [(name, value)] := by
  rw [valuesOf_singleton]
  by_cases hsame : Text.sameIgnoringCase name key = true <;>
    simp [valuesSince, Event.removes, Event.value?, hsame]

theorem valuesSince_removed (key name : Text) (events : List Event) :
    valuesSince key (events ++ [.removed name]) =
      if Text.sameIgnoringCase name key then [] else valuesSince key events := by
  by_cases hsame : Text.sameIgnoringCase name key = true <;>
    simp [valuesSince, Event.removes, Event.value?, hsame]

/-- A name that came in stays where it did until it is removed. -/
theorem ComesIn.append {place : Nat} (hname : ComesIn events place name) {event : Event}
    (hevent : event.removes name = false) : ComesIn (events ++ [event]) place name := by
  obtain ⟨before, value, after, rfl, hplace, hnew, hafter⟩ := hname
  refine ⟨before, value, after ++ [event], by simp, hplace, hnew, ?_⟩
  exact List.forall_mem_append.mpr ⟨hafter, List.forall_mem_singleton.mpr hevent⟩

theorem ComesIn.lt_length {place : Nat} (hname : ComesIn events place name) :
    place < events.length := by
  obtain ⟨before, value, after, rfl, rfl, -⟩ := hname
  simp

/-- Header fields that hold what their history tells. -/
structure Recorded (events : List Event) (h : Headers) : Prop where
  wellFormed : h.WellFormed
  values : ∀ key, h.get? key = extended none (valuesSince key events)
  comesIn : ∀ name ∈ h.names, ∃ place, ComesIn events place name
  ordered : h.names.Pairwise fun first second =>
    ∃ i j, i < j ∧ ComesIn events i first ∧ ComesIn events j second

theorem recorded_empty : Recorded [] {} :=
  ⟨wellFormed_empty, fun _ => rfl, List.forall_mem_nil _, .nil⟩

/-- A known name stays in its place when a value is added, a new one goes to the end. -/
theorem names_append (h : Headers) (name value : Text) :
    (h.append name value).names = if h.contains name then h.names else h.names ++ [name] := by
  obtain ⟨entries⟩ := h
  unfold names append contains
  induction entries with
  | nil => rfl
  | cons entry entries ih =>
      rw [appendTo, get?_cons]
      by_cases hsame : Text.sameIgnoringCase entry.1 name = true
      · simp [hsame]
      · rw [if_neg hsame, if_neg hsame, List.map_cons, ih]
        split <;> rfl

theorem names_remove (hh : h.WellFormed) (name : Text) :
    (h.remove name).2.names = h.names.filter fun other => !Text.sameIgnoringCase other name := by
  rw [names, entries_remove hh, others, names, List.filter_map]
  rfl

theorem contains_iff {name : Text} :
    h.contains name = true ↔ ∃ other ∈ h.names, Text.sameIgnoringCase other name = true := by
  simp [contains, get?, names]

theorem contains_iff_of_recorded (hh : Recorded events h) (name : Text) :
    h.contains name = true ↔ valuesSince name events ≠ [] := by
  rw [contains, hh.values, extended]
  split <;> simp_all

/-- What is recorded of names that an event does not remove stays recorded. -/
theorem Recorded.keep (hh : Recorded events h) (event : Event) {kept : List Text}
    (hkept : kept.Sublist h.names) (hevent : ∀ name ∈ kept, event.removes name = false) :
    (∀ name ∈ kept, ∃ place, ComesIn (events ++ [event]) place name) ∧
      kept.Pairwise fun first second =>
        ∃ i j, i < j ∧ ComesIn (events ++ [event]) i first ∧
          ComesIn (events ++ [event]) j second := by
  constructor
  · intro name hname
    obtain ⟨place, hplace⟩ := hh.comesIn name (hkept.mem hname)
    exact ⟨place, hplace.append (hevent name hname)⟩
  · refine (hh.ordered.sublist hkept).imp_of_mem fun {first second} hfirst hsecond horder => ?_
    obtain ⟨i, j, hlt, hi, hj⟩ := horder
    exact ⟨i, j, hlt, hi.append (hevent first hfirst), hj.append (hevent second hsecond)⟩

theorem Recorded.append (hh : Recorded events h) (name value : Text) :
    Recorded (events ++ [.added name value]) (h.append name value) := by
  obtain ⟨hcomesIn, hordered⟩ :=
    hh.keep (.added name value) (List.Sublist.refl _) fun _ _ => rfl
  have hvalues : ∀ key, (h.append name value).get? key =
      extended none (valuesSince key (events ++ [.added name value])) := by
    intro key
    rw [get?_append, hh.values, extended_append, valuesSince_added]
  by_cases hknown : h.contains name = true
  · have hnames : (h.append name value).names = h.names := by rw [names_append, if_pos hknown]
    exact ⟨wellFormed_append hh.wellFormed name value, hvalues, hnames ▸ hcomesIn,
      hnames ▸ hordered⟩
  · have hnames : (h.append name value).names = h.names ++ [name] := by
      rw [names_append, if_neg hknown]
    have hnew : ComesIn (events ++ [.added name value]) events.length name := by
      refine ⟨events, value, [], rfl, rfl, ?_, List.forall_mem_nil _⟩
      simpa using mt (contains_iff_of_recorded hh name).mpr hknown
    refine ⟨wellFormed_append hh.wellFormed name value, hvalues, ?_, ?_⟩
    · rw [hnames, List.forall_mem_append, List.forall_mem_singleton]
      exact ⟨hcomesIn, _, hnew⟩
    · rw [hnames, List.pairwise_append]
      refine ⟨hordered, List.pairwise_singleton _ _, fun first hfirst second hsecond => ?_⟩
      obtain rfl := List.mem_singleton.mp hsecond
      -- whatever came in before did so within the history up to here
      obtain ⟨i, hi⟩ := hh.comesIn first hfirst
      exact ⟨i, events.length, hi.lt_length, hi.append rfl, hnew⟩

theorem Recorded.remove (hh : Recorded events h) (name : Text) :
    Recorded (events ++ [.removed name]) (h.remove name).2 := by
  have hnames := names_remove hh.wellFormed name
  have hkept : ∀ other ∈ (h.remove name).2.names,
      (Event.removed name).removes other = false := by
    intro other hother
    rw [hnames, List.mem_filter] at hother
    rw [Event.removes, sameIgnoringCase_comm]
    simpa using hother.2
  obtain ⟨hcomesIn, hordered⟩ :=
    hh.keep (.removed name) (hnames ▸ List.filter_sublist) hkept
  refine ⟨wellFormed_remove hh.wellFormed name, fun key => ?_, hcomesIn, hordered⟩
  rw [get?_remove hh.wellFormed, valuesSince_removed, hh.values]
  split <;> rfl

theorem Recorded.happen (hh : Recorded events h) (event : Event) :
    Recorded (events ++ [event]) (h.happen event) := by
  cases event with
  | added name value => exact hh.append name value
  | removed name => exact hh.remove name

theorem Recorded.foldl_happen (hh : Recorded events h) (more : List Event) :
    Recorded (events ++ more) (more.foldl Headers.happen h) := by
  induction more generalizing events h with
  | nil => simpa using hh
  | cons event more ih => simpa using ih (hh.happen event)

end

theorem recorded_ofEdits (edits : List Edit) : Recorded (history edits) (ofEdits edits) := by
  rw [ofEdits_eq]
  exact recorded_empty.foldl_happen (history edits)

/-- Header fields are a multimap of names up to letter case, in order, whatever changes were
made to empty ones.  The changes have one history, in which a value that is added in elements is
cut at its commas.  Names are distinct, and each has the values that were added since it was
last removed.  A change leaves the fields of other names as they are, and removing a name tells
the values it had.  The names stand in the order in which they came in, spelled as they did. -/
theorem ofEdits_records (edits : List Edit) :
    (∀ events, IsHistory edits events ↔ events = history edits) ∧
    ((ofEdits edits).names.Pairwise Distinct ∧ ∀ entry ∈ (ofEdits edits).entries, entry.2 ≠ []) ∧
    (∀ name,
      (ofEdits edits).get? name =
        (if valuesSince name (history edits) = [] then none
          else some (valuesSince name (history edits))) ∧
      (ofEdits edits).first? name = (valuesSince name (history edits)).head? ∧
      ((ofEdits edits).contains name = true ↔ valuesSince name (history edits) ≠ []) ∧
      ((∃ other ∈ (ofEdits edits).names, Text.sameIgnoringCase other name = true) ↔
        valuesSince name (history edits) ≠ [])) ∧
    (ofEdits edits).size = (ofEdits edits).names.length ∧
    (∀ e : Edit, ((ofEdits edits).edit e).others e.name = (ofEdits edits).others e.name) ∧
    (∀ name, ((ofEdits edits).remove name).1 = (ofEdits edits).get? name) ∧
    (ofEdits edits).entries =
      (ofEdits edits).names.map (fun name => (name, valuesSince name (history edits))) ∧
    (∀ name ∈ (ofEdits edits).names, ∃ place, ComesIn (history edits) place name) ∧
    (ofEdits edits).names.Pairwise fun first second =>
      ∃ i j, i < j ∧ ComesIn (history edits) i first ∧ ComesIn (history edits) j second := by
  have hrecorded := recorded_ofEdits edits
  have hget : ∀ name, (ofEdits edits).get? name =
      (if valuesSince name (history edits) = [] then none
        else some (valuesSince name (history edits))) := by
    intro name
    rw [hrecorded.values, extended]
    simp
  refine ⟨fun _ => isHistory_iff, ⟨hrecorded.wellFormed.distinct, hrecorded.wellFormed.valued⟩,
    fun name => ?_, ?_, others_edit _, remove_fst _, ?_, hrecorded.comesIn, hrecorded.ordered⟩
  · refine ⟨hget name, ?_, contains_iff_of_recorded hrecorded name, ?_⟩
    · rw [first?, hget]
      split <;> simp_all
    · rw [← contains_iff_of_recorded hrecorded, contains_iff]
  · rw [size, names, List.length_map]
  · rw [names, List.map_map, List.map_congr_left (g := id), List.map_id]
    intro entry hentry
    have hvalues := (hget entry.1).symm.trans (get?_of_mem hrecorded.wellFormed hentry)
    split at hvalues
    · cases hvalues
    · exact Prod.ext rfl (Option.some.inj hvalues)

/-- A name that is set in other letters after more was added, and one that comes in again and is
given elements, one of them empty. -/
def mixed : List Edit :=
  [.appendElements "Via".toList "p , q".toList, .append "Accept".toList "a".toList,
    .set "accept".toList "b".toList, .remove "VIA".toList, .append "ACCEPT".toList "c".toList,
    .append "via".toList "r".toList, .appendElements "VIA".toList " s t,, u\t".toList]

theorem ofEdits_records_mixed :
    IsHistory mixed
        [.added "Via".toList "p".toList, .added "Via".toList "q".toList,
          .added "Accept".toList "a".toList, .removed "accept".toList,
          .added "accept".toList "b".toList, .removed "VIA".toList,
          .added "ACCEPT".toList "c".toList, .added "via".toList "r".toList,
          .added "VIA".toList "s t".toList, .added "VIA".toList [],
          .added "VIA".toList "u".toList] ∧
      ("accept".toList, ["b".toList, "c".toList]) ∈ (ofEdits mixed).entries ∧
      (ofEdits mixed).get? "Accept".toList = some ["b".toList, "c".toList] ∧
      "via".toList ∈ (ofEdits mixed).names ∧
      (∃ place, ComesIn (history mixed) place "via".toList) ∧
      ((ofEdits mixed).remove "VIA".toList).1 =
        some ["r".toList, "s t".toList, [], "u".toList] := by
  obtain ⟨hhistory, -, hname, -, -, hremove, -, hcomesIn, -⟩ := ofEdits_records mixed
  have haccept : valuesSince "Accept".toList (history mixed) = ["b".toList, "c".toList] := by decide
  have hvia : valuesSince "VIA".toList (history mixed) =
      ["r".toList, "s t".toList, [], "u".toList] := by decide
  have hmem : "via".toList ∈ (ofEdits mixed).names := by decide
  refine ⟨(hhistory _).mpr (by decide), by decide, ?_, hmem, hcomesIn _ hmem, ?_⟩
  · rw [(hname _).1, haccept]
    rfl
  · rw [hremove, (hname _).1, hvia]
    rfl

end QueryBatch.Headers
