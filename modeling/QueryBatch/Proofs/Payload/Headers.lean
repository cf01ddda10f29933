/-
Header fields.  Names stay distinct up to letter case and no name is left without a
value, whatever is added, removed or replaced.  What is added goes to the values of its
name, behind those that were there.
-/
import Mathlib.Data.List.Forall2
import Mathlib.Data.List.Pairwise
import QueryBatch.Payload.Headers
import QueryBatch.Proofs.Text.Cutting

namespace QueryBatch.Headers

/-- Two names that are not the same field. -/
def Distinct (a b : Text) : Prop :=
  Text.sameIgnoringCase a b = false

/-- Fields of distinct names, each with a value. -/
structure WellFormedEntries (entries : List (Text × List Text)) : Prop where
  distinct : (entries.map Prod.fst).Pairwise Distinct
  valued : ∀ entry ∈ entries, entry.2 ≠ []

/-- The invariant of header fields. -/
def WellFormed (h : Headers) : Prop :=
  WellFormedEntries h.entries

theorem wellFormedEntries_cons {entry : Text × List Text} {entries : List (Text × List Text)} :
    WellFormedEntries (entry :: entries) ↔
      (∀ other ∈ entries, Distinct entry.1 other.1) ∧ entry.2 ≠ [] ∧
        WellFormedEntries entries := by
  constructor
  · rintro ⟨hdistinct, hvalued⟩
    rw [List.map_cons, List.pairwise_cons, List.forall_mem_map] at hdistinct
    rw [List.forall_mem_cons] at hvalued
    exact ⟨hdistinct.1, hvalued.1, hdistinct.2, hvalued.2⟩
  · rintro ⟨hnew, hentry, hdistinct, hvalued⟩
    refine ⟨?_, List.forall_mem_cons.mpr ⟨hentry, hvalued⟩⟩
    rw [List.map_cons, List.pairwise_cons, List.forall_mem_map]
    exact ⟨hnew, hdistinct⟩

/-- What is said of all names stays true of a field that a value is added to. -/
theorem forall_mem_appendTo {P : Text → Prop} {name value : Text}
    {entries : List (Text × List Text)} (h : ∀ entry ∈ entries, P entry.1) (hname : P name) :
    ∀ entry ∈ appendTo name value entries, P entry.1 := by
  induction entries with
  | nil => simpa [appendTo] using hname
  | cons entry entries ih =>
      rw [List.forall_mem_cons] at h
      unfold appendTo
      split
      · exact List.forall_mem_cons.mpr ⟨h.1, h.2⟩
      · exact List.forall_mem_cons.mpr ⟨h.1, ih h.2⟩

/-- What is said of all values stays true when one of which it is true is added. -/
theorem forall_mem_values_appendTo {P : Text → Prop} {name value : Text}
    {entries : List (Text × List Text)} (h : ∀ entry ∈ entries, ∀ v ∈ entry.2, P v)
    (hvalue : P value) : ∀ entry ∈ appendTo name value entries, ∀ v ∈ entry.2, P v := by
  induction entries with
  | nil => simpa [appendTo] using hvalue
  | cons entry entries ih =>
      rw [List.forall_mem_cons] at h
      unfold appendTo
      split
      · refine List.forall_mem_cons.mpr ⟨?_, h.2⟩
        exact List.forall_mem_append.mpr ⟨h.1, List.forall_mem_singleton.mpr hvalue⟩
      · exact List.forall_mem_cons.mpr ⟨h.1, ih h.2⟩

theorem wellFormedEntries_appendTo {name value : Text} {entries : List (Text × List Text)}
    (h : WellFormedEntries entries) : WellFormedEntries (appendTo name value entries) := by
  induction entries with
  | nil => exact ⟨by simp [appendTo], by simp [appendTo]⟩
  | cons entry entries ih =>
      obtain ⟨hnew, hentry, hrest⟩ := wellFormedEntries_cons.mp h
      unfold appendTo
      by_cases hsame : Text.sameIgnoringCase entry.1 name = true
      · rw [if_pos hsame]
        exact wellFormedEntries_cons.mpr ⟨hnew, by simp, hrest⟩
      · rw [if_neg hsame]
        refine wellFormedEntries_cons.mpr ⟨?_, hentry, ih hrest⟩
        exact forall_mem_appendTo hnew (by simpa [Distinct] using hsame)

theorem removeFrom_sublist (name : Text) (entries : List (Text × List Text)) :
    (removeFrom name entries).2.Sublist entries := by
  induction entries with
  | nil => exact .slnil
  | cons entry entries ih =>
      unfold removeFrom
      split
      · exact List.sublist_cons_self entry entries
      · exact ih.cons_cons entry

theorem wellFormed_empty : WellFormed {} :=
  ⟨.nil, by simp⟩

theorem wellFormed_append {h : Headers} (hh : h.WellFormed) (name value : Text) :
    (h.append name value).WellFormed :=
  wellFormedEntries_appendTo hh

theorem wellFormed_remove {h : Headers} (hh : h.WellFormed) (name : Text) :
    (h.remove name).2.WellFormed := by
  have hsublist := removeFrom_sublist name h.entries
  exact ⟨hh.distinct.sublist (hsublist.map Prod.fst),
    fun entry hentry => hh.valued entry (hsublist.subset hentry)⟩

/-- Names and values, one after the other. -/
def fields (h : Headers) : List (Text × Text) :=
  h.entries.flatMap fun (name, values) => values.map fun value => (name, value)

theorem mem_fields_iff {h : Headers} {name value : Text} :
    (name, value) ∈ h.fields ↔ ∃ entry ∈ h.entries, entry.1 = name ∧ value ∈ entry.2 := by
  simp only [fields, List.mem_flatMap, List.mem_map, Prod.mk.injEq]
  constructor
  · rintro ⟨entry, hentry, value, hvalue, rfl, rfl⟩
    exact ⟨entry, hentry, rfl, hvalue⟩
  · rintro ⟨entry, hentry, rfl, hvalue⟩
    exact ⟨entry, hentry, value, hvalue, rfl, rfl⟩

/-- Texts are the elements of a value: pieces without commas make up the value when commas are put
between them, and the texts are the pieces in order, each without the blanks around it. -/
def AreElements (value : Text) (texts : List Text) : Prop :=
  ∃ pieces, (pieces ≠ [] ∧ (∀ piece ∈ pieces, ',' ∉ piece) ∧ [','].intercalate pieces = value) ∧
    List.Forall₂ Text.Trimmed pieces texts

theorem elements_eq_iff {value : Text} {texts : List Text} :
    elements value = texts ↔ AreElements value texts := by
  have htexts : ∀ pieces : List Text,
      pieces.map Text.trim = texts ↔ List.Forall₂ Text.Trimmed pieces texts := by
    intro pieces
    rw [← List.forall₂_eq_eq_eq, List.forall₂_map_left_iff]
    exact ⟨fun h => h.imp fun _ _ => Text.trim_eq_iff.mp,
      fun h => h.imp fun _ _ => Text.trim_eq_iff.mpr⟩
  simp only [AreElements, ← Text.splitOn_eq_iff, ← htexts, exists_eq_left']
  rfl

/-- Header fields with each value replaced by its elements. -/
def normalized (h : Headers) : Headers :=
  ⟨h.entries.map fun (name, values) => (name, values.flatMap elements)⟩

/-- Blanks around a value do not change its elements. -/
theorem elements_trim (value : Text) : elements (Text.trim value) = elements value :=
  Text.map_trim_splitOn_trim (by decide) value

theorem elements_ne_nil (value : Text) : elements value ≠ [] := by
  simp [elements, Text.splitOn_ne_nil]

/-- An element is its own only element. -/
theorem of_mem_elements {value element : Text} (h : element ∈ elements value) :
    elements element = [element] ∧ ∀ c ∈ element, c ∈ value := by
  obtain ⟨piece, hpiece, rfl⟩ := List.mem_map.mp h
  obtain ⟨hcomma, hmem⟩ := Text.of_mem_splitOn hpiece
  have htrimmed : ',' ∉ Text.trim piece := fun hc => hcomma (Text.mem_of_mem_trim hc)
  refine ⟨?_, fun c hc => hmem c (Text.mem_of_mem_trim hc)⟩
  rw [elements, Text.splitOn_of_notMem htrimmed, List.map_singleton, Text.trim_trim]

/-- Fields whose values are elements already stay as they are. -/
theorem normalized_eq_self {h : Headers}
    (hvalues : ∀ field ∈ h.entries, ∀ value ∈ field.2, elements value = [value]) :
    h.normalized = h := by
  obtain ⟨entries⟩ := h
  have hsame : ∀ field ∈ entries, (field.1, field.2.flatMap elements) = field := by
    intro field hfield
    have hvalue : ∀ value ∈ field.2, elements value = [value] := hvalues field hfield
    rw [List.flatMap_def, List.map_congr_left hvalue, ← List.flatMap_def, List.flatMap_singleton']
  rw [normalized, List.map_congr_left hsame, List.map_id']

/-- What is true of header fields and stays true when an element is added stays true when
the elements of values are added. -/
theorem foldl_appendElements_induction {P : Headers → Prop} {fields : List (Text × Text)}
    (happend : ∀ h, P h → ∀ field ∈ fields, ∀ element ∈ elements field.2,
      P (h.append field.1 element)) {h : Headers} (hh : P h) :
    P (fields.foldl (fun h field => h.appendElements field.1 field.2) h) := by
  refine List.foldlRecOn fields _ hh fun h hh field hfield => ?_
  exact List.foldlRecOn (elements field.2) _ hh fun h hh element helement =>
    happend h hh field hfield element helement

theorem appendTo_of_new {name value : Text} {entries : List (Text × List Text)}
    (hnew : ∀ entry ∈ entries, Distinct entry.1 name) :
    appendTo name value entries = entries ++ [(name, [value])] := by
  induction entries with
  | nil => rfl
  | cons entry entries ih =>
      rw [List.forall_mem_cons] at hnew
      rw [appendTo, if_neg (by simpa [Distinct] using hnew.1), ih hnew.2, List.cons_append]

theorem appendTo_of_last {name value : Text} {values : List Text}
    {entries : List (Text × List Text)} (hnew : ∀ entry ∈ entries, Distinct entry.1 name) :
    appendTo name value (entries ++ [(name, values)]) = entries ++ [(name, values ++ [value])] := by
  induction entries with
  | nil => simp [appendTo, Text.sameIgnoringCase]
  | cons entry entries ih =>
      rw [List.forall_mem_cons] at hnew
      rw [List.cons_append, appendTo, if_neg (by simpa [Distinct] using hnew.1), ih hnew.2,
        List.cons_append]

/-- Values added one after the other under a new name make up its field. -/
theorem foldl_append_of_new {name : Text} {values : List Text} (hvalues : values ≠ [])
    {entries : List (Text × List Text)} (hnew : ∀ entry ∈ entries, Distinct entry.1 name) :
    values.foldl (fun h value => Headers.append h name value) (mk entries) =
      ⟨entries ++ [(name, values)]⟩ := by
  have hmore : ∀ more before : List Text,
      more.foldl (fun h value => Headers.append h name value) (mk (entries ++ [(name, before)])) =
        ⟨entries ++ [(name, before ++ more)]⟩ := by
    intro more
    induction more with
    | nil => simp
    | cons value more ih =>
        intro before
        rw [List.foldl_cons, append, appendTo_of_last hnew, ih]
        simp
  obtain ⟨value, more, rfl⟩ := List.exists_cons_of_ne_nil hvalues
  rw [List.foldl_cons, append, appendTo_of_new hnew, hmore]
  rfl

theorem foldl_appendElements (h : Headers) (name : Text) (values : List Text) :
    values.foldl (fun h value => h.appendElements name value) h =
      (values.flatMap elements).foldl (fun h element => h.append name element) h := by
  induction values generalizing h with
  | nil => rfl
  | cons value values ih =>
      rw [List.foldl_cons, ih, List.flatMap_cons, List.foldl_append, appendElements]

/-- The elements of the values of fields, each under the name of its field. -/
def elementFields (fields : List (Text × Text)) : List (Text × Text) :=
  fields.flatMap fun field => (elements field.2).map fun element => (field.1, element)

theorem foldl_appendElements_eq (h : Headers) (fields : List (Text × Text)) :
    fields.foldl (fun h field => h.appendElements field.1 field.2) h =
      (elementFields fields).foldl (fun h field => h.append field.1 field.2) h := by
  simp only [elementFields, List.foldl_flatMap, List.foldl_map, appendElements]

theorem elementFields_map_trim (fields : List (Text × Text)) :
    elementFields (fields.map fun field => (field.1, Text.trim field.2)) =
      elementFields fields := by
  simp only [elementFields, List.flatMap_map, elements_trim]

/-- What a name has after more values are added under it. -/
def extended (values? : Option (List Text)) (more : List Text) : Option (List Text) :=
  if more = [] then values? else some (values?.getD [] ++ more)

/-- The values that fields have for a name. -/
def valuesOf (name : Text) (fields : List (Text × Text)) : List Text :=
  (fields.filter fun field => Text.sameIgnoringCase field.1 name).map Prod.snd

theorem extended_append (values? : Option (List Text)) (more others : List Text) :
    extended (extended values? more) others = extended values? (more ++ others) := by
  unfold extended
  by_cases hmore : more = []
  · simp [hmore]
  · by_cases hothers : others = [] <;> simp [hmore, hothers]

/-- The values of the first field of a name. -/
theorem get?_cons (entry : Text × List Text) (entries : List (Text × List Text)) (key : Text) :
    (mk (entry :: entries)).get? key =
      if Text.sameIgnoringCase entry.1 key then some entry.2 else (mk entries).get? key := by
  unfold get?
  rw [List.find?_cons]
  cases Text.sameIgnoringCase entry.1 key <;> rfl

theorem sameIgnoringCase_comm (s t : Text) :
    Text.sameIgnoringCase s t = Text.sameIgnoringCase t s :=
  Bool.eq_iff_iff.mpr (by rw [Text.sameIgnoringCase_iff, Text.sameIgnoringCase_iff, eq_comm])

theorem sameIgnoringCase_congr {s t : Text} (h : Text.sameIgnoringCase s t = true) (u : Text) :
    Text.sameIgnoringCase s u = Text.sameIgnoringCase t u := by
  rw [Text.sameIgnoringCase, Text.sameIgnoringCase, Text.sameIgnoringCase_iff.mp h]

theorem valuesOf_singleton (key name value : Text) :
    valuesOf key [(name, value)] =
      if Text.sameIgnoringCase name key then [value] else [] := by
  unfold valuesOf
  cases hname : Text.sameIgnoringCase name key <;> simp [hname]

/-- A value is added to the values of its name and to no others. -/
theorem get?_append (h : Headers) (name value key : Text) :
    (h.append name value).get? key = extended (h.get? key) (valuesOf key [(name, value)]) := by
  rw [valuesOf_singleton]
  obtain ⟨entries⟩ := h
  induction entries with
  | nil =>
      rw [append, appendTo, get?_cons]
      by_cases hname : Text.sameIgnoringCase name key = true <;> simp [hname, get?, extended]
  | cons entry entries ih =>
      rw [append, appendTo]
      by_cases hfirst : Text.sameIgnoringCase entry.1 name = true
      · rw [if_pos hfirst, get?_cons, get?_cons, sameIgnoringCase_congr hfirst]
        by_cases hname : Text.sameIgnoringCase name key = true <;> simp [hname, extended]
      · rw [if_neg hfirst, get?_cons, get?_cons]
        by_cases hkey : Text.sameIgnoringCase entry.1 key = true
        · have hname : ¬ Text.sameIgnoringCase name key = true := by
            rwa [sameIgnoringCase_comm, ← sameIgnoringCase_congr hkey]
          simp [hkey, hname, extended]
        · rw [if_neg hkey, if_neg hkey]
          exact ih

/-- Fields that are added one after the other add their values to those of each name. -/
theorem get?_foldl_append (h : Headers) (fields : List (Text × Text)) (key : Text) :
    (fields.foldl (fun h field => h.append field.1 field.2) h).get? key =
      extended (h.get? key) (valuesOf key fields) := by
  induction fields generalizing h with
  | nil => rfl
  | cons field fields ih =>
      rw [List.foldl_cons, ih, get?_append, extended_append, valuesOf, valuesOf, valuesOf,
        ← List.map_append, ← List.filter_append, List.singleton_append]

/-- The values of well-formed fields, trimmed and added one after the other, are the
fields with their values in elements. -/
theorem foldl_appendElements_trim {h : Headers} (hh : h.WellFormed) :
    (h.fields.map fun field => (field.1, Text.trim field.2)).foldl
      (fun h field => Headers.appendElements h field.1 field.2) {} = h.normalized := by
  simp only [List.foldl_map, appendElements, elements_trim]
  obtain ⟨entries⟩ := h
  have hfold : ∀ entries before : List (Text × List Text),
      WellFormedEntries entries →
      (∀ entry ∈ entries, ∀ other ∈ before, Distinct other.1 entry.1) →
      (entries.flatMap fun (name, values) => values.map fun value => (name, value)).foldl
        (fun h field => Headers.appendElements h field.1 field.2) (mk before) =
        ⟨before ++ entries.map fun (name, values) => (name, values.flatMap elements)⟩ := by
    intro entries
    induction entries with
    | nil => simp
    | cons entry entries ih =>
        obtain ⟨name, values⟩ := entry
        intro before hentries hbefore
        obtain ⟨hnew, hvalues, hrest⟩ := wellFormedEntries_cons.mp hentries
        rw [List.forall_mem_cons] at hbefore
        have hne : values.flatMap elements ≠ [] := by
          obtain ⟨value, more, rfl⟩ := List.exists_cons_of_ne_nil hvalues
          simp [elements_ne_nil]
        rw [List.flatMap_cons, List.foldl_append, List.foldl_map, foldl_appendElements,
          foldl_append_of_new hne hbefore.1, ih _ hrest]
        · simp
        · intro other hother earlier hearlier
          rcases List.mem_append.mp hearlier with hearlier | hearlier
          · exact hbefore.2 other hother earlier hearlier
          · rw [List.mem_singleton.mp hearlier]
            exact hnew other hother
  exact hfold entries [] hh (by simp)

end QueryBatch.Headers
