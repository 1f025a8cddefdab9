/-!
# Bindings of variables

Bindings give values to names. They are kept in the order of the names by code points, each name once,
so two bindings that answer alike are equal: `ext_get?`. From this follows that a name can be restored:
`set_insert` and `set_get?_self` together undo a binding, whether or not the name had a value before.
-/

namespace SeriesCalculator

/-- Names with values, in strictly ascending order. -/
structure Bindings where
  entries : List (String × Float)
  sorted : entries.Pairwise (fun a b => a.1 < b.1)
  deriving DecidableEq

namespace Bindings

/-- No names. -/
def empty : Bindings := { entries := [], sorted := .nil }

/-- The value of a name. -/
def get? (b : Bindings) (name : String) : Option Float :=
  b.entries.lookup name

/-- Tells whether a name has a value. -/
def contains (b : Bindings) (name : String) : Bool :=
  (b.get? name).isSome

/-- The names in ascending order. -/
def names (b : Bindings) : List String :=
  b.entries.map Prod.fst

/-- Puts an entry in its place in an ascending list; an entry of the same name gives way. -/
def insertEntry (name : String) (value : Float) : List (String × Float) → List (String × Float)
  | [] => [(name, value)]
  | entry :: rest =>
    if name < entry.1 then (name, value) :: entry :: rest
    else if name = entry.1 then (name, value) :: rest
    else entry :: insertEntry name value rest

theorem mem_insertEntry {name : String} {value : Float} {entry : String × Float}
    {entries : List (String × Float)} (mem : entry ∈ insertEntry name value entries) :
    entry = (name, value) ∨ entry ∈ entries := by
  induction entries with
  | nil => simpa [insertEntry] using mem
  | cons head rest ih =>
    rw [insertEntry] at mem
    split at mem
    · simpa using mem
    split at mem
    · rcases List.mem_cons.mp mem with same | inRest
      · exact .inl same
      · exact .inr (List.mem_cons_of_mem _ inRest)
    · rcases List.mem_cons.mp mem with same | inRest
      · exact .inr (same ▸ List.mem_cons_self)
      · exact (ih inRest).imp_right (List.mem_cons_of_mem _)

private theorem lt_of_not_lt_of_ne {a b : String} (h : ¬ a < b) (ne : a ≠ b) : b < a := by
  rcases Decidable.em (b < a) with lt | notLt
  · exact lt
  · exact absurd (String.le_antisymm (String.not_lt.mp notLt) (String.not_lt.mp h)) ne

theorem sorted_insertEntry {entries : List (String × Float)}
    (sorted : entries.Pairwise (fun a b => a.1 < b.1)) (name : String) (value : Float) :
    (insertEntry name value entries).Pairwise (fun a b => a.1 < b.1) := by
  induction entries with
  | nil => simp [insertEntry]
  | cons head rest ih =>
    obtain ⟨below, sortedRest⟩ := List.pairwise_cons.mp sorted
    rw [insertEntry]
    split
    · rename_i lt
      refine List.pairwise_cons.mpr ⟨fun entry mem => ?_, sorted⟩
      rcases List.mem_cons.mp mem with rfl | inRest
      · exact lt
      · exact String.lt_trans lt (below entry inRest)
    split
    · rename_i eq
      exact List.pairwise_cons.mpr ⟨fun entry mem => eq ▸ below entry mem, sortedRest⟩
    · rename_i notLt ne
      refine List.pairwise_cons.mpr ⟨fun entry mem => ?_, ih sortedRest⟩
      rcases mem_insertEntry mem with rfl | inRest
      · exact lt_of_not_lt_of_ne notLt ne
      · exact below entry inRest

/-- Gives a name a value, whether or not it had one. -/
def insert (b : Bindings) (name : String) (value : Float) : Bindings where
  entries := insertEntry name value b.entries
  sorted := sorted_insertEntry b.sorted name value

/-- Takes a name away. -/
def erase (b : Bindings) (name : String) : Bindings where
  entries := b.entries.filter (·.1 != name)
  sorted := b.sorted.filter _

/-- Bindings with the given value for a name, or without the name. -/
def set (b : Bindings) (name : String) : Option Float → Bindings
  | some value => b.insert name value
  | none => b.erase name

private theorem lookup_entry (name : String) (entry : String × Float)
    (entries : List (String × Float)) :
    (entry :: entries).lookup name =
      if name = entry.1 then some entry.2 else entries.lookup name := by
  obtain ⟨first, value⟩ := entry
  by_cases h : name = first
  · subst h
    simp
  · have : (name == first) = false := by simpa using h
    simp [List.lookup_cons, this, h]

theorem get?_insert (b : Bindings) (name : String) (value : Float) (other : String) :
    (b.insert name value).get? other = if other = name then some value else b.get? other := by
  obtain ⟨entries, sorted⟩ := b
  simp only [insert, get?]
  clear sorted
  induction entries with
  | nil => simp [insertEntry, lookup_entry]
  | cons head rest ih =>
    rw [insertEntry]
    split
    · simp [lookup_entry]
    split
    · rename_i eq
      by_cases h : other = name <;> simp [lookup_entry, h, ← eq]
    · rename_i ne
      by_cases h : other = name
      · subst h
        simp [lookup_entry, ne, ih]
      · simp [lookup_entry, h, ih]

@[simp] theorem get?_insert_self (b : Bindings) (name : String) (value : Float) :
    (b.insert name value).get? name = some value := by
  simp [get?_insert]

theorem get?_erase (b : Bindings) (name other : String) :
    (b.erase name).get? other = if other = name then none else b.get? other := by
  obtain ⟨entries, sorted⟩ := b
  simp only [erase, get?]
  clear sorted
  induction entries with
  | nil => simp
  | cons head rest ih =>
    by_cases kept : head.1 = name
    · rw [List.filter_cons_of_neg (by simp [kept]), ih]
      by_cases h : other = name <;> simp [lookup_entry, h, kept]
    · rw [List.filter_cons_of_pos (by simp [kept])]
      simp only [lookup_entry, ih]
      by_cases h : other = name
      · simp [h, Ne.symm kept]
      · simp [h]

@[simp] theorem get?_erase_self (b : Bindings) (name : String) : (b.erase name).get? name = none := by
  simp [get?_erase]

private theorem mem_iff_lookup {entries : List (String × Float)}
    (sorted : entries.Pairwise (fun a b => a.1 < b.1)) (entry : String × Float) :
    entry ∈ entries ↔ entries.lookup entry.1 = some entry.2 := by
  induction entries with
  | nil => simp
  | cons head rest ih =>
    obtain ⟨below, sortedRest⟩ := List.pairwise_cons.mp sorted
    rw [List.mem_cons, lookup_entry, ih sortedRest]
    by_cases h : entry.1 = head.1
    · rw [if_pos h]
      constructor
      · rintro (rfl | inRest)
        · rfl
        · exact absurd (below entry ((ih sortedRest).mpr inRest)) (h ▸ String.lt_irrefl _)
      · intro same
        exact .inl (Prod.ext h (Option.some.inj same).symm)
    · rw [if_neg h]
      exact ⟨fun mem => mem.resolve_left fun eq => h (eq ▸ rfl), .inr⟩

private theorem eq_of_mem_iff {entries others : List (String × Float)}
    (sorted : entries.Pairwise (fun a b => a.1 < b.1))
    (sortedOthers : others.Pairwise (fun a b => a.1 < b.1))
    (same : ∀ entry, entry ∈ entries ↔ entry ∈ others) : entries = others := by
  induction entries generalizing others with
  | nil =>
    cases others with
    | nil => rfl
    | cons head rest => exact absurd ((same head).mpr List.mem_cons_self) List.not_mem_nil
  | cons head rest ih =>
    cases others with
    | nil => exact absurd ((same head).mp List.mem_cons_self) List.not_mem_nil
    | cons otherHead otherRest =>
      obtain ⟨below, sortedRest⟩ := List.pairwise_cons.mp sorted
      obtain ⟨otherBelow, sortedOtherRest⟩ := List.pairwise_cons.mp sortedOthers
      have headEq : head = otherHead := by
        rcases List.mem_cons.mp ((same head).mp List.mem_cons_self) with eq | inOther
        · exact eq
        rcases List.mem_cons.mp ((same otherHead).mpr List.mem_cons_self) with eq | inRest
        · exact eq.symm
        exact absurd (otherBelow head inOther) (String.lt_asymm (below otherHead inRest))
      subst headEq
      congr 1
      refine ih sortedRest sortedOtherRest fun entry => ?_
      have := same entry
      simp only [List.mem_cons] at this
      constructor
      · intro inRest
        rcases this.mp (.inr inRest) with rfl | inOther
        · exact absurd (below entry inRest) (String.lt_irrefl _)
        · exact inOther
      · intro inOther
        rcases this.mpr (.inr inOther) with rfl | inRest
        · exact absurd (otherBelow entry inOther) (String.lt_irrefl _)
        · exact inRest

/-- Bindings that give every name the same value are equal. -/
theorem ext_get? {b c : Bindings} (same : ∀ name, b.get? name = c.get? name) : b = c := by
  obtain ⟨entries, sorted⟩ := b
  obtain ⟨others, sortedOthers⟩ := c
  have : entries = others := eq_of_mem_iff sorted sortedOthers fun entry => by
    rw [mem_iff_lookup sorted, mem_iff_lookup sortedOthers]
    exact iff_of_eq (congrArg (· = some entry.2) (same entry.1))
  subst this
  rfl

theorem get?_set (b : Bindings) (name : String) (value? : Option Float) (other : String) :
    (b.set name value?).get? other = if other = name then value? else b.get? other := by
  cases value? with
  | none => exact get?_erase b name other
  | some value => exact get?_insert b name value other

/-- Setting a name to the value that it has already changes nothing. -/
@[simp] theorem set_get?_self (b : Bindings) (name : String) : b.set name (b.get? name) = b := by
  refine ext_get? fun other => ?_
  rw [get?_set]
  split
  · rw [‹other = name›]
  · rfl

/-- The last setting of a name is the one that counts. -/
@[simp] theorem set_insert (b : Bindings) (name : String) (value : Float) (value? : Option Float) :
    (b.insert name value).set name value? = b.set name value? := by
  refine ext_get? fun other => ?_
  rw [get?_set, get?_set, get?_insert]
  split <;> rfl

end Bindings

end SeriesCalculator
