/-! # Tables from names to values

A table holds at most one value for a name.  Its meaning is `get?`; the lemmas say how each
operation changes it. -/

namespace OperatorGrammar

/-- A finite map from names, the entry inserted last at the front. -/
structure Table (α : Type) where
  entries : List (String × α)
  /-- No name has two entries. -/
  distinct : (entries.map Prod.fst).Nodup

namespace Table

variable {α : Type}

def empty : Table α := ⟨[], by simp⟩

instance : Inhabited (Table α) := ⟨empty⟩

def get? (t : Table α) (name : String) : Option α := t.entries.lookup name

def contains (t : Table α) (name : String) : Bool := (t.get? name).isSome

/-- The names that have a value. -/
def keys (t : Table α) : List String := t.entries.map Prod.fst

def size (t : Table α) : Nat := t.entries.length

/-- Takes the value of a name away. -/
def erase (t : Table α) (name : String) : Table α where
  entries := t.entries.filter (·.1 != name)
  distinct := t.distinct.sublist (List.filter_sublist.map _)

/-- Gives a name a value in place of the one it had. -/
def insert (t : Table α) (name : String) (value : α) : Table α where
  entries := (name, value) :: (t.erase name).entries
  distinct := by
    have h : name ∉ (t.erase name).entries.map Prod.fst := by simp [erase]
    exact List.nodup_cons.2 ⟨h, (t.erase name).distinct⟩

/-- Inserts entries one after another, so that of two for one name the later one counts. -/
def insertAll (t : Table α) (entries : List (String × α)) : Table α :=
  entries.foldl (fun t (name, value) => t.insert name value) t

/-- The table of some entries, of which the last one for a name counts. -/
def ofList (entries : List (String × α)) : Table α := empty.insertAll entries

/-- The names of one table with their values, over those of another one. -/
def extend (t later : Table α) : Table α := t.insertAll later.entries

/-! ### What a name is worth after each operation -/

@[simp] theorem get?_empty (name : String) : (empty : Table α).get? name = none := rfl

theorem lookup_filter_ne (entries : List (String × α)) (name other : String) :
    (entries.filter (·.1 != name)).lookup other =
      if other = name then none else entries.lookup other := by
  induction entries with
  | nil => simp
  | cons e entries ih =>
    obtain ⟨k, v⟩ := e
    by_cases hk : k = name
    · subst hk
      by_cases ho : other = k
      · subst ho
        simpa [List.filter_cons] using ih
      · simp [ih, ho, List.lookup_cons, beq_eq_false_iff_ne.2 ho]
    · by_cases ho : other = k
      · subst ho
        simp [hk]
      · simp [hk, ih, List.lookup_cons, beq_eq_false_iff_ne.2 ho]

theorem get?_erase (t : Table α) (name other : String) :
    (t.erase name).get? other = if other = name then none else t.get? other :=
  lookup_filter_ne t.entries name other

theorem get?_insert (t : Table α) (name other : String) (value : α) :
    (t.insert name value).get? other = if other = name then some value else t.get? other := by
  by_cases h : other = name
  · simp [get?, insert, h]
  · have : (t.erase name).get? other = t.get? other := by simp [get?_erase, h]
    simpa [get?, insert, List.lookup_cons, beq_eq_false_iff_ne.2 h, h] using this

@[simp] theorem contains_iff (t : Table α) (name : String) :
    t.contains name = true ↔ ∃ value, t.get? name = some value := by
  simp [contains, Option.isSome_iff_exists]

@[simp] theorem contains_empty (name : String) : (empty : Table α).contains name = false := rfl

theorem contains_insert (t : Table α) (name other : String) (value : α) :
    (t.insert name value).contains other = true ↔ other = name ∨ t.contains other = true := by
  unfold contains
  rw [get?_insert]
  by_cases h : other = name
  · simp [h]
  · simp [h]

theorem insertAll_cons (t : Table α) (name : String) (value : α) (entries : List (String × α)) :
    t.insertAll ((name, value) :: entries) = (t.insert name value).insertAll entries := rfl

theorem contains_insertAll (t : Table α) (entries : List (String × α)) (name : String) :
    (t.insertAll entries).contains name = true ↔
      t.contains name = true ∨ name ∈ entries.map Prod.fst := by
  induction entries generalizing t with
  | nil => simp [insertAll]
  | cons e entries ih =>
    rw [insertAll_cons, ih, contains_insert, List.map_cons, List.mem_cons, or_assoc, or_left_comm]

theorem contains_ofList (entries : List (String × α)) (name : String) :
    (ofList entries).contains name = true ↔ name ∈ entries.map Prod.fst := by
  unfold ofList
  rw [contains_insertAll, contains_empty]
  simp

/-- A value of a name is that of one of the entries, or the one that it had. -/
theorem mem_of_get?_insertAll {t : Table α} {entries : List (String × α)} {name : String}
    {value : α} (h : (t.insertAll entries).get? name = some value) :
    (name, value) ∈ entries ∨ t.get? name = some value := by
  induction entries generalizing t with
  | nil => exact Or.inr h
  | cons e entries ih =>
    rw [insertAll_cons] at h
    rcases ih h with hmem | hget
    · exact Or.inl (List.mem_cons_of_mem _ hmem)
    · rw [get?_insert] at hget
      split at hget
      · next hname =>
        subst hname
        obtain rfl := Option.some.inj hget
        exact Or.inl List.mem_cons_self
      · exact Or.inr hget

theorem lookup_eq_none {entries : List (String × α)} {name : String} :
    entries.lookup name = none ↔ name ∉ entries.map Prod.fst := by
  simp only [List.lookup_eq_none_iff, bne_iff_ne, List.mem_map, not_exists, not_and, ne_eq,
    eq_comm (a := name)]

theorem mem_of_get?_ofList {entries : List (String × α)} {name : String} {value : α}
    (h : (ofList entries).get? name = some value) : (name, value) ∈ entries :=
  (mem_of_get?_insertAll h).resolve_right nofun

theorem get?_insertAll_of_nodup {t : Table α} {entries : List (String × α)}
    (distinct : (entries.map Prod.fst).Nodup) (name : String) :
    (t.insertAll entries).get? name = (entries.lookup name).or (t.get? name) := by
  induction entries generalizing t with
  | nil => rfl
  | cons e entries ih =>
    obtain ⟨key, value⟩ := e
    rw [List.map_cons, List.nodup_cons] at distinct
    rw [insertAll_cons, ih distinct.2, get?_insert, List.lookup_cons]
    by_cases hname : name = key
    · subst hname
      simp [lookup_eq_none.mpr distinct.1]
    · simp [hname, beq_eq_false_iff_ne.2 hname]

theorem get?_ofList_of_nodup {entries : List (String × α)}
    (distinct : (entries.map Prod.fst).Nodup) (name : String) :
    (ofList entries).get? name = entries.lookup name := by
  rw [ofList, get?_insertAll_of_nodup distinct, get?_empty, Option.or_none]

theorem lookup_eq_some_iff_of_nodup {entries : List (String × α)}
    (distinct : (entries.map Prod.fst).Nodup) {name : String} {value : α} :
    entries.lookup name = some value ↔ (name, value) ∈ entries := by
  induction entries with
  | nil => simp
  | cons e entries ih =>
    obtain ⟨key, other⟩ := e
    rw [List.map_cons, List.nodup_cons] at distinct
    by_cases hname : name = key
    · subst hname
      have apart : (name, value) ∉ entries := fun h =>
        distinct.1 (List.mem_map.mpr ⟨_, h, rfl⟩)
      simp [apart, eq_comm]
    · simp [List.lookup_cons, beq_eq_false_iff_ne.2 hname, hname, ih distinct.2]

/-- What the later table holds replaces what was there, in whatever order it is gone through. -/
theorem get?_extend (t later : Table α) (name : String) :
    (t.extend later).get? name = (later.get? name).or (t.get? name) :=
  get?_insertAll_of_nodup later.distinct name

theorem contains_extend (t later : Table α) (name : String) :
    (t.extend later).contains name = true ↔
      t.contains name = true ∨ later.contains name = true := by
  unfold contains
  rw [get?_extend, Option.isSome_or, Bool.or_eq_true, or_comm]

theorem mem_entries_of_get? {t : Table α} {name : String} {value : α}
    (h : t.get? name = some value) : (name, value) ∈ t.entries := by
  obtain ⟨before, after, hsplit, -⟩ := List.lookup_eq_some_iff.mp h
  rw [hsplit]
  simp

theorem mem_keys {t : Table α} {name : String} : name ∈ t.keys ↔ t.contains name = true := by
  rw [contains, get?, Option.isSome_iff_ne_none, ne_eq, lookup_eq_none, Decidable.not_not, keys]

end Table

end OperatorGrammar
