/-!
# Dictionaries in order of insertion

A dictionary assigns values to texts and remembers the order in which the keys came. Giving a key a
new value leaves the key where it is. No key occurs twice, which is part of the type.
-/

namespace VbaModules

/-- The entries with `key` assigned `value`: in its place if the key is there, at the end if not. -/
def assign {α : Type} (key : String) (value : α) : List (String × α) → List (String × α)
  | [] => [(key, value)]
  | (k, v) :: rest => if k = key then (k, value) :: rest else (k, v) :: assign key value rest

/-- Assigning adds no key but its own. -/
theorem mem_keys_assign {α : Type} {key k : String} {value : α} {entries : List (String × α)} :
    k ∈ (assign key value entries).map Prod.fst ↔ k = key ∨ k ∈ entries.map Prod.fst := by
  induction entries with
  | nil => simp [assign]
  | cons e rest ih =>
    obtain ⟨k', v⟩ := e
    rw [assign]
    split
    next h => subst h; simp
    next h =>
      rw [List.map_cons, List.mem_cons, ih, List.map_cons, List.mem_cons]
      exact or_left_comm

theorem nodup_keys_assign {α : Type} {key : String} {value : α} {entries : List (String × α)}
    (h : (entries.map Prod.fst).Nodup) : ((assign key value entries).map Prod.fst).Nodup := by
  induction entries with
  | nil => simp [assign]
  | cons e rest ih =>
    obtain ⟨k, v⟩ := e
    rw [List.map_cons, List.nodup_cons] at h
    rw [assign]
    split
    next heq => simpa using h
    next hne =>
      rw [List.map_cons, List.nodup_cons, mem_keys_assign]
      exact ⟨fun hk => hk.elim hne h.1, ih h.2⟩

/-- An assignment of values to texts, in order of insertion. -/
structure Dictionary (α : Type) where
  entries : List (String × α)
  distinct : (entries.map Prod.fst).Nodup

namespace Dictionary

variable {α β : Type}

/-- The dictionary without entries. -/
def empty : Dictionary α :=
  ⟨[], by simp⟩

/-- Assigns a value to a key. -/
def insert (d : Dictionary α) (key : String) (value : α) : Dictionary α :=
  ⟨assign key value d.entries, nodup_keys_assign d.distinct⟩

/-- The value of a key. -/
def get? (d : Dictionary α) (key : String) : Option α :=
  d.entries.lookup key

/-- Whether the key has a value. -/
def contains (d : Dictionary α) (key : String) : Bool :=
  (d.get? key).isSome

/-- The number of keys. -/
def size (d : Dictionary α) : Nat :=
  d.entries.length

/-- Whether there is no key. -/
def isEmpty (d : Dictionary α) : Bool :=
  d.entries.isEmpty

/-- The entries inserted one after the other. -/
def ofList (entries : List (String × α)) : Dictionary α :=
  entries.foldl (fun d (key, value) => d.insert key value) empty

/-- The dictionary with every value replaced by one made from it and its key. -/
def mapValues (d : Dictionary α) (f : String → α → β) : Dictionary β :=
  ⟨d.entries.map fun (key, value) => (key, f key value), by
    rw [List.map_map]
    exact d.distinct⟩

/-- Whether two dictionaries assign the same values, in whatever order. -/
def sameValues [BEq α] (d e : Dictionary α) : Bool :=
  d.size == e.size && d.entries.all fun (key, value) => e.get? key == some value

end Dictionary

end VbaModules
