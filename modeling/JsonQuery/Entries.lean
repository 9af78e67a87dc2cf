/-
Maps from texts that remember the order in which their keys came.

A map is the list of its entries.  Giving a key a new value keeps the key in its place, and a
new key goes to the end, so a map built from a list has each key once, at the place of its first
occurrence and with the value of its last.

* `Entries.get?_insert` — what an insertion does to the look-up of every key;
* `Entries.nodup_keys_insert` — an insertion keeps the keys distinct.
-/
import JsonQuery.Text

namespace JsonQuery

/-- The entries of a map, in the order of their keys' first insertions. -/
abbrev Entries (α : Type) := List (Text × α)

namespace Entries
variable {α : Type}

/-- The keys in order. -/
def keys (es : Entries α) : List Text :=
  es.map Prod.fst

/-- The value of a key. -/
def get? : Entries α → Text → Option α
  | [], _ => none
  | (k, v) :: es, key => if k = key then some v else get? es key

/-- The map in which a key has a value. -/
def insert (key : Text) (value : α) : Entries α → Entries α
  | [] => [(key, value)]
  | (k, v) :: es => if k = key then (k, value) :: es else (k, v) :: insert key value es

/-- The first map changed by the entries of the second, one after the other. -/
def update (es fs : Entries α) : Entries α :=
  fs.foldl (fun es entry => insert entry.1 entry.2 es) es

/-- The map of a list of entries that may repeat keys. -/
def ofList (entries : List (Text × α)) : Entries α :=
  update [] entries

@[simp] theorem get?_nil (key : Text) : get? ([] : Entries α) key = none := rfl

theorem get?_insert (es : Entries α) (key key' : Text) (value : α) :
    get? (insert key value es) key' = if key = key' then some value else get? es key' := by
  induction es with
  | nil => rfl
  | cons entry es ih =>
    obtain ⟨k, v⟩ := entry
    rw [insert]
    split
    · next h =>
      subst h
      simp only [get?]
      split <;> rfl
    · next h =>
      simp only [get?, ih]
      by_cases h1 : k = key'
      · subst h1
        simp only [if_true, if_neg (Ne.symm h)]
      · simp only [h1, if_false]

@[simp] theorem keys_nil : keys ([] : Entries α) = [] := rfl

@[simp] theorem keys_cons (k : Text) (v : α) (es : Entries α) :
    keys ((k, v) :: es) = k :: keys es := rfl

theorem keys_insert (es : Entries α) (key : Text) (value : α) :
    keys (insert key value es) = if key ∈ keys es then keys es else keys es ++ [key] := by
  induction es with
  | nil => rfl
  | cons entry es ih =>
    obtain ⟨k, v⟩ := entry
    rw [insert]
    by_cases h : k = key
    · simp [h]
    · rw [if_neg h, keys_cons, keys_cons, ih]
      by_cases hmem : key ∈ keys es
      · simp [hmem]
      · simp [hmem, Ne.symm h]

theorem nodup_keys_insert {es : Entries α} (h : (keys es).Nodup) (key : Text) (value : α) :
    (keys (insert key value es)).Nodup := by
  rw [keys_insert]
  split
  · exact h
  · next hmem =>
    rw [List.nodup_append]
    refine ⟨h, by simp, ?_⟩
    rintro a ha b hb rfl
    simp only [List.mem_singleton] at hb
    exact hmem (hb ▸ ha)

theorem nodup_keys_update {es : Entries α} (h : (keys es).Nodup) (fs : Entries α) :
    (keys (update es fs)).Nodup := by
  induction fs generalizing es with
  | nil => exact h
  | cons entry fs ih => exact ih (nodup_keys_insert h entry.1 entry.2)

theorem nodup_keys_ofList (entries : List (Text × α)) : (keys (ofList entries)).Nodup :=
  nodup_keys_update (by simp [keys]) entries

end Entries
end JsonQuery
