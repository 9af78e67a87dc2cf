/-
Maps whose keys are distinct.

The keys of a map built by insertions are distinct, and so are those of a document.  Then a map is
told by what it gives for each key, whatever the order of its entries.

* `Entries.get?_of_mem`, `Entries.mem_of_get?` — an entry is found under its key;
* `Entries.get?_update` — a key has its value in the second map, or else in the first;
* `Entries.forall_insert`, `Entries.forall_update` — what is said of all values stays true;
* `Entries.ofList_of_nodup` — a map of entries whose keys are distinct is these entries;
* `Entries.length_eq_of_keys`, `Entries.keys_subset`, `Entries.ext_get?` — maps with the same keys;
* `Entries.keys_foldl_update`, `Entries.get?_foldl_update` — maps put into one another: a key is at
  the place of its first and has the value of its last occurrence;
* `Entries.update_update` — which may be done in any grouping.
-/
import Mathlib.Data.List.Induction
import Mathlib.Data.List.Perm.Subperm
import JsonQuery.Entries

namespace JsonQuery
namespace Entries
variable {α β : Type}

theorem insert_of_not_mem {es : Entries α} {key : Text} (h : key ∉ keys es) (value : α) :
    insert key value es = es ++ [(key, value)] := by
  induction es with
  | nil => rfl
  | cons e es ih =>
    rw [keys_cons, List.mem_cons, not_or] at h
    rw [insert, if_neg (Ne.symm h.1), ih h.2, List.cons_append]

/-- A map of entries whose keys are distinct is these entries. -/
theorem ofList_of_nodup {es : Entries α} (h : (keys es).Nodup) : ofList es = es := by
  have update_append (fs : Entries α) : ∀ es : Entries α, (keys (es ++ fs)).Nodup →
      update es fs = es ++ fs := by
    induction fs with
    | nil => exact fun es _ => (List.append_nil es).symm
    | cons f fs ih =>
      intro es hn
      have hf : f.1 ∉ keys es := by
        rw [keys, List.map_append, List.nodup_append] at hn
        exact fun hm => hn.2.2 f.1 hm f.1 List.mem_cons_self rfl
      have hes := ih (es ++ [f]) (by rwa [List.append_assoc])
      rw [List.append_assoc] at hes
      rw [update, List.foldl_cons, insert_of_not_mem hf]
      exact hes
  exact update_append es [] h

theorem mem_of_get? {es : Entries α} {key : Text} {value : α} (h : get? es key = some value) :
    (key, value) ∈ es := by
  induction es with
  | nil => cases h
  | cons entry es ih =>
    obtain ⟨k, y⟩ := entry
    rw [get?] at h
    split at h
    · next hk =>
      cases h
      subst hk
      exact List.mem_cons_self
    · exact List.mem_cons_of_mem _ (ih h)

theorem get?_of_mem {es : Entries α} (h : (keys es).Nodup) {key : Text} {value : α}
    (hm : (key, value) ∈ es) : get? es key = some value := by
  induction es with
  | nil => cases hm
  | cons e es ih =>
    obtain ⟨k, v⟩ := e
    rw [keys_cons, List.nodup_cons] at h
    rcases List.mem_cons.mp hm with heq | hm
    · cases heq
      exact if_pos rfl
    · have hne : k ≠ key := by
        rintro rfl
        exact h.1 (List.mem_map_of_mem hm)
      rw [get?, if_neg hne]
      exact ih h.2 hm

theorem get?_append (es fs : Entries α) (key : Text) :
    get? (es ++ fs) key = (get? es key).or (get? fs key) := by
  induction es with
  | nil => rfl
  | cons entry es ih =>
    obtain ⟨k, x⟩ := entry
    rw [List.cons_append, get?, get?, ih]
    split <;> rfl

theorem isSome_get? (es : Entries α) (key : Text) : (get? es key).isSome ↔ key ∈ keys es := by
  induction es with
  | nil => simp
  | cons entry es ih =>
    obtain ⟨k, v⟩ := entry
    rw [get?, keys_cons, List.mem_cons]
    split
    · next hk => simp [hk]
    · next hk => simp [ih, Ne.symm hk]

theorem get?_eq_none {es : Entries α} {key : Text} (h : key ∉ keys es) : get? es key = none := by
  rwa [← isSome_get?, Bool.not_eq_true, Option.isSome_eq_false_iff, Option.isNone_iff_eq_none] at h

/-- The values of the keys, in their order. -/
theorem map_get?_keys {es : Entries α} (h : (keys es).Nodup) (default : α) :
    ((keys es).map fun key => (get? es key).getD default) = es.map Prod.snd := by
  rw [keys, List.map_map]
  refine List.map_congr_left ?_
  intro entry hmem
  rw [Function.comp_apply, get?_of_mem h hmem, Option.getD_some]

/-- A key of a map changed by another one has its value in the other, or else in the first. -/
theorem get?_update (es : Entries α) {fs : Entries α} (h : (keys fs).Nodup) (key : Text) :
    get? (update es fs) key = (get? fs key).or (get? es key) := by
  induction fs generalizing es with
  | nil => rfl
  | cons entry fs ih =>
    obtain ⟨k, v⟩ := entry
    rw [keys_cons, List.nodup_cons] at h
    have hstep : update es ((k, v) :: fs) = update (insert k v es) fs := rfl
    rw [hstep, ih _ h.2, get?_insert, get?]
    by_cases hk : k = key
    · subst hk
      rw [if_pos rfl, if_pos rfl, get?_eq_none h.1]
      rfl
    · rw [if_neg hk, if_neg hk]

theorem forall_insert {good : α → Prop} {es : Entries α} (h : ∀ entry ∈ es, good entry.2)
    (key : Text) {value : α} (hv : good value) : ∀ entry ∈ insert key value es, good entry.2 := by
  induction es with
  | nil => exact List.forall_mem_cons.mpr ⟨hv, nofun⟩
  | cons entry es ih =>
    obtain ⟨he, hes⟩ := List.forall_mem_cons.mp h
    rw [insert]
    split
    · exact List.forall_mem_cons.mpr ⟨hv, hes⟩
    · exact List.forall_mem_cons.mpr ⟨he, ih hes⟩

/-- What is said of all values of two maps is said of those of the one changed by the other. -/
theorem forall_update {good : α → Prop} {es fs : Entries α} (he : ∀ entry ∈ es, good entry.2)
    (hf : ∀ entry ∈ fs, good entry.2) : ∀ entry ∈ update es fs, good entry.2 := by
  induction fs generalizing es with
  | nil => exact he
  | cons entry fs ih =>
    obtain ⟨hentry, hfs⟩ := List.forall_mem_cons.mp hf
    exact ih (forall_insert he entry.1 hentry) hfs

/-- Maps with the same keys have equally many entries. -/
theorem length_eq_of_keys {es : Entries α} {fs : Entries β} (he : (keys es).Nodup)
    (hf : (keys fs).Nodup) (h : ∀ k, k ∈ keys es ↔ k ∈ keys fs) : es.length = fs.length := by
  have hlen := ((List.perm_ext_iff_of_nodup he hf).mpr h).length_eq
  rwa [keys, keys, List.length_map, List.length_map] at hlen

/-- A map with the keys of another that has no more of them has no other keys. -/
theorem keys_subset {es : Entries α} {fs : Entries β} (he : (keys es).Nodup)
    (hlen : fs.length ≤ es.length) (h : keys es ⊆ keys fs) : keys fs ⊆ keys es := by
  have hle : (keys fs).length ≤ (keys es).length := by
    rwa [keys, keys, List.length_map, List.length_map]
  exact ((he.subperm h).perm_of_length_le hle).symm.subset

/-- Maps are the same if their keys are, in their order, and have the same values. -/
theorem ext_get? {es fs : Entries α} (h : (keys es).Nodup) (hk : keys es = keys fs)
    (hg : ∀ key, get? es key = get? fs key) : es = fs := by
  induction es generalizing fs with
  | nil =>
    rw [keys_nil, eq_comm, keys, List.map_eq_nil_iff] at hk
    exact hk.symm
  | cons entry es ih =>
    obtain ⟨k, x⟩ := entry
    cases fs with
    | nil => cases hk
    | cons entry' fs =>
      obtain ⟨k', y⟩ := entry'
      rw [keys_cons, keys_cons, List.cons.injEq] at hk
      obtain ⟨rfl, hk⟩ := hk
      obtain ⟨hmem, hn⟩ := List.nodup_cons.mp h
      have hxy : x = y := by simpa [get?] using hg k
      subst hxy
      rw [ih hn hk]
      intro key
      by_cases hkey : k = key
      · subst hkey
        rw [get?_eq_none hmem, get?_eq_none (hk ▸ hmem)]
      · simpa [get?, hkey] using hg key

/-! ### Maps put into one another -/

theorem eraseDups_concat (ks : List Text) (k : Text) :
    (ks ++ [k]).eraseDups = if k ∈ ks then ks.eraseDups else ks.eraseDups ++ [k] := by
  rw [List.eraseDups_append, List.removeAll]
  split
  · next h => simp [h]
  · next h =>
    simp only [List.filter_cons, List.elem_eq_mem, h, decide_false, Bool.not_false, if_true,
      List.filter_nil]
    rfl

theorem eraseDups_append_eraseDups (ks ls : List Text) :
    (ks ++ ls.eraseDups).eraseDups = (ks ++ ls).eraseDups := by
  induction ls using List.reverseRecOn with
  | nil => rfl
  | append_singleton ls l ih =>
    rw [eraseDups_concat, ← List.append_assoc, eraseDups_concat]
    split
    · next h => rw [ih, if_pos (List.mem_append_right _ h)]
    · next h =>
      rw [← List.append_assoc, eraseDups_concat, ih]
      simp [h]

theorem eraseDups_of_nodup {ks : List Text} (h : ks.Nodup) : ks.eraseDups = ks := by
  induction ks using List.reverseRecOn with
  | nil => rfl
  | append_singleton ks k ih =>
    rw [List.nodup_append] at h
    have hk : k ∉ ks := fun hm => h.2.2 k hm k (List.mem_singleton.mpr rfl) rfl
    rw [eraseDups_concat, if_neg hk, ih h.1]

/-- The keys of a map changed by another one, each at the place of its first occurrence. -/
theorem keys_update {es : Entries α} {ks : List Text} (h : keys es = ks.eraseDups)
    (fs : Entries α) : keys (update es fs) = (ks ++ keys fs).eraseDups := by
  induction fs generalizing es ks with
  | nil =>
    rw [keys_nil, List.append_nil]
    exact h
  | cons entry fs ih =>
    obtain ⟨k, x⟩ := entry
    have hinsert : keys (insert k x es) = (ks ++ [k]).eraseDups := by
      rw [keys_insert, eraseDups_concat, h]
      simp only [List.mem_eraseDups]
    have hstep : update es ((k, x) :: fs) = update (insert k x es) fs := rfl
    rw [hstep, ih hinsert, keys_cons, List.append_assoc]
    rfl

/-- Maps put into one another may be grouped in any way, the order of their keys included. -/
theorem update_update {es fs gs : Entries α} (he : (keys es).Nodup) (hf : (keys fs).Nodup)
    (hg : (keys gs).Nodup) : update es (update fs gs) = update (update es fs) gs := by
  have hke := (eraseDups_of_nodup he).symm
  have hkf := (eraseDups_of_nodup hf).symm
  refine ext_get? (nodup_keys_update he _) ?_ ?_
  · rw [keys_update hke, keys_update hkf, eraseDups_append_eraseDups,
      keys_update (keys_update hke fs), List.append_assoc]
  · intro key
    rw [get?_update _ (nodup_keys_update hf gs), get?_update _ hg, get?_update _ hg,
      get?_update _ hf, Option.or_assoc]

section
variable (es : Entries α) (parts : List (Entries α))

theorem keys_foldl_update {ks : List Text} (h : keys es = ks.eraseDups) :
    keys (parts.foldl update es) = (ks ++ parts.flatMap keys).eraseDups := by
  induction parts generalizing es ks with
  | nil => rw [List.flatMap_nil, List.append_nil, List.foldl_nil, h]
  | cons part parts ih =>
    rw [List.foldl_cons, ih _ (keys_update h part), List.flatMap_cons, List.append_assoc]

theorem nodup_keys_foldl_update (h : (keys es).Nodup) : (keys (parts.foldl update es)).Nodup := by
  induction parts generalizing es with
  | nil => exact h
  | cons part parts ih => exact ih _ (nodup_keys_update h part)

/-- A key has the value of the last map that has the key. -/
theorem get?_foldl_update (h : ∀ part ∈ parts, (keys part).Nodup) (key : Text) :
    get? (parts.foldl update es) key =
      (parts.reverse.findSome? fun part => get? part key).or (get? es key) := by
  induction parts generalizing es with
  | nil => rfl
  | cons part parts ih =>
    obtain ⟨hpart, hparts⟩ := List.forall_mem_cons.mp h
    rw [List.foldl_cons, ih _ hparts, get?_update _ hpart, List.reverse_cons, List.findSome?_append,
      Option.or_assoc]
    cases hfind : get? part key <;> simp [hfind]

end

end Entries
end JsonQuery
