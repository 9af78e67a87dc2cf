/-
Values with their keys in another order.

Two values whose objects have distinct keys are equal exactly when one is the other with its keys
in another order, at any depth, and with other signs at its zeros.  Told in this way equality is
symmetric, and the equality of further values does not see it.

* `Data.Reordered` — one value is another with its keys in another order;
* `Data.same_obj_iff` — objects are equal when they have the same keys with equal values;
* `Data.reordered_of_same`, `Data.Reordered.same` — for values with distinct keys this is equality;
* `Data.Reordered.symm`, `Data.Reordered.trans`, `Data.reordered_self` — it goes both ways and on to
  further values, and every value is one of itself;
* `Data.Reordered.same_eq` — values compare as those that they are with their keys in another order.
-/
import Mathlib.Data.List.Forall2
import Mathlib.Data.List.Zip
import Mathlib.Data.Option.Basic
import JsonQuery.Proofs.Data

namespace JsonQuery

theorem isSome_eq_of_rel {α β : Type} {near : α → β → Prop} {a : Option α} {b : Option β}
    (h : Option.Rel near a b) : a.isSome = b.isSome := by
  cases h <;> rfl

/-- Two maps with distinct keys have the same ones, with related values. -/
structure Entries.Reordered {α β : Type} (near : α → β → Prop) (es : Entries α) (fs : Entries β) :
    Prop where
  left : (Entries.keys es).Nodup
  right : (Entries.keys fs).Nodup
  get? : ∀ k, Option.Rel near (Entries.get? es k) (Entries.get? fs k)

namespace Entries.Reordered
variable {α β : Type} {near : α → β → Prop} {es es' : Entries α} {fs fs' : Entries β}

theorem nil : Reordered near [] [] :=
  ⟨.nil, .nil, fun _ => .none⟩

/-- Two maps with distinct keys, told by their keys and by the values that both have. -/
theorem of_keys (left : (Entries.keys es).Nodup) (right : (Entries.keys fs).Nodup)
    (hkeys : ∀ k, k ∈ Entries.keys es ↔ k ∈ Entries.keys fs)
    (h : ∀ k x y, Entries.get? es k = some x → Entries.get? fs k = some y → near x y) :
    Reordered near es fs := by
  refine ⟨left, right, ?_⟩
  intro k
  have hk := hkeys k
  rw [← Entries.isSome_get?, ← Entries.isSome_get?] at hk
  cases hx : Entries.get? es k with
  | none =>
    cases hy : Entries.get? fs k with
    | none => exact .none
    | some y => simp [hx, hy] at hk
  | some x =>
    cases hy : Entries.get? fs k with
    | none => simp [hx, hy] at hk
    | some y => exact .some (h k x y hx hy)

theorem length_eq (h : Reordered near es fs) : es.length = fs.length := by
  refine length_eq_of_keys h.left h.right ?_
  intro k
  rw [← isSome_get?, ← isSome_get?, isSome_eq_of_rel (h.get? k)]

theorem insert {x : α} {y : β} (h : Reordered near es fs) (hxy : near x y) (k : Text) :
    Reordered near (Entries.insert k x es) (Entries.insert k y fs) := by
  refine ⟨nodup_keys_insert h.left k x, nodup_keys_insert h.right k y, ?_⟩
  intro l
  rw [get?_insert, get?_insert]
  split
  · exact .some hxy
  · exact h.get? l

theorem update (h : Reordered near es fs) (h' : Reordered near es' fs') :
    Reordered near (Entries.update es es') (Entries.update fs fs') := by
  refine ⟨nodup_keys_update h.left es', nodup_keys_update h.right fs', ?_⟩
  intro k
  rw [get?_update es h'.left, get?_update fs h'.right]
  have hk := h'.get? k
  generalize Entries.get? es' k = a, Entries.get? fs' k = b at hk
  cases hk with
  | none => exact h.get? k
  | some hab => exact .some hab

end Entries.Reordered

namespace Data
variable {ρ σ : Type}

/-- A value with its keys in another order, at any depth, with other signs at its zeros and with
related bodies in its references.  No key stands twice in an object. -/
inductive Reordered (body : ρ → ρ → Prop) : Data ρ → Data ρ → Prop
  | null : Reordered body .null .null
  | bool {b} : Reordered body (.bool b) (.bool b)
  | num {x y : Number} : x.toInt = y.toInt → Reordered body (.num x) (.num y)
  | str {t} : Reordered body (.str t) (.str t)
  | arr {xs ys} : xs.length = ys.length → (∀ p ∈ xs.zip ys, Reordered body p.1 p.2) →
    Reordered body (.arr xs) (.arr ys)
  | obj {es fs} : (Entries.keys es).Nodup → (Entries.keys fs).Nodup →
    (∀ k, k ∈ Entries.keys es ↔ k ∈ Entries.keys fs) →
    (∀ k x y, Entries.get? es k = some x → Entries.get? fs k = some y → Reordered body x y) →
    Reordered body (.obj es) (.obj fs)
  | ref {b c x y} : body b c → Reordered body x y → Reordered body (.ref b x) (.ref c y)

variable {body : ρ → ρ → Prop} {xs ys : List (Data ρ)} {es fs : Entries (Data ρ)}

theorem reordered_arr_iff :
    Reordered body (.arr xs) (.arr ys) ↔ List.Forall₂ (Reordered body) xs ys := by
  rw [List.forall₂_iff_zip]
  constructor
  · intro h
    cases h with
    | arr hlen h => exact ⟨hlen, fun hm => h _ hm⟩
  · rintro ⟨hlen, h⟩
    exact .arr hlen fun p hp => h hp

theorem reordered_obj_iff :
    Reordered body (.obj es) (.obj fs) ↔ Entries.Reordered (Reordered body) es fs := by
  constructor
  · intro h
    cases h with
    | obj he hf hkeys h => exact .of_keys he hf hkeys h
  · rintro ⟨he, hf, h⟩
    refine .obj he hf ?_ ?_
    · intro k
      rw [← Entries.isSome_get?, ← Entries.isSome_get?, isSome_eq_of_rel (h k)]
    · intro k x y hx hy
      have hk := h k
      rw [hx, hy] at hk
      cases hk
      assumption

theorem Reordered.symm (hbody : ∀ {b c}, body b c → body c b) {x y : Data ρ}
    (h : Reordered body x y) : Reordered body y x := by
  induction h with
  | null => exact .null
  | bool => exact .bool
  | num hxy => exact .num hxy.symm
  | str => exact .str
  | @arr xs ys hlen _ ih =>
    refine .arr hlen.symm ?_
    intro p hp
    rw [← List.zip_swap, List.mem_map] at hp
    obtain ⟨q, hq, rfl⟩ := hp
    exact ih q hq
  | obj he hf hkeys _ ih =>
    exact .obj hf he (fun k => (hkeys k).symm) fun k y x hy hx => ih k x y hx hy
  | ref hb _ ih => exact .ref (hbody hb) ih

theorem Reordered.trans (hbody : ∀ {b c d}, body b c → body c d → body b d) {x y z : Data ρ}
    (h : Reordered body x y) (h' : Reordered body y z) : Reordered body x z := by
  induction h generalizing z with
  | null | bool | str => exact h'
  | num hxy =>
    cases h' with
    | num hyz => exact .num (hxy.trans hyz)
  | @arr xs ys hlen _ ih =>
    cases h' with
    | @arr _ zs hlen' h' =>
      refine .arr (hlen.trans hlen') ?_
      intro p hp
      obtain ⟨i, hi, rfl⟩ := List.mem_iff_getElem.mp hp
      simp only [List.length_zip, List.getElem_zip] at hi ⊢
      refine ih (xs[i], ys[i]) ?_ (h' (ys[i], zs[i]) ?_)
      · exact List.mem_iff_getElem.mpr ⟨i, by simp; omega, by simp⟩
      · exact List.mem_iff_getElem.mpr ⟨i, by simp; omega, by simp⟩
  | obj he hf hkeys _ ih =>
    cases h' with
    | obj _ hg hkeys' h' =>
      refine .obj he hg (fun k => (hkeys k).trans (hkeys' k)) ?_
      intro k u w hu hw
      have hk : k ∈ Entries.keys _ := (hkeys k).mp (List.mem_map_of_mem (Entries.mem_of_get? hu))
      obtain ⟨v, hv⟩ := Option.isSome_iff_exists.mp ((Entries.isSome_get? _ k).mpr hk)
      exact ih k u v hu hv (h' k v w hv hw)
  | ref hb _ ih =>
    cases h' with
    | ref hb' h' => exact .ref (hbody hb hb') (ih h')

/-! ### Equality -/

theorem finds_iff {test : Data ρ → Data ρ → Bool} {entry : Text × Data ρ} :
    finds test fs entry = true ↔ ∃ y, Entries.get? fs entry.1 = some y ∧ test entry.2 y = true := by
  rw [finds]
  cases Entries.get? fs entry.1 <;> simp

/-- All entries find a value in a map, told by the values of their keys. -/
theorem all_finds_iff {test : Data ρ → Data ρ → Bool} (he : (Entries.keys es).Nodup) :
    es.all (finds test fs) = true ↔
      ∀ k x, Entries.get? es k = some x → ∃ y, Entries.get? fs k = some y ∧ test x y = true := by
  rw [List.all_eq_true]
  constructor
  · intro h k x hx
    exact finds_iff.mp (h (k, x) (Entries.mem_of_get? hx))
  · rintro h ⟨k, x⟩ hm
    exact finds_iff.mpr (h k x (Entries.get?_of_mem he hm))

/-- Objects are equal when they have the same keys with equal values. -/
theorem same_obj_iff {sameBody : ρ → ρ → Bool} (he : (Entries.keys es).Nodup)
    (hf : (Entries.keys fs).Nodup) :
    same sameBody (.obj es) (.obj fs) = true ↔
      (∀ k, k ∈ Entries.keys es ↔ k ∈ Entries.keys fs) ∧
        ∀ k u v, Entries.get? es k = some u → Entries.get? fs k = some v →
          same sameBody u v = true := by
  rw [same, within_eq, Bool.and_eq_true, all_finds_iff he, beq_iff_eq]
  constructor
  · rintro ⟨hlen, hfinds⟩
    have hsub : Entries.keys es ⊆ Entries.keys fs := by
      intro k hk
      obtain ⟨u, hu⟩ := Option.isSome_iff_exists.mp ((Entries.isSome_get? es k).mpr hk)
      obtain ⟨v, hv, -⟩ := hfinds k u hu
      exact List.mem_map_of_mem (Entries.mem_of_get? hv)
    have hback := Entries.keys_subset he (Nat.le_of_eq hlen.symm) hsub
    refine ⟨fun k => ⟨fun h => hsub h, fun h => hback h⟩, ?_⟩
    intro k u v hu hv
    obtain ⟨v', hv', hsame⟩ := hfinds k u hu
    obtain rfl : v' = v := Option.some.inj (hv'.symm.trans hv)
    exact hsame
  · rintro ⟨hkeys, hvalues⟩
    refine ⟨Entries.length_eq_of_keys he hf hkeys, ?_⟩
    intro k u hu
    have hk := (hkeys k).mp (List.mem_map_of_mem (Entries.mem_of_get? hu))
    obtain ⟨v, hv⟩ := Option.isSome_iff_exists.mp ((Entries.isSome_get? fs k).mpr hk)
    exact ⟨v, hv, hvalues k u v hu hv⟩

/-- Equal values with distinct keys are each other with their keys in another order. -/
theorem reordered_of_same {sameBody : ρ → ρ → Bool} {x y : Data ρ} (h : same sameBody x y = true)
    (hx : x.DistinctKeys) (hy : y.DistinctKeys) :
    Reordered (fun b c => sameBody b c = true) x y := by
  -- The induction is on the frames that the first value needs; its parts need fewer.
  obtain ⟨n, hn⟩ : ∃ n, x.frames (fun _ => 0) ≤ n := ⟨_, Nat.le_refl _⟩
  induction n generalizing x y with
  | zero => cases x <;> simp [frames, levelFrames, referenceFrames] at hn
  | succ n ih =>
    cases x <;> cases y <;> simp only [same, Bool.false_eq_true] at h
    case null.null => exact .null
    case bool.bool =>
      obtain rfl := beq_iff_eq.mp h
      exact .bool
    case num.num => exact .num (beq_iff_eq.mp h)
    case str.str =>
      obtain rfl := beq_iff_eq.mp h
      exact .str
    case arr.arr xs ys =>
      rw [sameItems_eq, Bool.and_eq_true, List.all_eq_true] at h
      rw [DistinctKeys, distinctKeysItems_iff] at hx hy
      rw [frames, levelFrames] at hn
      refine .arr (beq_iff_eq.mp h.1) ?_
      intro p hp
      obtain ⟨hpx, hpy⟩ := List.of_mem_zip hp
      have hle := frames_le_framesItems (fun _ => 0) hpx
      exact ih (h.2 p hp) (hx _ hpx) (hy _ hpy) (by omega)
    case obj.obj es fs =>
      rw [DistinctKeys, distinctKeysEntries_iff] at hx hy
      rw [frames, levelFrames] at hn
      obtain ⟨hkeys, hvalues⟩ := (same_obj_iff hx.1 hy.1).mp (by rwa [same])
      refine .obj hx.1 hy.1 hkeys ?_
      intro k x y hxk hyk
      have hm := Entries.mem_of_get? hxk
      have hle : x.frames (fun _ => 0) ≤ framesEntries _ es := frames_le_framesEntries _ hm
      exact ih (hvalues k x y hxk hyk) (hx.2 _ hm) (hy.2 _ (Entries.mem_of_get? hyk)) (by omega)
    case ref.ref b x c y =>
      rw [Bool.and_eq_true] at h
      rw [frames, referenceFrames] at hn
      exact .ref h.1 (ih h.2 hx hy (by omega))

/-- Values that are each other with their keys in another order are equal. -/
theorem Reordered.same {sameBody : ρ → ρ → Bool} (hbody : ∀ {b c}, body b c → sameBody b c = true)
    {x y : Data ρ} (h : Reordered body x y) : same sameBody x y = true := by
  induction h with
  | null | bool | str => simp only [Data.same, BEq.rfl]
  | num hxy => exact beq_iff_eq.mpr hxy
  | @arr xs ys hlen _ ih =>
    rw [Data.same, sameItems_eq, hlen, BEq.rfl, Bool.true_and, List.all_eq_true]
    exact ih
  | obj he hf hkeys _ ih => exact (same_obj_iff he hf).mpr ⟨hkeys, ih⟩
  | ref hb _ ih =>
    rw [Data.same, hbody hb, ih]
    rfl

/-- A value with distinct keys is itself with its keys in another order. -/
theorem reordered_self (hbody : ∀ b, body b b) (x : Data ρ) (h : x.DistinctKeys) :
    Reordered body x x := by
  obtain ⟨n, hn⟩ : ∃ n, x.frames (fun _ => 0) ≤ n := ⟨_, Nat.le_refl _⟩
  induction n generalizing x with
  | zero => cases x <;> simp [frames, levelFrames, referenceFrames] at hn
  | succ n ih =>
    cases x with
    | null => exact .null
    | bool => exact .bool
    | num => exact .num rfl
    | str => exact .str
    | arr xs =>
      rw [DistinctKeys, distinctKeysItems_iff] at h
      rw [frames, levelFrames] at hn
      refine reordered_arr_iff.mpr (List.forall₂_same.mpr ?_)
      intro x hx
      have hle := frames_le_framesItems (fun _ => 0) hx
      exact ih x (h x hx) (by omega)
    | obj es =>
      rw [DistinctKeys, distinctKeysEntries_iff] at h
      rw [frames, levelFrames] at hn
      refine .obj h.1 h.1 (fun _ => Iff.rfl) ?_
      intro k x y hx hy
      obtain rfl : x = y := Option.some.inj (hx.symm.trans hy)
      have hm := Entries.mem_of_get? hx
      have hle : x.frames (fun _ => 0) ≤ framesEntries _ es := frames_le_framesEntries _ hm
      exact ih x (h.2 _ hm) (by omega)
    | ref b x =>
      rw [frames, referenceFrames] at hn
      exact .ref (hbody b) (ih x h (by omega))

/-- Bodies that stay related may be put in the place of others. -/
theorem Reordered.mapRef {σ : Type} {body' : σ → σ → Prop} {f : ρ → σ}
    (hf : ∀ {b c}, body b c → body' (f b) (f c)) {x y : Data ρ} (h : Reordered body x y) :
    Reordered body' (x.mapRef f) (y.mapRef f) := by
  induction h with
  | null => exact .null
  | bool => exact .bool
  | num hxy => exact .num hxy
  | str => exact .str
  | arr hlen _ ih =>
    rw [Data.mapRef, Data.mapRef, mapRefItems_eq_map, mapRefItems_eq_map]
    refine .arr (by simpa using hlen) ?_
    intro p hp
    rw [List.zip_map, List.mem_map] at hp
    obtain ⟨q, hq, rfl⟩ := hp
    exact ih q hq
  | obj he hf hkeys _ ih =>
    rw [Data.mapRef, Data.mapRef, mapRefEntries_eq_map, mapRefEntries_eq_map]
    refine .obj (by rwa [keys_map]) (by rwa [keys_map]) ?_ ?_
    · intro k
      rw [keys_map, keys_map]
      exact hkeys k
    · intro k x y hx hy
      rw [get?_map, Option.map_eq_some_iff] at hx hy
      obtain ⟨a, ha, rfl⟩ := hx
      obtain ⟨b, hb, rfl⟩ := hy
      exact ih k a b ha hb
  | ref hb _ ih => exact .ref (hf hb) ih

/-! ### Comparisons -/

theorem all_zip_eq {α β α' β' : Type} {near : α → α' → Prop} {near' : β → β' → Prop}
    {p : α × β → Bool} {q : α' × β' → Bool}
    (h : ∀ ⦃a a' b b'⦄, near a a' → near' b b' → p (a, b) = q (a', b'))
    {as : List α} {as' : List α'} {bs : List β} {bs' : List β'} (ha : List.Forall₂ near as as')
    (hb : List.Forall₂ near' bs bs') :
    (as.zip bs).all p = (as'.zip bs').all q := by
  induction ha generalizing bs bs' with
  | nil => rfl
  | cons hab _ ih =>
    cases hb with
    | nil => rfl
    | cons hb hbs =>
      rw [List.zip_cons_cons, List.zip_cons_cons, List.all_cons, List.all_cons, h hab hb, ih hbs]

/-- Whether all entries of a map find a value in another does not depend on the order of keys. -/
theorem all_finds_eq {near near' : Data ρ → Data ρ → Prop} {test : Data ρ → Data ρ → Bool}
    {es' fs' : Entries (Data ρ)}
    (h : ∀ ⦃x x' y y'⦄, near x x' → near' y y' → test x y = test x' y')
    (he : Entries.Reordered near es es') (hf : Entries.Reordered near' fs fs') :
    es.all (finds test fs) = es'.all (finds test fs') := by
  rw [Bool.eq_iff_iff, all_finds_iff he.left, all_finds_iff he.right]
  refine forall_congr' ?_
  intro k
  have hx := he.get? k
  have hy := hf.get? k
  generalize Entries.get? es k = x, Entries.get? es' k = x' at hx
  generalize Entries.get? fs k = y, Entries.get? fs' k = y' at hy
  cases hx with
  | none => simp
  | some hx =>
    cases hy with
    | none => simp
    | some hy => simp [h hx hy]

/-- Values compare as those with their keys in another order. -/
theorem Reordered.same_eq {sameBody : ρ → ρ → Bool}
    (hbody : ∀ ⦃b b' c c'⦄, body b b' → body c c' → sameBody b c = sameBody b' c')
    {x x' y y' : Data ρ} (hx : Reordered body x x') (hy : Reordered body y y') :
    Data.same sameBody x y = Data.same sameBody x' y' := by
  induction hx generalizing y y' with
  | null | bool | str => cases hy <;> rfl
  | num hx =>
    cases hy with
    | num hy => simp only [Data.same, Number.same, hx, hy]
    | null | bool | str | arr | obj | ref => rfl
  | arr hlen _ ih =>
    cases hy with
    | arr hlen' hy =>
      have hxs := List.forall₂_iff_zip.mpr ⟨hlen, fun hm => @ih _ hm⟩
      have hys := reordered_arr_iff.mp (.arr hlen' hy)
      rw [Data.same, Data.same, sameItems_eq, sameItems_eq, hlen, hlen']
      congr 1
      exact all_zip_eq (fun _ _ _ _ ha hb => ha hb) hxs hys
    | null | bool | num | str | obj | ref => rfl
  | obj he hf hkeys _ ih =>
    cases hy with
    | obj he' hf' hkeys' hy =>
      have hes := Entries.Reordered.of_keys he hf hkeys fun k u v hu hv => @ih k u v hu hv
      have hfs := Entries.Reordered.of_keys he' hf' hkeys' hy
      rw [Data.same, Data.same, within_eq, within_eq, hes.length_eq, hfs.length_eq]
      congr 1
      exact all_finds_eq (fun _ _ _ _ ha hb => ha hb) hes hfs
    | null | bool | num | str | arr | ref => rfl
  | ref hb _ ih =>
    cases hy with
    | ref hb' hy => rw [Data.same, Data.same, hbody hb hb', ih hy]
    | null | bool | num | str | arr | obj => rfl

end Data
end JsonQuery
