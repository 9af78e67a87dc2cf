/-
Equality of values is an equivalence.

Equality of objects counts the entries of both and looks up those of the first in the second.  For
objects without a key twice this finds the keys of the second in the first as well, so that
equality goes both ways and from one value to the next, as long as the equality of the bodies of
references does.

* `EquivalenceOn` — a test is an equivalence of some values;
* `Data.WellKeyed` — no object in a value has a key twice, and its references have good bodies;
* `Data.same_iff_reordered` — equal values are each other with their keys in another order;
* `Data.same_equivalence`, `Json.same_equivalence` — equality is an equivalence.
-/
import JsonQuery.Proofs.Data.Reorder

namespace JsonQuery

/-- A test is an equivalence of the values that are good. -/
structure EquivalenceOn {α : Type} (good : α → Prop) (test : α → α → Bool) : Prop where
  refl : ∀ ⦃x⦄, good x → test x x = true
  symm : ∀ ⦃x y⦄, good x → good y → test x y = true → test y x = true
  trans : ∀ ⦃x y z⦄, good x → good y → good z → test x y = true → test y z = true →
    test x z = true

namespace EquivalenceOn
variable {α : Type} {good : α → Prop} {test : α → α → Bool}

/-- What is equal to itself, and to each other when it is equal to a third, is an equivalence. -/
theorem of_euclidean (refl : ∀ ⦃x⦄, good x → test x x = true)
    (euclidean : ∀ ⦃x y z⦄, good x → good y → good z → test x y = true → test x z = true →
      test y z = true) : EquivalenceOn good test where
  refl := refl
  symm _ _ hx hy h := euclidean hx hy hx h (refl hx)
  trans _ _ _ hx hy hz hxy hyz := euclidean hy hx hz (euclidean hx hy hx hxy (refl hx)) hyz

/-- Values that the same one is equal to are equal. -/
theorem euclidean (h : EquivalenceOn good test) {x y z : α} (hx : good x) (hy : good y)
    (hz : good z) (hxy : test x y = true) (hxz : test x z = true) : test y z = true :=
  h.trans hy hx hz (h.symm hx hy hxy) hxz

end EquivalenceOn

namespace Data
variable {ρ : Type}

/-- No object in a value has a key twice, and the bodies of its references are good. -/
inductive WellKeyed (good : ρ → Prop) : Data ρ → Prop
  | null : WellKeyed good .null
  | bool {b} : WellKeyed good (.bool b)
  | num {x} : WellKeyed good (.num x)
  | str {t} : WellKeyed good (.str t)
  | arr {xs} : (∀ x ∈ xs, WellKeyed good x) → WellKeyed good (.arr xs)
  | obj {es} : (Entries.keys es).Nodup → (∀ e ∈ es, WellKeyed good e.2) → WellKeyed good (.obj es)
  | ref {b x} : good b → WellKeyed good x → WellKeyed good (.ref b x)

variable {good : ρ → Prop} {sameBody : ρ → ρ → Bool} {x y : Data ρ}

theorem WellKeyed.distinctKeys (h : WellKeyed good x) : x.DistinctKeys := by
  induction h with
  | null | bool | num | str => trivial
  | arr _ ih => exact distinctKeysItems_iff.mpr ih
  | obj hkeys _ ih => exact ⟨hkeys, distinctKeysEntries_iff.mpr ih⟩
  | ref _ _ ih => exact ih

mutual

/-- Where all bodies are good, only the keys count. -/
theorem wellKeyed_of_distinctKeys (hgood : ∀ b, good b) :
    ∀ x : Data ρ, x.DistinctKeys → WellKeyed good x
  | .null, _ => .null
  | .bool _, _ => .bool
  | .num _, _ => .num
  | .str _, _ => .str
  | .arr xs, h => .arr (wellKeyedItems_of_distinctKeys hgood xs h)
  | .obj es, h => .obj h.1 (wellKeyedEntries_of_distinctKeys hgood es h.2)
  | .ref b x, h => .ref (hgood b) (wellKeyed_of_distinctKeys hgood x h)

theorem wellKeyedItems_of_distinctKeys (hgood : ∀ b, good b) :
    ∀ xs : List (Data ρ), DistinctKeysItems xs → ∀ x ∈ xs, WellKeyed good x
  | [], _ => List.forall_mem_nil _
  | x :: xs, h => List.forall_mem_cons.mpr
    ⟨wellKeyed_of_distinctKeys hgood x h.1, wellKeyedItems_of_distinctKeys hgood xs h.2⟩

theorem wellKeyedEntries_of_distinctKeys (hgood : ∀ b, good b) :
    ∀ es : List (Text × Data ρ), DistinctKeysEntries es → ∀ e ∈ es, WellKeyed good e.2
  | [], _ => List.forall_mem_nil _
  | (_, x) :: es, h => List.forall_mem_cons.mpr
    ⟨wellKeyed_of_distinctKeys hgood x h.1, wellKeyedEntries_of_distinctKeys hgood es h.2⟩

end

/-! ### Values with their keys in another order -/

/-- Two bodies are good and equal. -/
def GoodBodies (good : ρ → Prop) (sameBody : ρ → ρ → Bool) (b c : ρ) : Prop :=
  good b ∧ good c ∧ sameBody b c = true

/-- A value that is another with its keys in another order has good bodies if all bodies that are
related to any are good. -/
theorem Reordered.wellKeyed {body : ρ → ρ → Prop} (hbody : ∀ {b c}, body b c → good b)
    (h : Reordered body x y) : WellKeyed good x := by
  induction h with
  | null => exact .null
  | bool => exact .bool
  | num => exact .num
  | str => exact .str
  | @arr xs ys hlen _ ih =>
    have hitems : List.Forall₂ (fun u _ => WellKeyed good u ∧ True) xs ys :=
      List.forall₂_iff_zip.mpr ⟨hlen, fun hm => ⟨ih _ hm, trivial⟩⟩
    exact .arr ((List.forall₂_and_left xs ys).mp hitems).1
  | @obj es fs he _ hkeys _ ih =>
    refine .obj he ?_
    rintro ⟨k, u⟩ hm
    have hk := (hkeys k).mp (List.mem_map_of_mem hm)
    obtain ⟨v, hv⟩ := Option.isSome_iff_exists.mp ((Entries.isSome_get? fs k).mpr hk)
    exact ih k u v (Entries.get?_of_mem he hm) hv
  | ref hb _ ih => exact .ref (hbody hb) ih

/-- What is known of the bodies of both values is known of the bodies that are related. -/
theorem Reordered.and_good {body : ρ → ρ → Prop} (h : Reordered body x y) (hx : WellKeyed good x)
    (hy : WellKeyed good y) : Reordered (fun b c => good b ∧ good c ∧ body b c) x y := by
  induction h with
  | null => exact .null
  | bool => exact .bool
  | num hxy => exact .num hxy
  | str => exact .str
  | arr hlen _ ih =>
    cases hx with
    | arr hx =>
      cases hy with
      | arr hy =>
        refine .arr hlen ?_
        intro p hp
        obtain ⟨hpx, hpy⟩ := List.of_mem_zip hp
        exact ih p hp (hx _ hpx) (hy _ hpy)
  | obj he hf hkeys _ ih =>
    cases hx with
    | obj _ hx =>
      cases hy with
      | obj _ hy =>
        refine .obj he hf hkeys ?_
        intro k u v hu hv
        exact ih k u v hu hv (hx _ (Entries.mem_of_get? hu)) (hy _ (Entries.mem_of_get? hv))
  | ref hb _ ih =>
    cases hx with
    | ref hbx hx =>
      cases hy with
      | ref hby hy => exact .ref ⟨hbx, hby, hb⟩ (ih hx hy)

/-- Values are equal when they are each other with their keys in another order. -/
theorem same_iff_reordered (hx : WellKeyed good x) (hy : WellKeyed good y) :
    same sameBody x y = true ↔ Reordered (GoodBodies good sameBody) x y :=
  ⟨fun h => (reordered_of_same h hx.distinctKeys hy.distinctKeys).and_good hx hy,
    fun h => h.same fun hb => hb.2.2⟩

/-- Equality of values is an equivalence, if that of the bodies of references is. -/
theorem same_equivalence (h : EquivalenceOn good sameBody) :
    EquivalenceOn (WellKeyed good) (same sameBody) where
  refl x hx := by
    have hself : Reordered Eq x x := reordered_self (fun _ => rfl) x hx.distinctKeys
    refine (hself.and_good hx hx).same ?_
    rintro b _ ⟨hb, -, rfl⟩
    exact h.refl hb
  symm x y hx hy hxy := by
    rw [same_iff_reordered hx hy] at hxy
    rw [same_iff_reordered hy hx]
    refine hxy.symm ?_
    rintro b c ⟨hb, hc, hbc⟩
    exact ⟨hc, hb, h.symm hb hc hbc⟩
  trans x y z hx hy hz hxy hyz := by
    rw [same_iff_reordered hx hy] at hxy
    rw [same_iff_reordered hy hz] at hyz
    rw [same_iff_reordered hx hz]
    refine hxy.trans ?_ hyz
    rintro b c d ⟨hb, hc, hbc⟩ ⟨-, hd, hcd⟩
    exact ⟨hb, hd, h.trans hb hc hd hbc hcd⟩

end Data

/-- Equality of documents is an equivalence. -/
theorem Json.same_equivalence : EquivalenceOn (Data.DistinctKeys : Json → Prop) Json.same := by
  have hempty : EquivalenceOn (fun _ : Empty => True) fun body _ => body.elim :=
    ⟨fun b => b.elim, fun b => b.elim, fun b => b.elim⟩
  have hsame := Data.same_equivalence hempty
  have hgood : ∀ {j : Json}, j.DistinctKeys → j.WellKeyed fun _ => True :=
    fun {j} hj => Data.wellKeyed_of_distinctKeys (fun b => b.elim) j hj
  exact ⟨fun _ hj => hsame.refl (hgood hj), fun _ _ hj hk => hsame.symm (hgood hj) (hgood hk),
    fun _ _ _ hj hk hl => hsame.trans (hgood hj) (hgood hk) (hgood hl)⟩

end JsonQuery
