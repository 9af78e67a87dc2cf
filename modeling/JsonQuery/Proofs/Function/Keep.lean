/-
The built-in functions keep likenesses.

Called with like arguments in two circumstances that are alike, a built-in function goes the same
way.  Most functions only look at what a likeness shows of their arguments; `map` and the functions
that order by an expression evaluate the reference that they are passed.  Three functions tell the
order of keys: `keys`, `values` and `to_string`.

* `Builtin.rel_need` — a part that a body needs is there on both sides or on neither;
* `Builtin.Passed` — what the functions that evaluate a reference ask of their arguments;
* `Builtin.forall₂_mergeSort` — sorting keeps items side by side if their keys compare alike;
* `Builtin.rel_mapped`, `Builtin.rel_keyed` — an expression evaluated on every item;
* `Builtin.table_keep` — all functions keep all likenesses, those three if the order is kept;
* `Registry.standard_passes` — the functions that evaluate a reference give like values also when
  the reference itself is like no value.
-/
import JsonQuery.Proofs.Entries
import JsonQuery.Proofs.Eval.Likeness

namespace JsonQuery

/-- Two circumstances of a call at related places, in which like values have related comparisons and
related bodies have related evaluations on them. -/
structure Call.Paired (R : Run.Relator) (L : Likeness) (body : Expr → Expr → Prop) (c c' : Call) :
    Prop where
  place : R.place c.offset c'.offset
  compares : L.Compares R c.shared c'.shared
  evaluate : ∀ ⦃e e' x x'⦄, body e e' → L.value x x' →
    R.rel L.value (c.evaluate e x) (c'.evaluate e' x')

/-- A function that goes the same way for like arguments. -/
def Function.Keeps (R : Run.Relator) (L : Likeness) (f : Function) : Prop :=
  ∀ ⦃c c' xs xs'⦄, Call.Paired R L L.body c c' → List.Forall₂ L.value xs xs' →
    R.rel L.value (f.body c xs) (f.body c' xs')

namespace Builtin

open Likeness

variable {R : Run.Relator} {L : Likeness} {x x' y y' : Value} {xs xs' : List Value}

/-- A body that goes the same way for like arguments. -/
def Keeps (R : Run.Relator) (L : Likeness) (b : Body) : Prop :=
  ∀ ⦃c c' xs xs'⦄, Call.Paired R L L.body c c' → List.Forall₂ L.value xs xs' →
    R.rel L.value (b c xs) (b c' xs')

theorem keeps_unary {f : Call → Value → Run Value}
    (h : ∀ ⦃c c' x x'⦄, Call.Paired R L L.body c c' → L.value x x' →
      R.rel L.value (f c x) (f c' x')) :
    Keeps R L (unary f) := by
  intro c c' xs xs' hc hx
  cases hx with
  | nil => exact R.fail .host
  | cons hx _ => exact h hc hx

theorem rel_binary {arg : Value → Value → Prop} {f : Call → Value → Value → Run Value} {c c' : Call}
    (h : ∀ ⦃x x' y y'⦄, arg x x' → arg y y' → R.rel L.value (f c x y) (f c' x' y'))
    (hx : List.Forall₂ arg xs xs') : R.rel L.value (binary f c xs) (binary f c' xs') := by
  cases hx with
  | nil => exact R.fail .host
  | cons hx hxs =>
    cases hxs with
    | nil => exact R.fail .host
    | cons hy _ => exact h hx hy

theorem keeps_binary {f : Call → Value → Value → Run Value}
    (h : ∀ ⦃c c' x x' y y'⦄, Call.Paired R L L.body c c' → L.value x x' → L.value y y' →
      R.rel L.value (f c x y) (f c' x' y')) :
    Keeps R L (binary f) :=
  fun _ _ _ _ hc hx => rel_binary (fun _ _ _ _ hx hy => h hc hx hy) hx

/-! ### Parts of arguments -/

theorem number?_rel (h : L.value x x') :
    Option.Rel (fun a b => L.value (.num a) (.num b)) (number? x) (number? x') := by
  cases L.built.mp h with
  | num => exact .some h
  | null | bool | str | arr | obj | ref => exact .none

theorem text?_rel (h : L.value x x') : Option.Rel Eq (text? x) (text? x') := by
  cases L.built.mp h with
  | str => exact .some rfl
  | null | bool | num | arr | obj | ref => exact .none

theorem items?_rel (h : L.value x x') :
    Option.Rel (List.Forall₂ L.value) (items? x) (items? x') := by
  cases L.built.mp h with
  | arr hi => exact .some hi
  | null | bool | num | str | obj | ref => exact .none

theorem entries?_rel (h : L.value x x') : Option.Rel L.entries (entries? x) (entries? x') := by
  cases L.built.mp h with
  | obj he => exact .some he
  | null | bool | num | str | arr | ref => exact .none

theorem body?_rel (h : L.value x x') : Option.Rel L.body (body? x) (body? x') := by
  cases L.built.mp h with
  | ref hb _ => exact .some hb
  | null | bool | num | str | arr | obj => exact .none

theorem length?_rel (h : L.value x x') : Option.Rel Eq x.length? x'.length? := by
  cases L.built.mp h with
  | str => exact .some rfl
  | arr hi => exact .some hi.length_eq
  | obj he => exact .some (L.length_eq he)
  | null | bool | num | ref => exact .none

theorem rel_need_of_kind {α : Type} {near : α → α → Prop} {part : Value → Option α}
    (hk : x.kind = x'.kind) (h : Option.Rel near (part x) (part x')) :
    R.rel near (need part x) (need part x') := by
  unfold need
  generalize part x = a, part x' = a' at h
  cases h with
  | some h => exact R.pure h
  | none =>
    rw [hk]
    exact R.fail .host

/-- A part that a body needs is there on both sides or on neither. -/
theorem rel_need {α : Type} {near : α → α → Prop} {part : Value → Option α} (hx : L.value x x')
    (h : Option.Rel near (part x) (part x')) : R.rel near (need part x) (need part x') :=
  rel_need_of_kind (kind_eq hx) h

/-! ### Numbers -/

theorem natAbs_toInt (a : Number) : a.toInt.natAbs = a.magnitude := by
  rw [Number.toInt]
  split <;> omega

/-- Numbers of the same value are the same, or both zero. -/
theorem eq_or_zero_of_toInt {a b : Number} (h : a.toInt = b.toInt) :
    a = b ∨ a.magnitude = 0 ∧ b.magnitude = 0 := by
  have hm : a.magnitude = b.magnitude := by
    rw [← natAbs_toInt a, ← natAbs_toInt b, h]
  by_cases h0 : a.magnitude = 0
  · exact .inr ⟨h0, hm ▸ h0⟩
  · left
    have hs : a.negative = b.negative := by
      rw [Number.toInt, Number.toInt] at h
      cases ha : a.negative <;> cases hb : b.negative <;> simp [ha, hb] at h ⊢ <;> omega
    obtain ⟨s, m, _, _⟩ := a
    obtain ⟨s', m', _, _⟩ := b
    cases hs
    cases hm
    rfl

theorem toInt_eq_zero {a : Number} (h : a.magnitude = 0) : a.toInt = 0 := by
  rw [← Int.natAbs_eq_zero, natAbs_toInt, h]

/-- What makes zero of zero makes numbers of the same value of such numbers. -/
theorem toInt_map {g : Number → Number} (hg : ∀ {x : Number}, x.magnitude = 0 → (g x).magnitude = 0)
    {a b : Number} (h : a.toInt = b.toInt) : (g a).toInt = (g b).toInt := by
  rcases eq_or_zero_of_toInt h with rfl | ⟨ha, hb⟩
  · rfl
  · rw [toInt_eq_zero (hg ha), toInt_eq_zero (hg hb)]

/-- Rounding and the like: one number is made of another, zero of zero. -/
theorem number_keeps {g : Number → Number}
    (hg : ∀ {x : Number}, x.magnitude = 0 → (g x).magnitude = 0) :
    Keeps R L (unary fun _ x => do
      let n ← need number? x
      Pure.pure (.num (g n))) := by
  refine keeps_unary ?_
  intro c c' x x' _ hx
  refine R.bind (rel_need hx (number?_rel hx)) ?_
  intro a b hab
  exact R.pure (value_number hab (toInt_map hg))

theorem magnitude_ceil {x : Number} (h : x.magnitude = 0) : x.ceil.magnitude = 0 := by
  rw [Number.ceil, dif_neg (by simp [Number.isWhole, h]), h]

theorem magnitude_floor {x : Number} (h : x.magnitude = 0) : x.floor.magnitude = 0 := by
  rw [Number.floor, dif_neg (by simp [Number.isWhole, h]), h]

/-- The numbers of an array have the same values. -/
theorem rel_numbers (hx : L.value x x') :
    R.rel (List.Forall₂ fun a b : Number => a.toInt = b.toInt) (numbers x) (numbers x') := by
  refine R.bind (rel_need hx (items?_rel hx)) ?_
  intro xs xs' h
  refine R.imp (R.mapM h fun _ _ hy => rel_need hy (number?_rel hy)) ?_
  intro as bs hab
  refine hab.imp ?_
  intro a b h
  cases L.built.mp h
  assumption

theorem sum?_eq {as bs : List Number} (h : List.Forall₂ (fun a b => a.toInt = b.toInt) as bs) :
    Number.sum? as = Number.sum? bs := by
  have hparts : ∀ parts, as.foldlM (fun parts x => Number.pass? x.toInt parts) parts =
      bs.foldlM (fun parts x => Number.pass? x.toInt parts) parts := by
    induction h with
    | nil => exact fun _ => rfl
    | cons hab _ ih =>
      intro parts
      rw [List.foldlM_cons, List.foldlM_cons, hab]
      exact bind_congr ih
  rw [Number.sum?, Number.sum?, Number.parts?, Number.parts?, hparts]

theorem rel_ofSum (x : Option Number) : R.rel L.value (ofSum x) (ofSum x) := by
  cases x with
  | none => exact R.fail .sumOverflow
  | some x => exact R.pure (value_num x)

theorem sum_keeps : Keeps R L sum := by
  refine keeps_unary ?_
  intro c c' x x' _ hx
  refine R.bind (rel_numbers hx) ?_
  intro as bs h
  rw [sum?_eq h]
  exact rel_ofSum _

theorem avg_keeps : Keeps R L avg := by
  refine keeps_unary ?_
  intro c c' x x' _ hx
  refine R.bind (rel_numbers hx) ?_
  intro as bs h
  have havg : Number.average? as = Number.average? bs := by
    rw [Number.average?, Number.average?, sum?_eq h, h.length_eq]
  have hempty : as.isEmpty = bs.isEmpty := by
    cases h <;> rfl
  rw [havg, hempty]
  split
  · exact R.pure value_null
  · exact rel_ofSum _

/-! ### Texts and parts of values -/

theorem rel_isItem {shared shared' : Sharing} (hc : L.Compares R shared shared')
    (hy : L.value y y') (h : List.Forall₂ L.value xs xs') :
    R.rel Eq (isItem shared y xs) (isItem shared' y' xs') := by
  induction h with
  | nil => exact R.pure rfl
  | cons hx _ ih =>
    refine R.bind (hc hx hy) ?_
    rintro b _ rfl
    split
    · exact R.pure rfl
    · exact ih

theorem contains_keeps : Keeps R L contains := by
  refine keeps_binary ?_
  intro c c' x x' y y' hc hx hy
  have hitems : R.rel L.value
      (need items? x >>= fun xs => isItem c.shared y xs >>= fun b => Pure.pure (.bool b))
      (need items? x' >>= fun xs => isItem c'.shared y' xs >>= fun b =>
        Pure.pure (.bool b)) := by
    refine R.bind (rel_need hx (items?_rel hx)) ?_
    intro xs xs' h
    refine R.bind (rel_isItem hc.compares hy h) ?_
    rintro b _ rfl
    exact R.pure (value_bool b)
  have htext : ∀ t, (text? y).any (Text.occursIn · t) = (text? y').any (Text.occursIn · t) := by
    intro t
    have h := text?_rel hy
    generalize text? y = s, text? y' = s' at h
    cases h with
    | none => rfl
    | some h => rw [h]
  cases L.built.mp hx with
  | @str t =>
    dsimp only
    rw [htext t]
    exact R.pure (value_bool _)
  | null | bool | num | arr | obj | ref => exact hitems

/-- Two texts are tested together. -/
theorem texts_keeps (test : Text → Text → Bool) :
    Keeps R L (binary fun _ x y => do
      let t ← need text? x
      let part ← need text? y
      Pure.pure (.bool (test t part))) := by
  refine keeps_binary ?_
  intro c c' x x' y y' _ hx hy
  refine R.bind (rel_need hx (text?_rel hx)) ?_
  rintro t _ rfl
  refine R.bind (rel_need hy (text?_rel hy)) ?_
  rintro part _ rfl
  exact R.pure (value_bool _)

theorem join_keeps : Keeps R L join := by
  refine keeps_binary ?_
  intro c c' x x' y y' _ hx hy
  refine R.bind (rel_need hx (text?_rel hx)) ?_
  rintro glue _ rfl
  refine R.bind (rel_need hy (items?_rel hy)) ?_
  intro xs xs' h
  refine R.bind (R.mapM h fun _ _ hz => rel_need hz (text?_rel hz)) ?_
  intro ts ts' hts
  rw [List.forall₂_eq_eq_eq] at hts
  subst hts
  exact R.pure (value_str _)

theorem keys_keeps (hL : L.Ordered) : Keeps R L keys := by
  refine keeps_unary ?_
  intro c c' x x' _ hx
  refine R.bind (rel_need hx (entries?_rel hx)) ?_
  intro es fs h
  refine R.pure (value_arr ?_)
  rw [Entries.keys, Entries.keys, List.map_map, List.map_map, List.forall₂_map_left_iff,
    List.forall₂_map_right_iff]
  refine (hL.entries h).imp ?_
  rintro ⟨k, a⟩ ⟨_, b⟩ ⟨rfl, -⟩
  exact value_str k

theorem values_keeps (hL : L.Ordered) : Keeps R L values := by
  refine keeps_unary ?_
  intro c c' x x' _ hx
  refine R.bind (rel_need hx (entries?_rel hx)) ?_
  intro es fs h
  exact R.pure (value_arr (hL.values h))

theorem length_keeps : Keeps R L length := by
  refine keeps_unary ?_
  intro c c' x x' _ hx
  refine R.bind (rel_need hx (length?_rel hx)) ?_
  rintro n _ rfl
  exact R.pure (value_num _)

/-! ### Order -/

end Builtin

/-- Two keys compare alike: they are the same text, or numbers of the same value. -/
inductive SortKey.Same : SortKey → SortKey → Prop
  | number {x y : Number} : x.toInt = y.toInt → Same (.number x) (.number y)
  | text {t} : Same (.text t) (.text t)

namespace SortKey.Same
variable {a a' b b' : SortKey}

theorem kind_eq (h : Same a a') : a.kind = a'.kind := by
  cases h <;> rfl

theorem lt_eq (ha : Same a a') (hb : Same b b') : a.lt b = a'.lt b' := by
  cases ha with
  | number ha =>
    cases hb with
    | number hb => rw [SortKey.lt, SortKey.lt, Number.lt, Number.lt, ha, hb]
    | text => rfl
  | text => cases hb <;> rfl

theorem le_eq (ha : Same a a') (hb : Same b b') : a.le b = a'.le b' := by
  rw [SortKey.le, SortKey.le, hb.lt_eq ha]

end SortKey.Same

namespace Builtin

open Likeness

variable {R : Run.Relator} {L : Likeness} {x x' y y' : Value} {xs xs' : List Value}

/-- Two items with keys that compare alike are like. -/
def NearItem (L : Likeness) (p q : SortKey × Value) : Prop :=
  p.1.Same q.1 ∧ L.value p.2 q.2

variable {as bs : Keyed}

theorem ofValue?_rel (h : L.value x x') :
    Option.Rel SortKey.Same (SortKey.ofValue? x) (SortKey.ofValue? x') := by
  cases L.built.mp h with
  | num hv _ => exact .some (.number hv)
  | str => exact .some .text
  | null | bool | arr | obj | ref => exact .none

theorem strayKind?_eq (h : List.Forall₂ (NearItem L) as bs) : strayKind? as = strayKind? bs := by
  cases h with
  | nil => rfl
  | cons hpq hs =>
    simp only [strayKind?, hpq.1.kind_eq]
    induction hs with
    | nil => rfl
    | cons hrs _ ih =>
      rw [List.find?_cons, List.find?_cons, hrs.1.kind_eq]
      split
      · exact congrArg some hrs.1.kind_eq
      · exact ih

/-- What an order makes of like items is like. -/
theorem rel_ordering {f : Keyed → Value}
    (hf : ∀ ⦃as bs⦄, List.Forall₂ (NearItem L) as bs → L.value (f as) (f bs))
    (h : List.Forall₂ (NearItem L) as bs) : R.rel L.value (ordering f as) (ordering f bs) := by
  rw [ordering, ordering, strayKind?_eq h]
  split
  · exact R.pure (hf h)
  · exact R.fail .host

/-- Sorting keeps items side by side if they compare alike. -/
theorem forall₂_mergeSort {α β : Type} {near : α → β → Prop}
    {le : α → α → Bool} {le' : β → β → Bool}
    (hle : ∀ {a b a' b'}, near a b → near a' b' → le a a' = le' b b') {as : List α} {bs : List β}
    (h : List.Forall₂ near as bs) : List.Forall₂ near (as.mergeSort le) (bs.mergeSort le') := by
  -- Both lists are sides of the list of pairs, which is sorted once by its left sides.
  obtain ⟨hlen, hzip⟩ := List.forall₂_iff_zip.mp h
  let sorted := (as.zip bs).mergeSort fun p q => le p.1 q.1
  have hleft : sorted.map Prod.fst = ((as.zip bs).map Prod.fst).mergeSort le :=
    List.map_mergeSort fun _ _ _ _ => rfl
  have hright : sorted.map Prod.snd = ((as.zip bs).map Prod.snd).mergeSort le' :=
    List.map_mergeSort fun p hp q hq => hle (hzip hp) (hzip hq)
  rw [List.map_fst_zip (Nat.le_of_eq hlen)] at hleft
  rw [List.map_snd_zip (Nat.le_of_eq hlen.symm)] at hright
  rw [← hleft, ← hright, List.forall₂_map_left_iff, List.forall₂_map_right_iff, List.forall₂_same]
  intro p hp
  exact hzip (List.mem_mergeSort.mp hp)

theorem sorted_value ⦃as bs : Keyed⦄ (h : List.Forall₂ (NearItem L) as bs) :
    L.value (sorted as) (sorted bs) := by
  refine value_arr ?_
  rw [sortByKeys, sortByKeys, List.forall₂_map_left_iff, List.forall₂_map_right_iff]
  exact (forall₂_mergeSort (fun h h' => h.1.le_eq h'.1) h).imp fun _ _ hpq => hpq.2

/-- The first item that no other goes before. -/
theorem foldl_nearItem {before : SortKey → SortKey → Bool}
    (hb : ∀ {a a' b b'}, SortKey.Same a a' → SortKey.Same b b' → before a b = before a' b')
    {p q : SortKey × Value} (hpq : NearItem L p q) (h : List.Forall₂ (NearItem L) as bs) :
    NearItem L (as.foldl (fun best y => if before y.1 best.1 then y else best) p)
      (bs.foldl (fun best y => if before y.1 best.1 then y else best) q) := by
  refine List.rel_foldl ?_ hpq h
  intro best best' hbest item item' hitem
  dsimp only
  rw [hb hitem.1 hbest.1]
  split
  · exact hitem
  · exact hbest

theorem greatest_value ⦃as bs : Keyed⦄ (h : List.Forall₂ (NearItem L) as bs) :
    L.value (greatest as) (greatest bs) := by
  cases h with
  | nil => exact value_null
  | cons hpq h => exact (foldl_nearItem (fun ha hb => hb.lt_eq ha) hpq h).2

theorem least_value ⦃as bs : Keyed⦄ (h : List.Forall₂ (NearItem L) as bs) :
    L.value (least as) (least bs) := by
  cases h with
  | nil => exact value_null
  | cons hpq h => exact (foldl_nearItem (fun ha hb => ha.lt_eq hb) hpq h).2

theorem bySelf_keeps {f : Keyed → Value}
    (hf : ∀ ⦃as bs⦄, List.Forall₂ (NearItem L) as bs → L.value (f as) (f bs)) :
    Keeps R L (bySelf f) := by
  refine keeps_unary ?_
  intro c c' x x' _ hx
  refine R.bind (rel_need hx (items?_rel hx)) ?_
  intro xs xs' h
  refine R.bind (R.mapM h ?_) fun _ _ hab => rel_ordering hf hab
  intro y y' hy
  refine R.bind (rel_need hy (ofValue?_rel hy)) ?_
  intro key key' hkey
  refine R.pure ?_
  exact ⟨hkey, hy⟩

/-! ### Expressions evaluated on items -/

section
variable {c c' : Call} {e e' : Expr}
  (he : ∀ ⦃z z'⦄, L.value z z' → R.rel L.value (c.evaluate e z) (c'.evaluate e' z'))
include he

/-- The results of an expression on like items. -/
theorem rel_mapped (h : List.Forall₂ L.value xs xs') :
    R.rel L.value (do let ys ← xs.mapM (c.evaluate e); Pure.pure (.arr ys))
      (do let ys ← xs'.mapM (c'.evaluate e'); Pure.pure (.arr ys)) := by
  refine R.bind (R.mapM h he) ?_
  intro ys ys' hy
  exact R.pure (value_arr hy)

/-- The keys of like items by an expression. -/
theorem rel_keyed {name : Text} (hp : R.place c.offset c'.offset) {expected : Option Kind}
    (h : List.Forall₂ L.value xs xs') :
    R.rel (List.Forall₂ (NearItem L)) (keyed name c e expected xs)
      (keyed name c' e' expected xs') := by
  -- The kind that keys must have is that of the first, which is the same on both sides.
  induction h generalizing expected with
  | nil => exact R.pure .nil
  | cons hx _ ih =>
    refine R.bind (he hx) ?_
    intro a b hab
    have hkey := ofValue?_rel hab
    generalize SortKey.ofValue? a = key, SortKey.ofValue? b = key' at hkey
    cases hkey with
    | none =>
      rw [kind_eq hab]
      exact R.fail (.problem nofun hp)
    | some hkey =>
      simp only [hkey.kind_eq]
      split
      · refine R.bind ih ?_
        intro as bs habs
        exact R.pure (.cons ⟨hkey, hx⟩ habs)
      · exact R.fail (.problem nofun hp)

end

/-- What the functions that evaluate a reference ask of their arguments is related: a reference is
only evaluated, and the items of an array are like. -/
structure Passed (L : Likeness) (body : Expr → Expr → Prop) (x x' : Value) : Prop where
  kind : x.kind = x'.kind
  body : Option.Rel body (body? x) (body? x')
  items : Option.Rel (List.Forall₂ L.value) (items? x) (items? x')

theorem passed_of_value (h : L.value x x') : Passed L L.body x x' :=
  ⟨kind_eq h, body?_rel h, items?_rel h⟩

/-- A body that goes the same way for arguments of which it asks no more than that. -/
def Passes (R : Run.Relator) (L : Likeness) (body : Expr → Expr → Prop) (b : Body) : Prop :=
  ∀ ⦃c c' xs xs'⦄, Call.Paired R L body c c' → List.Forall₂ (Passed L body) xs xs' →
    R.rel L.value (b c xs) (b c' xs')

theorem keeps_of_passes {b : Body} (h : Passes R L L.body b) : Keeps R L b :=
  fun _ _ _ _ hc hx => h hc (hx.imp fun _ _ => passed_of_value)

section
variable {body : Expr → Expr → Prop}

theorem map_passes : Passes R L body map := by
  intro c c' xs xs' hc
  refine rel_binary ?_
  intro x x' y y' hx hy
  refine R.bind (rel_need_of_kind hx.kind hx.body) ?_
  intro e e' he
  refine R.bind (rel_need_of_kind hy.kind hy.items) ?_
  intro xs xs' h
  exact rel_mapped (fun _ _ hz => hc.evaluate he hz) h

theorem byKey_passes {name : Text} {f : Keyed → Value}
    (hf : ∀ ⦃as bs⦄, List.Forall₂ (NearItem L) as bs → L.value (f as) (f bs)) :
    Passes R L body (byKey name f) := by
  intro c c' xs xs' hc
  refine rel_binary ?_
  intro x x' y y' hx hy
  refine R.bind (rel_need_of_kind hx.kind hx.items) ?_
  intro xs xs' h
  refine R.bind (rel_need_of_kind hy.kind hy.body) ?_
  intro e e' he
  refine R.bind (rel_keyed (fun _ _ hz => hc.evaluate he hz) hc.place h) ?_
  intro as bs hab
  exact rel_ordering hf hab

end

theorem map_keeps : Keeps R L map :=
  keeps_of_passes map_passes

theorem byKey_keeps {name : Text} {f : Keyed → Value}
    (hf : ∀ ⦃as bs⦄, List.Forall₂ (NearItem L) as bs → L.value (f as) (f bs)) :
    Keeps R L (byKey name f) :=
  keeps_of_passes (byKey_passes hf)

/-! ### Other functions -/

theorem merge_keeps : Keeps R L merge := by
  intro c c' xs xs' _ h
  refine R.bind (R.mapM h fun _ _ hx => rel_need hx (entries?_rel hx)) ?_
  intro parts parts' hp
  refine R.pure (value_obj ?_)
  refine List.rel_foldl ?_ L.nil hp
  intro es fs h es' fs' h'
  exact L.update h h'

theorem notNull_keeps : Keeps R L notNull := by
  intro c c' xs xs' _ h
  refine R.pure ?_
  induction h with
  | nil => exact value_null
  | cons hx _ ih =>
    rw [List.find?_cons, List.find?_cons, isNull_eq hx]
    split
    · exact hx
    · exact ih

theorem reverse_keeps : Keeps R L reverse := by
  refine keeps_unary ?_
  intro c c' x x' _ hx
  have hitems : R.rel L.value (need items? x >>= fun xs => Pure.pure (.arr xs.reverse))
      (need items? x' >>= fun xs => Pure.pure (.arr xs.reverse)) := by
    refine R.bind (rel_need hx (items?_rel hx)) ?_
    intro xs xs' h
    exact R.pure (value_arr (List.rel_reverse h))
  cases L.built.mp hx with
  | str => exact R.pure (value_str _)
  | null | bool | num | arr | obj | ref => exact hitems

theorem toArray_keeps : Keeps R L toArray := by
  refine keeps_unary ?_
  intro c c' x x' _ hx
  have h : L.value (.arr [x]) (.arr [x']) := value_arr (.cons hx .nil)
  cases L.built.mp hx with
  | arr => exact R.pure hx
  | null | bool | num | str | obj | ref => exact R.pure h

theorem toString_keeps (hL : L.Ordered) : Keeps R L toString := by
  refine keeps_unary ?_
  intro c c' x x' hc hx
  have hrender := hL.render_eq hx
  cases L.built.mp hx with
  | str => exact R.pure (value_str _)
  | num _ hexact =>
    obtain rfl := hexact hL.exact
    exact R.pure (value_str _)
  | null | bool | arr | obj | ref =>
    dsimp only
    rw [hrender]
    split
    · exact R.pure (value_str _)
    · exact R.fail .exhausted
    · exact R.fail (.problem nofun hc.place)

theorem toNumber_keeps : Keeps R L toNumber := by
  refine keeps_unary ?_
  intro c c' x x' _ hx
  cases L.built.mp hx with
  | num => exact R.pure hx
  | str =>
    dsimp only
    split
    · split
      · exact R.pure (value_num _)
      · exact R.pure value_null
    · exact R.pure value_null
  | null | bool | arr | obj | ref => exact R.pure value_null

theorem kindName_keeps : Keeps R L kindName := by
  refine keeps_unary ?_
  intro c c' x x' _ hx
  rw [kind_eq hx]
  exact R.pure (value_str _)

/-! ### All functions -/

/-- The functions that tell the order of keys. -/
def tellOrder : List String :=
  ["keys", "to_string", "values"]

/-- The functions that evaluate a reference. -/
def takeReferences : List String :=
  ["map", "max_by", "min_by", "sort_by"]

/-- All functions keep all likenesses, and those that tell the order of keys the ordered ones. -/
theorem table_keep : ∀ p ∈ table, (p.1 ∈ tellOrder → L.Ordered) → p.2.Keeps R L := by
  have keys_tell : "keys" ∈ tellOrder := by decide
  have text_tells : "to_string" ∈ tellOrder := by decide
  have values_tell : "values" ∈ tellOrder := by decide
  simp only [table, List.forall_mem_cons]
  exact ⟨fun _ => number_keeps id, fun _ => avg_keeps, fun _ => number_keeps magnitude_ceil,
    fun _ => contains_keeps, fun _ => texts_keeps _, fun _ => number_keeps magnitude_floor,
    fun _ => join_keeps, fun hL => keys_keeps (hL keys_tell), fun _ => length_keeps,
    fun _ => map_keeps, fun _ => bySelf_keeps greatest_value, fun _ => byKey_keeps greatest_value,
    fun _ => merge_keeps, fun _ => bySelf_keeps least_value, fun _ => byKey_keeps least_value,
    fun _ => notNull_keeps, fun _ => reverse_keeps, fun _ => bySelf_keeps sorted_value,
    fun _ => byKey_keeps sorted_value, fun _ => texts_keeps _, fun _ => sum_keeps,
    fun _ => toArray_keeps, fun _ => toNumber_keeps, fun hL => toString_keeps (hL text_tells),
    fun _ => kindName_keeps, fun hL => values_keeps (hL values_tell), nofun⟩

end Builtin

/-- A function of the standard registry stands in the table under its name. -/
theorem Registry.standard_get? {name : Text} {f : Function}
    (h : Registry.standard.get? name = some f) :
    ∃ s, (s, f) ∈ Builtin.table ∧ Text.ofString s = name := by
  obtain ⟨⟨s, f'⟩, hp, he⟩ := List.mem_map.mp (Entries.mem_of_get? h)
  cases he
  exact ⟨s, hp, rfl⟩

/-- A function of the standard registry keeps all likenesses, if they keep the order of keys where
its name is that of a function that tells it. -/
theorem Registry.standard_keeps {R : Run.Relator} {L : Likeness} {name : Text} {f : Function}
    (hL : (∃ s ∈ Builtin.tellOrder, Text.ofString s = name) → L.Ordered)
    (h : Registry.standard.get? name = some f) : f.Keeps R L := by
  obtain ⟨s, hs, hname⟩ := standard_get? h
  exact Builtin.table_keep _ hs fun ht => hL ⟨s, ht, hname⟩

/-- The functions of the standard registry that evaluate a reference ask no more of their
arguments. -/
theorem Registry.standard_passes {R : Run.Relator} {L : Likeness} {body : Expr → Expr → Prop}
    {s : String} (hs : s ∈ Builtin.takeReferences) {f : Function}
    (h : Registry.standard.get? (Text.ofString s) = some f) : Builtin.Passes R L body f.body := by
  simp only [Builtin.takeReferences, List.mem_cons, List.not_mem_nil, or_false] at hs
  rcases hs with rfl | rfl | rfl | rfl <;> cases h
  · exact Builtin.map_passes
  · exact Builtin.byKey_passes Builtin.greatest_value
  · exact Builtin.byKey_passes Builtin.least_value
  · exact Builtin.byKey_passes Builtin.sorted_value

end JsonQuery
