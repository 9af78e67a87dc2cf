/-
The built-in functions are sound.

What a signature lets through has the parts that the body asks for, and keys that are ordered are
of one kind, so no body fails in a way of its own.  What is left are the faults that name the
function, a sum that becomes too large and values that are nested too deeply.

* `Builtin.sound_unary`, `Builtin.sound_binary`, `Builtin.sound_oneOrMore` — the arguments of a
  checked call are as many and of such types as the signature says;
* `Builtin.keyed_ends` — keys that are given are of one kind;
* `Registry.standard_sound` — all functions of the standard registry are sound.
-/
import Mathlib.Data.Set.List
import JsonQuery.Proofs.Eval.Origin
import JsonQuery.Proofs.Eval.Agree

namespace JsonQuery

open Run Value Failure

section
variable {root : Expr} {limit : Int} {name : Text} {c : Call}

/-- A fault that names the called function comes from the call. -/
theorem Call.Within.blame (hc : c.Within root limit name) {p : EvalProblem} (hp : p.Blames name) :
    ComesFrom root limit (.problem p c.offset) := by
  obtain ⟨args, o, hn, ho⟩ := hc.node
  rw [ho]
  exact .call hn hp

theorem Call.Within.overflow (hc : c.Within root limit name) (hname : name = "sum" ∨ name = "avg") :
    ComesFrom root limit .sumOverflow := by
  obtain ⟨args, o, hn, -⟩ := hc.node
  exact .overflow hn hname

end

namespace Builtin

/-! ### Arguments that pass the check -/

section
variable {name : Text} {input input' output : ParameterType}

theorem checkTypes_cons {s : Signature} {position : Nat} {t : ParameterType}
    (ht : s.expected? position = some t) {x : Value} {xs : List Value}
    (h : s.checkTypes name position (x :: xs) = .ok ()) :
    t.accepts x = true ∧ s.checkTypes name (position + 1) xs = .ok () := by
  rw [Signature.checkTypes, ht] at h
  dsimp only at h
  split at h
  · next ha => exact ⟨ha, h⟩
  · cases h

theorem check_fixed {inputs : List ParameterType} {xs : List Value}
    (h : (fixed inputs output).check name xs = .ok ()) :
    xs.length = inputs.length ∧ (fixed inputs output).checkTypes name 0 xs = .ok () := by
  rw [Signature.check] at h
  split at h
  · cases h
  · next hn =>
    refine ⟨?_, h⟩
    simp only [fixed, Signature.minArity, Option.isNone_none, true_and] at hn
    omega

theorem sound_unary {f : Call → Value → Run Value}
    (h : ∀ ⦃root limit c x⦄, Call.Within root limit name c → RefersTo root x →
      input.accepts x = true → Ends (RefersTo root) (ComesFrom root limit) (f c x)) :
    Function.Sound name ⟨fixed [input] output, unary f⟩ := by
  intro root limit c xs hc hx hs
  obtain ⟨hlen, ht⟩ := check_fixed hs
  obtain ⟨x, rfl⟩ := List.length_eq_one_iff.mp hlen
  exact h hc (hx x List.mem_cons_self) (checkTypes_cons rfl ht).1

theorem sound_binary {f : Call → Value → Value → Run Value}
    (h : ∀ ⦃root limit c x y⦄, Call.Within root limit name c → RefersTo root x →
      RefersTo root y → input.accepts x = true → input'.accepts y = true →
      Ends (RefersTo root) (ComesFrom root limit) (f c x y)) :
    Function.Sound name ⟨fixed [input, input'] output, binary f⟩ := by
  intro root limit c xs hc hx hs
  obtain ⟨hlen, ht⟩ := check_fixed hs
  obtain ⟨x, y, rfl⟩ := List.length_eq_two.mp hlen
  obtain ⟨ha, ht⟩ := checkTypes_cons rfl ht
  exact h hc (hx x List.mem_cons_self) (hx y (List.mem_cons_of_mem _ List.mem_cons_self)) ha
    (checkTypes_cons rfl ht).1

theorem expected?_oneOrMore (position : Nat) :
    (oneOrMore input output).expected? position = some input := by
  cases position <;> rfl

theorem checkTypes_oneOrMore {position : Nat} {xs : List Value}
    (h : (oneOrMore input output).checkTypes name position xs = .ok ()) :
    ∀ x ∈ xs, input.accepts x = true := by
  induction xs generalizing position with
  | nil => exact nofun
  | cons x xs ih =>
    obtain ⟨ha, ht⟩ := checkTypes_cons (expected?_oneOrMore position) h
    exact List.forall_mem_cons.mpr ⟨ha, ih ht⟩

theorem sound_oneOrMore {b : Body}
    (h : ∀ ⦃root limit c xs⦄, (∀ x ∈ xs, RefersTo root x) → (∀ x ∈ xs, input.accepts x = true) →
      Ends (RefersTo root) (ComesFrom root limit) (b c xs)) :
    Function.Sound name ⟨oneOrMore input output, b⟩ := by
  intro root limit c xs _ hx hs
  refine h hx ?_
  rw [Signature.check] at hs
  split at hs
  · cases hs
  · exact checkTypes_oneOrMore hs

end

/-! ### What the types let through -/

section
variable {x : Value}

theorem accepts_number (h : (ParameterType.one .number).accepts x = true) : ∃ n, x = .num n := by
  cases x <;> first | exact ⟨_, rfl⟩ | cases h

theorem accepts_string (h : (ParameterType.one .string).accepts x = true) : ∃ t, x = .str t := by
  cases x <;> first | exact ⟨_, rfl⟩ | cases h

theorem accepts_array (h : (ParameterType.one .array).accepts x = true) : ∃ xs, x = .arr xs := by
  cases x <;> first | exact ⟨_, rfl⟩ | cases h

theorem accepts_object (h : (ParameterType.one .object).accepts x = true) : ∃ es, x = .obj es := by
  cases x <;> first | exact ⟨_, rfl⟩ | cases h

theorem accepts_expref (h : (ParameterType.one .expref).accepts x = true) :
    ∃ e y, x = .ref e y := by
  cases x <;> first | exact ⟨_, _, rfl⟩ | cases h

/-- An array of one kind is made of what values of that kind are made of. -/
theorem isArrayOf_eq {α : Type} {mk : α → Value} {kind : Kind}
    (hk : ∀ y : Value, y.kind = kind → ∃ a, mk a = y) (h : x.isArrayOf kind = true) :
    ∃ as : List α, x = .arr (as.map mk) := by
  cases x with
  | arr xs =>
    have hxs : xs ∈ Set.range (List.map mk) := by
      rw [Set.range_list_map]
      intro y hy
      exact hk y (beq_iff_eq.mp (List.all_eq_true.mp h y hy))
    obtain ⟨as, rfl⟩ := hxs
    exact ⟨as, rfl⟩
  | null | bool | num | str | obj | ref => cases h

theorem accepts_arrayNumber (h : (ParameterType.one .arrayNumber).accepts x = true) :
    ∃ ns : List Number, x = .arr (ns.map .num) := by
  have hk : ∀ y : Value, y.kind = .number → ∃ n, Data.num n = y := by
    intro y hy
    cases y <;> first | exact ⟨_, rfl⟩ | cases hy
  exact isArrayOf_eq hk h

theorem accepts_arrayString (h : (ParameterType.one .arrayString).accepts x = true) :
    ∃ ts : List Text, x = .arr (ts.map .str) := by
  have hk : ∀ y : Value, y.kind = .string → ∃ t, Data.str t = y := by
    intro y hy
    cases y <;> first | exact ⟨_, rfl⟩ | cases hy
  exact isArrayOf_eq hk h

theorem accepts_union {options : List ParameterType}
    (h : (ParameterType.union options).accepts x = true) : ∃ t ∈ options, t.accepts x = true := by
  rw [ParameterType.accepts] at h
  induction options with
  | nil => cases h
  | cons t options ih =>
    rw [ParameterType.acceptsAny, Bool.or_eq_true] at h
    rcases h with h | h
    · exact ⟨t, List.mem_cons_self, h⟩
    · obtain ⟨t', ht, h⟩ := ih h
      exact ⟨t', List.mem_cons_of_mem _ ht, h⟩

theorem accepts_arrayOrString (h : arrayOrString.accepts x = true) :
    (∃ xs, x = .arr xs) ∨ ∃ t, x = .str t := by
  obtain ⟨t, ht, h⟩ := accepts_union h
  simp only [List.mem_cons, List.not_mem_nil, or_false] at ht
  rcases ht with rfl | rfl
  · exact .inl (accepts_array h)
  · exact .inr (accepts_string h)

/-- The value that a key is. -/
def keyValue : SortKey → Value
  | .number n => .num n
  | .text t => .str t

/-- Items that may be ordered are keys of one kind. -/
theorem accepts_orderable (h : orderable.accepts x = true) :
    ∃ keys : List SortKey, x = .arr (keys.map keyValue) ∧
      ∃ kind, ∀ key ∈ keys, key.kind = kind := by
  obtain ⟨t, ht, h⟩ := accepts_union h
  simp only [List.mem_cons, List.not_mem_nil, or_false] at ht
  rcases ht with rfl | rfl
  · obtain ⟨ns, rfl⟩ := accepts_arrayNumber h
    refine ⟨ns.map .number, by rw [List.map_map]; rfl, .number, ?_⟩
    intro key hkey
    obtain ⟨n, -, rfl⟩ := List.mem_map.mp hkey
    rfl
  · obtain ⟨ts, rfl⟩ := accepts_arrayString h
    refine ⟨ts.map .text, by rw [List.map_map]; rfl, .string, ?_⟩
    intro key hkey
    obtain ⟨t, -, rfl⟩ := List.mem_map.mp hkey
    rfl

end

/-! ### Bodies -/

section
variable {root : Expr} {limit : Int}

@[simp] theorem need_number (n : Number) : need number? (.num n) = Pure.pure n := rfl

@[simp] theorem need_text (t : Text) : need text? (.str t) = Pure.pure t := rfl

@[simp] theorem need_items (xs : List Value) : need items? (.arr xs) = Pure.pure xs := rfl

@[simp] theorem need_body (e : Expr) (x : Value) : need body? (.ref e x) = Pure.pure e := rfl

/-- A list of values gives back what each of them is made of. -/
theorem mapM_map {α β γ : Type} {f : β → Run γ} {mk : α → β} {part : α → γ}
    (h : ∀ a, f (mk a) = Pure.pure (part a)) (as : List α) :
    (as.map mk).mapM f = Pure.pure (as.map part) := by
  induction as with
  | nil => rfl
  | cons a as ih =>
    rw [List.map_cons, List.mapM_cons, h, ih]
    rfl

variable {name : Text} {output : ParameterType}

/-- Rounding and the like: one number is made of another. -/
theorem number_sound (g : Number → Number) :
    Function.Sound name ⟨fixed [.one .number] output, unary fun _ x => do
      let n ← need number? x
      Pure.pure (.num (g n))⟩ := by
  refine sound_unary ?_
  intro root limit c x _ _ ha
  obtain ⟨n, rfl⟩ := accepts_number ha
  exact ends_pure .num

theorem numbers_eq (ns : List Number) : numbers (.arr (ns.map .num)) = Pure.pure ns := by
  rw [numbers, need_items, pure_bind, mapM_map need_number, List.map_id']

theorem ofSum_ends (h : ComesFrom root limit .sumOverflow) (x : Option Number) :
    Ends (RefersTo root) (ComesFrom root limit) (ofSum x) := by
  cases x with
  | none => exact ends_fail h
  | some => exact ends_pure .num

theorem sum_sound : Function.Sound "sum" ⟨fixed [.one .arrayNumber] output, sum⟩ := by
  refine sound_unary ?_
  intro root limit c x hc _ ha
  obtain ⟨ns, rfl⟩ := accepts_arrayNumber ha
  rw [numbers_eq, pure_bind]
  exact ofSum_ends (hc.overflow (.inl rfl)) _

theorem avg_sound : Function.Sound "avg" ⟨fixed [.one .arrayNumber] output, avg⟩ := by
  refine sound_unary ?_
  intro root limit c x hc _ ha
  obtain ⟨ns, rfl⟩ := accepts_arrayNumber ha
  rw [numbers_eq, pure_bind]
  split
  · exact ends_pure .null
  · exact ofSum_ends (hc.overflow (.inr rfl)) _

theorem isItem_ends (shared : Sharing) (y : Value) (xs : List Value) :
    Ends (fun _ => True) (ComesFrom root limit) (isItem shared y xs) := by
  induction xs with
  | nil => exact ends_pure trivial
  | cons x xs ih =>
    refine ends_bind (ends_equal shared x y) ?_
    intro b _
    split
    · exact ends_pure trivial
    · exact ih

theorem contains_sound :
    Function.Sound name ⟨fixed [arrayOrString, .one .any] output, contains⟩ := by
  refine sound_binary ?_
  intro root limit c x y _ _ _ ha _
  obtain ⟨xs, rfl⟩ | ⟨t, rfl⟩ := accepts_arrayOrString ha
  · simp only [need_items, pure_bind]
    exact ends_bind (isItem_ends c.shared y xs) fun _ _ => ends_pure .bool
  · exact ends_pure .bool

/-- Two texts are tested together. -/
theorem texts_sound (test : Text → Text → Bool) :
    Function.Sound name ⟨fixed [.one .string, .one .string] output, binary fun _ x y => do
      let t ← need text? x
      let part ← need text? y
      Pure.pure (.bool (test t part))⟩ := by
  refine sound_binary ?_
  intro root limit c x y _ _ _ ha hb
  obtain ⟨t, rfl⟩ := accepts_string ha
  obtain ⟨part, rfl⟩ := accepts_string hb
  exact ends_pure .bool

theorem join_sound :
    Function.Sound name ⟨fixed [.one .string, .one .arrayString] output, join⟩ := by
  refine sound_binary ?_
  intro root limit c x y _ _ _ ha hb
  obtain ⟨glue, rfl⟩ := accepts_string ha
  obtain ⟨ts, rfl⟩ := accepts_arrayString hb
  rw [need_text, pure_bind, need_items, pure_bind, mapM_map need_text]
  exact ends_pure .str

theorem keys_sound : Function.Sound name ⟨fixed [.one .object] output, keys⟩ := by
  refine sound_unary ?_
  intro root limit c x _ _ ha
  obtain ⟨es, rfl⟩ := accepts_object ha
  refine ends_pure (.arr ?_)
  intro y hy
  obtain ⟨k, -, rfl⟩ := List.mem_map.mp hy
  exact .str

theorem values_sound : Function.Sound name ⟨fixed [.one .object] output, values⟩ := by
  refine sound_unary ?_
  intro root limit c x _ hx ha
  obtain ⟨es, rfl⟩ := accepts_object ha
  exact ends_pure (.arr (RefersTo.values hx.entries))

theorem length_sound :
    Function.Sound name
      ⟨fixed [.union [.one .string, .one .array, .one .object]] output, length⟩ := by
  refine sound_unary ?_
  intro root limit c x _ _ ha
  obtain ⟨t, ht, ha⟩ := accepts_union ha
  simp only [List.mem_cons, List.not_mem_nil, or_false] at ht
  rcases ht with rfl | rfl | rfl
  · obtain ⟨t, rfl⟩ := accepts_string ha
    exact ends_pure .num
  · obtain ⟨xs, rfl⟩ := accepts_array ha
    exact ends_pure .num
  · obtain ⟨es, rfl⟩ := accepts_object ha
    exact ends_pure .num

theorem map_sound : Function.Sound name ⟨fixed [.one .expref, .one .array] output, map⟩ := by
  refine sound_binary ?_
  intro root limit c x y hc hx hy ha hb
  obtain ⟨e, z, rfl⟩ := accepts_expref ha
  obtain ⟨xs, rfl⟩ := accepts_array hb
  cases hx with
  | ref he _ =>
    simp only [need_body, need_items, pure_bind]
    refine ends_bind (ends_mapM fun x hx => hc.evaluate he (hy.items x hx)) ?_
    intro ys hys
    exact ends_pure (.arr hys)

/-! ### Order -/

/-- Keys of one kind can be compared. -/
theorem strayKind?_eq_none {items : Keyed} {kind : Kind}
    (h : ∀ item ∈ items, item.1.kind = kind) : strayKind? items = none := by
  cases items with
  | nil => rfl
  | cons item items =>
    obtain ⟨hi, hs⟩ := List.forall_mem_cons.mp h
    have hnone : (items.find? fun other => other.1.kind != item.1.kind) = none := by
      rw [List.find?_eq_none]
      intro other ho
      rw [hs other ho, hi, bne_self_eq_false]
      exact Bool.false_ne_true
    rw [strayKind?, hnone]
    rfl

/-- What an order makes of items that can be compared holds nothing else. -/
theorem ordering_ends {f : Keyed → Value}
    (hf : ∀ ⦃items : Keyed⦄, (∀ item ∈ items, RefersTo root item.2) → RefersTo root (f items))
    {items : Keyed} (hr : ∀ item ∈ items, RefersTo root item.2) {kind : Kind}
    (hk : ∀ item ∈ items, item.1.kind = kind) :
    Ends (RefersTo root) (ComesFrom root limit) (ordering f items) := by
  rw [ordering, strayKind?_eq_none hk]
  exact ends_pure (hf hr)

/-- Keys that are given are of one kind, the expected one if there is one. -/
theorem keyed_ends {c : Call} (hc : Call.Within root limit name c) {body : Expr}
    (hb : body ∈ root.walk) (expected : Option Kind) {xs : List Value}
    (hx : ∀ x ∈ xs, RefersTo root x) :
    Ends (fun items => (∀ item ∈ items, RefersTo root item.2) ∧
        ∃ kind, expected.getD kind = kind ∧ ∀ item ∈ items, item.1.kind = kind)
      (ComesFrom root limit) (keyed name c body expected xs) := by
  induction xs generalizing expected with
  | nil =>
    refine ends_pure ⟨List.forall_mem_nil _, expected.getD .null, ?_, List.forall_mem_nil _⟩
    cases expected with
    | none => rfl
    | some => rfl
  | cons x xs ih =>
    obtain ⟨hx, hxs⟩ := List.forall_mem_cons.mp hx
    refine ends_bind (hc.evaluate hb hx) ?_
    intro result _
    split
    · exact ends_fail (hc.blame rfl)
    · next key _ =>
      split
      · next hexp =>
        -- The kind of the first key is expected of all that come after it.
        refine ends_bind (ih (some key.kind) hxs) ?_
        rintro items ⟨hitems, kind, hk, hkind⟩
        obtain rfl : key.kind = kind := hk
        refine ends_pure ⟨List.forall_mem_cons.mpr ⟨hx, hitems⟩, key.kind, hexp, ?_⟩
        exact List.forall_mem_cons.mpr ⟨rfl, hkind⟩
      · exact ends_fail (hc.blame rfl)

theorem byKey_sound {f : Keyed → Value}
    (hf : ∀ ⦃root⦄ ⦃items : Keyed⦄, (∀ item ∈ items, RefersTo root item.2) →
      RefersTo root (f items)) :
    Function.Sound name ⟨fixed [.one .array, .one .expref] output, byKey name f⟩ := by
  refine sound_binary ?_
  intro root limit c x y hc hx hy ha hb
  obtain ⟨xs, rfl⟩ := accepts_array ha
  obtain ⟨e, z, rfl⟩ := accepts_expref hb
  cases hy with
  | ref he _ =>
    simp only [need_items, need_body, pure_bind]
    refine ends_bind (keyed_ends hc he none hx.items) ?_
    rintro items ⟨hitems, kind, -, hkind⟩
    exact ordering_ends (fun _ h => hf h) hitems hkind

theorem selfKeyed_keyValue (key : SortKey) :
    selfKeyed (keyValue key) = Pure.pure (key, keyValue key) := by
  cases key <;> rfl

theorem bySelf_sound {f : Keyed → Value}
    (hf : ∀ ⦃root⦄ ⦃items : Keyed⦄, (∀ item ∈ items, RefersTo root item.2) →
      RefersTo root (f items)) :
    Function.Sound name ⟨fixed [orderable] output, bySelf f⟩ := by
  refine sound_unary ?_
  intro root limit c x _ hx ha
  obtain ⟨keys, rfl, kind, hkind⟩ := accepts_orderable ha
  rw [need_items, pure_bind, mapM_map selfKeyed_keyValue, pure_bind]
  have hitems : ∀ item ∈ keys.map fun key => (key, keyValue key),
      RefersTo root item.2 ∧ item.1.kind = kind := by
    intro item hitem
    obtain ⟨key, hk, rfl⟩ := List.mem_map.mp hitem
    exact ⟨hx.items _ (List.mem_map_of_mem hk), hkind key hk⟩
  exact ordering_ends (fun _ h => hf h) (fun _ h => (hitems _ h).1) fun _ h => (hitems _ h).2

theorem sorted_refersTo {items : Keyed} (h : ∀ item ∈ items, RefersTo root item.2) :
    RefersTo root (sorted items) := by
  refine .arr ?_
  intro x hx
  obtain ⟨item, hi, rfl⟩ := List.mem_map.mp hx
  exact h item (List.mem_mergeSort.mp hi)

/-- The first of some items that no other goes before is one of them. -/
theorem foldl_best_mem (before : SortKey → SortKey → Bool) (x : SortKey × Value) (xs : Keyed) :
    xs.foldl (fun best y => if before y.1 best.1 then y else best) x ∈ x :: xs := by
  induction xs generalizing x with
  | nil => exact List.mem_cons_self
  | cons y ys ih =>
    rw [List.foldl_cons]
    split
    · exact List.mem_cons_of_mem _ (ih y)
    · rcases List.mem_cons.mp (ih x) with h | h
      · rw [h]
        exact List.mem_cons_self
      · exact List.mem_cons_of_mem _ (List.mem_cons_of_mem _ h)

theorem greatest_refersTo {items : Keyed} (h : ∀ item ∈ items, RefersTo root item.2) :
    RefersTo root (greatest items) := by
  cases items with
  | nil => exact .null
  | cons x xs => exact h _ (foldl_best_mem (fun y best => best.lt y) x xs)

theorem least_refersTo {items : Keyed} (h : ∀ item ∈ items, RefersTo root item.2) :
    RefersTo root (least items) := by
  cases items with
  | nil => exact .null
  | cons x xs => exact h _ (foldl_best_mem (fun y best => y.lt best) x xs)

/-! ### Other functions -/

theorem merge_sound : Function.Sound name ⟨oneOrMore (.one .object) output, merge⟩ := by
  refine sound_oneOrMore ?_
  intro root limit c xs hx ha
  have hparts : Ends (fun parts : List (Entries Value) =>
        ∀ es ∈ parts, ∀ entry ∈ es, RefersTo root entry.2)
      (ComesFrom root limit) (xs.mapM (need entries?)) := by
    refine ends_mapM ?_
    intro x hxs
    obtain ⟨es, rfl⟩ := accepts_object (ha x hxs)
    exact ends_pure (hx _ hxs).entries
  refine ends_bind hparts ?_
  intro parts hp
  refine ends_pure (.obj ?_)
  -- Along the parts, for whatever is merged already.
  suffices h : ∀ es : Entries Value, (∀ entry ∈ es, RefersTo root entry.2) →
      ∀ entry ∈ parts.foldl Entries.update es, RefersTo root entry.2 from
    h [] (List.forall_mem_nil _)
  clear ha hparts hx
  induction parts with
  | nil => exact fun _ h => h
  | cons part parts ih =>
    obtain ⟨hpart, hps⟩ := List.forall_mem_cons.mp hp
    exact fun es h => ih hps _ (Entries.forall_update h hpart)

theorem notNull_sound : Function.Sound name ⟨oneOrMore (.one .any) output, notNull⟩ := by
  refine sound_oneOrMore ?_
  intro root limit c xs hx _
  refine ends_pure ?_
  cases hf : xs.find? fun x => !x.isNull with
  | none => exact .null
  | some x => exact hx x (List.mem_of_find?_eq_some hf)

theorem reverse_sound : Function.Sound name ⟨fixed [arrayOrString] output, reverse⟩ := by
  refine sound_unary ?_
  intro root limit c x _ hx ha
  obtain ⟨xs, rfl⟩ | ⟨t, rfl⟩ := accepts_arrayOrString ha
  · refine ends_pure (.arr ?_)
    intro x hr
    exact hx.items x (List.mem_reverse.mp hr)
  · exact ends_pure .str

theorem toArray_sound : Function.Sound name ⟨fixed [.one .any] output, toArray⟩ := by
  refine sound_unary ?_
  intro root limit c x _ hx _
  split
  · exact ends_pure hx
  · exact ends_pure (.arr (List.forall_mem_cons.mpr ⟨hx, nofun⟩))

theorem toString_sound : Function.Sound "to_string" ⟨fixed [.one .any] output, toString⟩ := by
  refine sound_unary ?_
  intro root limit c x hc _ _
  split
  · exact ends_pure .str
  · exact ends_pure .str
  · split
    · exact ends_pure .str
    · exact ends_fail .exhausted
    · exact ends_fail (hc.blame rfl)

theorem toNumber_sound : Function.Sound name ⟨fixed [.one .any] output, toNumber⟩ := by
  refine sound_unary ?_
  intro root limit c x _ _ _
  split
  · exact ends_pure .num
  · split
    · split
      · exact ends_pure .num
      · exact ends_pure .null
    · exact ends_pure .null
  · exact ends_pure .null

theorem kindName_sound : Function.Sound name ⟨fixed [.one .any] output, kindName⟩ := by
  refine sound_unary ?_
  intro root limit c x _ _ _
  exact ends_pure .str

end

/-! ### All functions -/

theorem table_sound : ∀ p ∈ table, p.2.Sound (Text.ofString p.1) := by
  simp only [table, List.forall_mem_cons]
  exact ⟨number_sound _, avg_sound, number_sound _, contains_sound, texts_sound _,
    number_sound _, join_sound, keys_sound, length_sound, map_sound,
    bySelf_sound fun _ _ => greatest_refersTo, byKey_sound fun _ _ => greatest_refersTo,
    merge_sound, bySelf_sound fun _ _ => least_refersTo, byKey_sound fun _ _ => least_refersTo,
    notNull_sound, reverse_sound, bySelf_sound fun _ _ => sorted_refersTo,
    byKey_sound fun _ _ => sorted_refersTo, texts_sound _, sum_sound, toArray_sound, toNumber_sound,
    toString_sound, kindName_sound, values_sound, List.forall_mem_nil _⟩

end Builtin

/-- All functions of the standard registry are sound. -/
theorem Registry.standard_sound : Registry.standard.Sound := by
  intro name f h
  obtain ⟨s, hs, rfl⟩ := standard_get? h
  exact Builtin.table_sound _ hs

end JsonQuery
