/-
What comparisons find out.

A comparison that gives an answer gives the right one: whether the two values or trees are equal.
It gives one wherever the stack has the frames that one of the two needs.  What the host holds as
one object makes no difference to either; it only lets a comparison get by with fewer frames.

* `Finds` — an answer is right, or the frames do not suffice for either side;
* `Finds.and`, `Finds.guarded`, `Finds.inside` — two comparisons one after the other, one that
  depends on parts that are seen at once, and one inside another;
* `Data.equal?_finds`, `Expr.equal?_finds`, `Value.equal?_finds` — what comparisons find out;
* `Data.equal?_nested`, `Value.equal?_nested_entry` — comparisons that find out nothing.
-/
import JsonQuery.Proofs.Expr.Equality
import JsonQuery.Proofs.Value

namespace JsonQuery

/-- A comparison that has a number of frames finds the truth, or neither side gets by with them. -/
def Finds (truth : Bool) (frames needed needed' : Nat) : Option Bool → Prop
  | some answer => truth = answer
  | none => frames < needed ∧ frames < needed'

namespace Finds
variable {t t' : Bool} {n k a a' b b' : Nat} {p q : Option Bool}

theorem mono (h : Finds t n a b p) (ha : a ≤ a') (hb : b ≤ b') : Finds t n a' b' p := by
  cases p with
  | some => exact h
  | none => exact ⟨Nat.lt_of_lt_of_le h.1 ha, Nat.lt_of_lt_of_le h.2 hb⟩

/-- One comparison after the other, up to the first that finds a difference. -/
theorem and (hp : Finds t n a b p) (hq : Finds t' n a' b' q) :
    Finds (t && t') n (max a a') (max b b') (do if ← p then q else some false) := by
  cases p with
  | none => exact mono hp (Nat.le_max_left _ _) (Nat.le_max_left _ _)
  | some r =>
    obtain rfl : t = r := hp
    cases t with
    | false => rfl
    | true => exact mono hq (Nat.le_max_right _ _) (Nat.le_max_right _ _)

/-- A comparison that is made if two parts are the same, which takes no frames to find out. -/
theorem guarded {α : Type} [BEq α] [LawfulBEq α] [DecidableEq α] {x y : α}
    (h : Finds t n a b p) : Finds (x == y && t) n a b (if x = y then p else some false) := by
  split
  · next hxy => rwa [beq_iff_eq.mpr hxy, Bool.true_and]
  · next hxy =>
    rw [beq_false_of_ne hxy]
    rfl

/-- A comparison inside another one, which takes some of the frames. -/
theorem inside (hk : k ≤ n) (h : Finds t (n - k) a b p) : Finds t n (a + k) (b + k) p := by
  cases p with
  | some => exact h
  | none =>
    obtain ⟨ha, hb⟩ := h
    exact ⟨by omega, by omega⟩

/-- The same, where the frames that it takes may be missing. -/
theorem inside_or (h : k ≤ n → Finds t (n - k) a b p) :
    Finds t n (a + k) (b + k) (if n < k then none else p) := by
  split
  · next hn => exact ⟨by omega, by omega⟩
  · next hn => exact inside (Nat.le_of_not_lt hn) (h (Nat.le_of_not_lt hn))

end Finds

/-! ### Values -/

namespace Data
variable {ρ : Type} {good : ρ → Prop} {sameBody : ρ → ρ → Bool} {one : Data ρ → Data ρ → Bool}
  {bodies : Nat → ρ → ρ → Option Bool} {needs : ρ → Nat}

theorem levelFrames_le_frames (x : Data ρ) : levelFrames ≤ frames needs x := by
  cases x with
  | null | bool | num | str => exact Nat.le_refl _
  | arr | obj => exact Nat.le_add_left _ _
  | ref => exact Nat.le_trans (by decide) (Nat.le_add_left _ _)

theorem equalItems?_finds {n : Nat} {xs ys : List (Data ρ)}
    (h : ∀ x ∈ xs, ∀ y ∈ ys, Finds (same sameBody x y) n (frames needs x) (frames needs y)
      (equal? one bodies n x y)) :
    Finds (sameItems sameBody xs ys) n (framesItems needs xs) (framesItems needs ys)
      (equalItems? one bodies n xs ys) := by
  induction xs generalizing ys with
  | nil => cases ys <;> rfl
  | cons x xs ih =>
    cases ys with
    | nil => rfl
    | cons y ys =>
      have hx := h x (List.mem_cons_self ..) y (List.mem_cons_self ..)
      refine hx.and (ih ?_)
      intro u hu v hv
      exact h u (List.mem_cons_of_mem _ hu) v (List.mem_cons_of_mem _ hv)

theorem equalWithin?_finds {n : Nat} {es fs : Entries (Data ρ)}
    (h : ∀ e ∈ es, ∀ f ∈ fs, Finds (same sameBody e.2 f.2) n (frames needs e.2)
      (frames needs f.2) (equal? one bodies n e.2 f.2)) :
    Finds (within sameBody es fs) n (framesEntries needs es) (framesEntries needs fs)
      (equalWithin? one bodies n es fs) := by
  induction es with
  | nil => rfl
  | cons e es ih =>
    obtain ⟨k, x⟩ := e
    rw [within, equalWithin?]
    cases hy : Entries.get? fs k with
    | none => rfl
    | some y =>
      have hm := Entries.mem_of_get? hy
      have hx := h (k, x) (List.mem_cons_self ..) (k, y) hm
      have hes := ih fun e he => h e (List.mem_cons_of_mem _ he)
      have hle : frames needs y ≤ framesEntries needs fs := frames_le_framesEntries needs hm
      exact (hx.and hes).mono (Nat.le_refl _) (Nat.max_le.mpr ⟨hle, Nat.le_refl _⟩)

/-- Comparisons of values find out whether they are equal, if one object is equal to itself and
comparisons of the bodies of references find out whether these are. -/
theorem equal?_finds
    (hone : ∀ ⦃x y⦄, WellKeyed good x → WellKeyed good y → one x y = true →
      same sameBody x y = true)
    (hbodies : ∀ ⦃b c⦄, good b → good c → ∀ n,
      Finds (sameBody b c) n (needs b) (needs c) (bodies n b c))
    {x y : Data ρ} (hx : WellKeyed good x) (hy : WellKeyed good y) (n : Nat) :
    Finds (same sameBody x y) n (frames needs x) (frames needs y) (equal? one bodies n x y) := by
  -- What is inside a value is compared with fewer frames, so the induction is on these.
  induction n using Nat.strongRecOn generalizing x y with
  | ind n ih =>
    rw [equal?.eq_def]
    split
    · next h => exact hone hx hy h
    split
    · next hn =>
      exact ⟨Nat.lt_of_lt_of_le hn x.levelFrames_le_frames,
        Nat.lt_of_lt_of_le hn y.levelFrames_le_frames⟩
    next hn =>
    have hn : levelFrames ≤ n := Nat.le_of_not_lt hn
    have hlt : n - levelFrames < n := Nat.sub_lt_of_pos_le (by decide) hn
    cases hx with
    | null | bool | num | str => cases hy <;> rfl
    | @arr xs hx =>
      cases hy with
      | @arr ys hy =>
        refine .inside hn (equalItems?_finds ?_)
        intro u hu v hv
        exact ih _ hlt (hx u hu) (hy v hv)
      | null | bool | num | str | obj | ref => rfl
    | @obj es _ hx =>
      cases hy with
      | @obj fs _ hy =>
        refine .guarded (.inside hn (equalWithin?_finds ?_))
        intro e he f hf
        exact ih _ hlt (hx e he) (hy f hf)
      | null | bool | num | str | arr | ref => rfl
    | ref hb hx =>
      cases hy with
      | ref hc hy =>
        refine .inside_or fun hr => ?_
        have hlt : n - referenceFrames < n := Nat.sub_lt_of_pos_le (by decide) hr
        exact (hbodies hb hc _).and (ih _ hlt hx hy)
      | null | bool | num | str | arr | obj => rfl

/-! ### Nested arrays -/

/-- An empty array inside a number of others. -/
def nested : Nat → Data ρ
  | 0 => .arr []
  | n + 1 => .arr [nested n]

theorem wellKeyed_nested : ∀ n, WellKeyed good (nested n : Data ρ)
  | 0 => .arr nofun
  | n + 1 => .arr (List.forall_mem_singleton.mpr (wellKeyed_nested n))

theorem mapRef_nested {σ : Type} (f : ρ → σ) : ∀ n, (nested n).mapRef f = nested n
  | 0 => rfl
  | n + 1 => congrArg (fun x => Data.arr [x]) (mapRef_nested f n)

/-- A comparison of arrays that are nested alike, but are not one object, takes frames for all their
levels. -/
theorem equal?_nested {n frames : Nat} (h : frames < levelFrames * (n + 1)) :
    equal? (fun _ _ => false) bodies frames (nested n) (nested n) = none := by
  induction n generalizing frames with
  | zero => rw [equal?.eq_def, if_neg Bool.false_ne_true, if_pos (by omega)]
  | succ n ih =>
    rw [equal?.eq_def, if_neg Bool.false_ne_true]
    split
    · rfl
    · rw [Nat.mul_succ] at h
      have hinner := ih (show frames - levelFrames < levelFrames * (n + 1) by omega)
      simp only [nested, equalItems?, hinner]
      rfl

end Data

theorem Json.equal?_finds {j k : Json} (hj : j.DistinctKeys) (hk : k.DistinctKeys) (n : Nat) :
    Finds (Json.same j k) n (Data.frames Empty.elim j) (Data.frames Empty.elim k)
      (Json.equal? n j k) := by
  have hgood {l : Json} (hl : l.DistinctKeys) : l.WellKeyed fun _ => True :=
    Data.wellKeyed_of_distinctKeys (fun b => b.elim) l hl
  refine Data.equal?_finds ?_ (fun b => b.elim) (hgood hj) (hgood hk) n
  intro x y _ _ hone
  cases hone

/-! ### Trees -/

namespace Expr

theorem nodeFrames_le_frames (e : Expr) : nodeFrames ≤ e.frames := by
  cases e with
  | atom a o =>
    cases a with
    | literal j => exact Nat.le_add_left _ _
    | identity | current | field | index | slice => exact Nat.le_refl _
  | unary | binary | filter => exact Nat.le_add_left _ _
  | list | call | hash => exact Nat.le_trans (by decide) (Nat.le_add_left _ _)

theorem equalAtom?_finds {a b : Atom} {o o' : Nat} (ha : (atom a o).DistinctLiterals)
    (hb : (atom b o').DistinctLiterals) {n : Nat} (hn : nodeFrames ≤ n) :
    Finds (a.same b) n (atom a o).frames (atom b o').frames (a.equal? (n - nodeFrames) b) := by
  cases a with
  | literal j =>
    cases b with
    | literal k => exact .inside hn (Json.equal?_finds (ha.literal j rfl) (hb.literal k rfl) _)
    | identity | current | field | index | slice => rfl
  | identity | current | field | index | slice => cases b <;> rfl

theorem equalList?_finds {shared : Sharing} {n : Nat} {as bs : List Expr}
    (h : ∀ a ∈ as, ∀ b ∈ bs, Finds (same a b) n a.frames b.frames (equal? shared n a b)) :
    Finds (sameList as bs) n (framesList as) (framesList bs) (equalList? shared n as bs) := by
  induction as generalizing bs with
  | nil => cases bs <;> rfl
  | cons a as ih =>
    cases bs with
    | nil => rfl
    | cons b bs =>
      have ha := h a (List.mem_cons_self ..) b (List.mem_cons_self ..)
      refine ha.and (ih ?_)
      intro c hc d hd
      exact h c (List.mem_cons_of_mem _ hc) d (List.mem_cons_of_mem _ hd)

theorem equalPairs?_finds {shared : Sharing} {n : Nat} {ps qs : List (Text × Expr)}
    (h : ∀ p ∈ ps, ∀ q ∈ qs,
      Finds (same p.2 q.2) n p.2.frames q.2.frames (equal? shared n p.2 q.2)) :
    Finds (samePairs ps qs) n (framesPairs ps) (framesPairs qs) (equalPairs? shared n ps qs) := by
  induction ps generalizing qs with
  | nil => cases qs <;> rfl
  | cons p ps ih =>
    obtain ⟨k, a⟩ := p
    cases qs with
    | nil => rfl
    | cons q qs =>
      obtain ⟨l, b⟩ := q
      rw [samePairs, equalPairs?, Bool.and_assoc]
      have ha := h (k, a) (List.mem_cons_self ..) (l, b) (List.mem_cons_self ..)
      refine .guarded (ha.and (ih ?_))
      intro p hp q hq
      exact h p (List.mem_cons_of_mem _ hp) q (List.mem_cons_of_mem _ hq)

/-- One tree is equal to itself. -/
theorem same_of_shared {shared : Sharing} {a b : Expr} (hb : b.DistinctLiterals)
    (h : shared.tree a b = true) : same a b = true := by
  rw [← same_bare, shared.bare_tree h, same_bare]
  exact same_self b hb

/-- Comparisons of trees find out whether they are equal. -/
theorem equal?_finds (shared : Sharing) {a b : Expr} (ha : a.DistinctLiterals)
    (hb : b.DistinctLiterals) (n : Nat) :
    Finds (same a b) n a.frames b.frames (equal? shared n a b) := by
  induction n using Nat.strongRecOn generalizing a b with
  | ind n ih =>
    rw [equal?.eq_def]
    split
    · next h => exact same_of_shared hb h
    split
    · next hn =>
      exact ⟨Nat.lt_of_lt_of_le hn a.nodeFrames_le_frames,
        Nat.lt_of_lt_of_le hn b.nodeFrames_le_frames⟩
    next hn =>
    have hn : nodeFrames ≤ n := Nat.le_of_not_lt hn
    have hlt : n - nodeFrames < n := Nat.sub_lt_of_pos_le (by decide) hn
    cases a with
    | atom a o =>
      cases b with
      | atom b o' => exact equalAtom?_finds ha hb hn
      | unary | binary | filter | list | hash | call => rfl
    | unary op a o =>
      cases b with
      | unary op' b o' => exact .guarded (.inside hn (ih _ hlt ha.unary hb.unary))
      | atom | binary | filter | list | hash | call => rfl
    | binary op a a' o =>
      cases b with
      | binary op' b b' o' =>
        rw [same, Bool.and_assoc]
        exact .guarded (.inside hn ((ih _ hlt ha.binary.1 hb.binary.1).and
          (ih _ hlt ha.binary.2 hb.binary.2)))
      | atom | unary | filter | list | hash | call => rfl
    | filter a p a' o =>
      cases b with
      | filter b q b' o' =>
        -- The predicate comes last in a comparison.
        have h := (ih _ hlt ha.filter.1 hb.filter.1).and
          ((ih _ hlt ha.filter.2.2 hb.filter.2.2).and (ih _ hlt ha.filter.2.1 hb.filter.2.1))
        rw [same, Bool.and_assoc, Bool.and_comm (same p q)]
        exact .inside hn (h.mono (by omega) (by omega))
      | atom | unary | binary | list | hash | call => rfl
    | list as o =>
      cases b with
      | list bs o' =>
        refine .inside_or fun hl => equalList?_finds ?_
        have hlt : n - listFrames < n := Nat.sub_lt_of_pos_le (by decide) hl
        intro c hc d hd
        exact ih _ hlt (ha.child hc) (hb.child hd)
      | atom | unary | binary | filter | hash | call => rfl
    | hash ps o =>
      cases b with
      | hash qs o' =>
        refine .inside_or fun hl => equalPairs?_finds ?_
        have hlt : n - hashFrames < n := Nat.sub_lt_of_pos_le (by decide) hl
        intro p hp q hq
        exact ih _ hlt (ha.child (List.mem_map_of_mem hp)) (hb.child (List.mem_map_of_mem hq))
      | atom | unary | binary | filter | list | call => rfl
    | call f as o =>
      cases b with
      | call g bs o' =>
        dsimp only
        rw [ite_not]
        refine .guarded (.inside_or fun hl => equalList?_finds ?_)
        have hlt : n - listFrames < n := Nat.sub_lt_of_pos_le (by decide) hl
        intro c hc d hd
        exact ih _ hlt (ha.child hc) (hb.child hd)
      | atom | unary | binary | filter | list | hash => rfl

end Expr

/-! ### Values that hold trees -/

namespace Value

/-- No object in a value has a key twice, nor has one in the literals of its references. -/
def WellKeyed (x : Value) : Prop :=
  Data.WellKeyed Expr.DistinctLiterals x

theorem same_equivalence : EquivalenceOn WellKeyed Value.same :=
  Data.same_equivalence Expr.same_equivalence

/-- One value is equal to itself. -/
theorem same_of_shared {shared : Sharing} {x y : Value} (hy : y.WellKeyed)
    (h : shared.value x y = true) : Value.same x y = true := by
  rw [← same_bare, shared.bare_value h, same_bare]
  exact same_equivalence.refl hy

/-- Comparisons of values find out whether they are equal. -/
theorem equal?_finds (shared : Sharing) {x y : Value} (hx : x.WellKeyed) (hy : y.WellKeyed) :
    Finds (Value.same x y) stackFrames x.frames y.frames (Value.equal? shared x y) :=
  Data.equal?_finds (fun _ _ _ hy h => same_of_shared hy h)
    (fun _ _ hb hc n => Expr.equal?_finds shared hb hc n) hx hy stackFrames

/-- An answer of a comparison is right. -/
theorem same_of_equal? {shared : Sharing} {x y : Value} (hx : x.WellKeyed) (hy : y.WellKeyed)
    {answer : Bool} (h : Value.equal? shared x y = some answer) : Value.same x y = answer := by
  have hfinds := equal?_finds shared hx hy
  rwa [h] at hfinds

/-- Where the first entry of an object takes more frames than there are, there is no answer, even if
another entry differs. -/
theorem equal?_nested_entry {n : Nat} (hn : stackFrames < Data.levelFrames * (n + 2)) {k : Text}
    {es fs : Entries Value} (hlen : es.length + 1 = fs.length)
    (hk : Entries.get? fs k = some (.nested n)) :
    Value.equal? .apart (.obj ((k, .nested n) :: es)) (.obj fs) = none := by
  have hle : Data.levelFrames ≤ stackFrames := by decide
  rw [Nat.mul_succ] at hn
  have hdeep : Data.equal? Sharing.apart.value (Expr.equal? .apart)
      (stackFrames - Data.levelFrames) (.nested n) (.nested n) = none :=
    Data.equal?_nested (by omega)
  rw [equal?, Data.equal?.eq_def, if_neg (show Sharing.apart.value _ _ ≠ true from nofun),
    if_neg (Nat.not_lt.mpr hle)]
  simp only [hlen, List.length_cons, Data.equalWithin?, hk, hdeep]
  rfl

end Value
end JsonQuery
