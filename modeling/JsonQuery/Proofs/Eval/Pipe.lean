/-
Pipes are evaluated one after the other.

The value of a pipe is that of its right side on that of its left side.  Pipes associate to the
left, so an expression with further ones piped after it is evaluated part by part, in which order
it may as well be cut after the first part.  Only the depth of the parts differs, and with it
where the limit is reached.

* `eval_pipe_left` — a pipe after an evaluation, on one side of two that match;
* `matches_piped` — an evaluation and a second one on its result match the evaluation of a pipe.
-/
import Mathlib.Data.List.Induction
import JsonQuery.Proofs.Eval.Meaning
import JsonQuery.Proofs.Grammar.Edge

namespace JsonQuery

open Run Value Grammar

section
variable {α β : Type} {excused : Failure → Prop} {rel : Value → β → Prop} {env : Env}
  {d o : Nat} {a b : Expr}

/-- A pipe after another evaluation matches what its parts match one after the other. -/
theorem eval_pipe_left {x : Run Value} {y : Run β} (hl : Lax excused)
    (h : ∀ steps, Matches excused rel
      (x >>= fun u => eval env steps (d + 1) a u >>= eval env steps (d + 1) b) y) (steps : Nat) :
    Matches excused rel (x >>= eval env steps d (.binary .pipe a b o)) y := by
  cases hx : x.outcome with
  | error f =>
    have h := h steps
    rw [Matches, outcome_bind_of_error hx] at h ⊢
    exact h
  | ok u =>
    have hbind : ∀ g : Value → Run Value,
        Matches excused rel (x >>= g) y ↔ Matches excused rel (g u) y := by
      intro g
      rw [Matches, Matches, outcome_bind_of_ok hx]
    rw [hbind]
    exact matches_node_left hl (fun steps => eval_pipe env steps d a b u o)
      (fun steps => (hbind _).mp (h steps)) steps

end

theorem piped_concat (left : Expr) (es : List Expr) (e : Expr) :
    piped left (es ++ [e]) = .binary .pipe (piped left es) e 0 :=
  List.foldl_append

/-- An evaluation and a second one on its result match the evaluation of the first expression with
the parts of the second piped after it, unless one of them reaches a bound. -/
theorem matches_piped {env env₁ env₂ : Env} {excused : Failure → Prop} (hl : Lax excused)
    (hs : env.registry.SteadyUpTo excused) (h₁ : env₁.registry = env.registry)
    (h₂ : env₂.registry = env.registry) (hshared₁ : env₁.shared = env.shared)
    (hshared₂ : env₂.shared = env.shared) {a p : Expr} {es : List Expr} {e e₁ e₂ : Expr}
    (he : e.bare = piped a (p :: es)) (he₁ : e₁.bare = a) (he₂ : e₂.bare = piped p es)
    (steps steps₁ steps₂ d d₁ d₂ : Nat) (v : Value) :
    Matches excused Like (eval env₁ steps₁ d₁ e₁ v >>= eval env₂ steps₂ d₂ e₂)
      (eval env steps d e v) := by
  have hs₁ : env₁.registry.SteadyUpTo excused := h₁ ▸ hs
  have hs₂ : env₂.registry.SteadyUpTo excused := h₂ ▸ hs
  have at₁ : ∀ n n', MatchesAt excused env₁ env n n' :=
    fun _ _ => eval_matches h₁ hs₁ (.inl hl) hshared₁ (.inl hl)
  have at₂ : ∀ n n', MatchesAt excused env₂ env n n' :=
    fun _ _ => eval_matches h₂ hs₂ (.inl hl) hshared₂ (.inl hl)
  -- The last pipe of both is taken off, until only the first part is left of the second.
  induction es using List.reverseRecOn generalizing e e₂ steps steps₂ d d₂ with
  | nil =>
    obtain ⟨a', b', o, rfl, ha, hb⟩ := bare_eq_binary he
    refine matches_node_right hl (fun steps => eval_pipe env steps d a' b' v o)
      (fun steps => ?_) steps
    refine matches_bind ((at₁ _ _).eval (.inl hl) (he₁.trans ha.symm) rfl) ?_
    intro x y hxy
    exact (at₂ _ _).eval (.inl hl) (he₂.trans hb.symm) hxy
  | append_singleton es r ih =>
    rw [← List.cons_append, piped_concat] at he
    rw [piped_concat] at he₂
    obtain ⟨a', b', o, rfl, ha, hb⟩ := bare_eq_binary he
    obtain ⟨a₂, b₂, o₂, rfl, ha₂, hb₂⟩ := bare_eq_binary he₂
    refine matches_node_right hl (fun steps => eval_pipe env steps d a' b' v o)
      (fun steps => ?_) steps
    refine eval_pipe_left hl (fun steps₂ => ?_) steps₂
    rw [← bind_assoc]
    refine matches_bind (ih ha ha₂ _ _ _ _) ?_
    intro x y hxy
    exact (at₂ _ _).eval (.inl hl) (hb₂.trans hb.symm) hxy

end JsonQuery
