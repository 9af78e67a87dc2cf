/-
How the command line ends.

An invocation with the query among its arguments and the document on the standard input, without
error traces, ends with code 0 and no word on the error output, or with code 1 and a message there
and nothing else.  Only a sum that is too large on the way is left to the caller.

* `CommandLine.Ends` — what holds of the result of a step, or of its refusal;
* `CommandLine.Options.Overflows` — the sum is too large on the way;
* `CommandLine.work_ends` — how an invocation may refuse;
* `CommandLine.parse_arguments` — the options are those that the arguments name, for every query;
* `CommandLine.run_told` — how an invocation ends.
-/
import JsonQuery.CommandLine
import JsonQuery.Proofs.Search.Failure

namespace JsonQuery
namespace CommandLine

open Grammar (mapError_eq_error)

/-! ### Steps -/

/-- Whatever was logged before it, a step gives a result of which the one holds, or it refuses for
a reason of which the other holds. -/
def Ends {α : Type} (P : α → Prop) (R : Refusal → Prop) (x : Step Id α) : Prop :=
  ∀ lines, match (x.run.run lines).1 with
    | .ok a => P a
    | .error r => R r

namespace Ends
variable {α β : Type} {P : α → Prop} {Q : β → Prop} {R : Refusal → Prop}

theorem pure {a : α} (h : P a) : Ends P R (Pure.pure a) :=
  fun _ => h

theorem throw {r : Refusal} (h : R r) : Ends P R (throw r) :=
  fun _ => h

theorem log {P : Unit → Prop} (t : Text) (h : P ()) : Ends P R (CommandLine.log t) :=
  fun _ => h

theorem liftM {x : Id α} (h : P x.run) : Ends P R (liftM x) :=
  fun _ => h

theorem orRefuse {ε : Type} {refusal : ε → Refusal} {x : Except ε α}
    (hok : ∀ a, x = .ok a → P a) (herror : ∀ e, x = .error e → R (refusal e)) :
    Ends P R (CommandLine.orRefuse refusal x) := by
  cases x with
  | ok a => exact fun _ => hok a rfl
  | error e => exact fun _ => herror e rfl

theorem bind {x : Step Id α} {f : α → Step Id β} (hx : Ends P R x)
    (hf : ∀ a, P a → Ends Q R (f a)) : Ends Q R (x >>= f) := by
  intro lines
  have h := hx lines
  rw [ExceptT.run_bind, StateT.run_bind]
  generalize x.run.run lines = p at h
  obtain ⟨r, lines'⟩ := p
  cases r with
  | ok a => exact hf a h lines'
  | error e => exact h

end Ends

/-! ### Refusals -/

/-- A refusal is told by the command line itself. -/
def Refusal.IsTold (r : Refusal) : Prop :=
  ∀ e, r.report ≠ .uncaught e

theorem Refusal.isTold_compile (e : CompileError) : (Refusal.compile e).IsTold := by
  match e with
  | .limitTooLow | .source (.query _) | .source (.tooManyDigits _) => exact nofun

theorem Refusal.isTold_read (e : ReadError) : (Refusal.read e).IsTold := by
  cases e <;> exact nofun

theorem Refusal.isTold_render (e : RenderError) : (Refusal.render e).IsTold := by
  cases e <;> exact nofun

theorem Refusal.isTold_search {e : SearchError} (h : e ≠ .sumOverflow) :
    (Refusal.search e).IsTold := by
  cases e with
  | sumOverflow => exact absurd rfl h
  | _ => exact nofun

/-! ### What the command line does -/

/-- The sum of a query is too large on the way, on the document of the standard input. -/
def Options.Overflows (o : Options) (shared : Sharing) (stdin : Text) : Prop :=
  o.tree = false ∧ ∃ q j,
    Query.compile (o.expression.getD []) .none (o.limit.getD defaultLimit) = .ok q ∧
      Json.read stdin = .ok j ∧ q.search (Data.ofJson j) shared = .error .sumOverflow

/-- Why an invocation refuses: for a reason that is told, unless its sum is too large on the way. -/
def Options.Refuses (o : Options) (shared : Sharing) (stdin : Text) (r : Refusal) : Prop :=
  r.IsTold ∧ ¬ o.Overflows shared stdin ∨ r = .search .sumOverflow ∧ o.Overflows shared stdin

section
variable {o : Options} {shared : Sharing} {stdin : Text} {s : Surroundings Id}

theorem Options.not_overflows_of_compile
    (h : ∀ q, Query.compile (o.expression.getD []) .none (o.limit.getD defaultLimit) ≠ .ok q) :
    ¬ o.Overflows shared stdin :=
  fun ⟨_, q, _, hq, _⟩ => h q hq

/-- A sum that is too large on the way comes from a call of `sum` or `avg`. -/
theorem Options.Overflows.exists_call (h : o.Overflows shared stdin) :
    ∃ e, Expr.parse (o.expression.getD []) = .ok e ∧
      ∃ n ∈ e.walk, n.IsCall "sum" ∨ n.IsCall "avg" := by
  obtain ⟨-, q, j, hq, -, hsearch⟩ := h
  obtain ⟨e, he, hl, rfl⟩ := Query.compile_eq_ok.mp hq
  refine ⟨e, he, ?_⟩
  have hends := Query.run_ends (q := ⟨o.expression.getD [], some e, .none, _, hl⟩) rfl rfl j shared
  obtain ⟨f, hf, hover⟩ := mapError_eq_error.mp hsearch
  unfold Run.Ends at hends
  rw [hf] at hends
  cases hends with
  | overflow hn hname =>
    refine ⟨_, hn, ?_⟩
    rcases hname with rfl | rfl
    · exact .inl ⟨_, _, rfl⟩
    · exact .inr ⟨_, _, rfl⟩
  | _ => cases hover

theorem sourceText_ends (he : o.exprFile = []) :
    Ends (· = o.expression.getD []) (o.Refuses shared stdin) (sourceText s o) := by
  have hempty : o.exprFile.isEmpty = true := List.isEmpty_iff.mpr he
  rw [sourceText, if_pos hempty]
  refine .bind (P := (· = o.expression.getD [])) (.pure rfl) fun source hsource => ?_
  dsimp only
  split
  · next hs =>
    -- An empty source is no query.
    refine .bind (P := fun _ => True) (.throw (.inl ⟨nofun, ?_⟩)) fun _ _ => .pure hsource
    refine Options.not_overflows_of_compile ?_
    rw [← hsource, List.isEmpty_iff.mp hs]
    exact nofun
  · exact .pure hsource

theorem compile_ends :
    Ends (fun p => Query.compile (o.expression.getD []) .none (o.limit.getD defaultLimit) = .ok p.1)
      (o.Refuses shared stdin) (compile o (o.expression.getD [])) := by
  unfold compile
  refine .bind (P := fun e => Expr.parse (o.expression.getD []) = .ok e) ?_ fun e he => ?_
  · refine .orRefuse (fun _ h => h) fun e he => .inl ⟨Refusal.isTold_compile _, ?_⟩
    refine Options.not_overflows_of_compile ?_
    rw [Query.compile, he]
    intro q h
    cases h
  · have hcompile : Query.compile (o.expression.getD []) .none (o.limit.getD defaultLimit) =
        Query.ofExpr (o.expression.getD []) (some e) none (o.limit.getD defaultLimit) := by
      rw [Query.compile, he]
      rfl
    refine .bind (P := fun _ => True) (.log _ trivial) fun _ _ => ?_
    rw [hcompile]
    refine .bind (.orRefuse (fun _ h => h) fun e he => .inl ⟨Refusal.isTold_compile _, ?_⟩)
      fun q hq => .pure hq
    refine Options.not_overflows_of_compile ?_
    rw [hcompile, he]
    intro q h
    cases h

theorem search_ends (ht : o.tree = false) {q : Query}
    (hq : Query.compile (o.expression.getD []) .none (o.limit.getD defaultLimit) = .ok q) :
    Ends (fun _ => ¬ o.Overflows shared stdin) (o.Refuses shared stdin)
      (search shared q stdin) := by
  -- The query and the document are known, so this search is the one that may overflow.
  have hiff {j : Json} (hj : Json.read stdin = .ok j) :
      o.Overflows shared stdin ↔ q.search (Data.ofJson j) shared = .error .sumOverflow := by
    constructor
    · rintro ⟨-, q', j', hq', hj', h⟩
      cases hq.symm.trans hq'
      cases hj.symm.trans hj'
      exact h
    · exact fun h => ⟨ht, q, j, hq, hj, h⟩
  unfold search
  refine .bind (P := fun j => Json.read stdin = .ok j) ?_ fun j hj => ?_
  · refine .orRefuse (fun _ h => h) fun e he => .inl ⟨Refusal.isTold_read e, ?_⟩
    rintro ⟨-, q', j, -, hj, -⟩
    cases he.symm.trans hj
  · refine .bind (P := fun _ => True) ?_ fun _ _ => ?_
    · unfold logLimit
      split
      · exact .log _ trivial
      · exact .pure trivial
    · rw [hiff hj]
      refine .orRefuse (fun v hv h => ?_) fun e he => ?_
      · cases hv.symm.trans h
      · by_cases hover : e = .sumOverflow
        · exact .inr ⟨congrArg _ hover, (hiff hj).mpr (hover ▸ he)⟩
        · refine .inl ⟨Refusal.isTold_search hover, fun h => hover ?_⟩
          cases he.symm.trans ((hiff hj).mp h)
          rfl

theorem write_ends (h : ¬ o.Overflows shared stdin) (v : Value) :
    Ends (fun _ => ¬ o.Overflows shared stdin) (o.Refuses shared stdin) (write o v) := by
  unfold write
  split
  · exact .pure h
  · exact .orRefuse (fun _ _ => h) fun e _ => .inl ⟨Refusal.isTold_render e, h⟩

/-- An invocation refuses for a reason that is told, or its sum is too large on the way. -/
theorem work_ends (hs : s.input = .ok stdin) (hshared : s.shared = shared) (he : o.exprFile = [])
    (hi : o.input = []) :
    Ends (fun _ => ¬ o.Overflows shared stdin) (o.Refuses shared stdin) (work s o) := by
  have hempty : o.input.isEmpty = true := List.isEmpty_iff.mpr hi
  refine .bind (sourceText_ends he) fun source hsource => ?_
  subst hsource
  refine .bind compile_ends fun p hp => ?_
  obtain ⟨q, e⟩ := p
  dsimp only
  split
  · next ht =>
    have hnot : ¬ o.Overflows shared stdin := fun h => Bool.false_ne_true (h.1.symm.trans ht)
    exact .orRefuse (fun _ _ => hnot) fun _ _ => .inl ⟨nofun, hnot⟩
  · next ht =>
    rw [documentText, if_pos hempty]
    refine .bind (P := (· = stdin)) ?_ fun document hdocument => ?_
    · have hinput : Ends (· = .ok stdin) (o.Refuses shared stdin) (liftM s.input) := .liftM hs
      refine .bind hinput fun t ht => ?_
      subst ht
      exact .orRefuse (fun _ h => (Except.ok.inj h).symm) nofun
    · subst hdocument
      rw [hshared]
      refine .bind (search_ends (Bool.eq_false_iff.mpr ht) hp) fun v hv => ?_
      exact write_ends hv v

end

/-! ### Arguments -/

/-- A flag that may be left out. -/
def flag (given : Bool) (name : Text) : List Text :=
  if given then [name] else []

/-- The arguments of an invocation: perhaps a limit, some flags, and a query behind two dashes,
which may be any text. -/
def arguments (limit : Option Text) (tree compact raw : Bool) (query : Text) : List Text :=
  limit.toList.map (Text.ofString "--recursion-limit=" ++ ·) ++
    (flag tree "--ast" ++ (flag compact "-c" ++ (flag raw "-r" ++ [[dash, dash], query])))

/-- An option with all that belongs to it in the same argument is set before the arguments behind
it. -/
theorem gather_argument {a : Text} {s : Switch} {long : Bool} {value : Option Text}
    {given : List (Switch × Text)} {o o' : Options} (ha : a ≠ [dash, dash])
    (hw : Word.ofText a = .ok (.option s long value))
    (hin : Options.inArgument s long value = .ok (given, .complete))
    (hset : o.setAll given = .ok o') (ts : List Text) :
    (words (a :: ts) >>= Options.gather o .open) = words ts >>= Options.gather o' .open := by
  rw [words, if_neg ha, hw]
  cases words ts with
  | error e => rfl
  | ok ws =>
    show Options.gather o .open (.option s long value :: ws) = Options.gather o' .open ws
    rw [Options.gather, hin]
    dsimp only
    rw [hset]
    rfl

theorem gather_limit {t : Text} {i : Int} (ht : t.looseInt? = some i) (o : Options)
    (ts : List Text) :
    (words ((Text.ofString "--recursion-limit=" ++ t) :: ts) >>= Options.gather o .open) =
      words ts >>= Options.gather { o with limit := some i } .open := by
  have hw : Word.ofText (Text.ofString "--recursion-limit=" ++ t) =
      .ok (.option .limit true (some t)) := rfl
  have hin : Options.inArgument .limit true (some t) = .ok ([(.limit, t)], .complete) := by
    rw [Options.inArgument, Options.together.eq_def]
    cases t <;> rfl
  have hset : o.setAll [(.limit, t)] = .ok { o with limit := some i } := by
    show (o.set .limit t >>= fun o => Options.setAll o []) = _
    rw [Options.set, ht]
    rfl
  exact gather_argument (by simp [Text.ofString, Text.ofChars]) hw hin hset ts

theorem gather_flag {name : Text} {s : Switch} {long : Bool} {f : Bool → Options}
    (ha : name ≠ [dash, dash]) (hw : Word.ofText name = .ok (.option s long .none))
    (hs : s.takesValue = false) (hset : (f false).set s [] = .ok (f true)) (given : Bool)
    (ts : List Text) :
    (words (flag given name ++ ts) >>= Options.gather (f false) .open) =
      words ts >>= Options.gather (f given) .open := by
  cases given with
  | false => rfl
  | true =>
    have hin : Options.inArgument s long .none = .ok ([(s, [])], .complete) := by
      rw [Options.inArgument, Options.alone, hs]
      rfl
    have hall : (f false).setAll [(s, [])] = .ok (f true) := by
      show ((f false).set s [] >>= fun o => Options.setAll o []) = _
      rw [hset]
      rfl
    exact gather_argument ha hw hin hall ts

/-- The options of an invocation are those that its arguments name. -/
theorem parse_arguments {limit : Option Text} {i : Option Int}
    (hl : limit.map Text.looseInt? = i.map some) (tree compact raw : Bool) (query : Text) :
    Options.parse (arguments limit tree compact raw query) =
      .ok ⟨some query, [], [], tree, compact, raw, i, false⟩ := by
  have hlimit (ts : List Text) :
      (words (limit.toList.map (Text.ofString "--recursion-limit=" ++ ·) ++ ts) >>=
        Options.gather .none .open) =
      words ts >>= Options.gather ⟨none, [], [], false, false, false, i, false⟩ .open := by
    cases limit with
    | none =>
      cases i with
      | none => rfl
      | some i => cases hl
    | some t =>
      cases i with
      | none => cases hl
      | some i => exact gather_limit (Option.some.inj hl) .none ts
  rw [Options.parse, arguments, hlimit,
    gather_flag (f := fun b => ⟨none, [], [], b, false, false, i, false⟩) (by decide) rfl rfl rfl,
    gather_flag (f := fun b => ⟨none, [], [], tree, b, false, i, false⟩) (by decide) rfl rfl rfl,
    gather_flag (f := fun b => ⟨none, [], [], tree, compact, b, i, false⟩) (by decide) rfl rfl
      rfl]
  rfl

/-! ### Outcomes -/

/-- An outcome tells whether there is a result: with code 0 nothing is said on the error output, and
with code 1 something is said there and nothing is printed. -/
def Outcome.IsTold (x : Outcome) : Prop :=
  x.exit = .code 0 ∧ x.stderr = [] ∨ x.exit = .code 1 ∧ x.stdout = [] ∧ x.stderr ≠ []

instance (x : Outcome) : Decidable x.IsTold :=
  inferInstanceAs (Decidable (_ ∨ _))

theorem Outcome.isTold_refusal {r : Refusal} (h : r.IsTold) (logged : List Text) :
    (Outcome.ofResult false (.error r) logged).IsTold := by
  have hline (t : Text) : line t ≠ [] := List.append_ne_nil_of_right_ne_nil t (List.cons_ne_nil _ _)
  unfold ofResult
  cases hr : r.report with
  | always t => exact .inr ⟨by simp [hr, Report.told], rfl, by simp [hr, Report.told, hline]⟩
  | unlessTraced t => exact .inr ⟨by simp [hr, Report.told], rfl, by simp [hr, Report.told, hline]⟩
  | uncaught e => exact absurd hr (h e)

/-- An invocation without files and traces comes to the text that it prints or to its refusal. -/
theorem run_eq {argv : List Text} {o : Options} (hp : Options.parse argv = .ok o)
    (hd : o.debug = false) (stdin : Text) (file : Text → FileContent) (shared : Sharing) :
    let s : Surroundings Id := ⟨fun name => pure (file name), pure (.ok stdin), shared⟩
    ∃ logged, run argv stdin file shared =
      .ofResult false ((work s o : Step Id Text).run.run []).1 logged := by
  intro s
  refine ⟨((work s o : Step Id Text).run.run []).2, ?_⟩
  rw [run, session, hp, ← hd]
  rfl

/-- With the query among the arguments and the document on the standard input, an invocation ends
with code 0 and no word on the error output, or with code 1 and a message there and nothing else,
unless the sum of the query is too large on the way.  Then nothing is said at all, and the error is
left to the caller; a query that calls neither `sum` nor `avg` never comes to that. -/
theorem run_told {argv : List Text} {o : Options} (hp : Options.parse argv = .ok o)
    (he : o.exprFile = []) (hi : o.input = []) (hd : o.debug = false) (stdin : Text)
    (file : Text → FileContent) (shared : Sharing) :
    ((run argv stdin file shared).IsTold ↔ ¬ o.Overflows shared stdin) ∧
      (o.Overflows shared stdin → run argv stdin file shared = ⟨[], [], .uncaught .sumOverflow⟩) ∧
      ((∀ e, Expr.parse (o.expression.getD []) = .ok e →
          ∀ n ∈ e.walk, ¬ n.IsCall "sum" ∧ ¬ n.IsCall "avg") →
        (run argv stdin file shared).IsTold) := by
  have hover : ¬ o.Overflows shared stdin ∧ (run argv stdin file shared).IsTold ∨
      o.Overflows shared stdin ∧ run argv stdin file shared = ⟨[], [], .uncaught .sumOverflow⟩ := by
    obtain ⟨logged, hrun⟩ := run_eq hp hd stdin file shared
    have hwork := work_ends (s := ⟨fun name => pure (file name), pure (.ok stdin), shared⟩) rfl rfl
      he hi []
    rw [hrun]
    split at hwork
    · next t ht =>
      rw [ht]
      exact .inl ⟨hwork, .inl ⟨rfl, rfl⟩⟩
    · next r hr =>
      rw [hr]
      rcases hwork with ⟨htold, hnot⟩ | ⟨rfl, hyes⟩
      · exact .inl ⟨hnot, Outcome.isTold_refusal htold logged⟩
      · exact .inr ⟨hyes, rfl⟩
  rcases hover with ⟨hnot, htold⟩ | ⟨hyes, hrun⟩
  · exact ⟨iff_of_true htold hnot, fun h => absurd h hnot, fun _ => htold⟩
  · have huntold : ¬ (run argv stdin file shared).IsTold := by
      rw [hrun]
      decide
    refine ⟨iff_of_false huntold (not_not_intro hyes), fun _ => hrun, fun hcalls => ?_⟩
    obtain ⟨e, hparse, n, hn, hcall⟩ := hyes.exists_call
    obtain ⟨hsum, havg⟩ := hcalls e hparse n hn
    exact (hcall.elim hsum havg).elim

theorem run_told_limit :
    let argv := arguments (some "1") false true false "a.b"
    let o : Options := ⟨some "a.b", [], [], false, true, false, some 1, false⟩
    Options.parse argv = .ok o ∧ (o.exprFile = [] ∧ o.input = [] ∧ o.debug = false) ∧
      (run argv "null" fun _ => .missing).IsTold := by
  intro argv o
  have hparse : Options.parse argv = .ok o := parse_arguments rfl false true false "a.b"
  have htree : Expr.parse "a.b" =
      .ok (.binary .step (.atom (.field "a") 0) (.atom (.field "b") 2) 1) := rfl
  refine ⟨hparse, ⟨rfl, rfl, rfl⟩,
    (run_told hparse rfl rfl rfl "null" _ .alike).2.2 fun e he n hn => ?_⟩
  cases htree.symm.trans he
  constructor <;>
    · rintro ⟨args, offset, rfl⟩
      simp [Expr.walk] at hn

theorem run_untold_sum :
    Options.parse ["sum(@)"] =
        .ok ⟨some "sum(@)", [], [], false, false, false, none, false⟩ ∧
      (run ["sum(@)"] "[1e308, 1e308]" fun _ => .missing).exit = .uncaught .sumOverflow ∧
      ¬ (run ["sum(@)"] "[1e308, 1e308]" fun _ => .missing).IsTold :=
  ⟨rfl, by decide +kernel, by decide +kernel⟩

end CommandLine
end JsonQuery
