import Scss.Proofs.Bubbling

/-!
# Control directives in functions and elsewhere

Control directives are run by two interpreters. In the body of a function, `runBody` runs statements
until one of them returns a value; elsewhere, `flattenNodes` puts together what the statements leave.
Each has its own way through branches and loops, with scopes, loop variables and limits of its own.

Assignments, diagnostics, comments and control directives around them may stand in both places. There
the two do the same (`runBody_does_as_flattenNodes`): a function returns nothing from such statements,
and apart from the comments that are left elsewhere, no difference is to be seen. Each construct of the
one interpreter is compared with that of the other (`Does`), and the induction is on how statements are
nested.
-/

namespace Scss

/-- A statement that may stand in functions and elsewhere, its own kind apart from what it holds. -/
def Statement.IsControl : Statement → Prop
  | .assignment .. | .diagnostic .. | .comment _ | .branches _ | .eachLoop .. | .forLoop ..
  | .whileLoop .. => True
  | _ => False

namespace Evaluation

open Compile Flatten

/-- A computation in a function that returns nothing, and otherwise does what one elsewhere does. -/
def Does (run : Compile (Option Value)) (expand : Compile (List Node)) : Prop :=
  run = (fun _ => none) <$> expand

namespace Does

variable {α : Type} {run run' : Compile (Option Value)} {expand expand' : Compile (List Node)}

protected theorem pure (nodes : List Node) : Does (pure none) (pure nodes) := by
  rw [Does, map_pure]

/-- Two computations that begin with the same step. -/
protected theorem bind {m : Compile α} {f : α → Compile (Option Value)}
    {g : α → Compile (List Node)} (h : ∀ a, Does (f a) (g a)) : Does (m >>= f) (m >>= g) := by
  rw [Does, map_bind]
  exact bind_congr h

protected theorem ite {p : Prop} [Decidable p] (h : Does run expand) (h' : Does run' expand') :
    Does (if p then run else run') (if p then expand else expand') := by
  split
  · exact h
  · exact h'

/-- What goes on only if nothing is returned does go on, and what is left of both is put together. -/
theorem andThen {next : Option Value → Compile (Option Value)} (h : Does run expand)
    (h' : Does (next none) expand') :
    Does (run >>= next) (do
      let front ← expand
      return front ++ (← expand')) := by
  rw [Does] at h h' ⊢
  rw [h, bind_map_left, h', map_bind]
  refine bind_congr fun front => ?_
  rw [bind_pure_comp, Functor.map_map]

theorem inScope (h : Does run expand) : Does (Compile.inScope run) (Compile.inScope expand) := by
  rw [Does] at h ⊢
  rw [h]
  funext c
  show (Compile.inScope ((fun _ => none) <$> expand)).outcome c =
    ((fun _ => none) <$> Compile.inScope expand).outcome c
  rw [outcome_inScope, map_eq_pure_bind, map_eq_pure_bind, outcome_bind, outcome_bind, outcome_inScope]
  rcases expand.outcome (entered c) with ⟨_ | _, d⟩ <;> rfl

/-! ## Loops -/

theorem untilReturned {run : α → Compile (Option Value)} {expand : α → Compile (List Node)}
    (h : ∀ a, Does (run a) (expand a)) (items : List α) :
    Does (Evaluation.untilReturned run items) (forEach expand items) := by
  induction items with
  | nil => exact Does.pure []
  | cons a rest ih => exact (h a).andThen ih

/-- Both loops test the condition before each round, and once more where the limit is reached. -/
theorem whileNotReturned (condition : Compile Bool) (h : Does run expand) (rounds : Nat) :
    Does (Evaluation.whileNotReturned condition run rounds)
      (whileHolds condition expand rounds) := by
  induction rounds with
  | zero =>
      refine Does.bind fun taken => ?_
      cases taken with
      | false => exact Does.pure []
      | true => rfl
  | succ rounds ih => exact Does.bind fun taken => (h.andThen ih).ite (Does.pure [])

/-! ## Statements -/

variable {s : Site}

theorem body {nodes : List Node} (h : ∀ n ∈ nodes, Does (runNode s.caller n) (flattenNode s n)) :
    Does (runBody s.caller nodes) (flattenNodes s nodes) := by
  induction nodes with
  | nil => exact Does.pure []
  | cons n rest ih =>
      rw [runBody, flattenNodes]
      exact (h n List.mem_cons_self).andThen (ih fun m hm => h m (List.mem_cons_of_mem n hm))

theorem branches (position : Position) {alternatives : List (Option Value × List Node)}
    (h : ∀ a ∈ alternatives, Does (runBody s.caller a.2) (flattenNodes s a.2)) :
    Does (runBranches s.caller position alternatives) (flattenBranches s position alternatives) := by
  induction alternatives with
  | nil => exact Does.pure []
  | cons a rest ih =>
      obtain ⟨condition, body⟩ := a
      have hbody := (h _ List.mem_cons_self).inScope
      cases condition with
      | none =>
          rw [runBranches, flattenBranches]
          exact hbody
      | some condition =>
          rw [runBranches, flattenBranches]
          exact Does.bind fun taken => hbody.ite (ih fun b hb => h b (List.mem_cons_of_mem _ hb))

/-- A statement that may stand in both places does the same in both if the statements in it do. -/
theorem statement (position : Position) {statement : Statement} (own : statement.IsControl)
    (h : ∀ body ∈ statement.bodies, Does (runBody s.caller body) (flattenNodes s body)) :
    Does (runStatement s.caller position statement) (flattenStatement s position statement) := by
  cases statement with
  | assignment name value ifUnset isGlobal => exact Does.bind fun _ => Does.pure []
  | diagnostic level message => exact Does.bind fun _ => Does.pure []
  | comment text => exact Does.pure _
  | branches alternatives =>
      rw [runStatement, flattenStatement]
      exact Does.branches position fun a ha => h a.2 (List.mem_map_of_mem ha)
  | eachLoop names list body =>
      rw [runStatement, flattenStatement]
      refine Does.bind fun items => Does.untilReturned (fun item => Does.inScope ?_) items
      exact Does.bind fun _ => h body List.mem_cons_self
  | forLoop counter start stop isInclusive body =>
      rw [runStatement, flattenStatement]
      refine Does.bind fun values => Does.untilReturned (fun i => Does.inScope ?_) values
      exact Does.bind fun _ => h body List.mem_cons_self
  | whileLoop condition body =>
      rw [runStatement, flattenStatement]
      exact Does.whileNotReturned _ (h body List.mem_cons_self).inScope maxRounds
  | _ => exact absurd own id

theorem node {n : Node} (h : n.All Statement.IsControl) :
    Does (runNode s.caller n) (flattenNode s n) := by
  induction h with
  | mk own _ ih =>
      rw [runNode, flattenNode]
      exact Does.statement _ own fun body hbody => Does.body (ih body hbody)

/-! ## What a run does -/

theorem effect (h : Does run expand) (c : Context) : run.effect c = expand.effect c := by
  rw [Does, map_eq_pure_bind] at h
  rw [h]
  exact effect_bind_pure expand _ c

theorem returned (h : Does run expand) {c : Context} {value : Option Value}
    (hvalue : (run.outcome c).1 = .ok value) : value = none := by
  rw [h, map_eq_pure_bind, outcome_bind] at hvalue
  match houtcome : expand.outcome c with
  | (.ok nodes, d) => rw [houtcome] at hvalue; exact (Except.ok.inj hvalue).symm
  | (.error failure, d) => rw [houtcome] at hvalue; cases hvalue

end Does

/-- **Control directives are the same in functions and elsewhere.** Let some statements be assignments,
diagnostics, comments and control directives around such. As the body of a function or elsewhere, from
equal contexts they succeed or fail in the same way and leave equal contexts, and the function returns
nothing. -/
theorem runBody_does_as_flattenNodes {nodes : List Node}
    (h : ∀ n ∈ nodes, n.All Statement.IsControl) (s : Site) (c : Context) :
    (runBody s.caller nodes).effect c = (flattenNodes s nodes).effect c ∧
      ∀ returned, ((runBody s.caller nodes).outcome c).1 = .ok returned → returned = none := by
  have hdoes : Does (runBody s.caller nodes) (flattenNodes s nodes) :=
    Does.body fun n hn => Does.node (h n hn)
  exact ⟨hdoes.effect c, fun _ => hdoes.returned⟩

/-- A variable is set in the rounds of two loops, and the outer loop ends as its condition is changed
in it:

    $go: true;
    $last: none;
    @while $go {
      @each $x in a, b { @if $x == a { @warn $x; } @else { $last: $x; /* set */ } }
      $go: false;
    }
-/
def nestedLoops : List Node := [
  .mk ⟨"", 1, 1⟩ (.assignment "go" (.word "true") false false),
  .mk ⟨"", 2, 1⟩ (.assignment "last" (.word "none") false false),
  .mk ⟨"", 3, 1⟩ (.whileLoop (.variable "go") [
    .mk ⟨"", 4, 3⟩ (.eachLoop ["x"] (.list [.word "a", .word "b"] .comma) [
      .mk ⟨"", 4, 22⟩ (.branches [
        (some (.expression [.operand (.variable "x"), .operator .equal, .operand (.word "a")]),
          [.mk ⟨"", 4, 36⟩ (.diagnostic .warn (.variable "x"))]),
        (none, [
          .mk ⟨"", 4, 58⟩ (.assignment "last" (.variable "x") false false),
          .mk ⟨"", 4, 69⟩ (.comment " set ")])])]),
    .mk ⟨"", 5, 3⟩ (.assignment "go" (.word "false") false false)])]

theorem nestedLoops_does : (∀ n ∈ nestedLoops, n.All Statement.IsControl) ∧
    ∃ d : Context, (runBody (siteOf 0 0 0).caller nestedLoops).effect .isolated = (.ok (), d) ∧
      (flattenNodes (siteOf 0 0 0) nestedLoops).effect .isolated = (.ok (), d) ∧
      d.scopes.valueOf? "last" = some (.word "b") ∧ d.warnings.length = 1 := by
  have hcontrol : ∀ n ∈ nestedLoops, n.All Statement.IsControl := by
    simp [nestedLoops, Node.all_mk_iff, Statement.bodies, Statement.IsControl]
  obtain ⟨hsame, -⟩ := runBody_does_as_flattenNodes hcontrol (siteOf 0 0 0) .isolated
  refine ⟨hcontrol, ((flattenNodes (siteOf 0 0 0) nestedLoops).effect .isolated).2, ?_, ?_, ?_, ?_⟩
  · rw [hsame]
    cbv
  · cbv
  · cbv
  · cbv

end Evaluation

end Scss
