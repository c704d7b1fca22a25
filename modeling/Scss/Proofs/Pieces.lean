import Scss.Evaluation

/-!
# What holds of the pieces

Evaluation takes expressions and argument lists apart before it runs anything: tokens are grouped
and read as a tree, arguments are sorted by parameter. None of this invents an operand. So what
holds of every operand that goes in holds of every operand that comes out, which is the form in
which the proofs about evaluation use it.
-/

namespace Scss

variable {α : Type}

/-- A piece of an expression whose operand, if it is one, satisfies `P`. -/
def ExprToken.Holds (P : α → Prop) : ExprToken α → Prop
  | .operand a => P a
  | _ => True

/-- A piece of text whose embedded expression, if it has one, satisfies `P`. -/
def TextPart.Holds (P : α → Prop) : TextPart α → Prop
  | .embedded a => P a
  | .literal _ => True

/-- A binding that is a default, or an argument that satisfies `P`. -/
def Binding.Holds (P : α → Prop) : Binding α → Prop
  | .given a => P a
  | .default _ => True

/-! ## Values -/

/-- What holds of a value if it holds of the values in it, holds of every value. -/
@[elab_as_elim]
theorem Value.induction {P : Value → Prop} (null : P .null) (number : ∀ n, P (.number n))
    (color : ∀ c, P (.color c)) (quoted : ∀ text quote, P (.quoted text quote))
    (word : ∀ text, P (.word text)) (var : ∀ name, P (.variable name))
    (call : ∀ name arguments, (∀ a ∈ arguments, P a.value) → P (.call name arguments))
    (list : ∀ items separator, (∀ v ∈ items, P v) → P (.list items separator))
    (expression : ∀ tokens, (∀ v, .operand v ∈ tokens → P v) → P (.expression tokens))
    (paren : ∀ inner, P inner → P (.paren inner))
    (interpolated : ∀ parts quote, (∀ v, .embedded v ∈ parts → P v) →
      P (.interpolated parts quote)) : ∀ v, P v :=
  @Value.rec P (fun arguments => ∀ a ∈ arguments, P a.value) (fun items => ∀ v ∈ items, P v)
    (fun tokens => ∀ v, .operand v ∈ tokens → P v) (fun parts => ∀ v, .embedded v ∈ parts → P v)
    (fun a => P a.value) (fun t => ∀ v, .operand v = t → P v) (fun p => ∀ v, .embedded v = p → P v)
    null number color quoted word var call list expression paren interpolated
    (fun _ h => absurd h List.not_mem_nil)
    (fun _ _ hone hrest a h => (List.mem_cons.mp h).elim (fun e => e ▸ hone) (hrest a))
    (fun _ h => absurd h List.not_mem_nil)
    (fun _ _ hone hrest v h => (List.mem_cons.mp h).elim (fun e => e ▸ hone) (hrest v))
    (fun _ h => absurd h List.not_mem_nil)
    (fun _ _ hone hrest v h => (List.mem_cons.mp h).elim (hone v) (hrest v))
    (fun _ h => absurd h List.not_mem_nil)
    (fun _ _ hone hrest v h => (List.mem_cons.mp h).elim (hone v) (hrest v))
    (fun _ _ _ h => h)
    (fun _ h _ e => ExprToken.operand.inj e ▸ h) (fun _ _ e => nomatch e) (fun _ e => nomatch e)
    (fun _ _ e => nomatch e) (fun _ h _ e => TextPart.embedded.inj e ▸ h)

/-! ## Values in values -/

def TextPart.embedded? : TextPart α → Option α
  | .embedded a => some a
  | .literal _ => none

namespace ExprToken

def operand? : ExprToken α → Option α
  | .operand a => some a
  | _ => none

/-- The operands are those tokens. -/
theorem mem_operands {tokens : List (ExprToken α)} {a : α} :
    a ∈ tokens.filterMap operand? ↔ .operand a ∈ tokens := by
  rw [List.mem_filterMap]
  constructor
  · rintro ⟨t, ht, heq⟩
    cases t with
    | operand b => exact Option.some.inj heq ▸ ht
    | operator op => cases heq
    | blank => cases heq
  · exact fun h => ⟨_, h, rfl⟩

end ExprToken

theorem TextPart.mem_embedded {parts : List (TextPart α)} {a : α} :
    a ∈ parts.filterMap TextPart.embedded? ↔ .embedded a ∈ parts := by
  rw [List.mem_filterMap]
  constructor
  · rintro ⟨p, hp, heq⟩
    cases p with
    | embedded b => exact Option.some.inj heq ▸ hp
    | literal text => cases heq
  · exact fun h => ⟨_, h, rfl⟩

namespace Value

/-- The values that a value is made of. -/
def parts : Value → List Value
  | .call _ arguments => arguments.map Argument.value
  | .list items _ => items
  | .expression tokens => tokens.filterMap ExprToken.operand?
  | .paren inner => [inner]
  | .interpolated pieces _ => pieces.filterMap TextPart.embedded?
  | _ => []

/-- A value has a property, and so have all values in it. -/
inductive All (P : Value → Prop) : Value → Prop where
  | mk {v : Value} (own : P v) (inside : ∀ w ∈ v.parts, w.All P) : All P v

theorem All.mono {P Q : Value → Prop} {v : Value} (h : v.All P) (hPQ : ∀ w, P w → Q w) : v.All Q := by
  induction h with
  | mk own _ ih => exact .mk (hPQ _ own) ih

/-- What holds of every value holds of every value in a value. -/
theorem all_of_forall {P : Value → Prop} (h : ∀ w, P w) (v : Value) : v.All P := by
  induction v using Value.induction with
  | null | number | color | quoted | word | var =>
      exact .mk (h _) fun _ hw => absurd hw List.not_mem_nil
  | call name arguments ih => exact .mk (h _) (List.forall_mem_map.mpr ih)
  | list items separator ih => exact .mk (h _) ih
  | expression tokens ih => exact .mk (h _) fun w hw => ih w (ExprToken.mem_operands.mp hw)
  | paren inner ih => exact .mk (h _) (List.forall_mem_singleton.mpr ih)
  | interpolated parts quote ih => exact .mk (h _) fun w hw => ih w (TextPart.mem_embedded.mp hw)

end Value

/-! ## Expressions -/

namespace OperationTree

/-- Every operand of the tree satisfies `P`. -/
def Holds (P : α → Prop) : OperationTree α → Prop
  | .operand a => P a
  | .fault _ => True
  | .unary _ inner => inner.Holds P
  | .binary _ left right => left.Holds P ∧ right.Holds P

variable {P : α → Prop} (text : α → String)

/-- What is read and what is left are made of the tokens. -/
theorem readUnary_holds {tokens : List (ExprToken α)} (h : ∀ t ∈ tokens, t.Holds P) :
    (readUnary text tokens).1.Holds P ∧ ∀ t ∈ (readUnary text tokens).2, t.Holds P := by
  induction tokens with
  | nil => exact ⟨trivial, h⟩
  | cons t rest ih =>
      have hrest : ∀ u ∈ rest, u.Holds P := fun u hu => h u (List.mem_cons_of_mem t hu)
      cases t with
      | operand a => exact ⟨h _ List.mem_cons_self, hrest⟩
      | blank => exact ⟨trivial, h⟩
      | operator op =>
          rw [readUnary]
          split
          · exact ih hrest
          · exact ⟨trivial, h⟩

/-- An operation is made of the tree so far and of what is read behind its operator. -/
theorem extend_holds (fuel : Nat) : ∀ {least : Nat} {left : OperationTree α}
    {tokens : List (ExprToken α)}, left.Holds P → (∀ t ∈ tokens, t.Holds P) →
      (extend text least fuel left tokens).1.Holds P ∧
        ∀ t ∈ (extend text least fuel left tokens).2, t.Holds P := by
  induction fuel with
  | zero => intro least left tokens hl ht; simp only [extend]; exact ⟨hl, ht⟩
  | succ fuel ih =>
      intro least left tokens hl ht
      match tokens, ht with
      | [], ht => simp only [extend]; exact ⟨hl, ht⟩
      | .operand a :: rest, ht => simp only [extend]; exact ⟨hl, ht⟩
      | .blank :: rest, ht => simp only [extend]; exact ⟨hl, ht⟩
      | .operator op :: rest, ht =>
          rw [extend]
          split
          · exact ⟨hl, ht⟩
          · have hrest : ∀ t ∈ rest, t.Holds P := fun t h => ht t (List.mem_cons_of_mem _ h)
            obtain ⟨hnext, hbehind⟩ := readUnary_holds text hrest
            obtain ⟨hright, hlater⟩ := @ih (op.precedence + 1) _ _ hnext hbehind
            exact ih ⟨hl, hright⟩ hlater

/-- The operands of the tree are those of the tokens. -/
theorem read_holds {tokens : List (ExprToken α)} (h : ∀ t ∈ tokens, t.Holds P) :
    (read text tokens).1.Holds P := by
  obtain ⟨hl, hr⟩ := readUnary_holds text h
  exact (extend_holds text tokens.length hl hr).1

end OperationTree

namespace Evaluation

variable {P : α → Prop}

/-- The groups are made of the tokens and of the group that was begun. -/
theorem groupsFrom_holds {tokens : List (ExprToken α)} (h : ∀ t ∈ tokens, t.Holds P) :
    ∀ {operandLast spaced : Bool} {group : List (ExprToken α)}, (∀ t ∈ group, t.Holds P) →
      ∀ g ∈ groupsFrom operandLast spaced group tokens, ∀ t ∈ g, t.Holds P := by
  induction tokens with
  | nil =>
      intro _ _ group hg g hmem
      rw [groupsFrom, List.mem_singleton] at hmem
      exact hmem ▸ hg
  | cons t rest ih =>
      have ht : t.Holds P := h t List.mem_cons_self
      have hone : ∀ u ∈ [t], u.Holds P := fun u hu => List.mem_singleton.mp hu ▸ ht
      replace ih := @ih fun u hu => h u (List.mem_cons_of_mem t hu)
      intro operandLast spaced group hg g hmem
      have happ : ∀ u ∈ group ++ [t], u.Holds P := fun u hu =>
        (List.mem_append.mp hu).elim (hg u) (hone u)
      -- either the piece begins the next group, or it joins this one
      have key : ∀ begins last : Bool,
          g ∈ (if begins then group :: groupsFrom last false [t] rest
            else groupsFrom last false (group ++ [t]) rest) → ∀ u ∈ g, u.Holds P := by
        intro begins last hmem
        cases begins with
        | true =>
            rcases List.mem_cons.mp hmem with rfl | hmem
            · exact hg
            · exact ih hone g hmem
        | false => exact ih happ g hmem
      cases t with
      | blank => exact ih happ g hmem
      | operand a => exact key (operandLast && spaced) true hmem
      | operator op =>
          rw [groupsFrom.eq_def] at hmem
          exact key _ false hmem

theorem spaceGroups_holds {tokens : List (ExprToken α)} (h : ∀ t ∈ tokens, t.Holds P) :
    ∀ g ∈ spaceGroups tokens, ∀ t ∈ g, t.Holds P := by
  intro g hg
  exact groupsFrom_holds h (fun t ht => absurd ht List.not_mem_nil) g (List.mem_filter.mp hg).1

end Evaluation

/-! ## Arguments -/

namespace Entries

variable {β : Type} {P : β → Prop}

/-- The new value and the ones that stay. -/
theorem forall_put {entries : Entries β} (h : ∀ e ∈ entries, P e.2) (key : String) {value : β}
    (hv : P value) : ∀ e ∈ put key value entries, P e.2 := by
  induction entries with
  | nil =>
      intro e he
      rw [put, List.mem_singleton] at he
      exact he ▸ hv
  | cons entry rest ih =>
      obtain ⟨k, v⟩ := entry
      intro e he
      rw [put] at he
      split at he
      · rcases List.mem_cons.mp he with rfl | he
        · exact hv
        · exact h e (List.mem_cons_of_mem _ he)
      · rcases List.mem_cons.mp he with rfl | he
        · exact h _ List.mem_cons_self
        · exact ih (fun x hx => h x (List.mem_cons_of_mem _ hx)) e he

theorem mem_of_get? {entries : Entries β} {key : String} {value : β}
    (h : get? key entries = some value) : (key, value) ∈ entries := by
  induction entries with
  | nil => simp [get?] at h
  | cons entry rest ih =>
      obtain ⟨k, v⟩ := entry
      rw [get?] at h
      split at h
      next hk =>
        subst hk
        exact Option.some.inj h ▸ List.mem_cons_self
      · exact List.mem_cons_of_mem _ (ih h)

/-- Removing leaves some of the entries, in their order. -/
theorem remove_sublist (key : String) (entries : Entries β) :
    (remove key entries).Sublist entries := by
  induction entries with
  | nil => exact List.Sublist.refl _
  | cons entry rest ih =>
      rw [remove]
      split
      · exact List.sublist_cons_self _ _
      · exact ih.cons_cons _

end Entries

namespace Signature

variable {P : α → Prop}

section
variable {s : Signature} {passed : Nat} {free : List Parameter} {named : Bool} {given : Entries α}
  {value : α} {splat : Bool} {arguments : List (Argument α)} {r : Entries α × List α}

/-- An argument by name is for a parameter that nothing was passed for. -/
theorem collect_cons_named {name : String} :
    s.collect passed free named given (⟨some name, value, splat⟩ :: arguments) = .ok r ↔
      (s.parameters.any fun p => Text.nameKey p.name == Text.nameKey name) = true ∧
        given.has (Text.nameKey name) = false ∧
        s.collect passed free true (given.put (Text.nameKey name) value) arguments = .ok r := by
  rw [collect]
  cases s.parameters.any fun p => Text.nameKey p.name == Text.nameKey name with
  | false => simp
  | true => cases given.has (Text.nameKey name) <;> simp

/-- An argument by position is for the first parameter that is free. -/
theorem collect_cons_taken {p : Parameter} :
    s.collect passed (p :: free) named given (⟨none, value, splat⟩ :: arguments) = .ok r ↔
      named = false ∧
        s.collect passed free false (given.put (Text.nameKey p.name) value) arguments = .ok r := by
  cases named <;> simp [collect]

/-- Where no parameter is free, it is left over, if there is a rest for it. -/
theorem collect_cons_left :
    s.collect passed [] named given (⟨none, value, splat⟩ :: arguments) = .ok r ↔
      named = false ∧ s.rest.isSome = true ∧ ∃ given' rest,
        s.collect passed [] false given arguments = .ok (given', rest) ∧
          r = (given', value :: rest) := by
  cases named with
  | true => simp [collect]
  | false =>
      cases hrest : s.rest.isSome with
      | false => simp [collect, hrest]
      | true =>
          rw [collect, if_neg Bool.false_ne_true, if_pos hrest]
          cases s.collect passed [] false given arguments with
          | error fault => exact ⟨nofun, fun ⟨_, _, _, _, h, _⟩ => nomatch h⟩
          | ok collected =>
              refine ⟨fun h => ⟨rfl, rfl, _, _, rfl, (Except.ok.inj h).symm⟩, ?_⟩
              rintro ⟨-, -, given', rest, h, rfl⟩
              obtain rfl := Except.ok.inj h
              rfl

end

/-- What is given and what is left over are arguments. -/
theorem collect_holds {s : Signature} {passed : Nat} {arguments : List (Argument α)}
    (ha : ∀ a ∈ arguments, P a.value) :
    ∀ {free : List Parameter} {named : Bool} {given : Entries α} {r : Entries α × List α},
      (∀ e ∈ given, P e.2) → s.collect passed free named given arguments = .ok r →
      (∀ e ∈ r.1, P e.2) ∧ ∀ v ∈ r.2, P v := by
  induction arguments with
  | nil =>
      intro free named given r hg h
      rw [collect, Except.ok.injEq] at h
      subst h
      exact ⟨hg, fun v hv => absurd hv List.not_mem_nil⟩
  | cons a arguments ih =>
      have hv : P a.value := ha a List.mem_cons_self
      replace ih := @ih fun b hb => ha b (List.mem_cons_of_mem a hb)
      obtain ⟨name, value, splat⟩ := a
      intro free named given r hg h
      cases name with
      | some name => exact ih (Entries.forall_put hg _ hv) (collect_cons_named.mp h).2.2
      | none =>
          cases free with
          | cons p free => exact ih (Entries.forall_put hg _ hv) (collect_cons_taken.mp h).2
          | nil =>
              obtain ⟨-, -, given', rest, hcollect, rfl⟩ := collect_cons_left.mp h
              obtain ⟨hgiven, hrest⟩ := ih hg hcollect
              exact ⟨hgiven, List.forall_mem_cons.mpr ⟨hv, hrest⟩⟩

/-- A parameter is bound to what was given, or to its default. -/
theorem fill_holds {parameters : List Parameter} :
    ∀ {given : Entries α} {bindings r : Entries (Binding α)}, (∀ e ∈ given, P e.2) →
      (∀ e ∈ bindings, e.2.Holds P) → fill given bindings parameters = .ok r →
      ∀ e ∈ r, e.2.Holds P := by
  induction parameters with
  | nil =>
      intro given bindings r _ hb h
      rw [fill, Except.ok.injEq] at h
      exact h ▸ hb
  | cons p parameters ih =>
      intro given bindings r hg hb h
      simp only [fill] at h
      cases hget : given.get? (Text.nameKey p.name) with
      | some value =>
          have hv : P value := hg _ (Entries.mem_of_get? hget)
          rw [hget] at h
          refine ih (fun e he => hg e ((Entries.remove_sublist _ _).subset he)) ?_ h
          have hv' : (Binding.given value).Holds P := hv
          exact Entries.forall_put hb _ hv'
      | none =>
          rw [hget] at h
          cases hd : p.default with
          | some value =>
              rw [hd] at h
              have hv : (Binding.default value : Binding α).Holds P := trivial
              exact ih hg (Entries.forall_put hb _ hv) h
          | none => rw [hd] at h; cases h

/-- What is bound to parameters and what is left over was passed. -/
theorem bind_holds {s : Signature} {callee : String} {arguments : List (Argument α)}
    {bound : BoundArguments α} (ha : ∀ a ∈ arguments, P a.value)
    (h : s.bind callee arguments = .ok bound) :
    (∀ e ∈ bound.bindings, e.2.Holds P) ∧ ∀ v ∈ bound.rest, P v := by
  simp only [bind] at h
  match hc : s.collect arguments.length s.parameters false [] arguments with
  | .error fault => rw [hc] at h; cases h
  | .ok (given, rest) =>
      obtain ⟨hgiven, hrest⟩ := collect_holds ha (fun e he => absurd he List.not_mem_nil) hc
      rw [hc] at h
      match hf : fill given [] s.parameters with
      | .error fault =>
          simp only [Bind.bind, Except.bind, hf] at h
          cases h
      | .ok bindings =>
          simp only [Bind.bind, Except.bind, hf] at h
          cases h
          exact ⟨fill_holds hgiven (fun e he => absurd he List.not_mem_nil) hf, hrest⟩

end Signature

/-! ## Statements -/

/-- The lists of statements that a statement holds. -/
def Statement.bodies : Statement → List (List Node)
  | .rule _ body | .media _ body | .mixin _ _ body | .function _ _ body | .eachLoop _ _ body
  | .forLoop _ _ _ _ body | .whileLoop _ body | .atRule _ _ (some body)
  | .includeMixin _ _ (some body) => [body]
  | .branches alternatives => alternatives.map Prod.snd
  | _ => []

/-- A statement and all those in it have a property. -/
inductive Node.All (S : Statement → Prop) : Node → Prop where
  | mk {position : Position} {statement : Statement} (own : S statement)
      (inside : ∀ body ∈ statement.bodies, ∀ n ∈ body, n.All S) : All S (.mk position statement)

theorem Node.all_mk_iff {S : Statement → Prop} {position : Position} {statement : Statement} :
    (Node.mk position statement).All S ↔
      S statement ∧ ∀ body ∈ statement.bodies, ∀ n ∈ body, n.All S :=
  ⟨fun | .mk own inside => ⟨own, inside⟩, fun ⟨own, inside⟩ => .mk own inside⟩

/-- What is inside a statement is smaller. -/
theorem Statement.sizeOf_lt_of_mem_bodies {statement : Statement} {body : List Node} {n : Node}
    (hbody : body ∈ statement.bodies) (hn : n ∈ body) : sizeOf n < sizeOf statement := by
  have hlt := List.sizeOf_lt_of_mem hn
  cases statement with
  | branches alternatives =>
      -- the size of an alternative or of a block is behind one more constructor
      obtain ⟨alternative, halternative, rfl⟩ := List.mem_map.mp hbody
      have hlt' := List.sizeOf_lt_of_mem halternative
      obtain ⟨condition, body⟩ := alternative
      simp only [Statement.branches.sizeOf_spec, Prod.mk.sizeOf_spec] at hlt hlt' ⊢
      omega
  | includeMixin _ _ content =>
      cases content with
      | none => exact absurd hbody List.not_mem_nil
      | some _ =>
          obtain rfl := List.mem_singleton.mp hbody
          simp only [Statement.includeMixin.sizeOf_spec, Option.some.sizeOf_spec]
          omega
  | atRule _ _ content =>
      cases content with
      | none => exact absurd hbody List.not_mem_nil
      | some _ =>
          obtain rfl := List.mem_singleton.mp hbody
          simp only [Statement.atRule.sizeOf_spec, Option.some.sizeOf_spec]
          omega
  | rule _ _ | media _ _ | mixin _ _ _ | function _ _ _ | eachLoop _ _ _ | forLoop _ _ _ _ _
  | whileLoop _ _ =>
      obtain rfl := List.mem_singleton.mp hbody
      simp
      omega
  | _ => exact absurd hbody List.not_mem_nil

theorem Node.all_of_forall {S : Statement → Prop} (h : ∀ statement, S statement) (n : Node) :
    n.All S := by
  obtain ⟨position, statement⟩ := n
  refine .mk (h statement) fun body hbody m hm => ?_
  exact Node.all_of_forall h m
termination_by sizeOf n
decreasing_by
  have hlt := Statement.sizeOf_lt_of_mem_bodies hbody hm
  simp only [Node.mk.sizeOf_spec]
  omega

theorem Node.All.mono {S S' : Statement → Prop} (h : ∀ statement, S statement → S' statement)
    {n : Node} (hn : n.All S) : n.All S' := by
  induction hn with
  | mk own _ ih => exact .mk (h _ own) ih

theorem Node.all_trivial (nodes : List Node) : ∀ n ∈ nodes, n.All fun _ => True :=
  fun n _ => n.all_of_forall fun _ => trivial

end Scss
