import Scss.Proofs.Interpreters
import Scss.Proofs.Splats

/-!
# Joining lists

`join` puts the items of two values in one list. Unless it is asked for a separator, the list has that
of the first value, or that of the second if the first is too short to show one.

So a list stays what it is if an empty pair of parentheses is joined to it from behind. In front of the
list the parentheses do not leave it alone. They are read as a list whose separator is settled, although
no item shows it, and its blanks win. A loop that joins lists to a variable, which began with such a
pair, puts all items in one list with blanks (`empty_joined`).
-/

namespace Scss

open Text (nameKey)

/-! ## The values that are joined -/

namespace Value

/-- What an empty pair of parentheses is read as. -/
def emptyList : Value := .list [] .space

/-- The items of two values, with the separator that one of them has. -/
def joined (v w : Value) : Value :=
  .list (v.items ++ w.items) ((v.separator.decided?.or w.separator.decided?).getD .space)

variable {items : List Value} {separator : ListSeparator}

theorem decided?_of_ne (h : separator ≠ .undecided) : separator.decided? = some separator := by
  cases separator with
  | undecided => exact absurd rfl h
  | space | comma => rfl

/-- A list with a separator keeps it, whatever is joined to it. -/
theorem list_joined (h : separator ≠ .undecided) (w : Value) :
    (Value.list items separator).joined w = .list (items ++ w.items) separator := by
  rw [joined, show (Value.list items separator).separator = separator from rfl, decided?_of_ne h]
  rfl

theorem list_joined_emptyList (h : separator ≠ .undecided) :
    (Value.list items separator).joined emptyList = .list items separator := by
  rw [list_joined h, show emptyList.items = [] from rfl, List.append_nil]

theorem emptyList_joined (w : Value) : emptyList.joined w = .list w.items .space :=
  list_joined (by decide) w

/-- Of lists joined one after another, the first gives the separator. -/
theorem foldl_joined (h : separator ≠ .undecided) (lists : List Value) :
    lists.foldl joined (.list items separator) =
      .list (items ++ lists.flatMap Value.items) separator := by
  induction lists generalizing items with
  | nil => rw [List.foldl_nil, List.flatMap_nil, List.append_nil]
  | cons v rest ih => rw [List.foldl_cons, list_joined h, ih, List.flatMap_cons, List.append_assoc]

end Value

/-- An empty pair of parentheses is a list separated by blanks. -/
theorem Grammar.readValue_emptyList (position : Position) :
    readValue "()" position = .ok Value.emptyList := rfl

/-! ## Assigning to a variable that has a value -/

namespace Scopes

variable {s : Scopes} {name : String}

theorem findSome?_rebind? {key : String} {value : Value} {frames frames' : List Frame}
    (h : rebind? key value frames = some frames') (other : String) :
    frames'.findSome? (·.values.get? other) =
      if other = key then some value else frames.findSome? (·.values.get? other) := by
  induction frames generalizing frames' with
  | nil => cases h
  | cons f outer ih =>
      rw [rebind?] at h
      split at h
      next hkey =>
        obtain rfl := Option.some.inj h
        rw [List.findSome?_cons, List.findSome?_cons, Entries.get?_put]
        by_cases hother : other = key
        · rw [if_pos hother, if_pos hother]
        · rw [if_neg hother, if_neg hother]
      next hkey =>
        obtain ⟨outer', houter, rfl⟩ := Option.map_eq_some_iff.mp h
        -- the frame in front does not bind the key, so the key is looked up behind it
        have hunbound : f.values.get? key = none := by simpa [Entries.has] using hkey
        rw [List.findSome?_cons, List.findSome?_cons, ih houter]
        by_cases hother : other = key
        · rw [if_pos hother, if_pos hother, hother, hunbound]
        · rw [if_neg hother, if_neg hother]

theorem findSome?_eq_none_of_rebind? {key : String} {value : Value} {frames : List Frame}
    (h : rebind? key value frames = none) : frames.findSome? (·.values.get? key) = none := by
  induction frames with
  | nil => rfl
  | cons f outer ih =>
      rw [rebind?] at h
      split at h
      · cases h
      next hkey =>
        have hunbound : f.values.get? key = none := by simpa [Entries.has] using hkey
        rw [List.findSome?_cons, hunbound]
        exact ih (Option.map_eq_none_iff.mp h)

/-- A variable that has a value, but none in the inner frames, has it in the root frame. -/
theorem root_has_of_rebind? (hbound : (s.valueOf? name).isSome) {value : Value}
    (h : rebind? (nameKey name) value s.inner = none) : s.root.values.has (nameKey name) := by
  rw [valueOf?, frames, List.findSome?_append, findSome?_eq_none_of_rebind? h] at hbound
  simpa [Entries.has] using hbound

/-- The variable has its new value, and others keep theirs. -/
theorem valueOf?_assign (hbound : (s.valueOf? name).isSome) (value : Value) (other : String) :
    (s.assign name value).valueOf? other =
      if nameKey other = nameKey name then some value else s.valueOf? other := by
  unfold assign
  split
  next inner hrebind =>
    rw [valueOf?, valueOf?, frames, frames, List.findSome?_append, List.findSome?_append,
      findSome?_rebind? hrebind]
    split <;> rfl
  next hrebind =>
    rw [if_pos (root_has_of_rebind? hbound hrebind), valueOf?, valueOf?, frames, frames, setGlobal,
      List.findSome?_append, List.findSome?_append]
    simp only [List.findSome?_singleton, Entries.get?_put]
    split
    next hother => rw [hother, findSome?_eq_none_of_rebind? hrebind, Option.none_or]
    next => rfl

/-- Functions are not touched. -/
theorem function?_assign (hbound : (s.valueOf? name).isSome) (value : Value) (function : String) :
    (s.assign name value).function? function = s.function? function := by
  refine Around.function?_eq ?_ function
  unfold assign
  split
  next inner hrebind => exact ⟨rebind?_stays hrebind, Frame.GainsValues.refl _⟩
  next hrebind =>
    rw [if_pos (root_has_of_rebind? hbound hrebind)]
    exact around_setGlobal s name value

/-- A variable of a scope does not come between an assignment and the variable outside. -/
theorem leave_assign_define (hbound : (s.valueOf? name).isSome) {inside : String}
    (hinside : nameKey inside ≠ nameKey name) (v value : Value) :
    ((s.enter.define inside v).assign name value).leave = s.assign name value := by
  have hframe : ((Frame.empty.values.put (nameKey inside) v).has (nameKey name)) = false := by
    simp [Entries.has, Frame.empty, Entries.get?, Ne.symm hinside]
  have henter : s.enter.define inside v =
      { s with inner := { Frame.empty with values := Frame.empty.values.put (nameKey inside) v } ::
        s.inner } := rfl
  have hrebind : rebind? (nameKey name) value (s.enter.define inside v).inner =
      (rebind? (nameKey name) value s.inner).map
        ({ Frame.empty with values := Frame.empty.values.put (nameKey inside) v } :: ·) := by
    rw [henter, rebind?, hframe]
    rfl
  rw [assign, assign, hrebind]
  cases hinner : rebind? (nameKey name) value s.inner with
  | some inner => rfl
  | none =>
      have hroot := root_has_of_rebind? hbound hinner
      rw [Option.map_none]
      simp only [henter, hroot, if_true]
      rfl

/-- A variable is seen from a scope in which another one is defined. -/
theorem valueOf?_enter_define (inside : String) (v : Value) (name : String) :
    (s.enter.define inside v).valueOf? name =
      if nameKey name = nameKey inside then some v else s.valueOf? name := by
  show (({ Frame.empty with values := Frame.empty.values.put (nameKey inside) v } :: s.frames : List
    Frame).findSome? fun f => f.values.get? (nameKey name)) = _
  rw [List.findSome?_cons, Entries.get?_put]
  by_cases hname : nameKey name = nameKey inside
  · rw [if_pos hname, if_pos hname]
  · rw [if_neg hname, if_neg hname]
    rfl

end Scopes

/-! ## Calls of `join` -/

namespace Builtin

/-- The arguments by which `join` is not asked for a separator. -/
def automatic : List (List (Argument Value)) :=
  [[], [.positional (.word "auto")], [⟨some "separator", .word "auto", false⟩]]

/-- The signature of `join`. -/
def joinSignature : Signature :=
  withDefaults (required ["list1", "list2"]) [("separator", .word "auto")]

/-- What the parameters of `join` are bound to. -/
def joinBound (v w : Value) (separator : Binding Value) : BoundArguments Value :=
  ⟨[("list1", .given v), ("list2", .given w), ("separator", separator)], none, []⟩

theorem bind_join (v w : Value) {asked : List (Argument Value)} (h : asked ∈ automatic) :
    ∃ separator ∈ [Binding.given (Value.word "auto"), .default (.word "auto")],
      joinSignature.bind "join" (.positional v :: .positional w :: asked) =
        .ok (joinBound v w separator) := by
  simp only [automatic, List.mem_cons, List.not_mem_nil, or_false] at h
  rcases h with rfl | rfl | rfl
  · exact ⟨.default (.word "auto"), by simp, by cbv⟩
  · exact ⟨.given (.word "auto"), by simp, by cbv⟩
  · exact ⟨.given (.word "auto"), by simp, by cbv⟩

theorem find?_join : ∃ f, find? "join" = some ⟨"join", joinSignature, .compute f⟩ ∧
    ∀ v w, ∀ separator ∈ [Binding.given (Value.word "auto"), .default (.word "auto")],
      f (joinBound v w separator) = .ok (v.joined w) := by
  refine ⟨_, rfl, fun v w separator h => ?_⟩
  simp only [List.mem_cons, List.not_mem_nil, or_false] at h
  rcases h with rfl | rfl <;> rfl

end Builtin

namespace Evaluation

open Compile

section
variable {call : Caller} {position : Position} {c c₁ d : Context}

/-- `join(first, second)` that leaves the separator open. -/
def joinCall (first second : Value) (asked : List (Argument Value)) : Value :=
  .call "join" (.positional first :: .positional second :: asked)

/-- `join` joins the values of its arguments. -/
theorem outcome_joinCall (hjoin : c.scopes.function? "join" = none) {first second v w : Value}
    (hfirst : (evaluate call position true first).outcome c = (.ok v, c₁))
    (hsecond : (evaluate call position true second).outcome c₁ = (.ok w, d))
    {asked : List (Argument Value)} (hasked : asked ∈ Builtin.automatic) (arithmetic : Bool) :
    (evaluate call position arithmetic (joinCall first second asked)).outcome c =
      (.ok (v.joined w), d) := by
  have hopen : (runArguments (suspendArguments call position true asked)).outcome d =
      (.ok asked, d) := by
    simp only [Builtin.automatic, List.mem_cons, List.not_mem_nil, or_false] at hasked
    rcases hasked with rfl | rfl | rfl <;> rfl
  have hpassed := outcome_positional hfirst (outcome_positional hsecond hopen)
  obtain ⟨f, hfind, hf⟩ := Builtin.find?_join
  obtain ⟨separator, hseparator, hbind⟩ := Builtin.bind_join v w hasked
  rw [joinCall, evaluate, runCall, outcome_scopes_bind, hjoin]
  simp only [hfind, runBuiltin]
  rw [outcome_bind_ok hpassed, hbind]
  show (ofFault position ((f (Builtin.joinBound v w separator)).mapError _)).outcome d = _
  rw [hf v w separator hseparator]
  rfl

end

/-! ## A loop that joins lists -/

/-- `$list: join($list, $item);` -/
def joinBody (position : Position) (list item : String) : List Node :=
  [.mk position (.assignment list (joinCall (.variable list) (.variable item) []) false false)]

/-- `@each $item in lists { $list: join($list, $item); }` -/
def joinLoop (position : Position) (list item : String) (lists : Value) : Statement :=
  .eachLoop [item] lists (joinBody position list item)

section
variable {call : Caller} {position : Position} {c d : Context} {list item : String}

/-- An assignment that is made in any case. -/
theorem outcome_assign {source w : Value}
    (hsource : (evaluate call position false source).outcome c = (.ok w, d)) (name : String) :
    (assign call position name source false false).outcome c =
      (.ok (), { d with scopes := d.scopes.assign name w }) := by
  rw [assign, outcome_scopes_bind]
  simp only [Bool.false_and, Bool.not_false, if_true]
  rw [outcome_bind_ok hsource]
  rfl

variable (hjoin : c.scopes.function? "join" = none) (hitem : nameKey item ≠ nameKey list)
include hjoin hitem

/-- One round joins its item to the list. -/
theorem outcome_joinRound {v : Value} (hv : c.scopes.valueOf? list = some v) (x : Value) :
    (inScope do
      bindItem [item] x
      runBody call (joinBody position list item)).outcome c =
        (.ok none, { c with scopes := c.scopes.assign list (v.joined x) }) := by
  -- the context in the scope of the round, where the item is bound
  let inside : Context := { c with scopes := c.scopes.enter.define item x }
  have hinside : inside.scopes.function? "join" = none := hjoin
  have hlist : inside.scopes.valueOf? list = some v := by
    rw [Scopes.valueOf?_enter_define, if_neg (Ne.symm hitem), hv]
  have hx : inside.scopes.valueOf? item = some x := by
    rw [Scopes.valueOf?_enter_define, if_pos rfl]
  have hcall : (evaluate call position false (joinCall (.variable list) (.variable item) [])).outcome
      inside = (.ok (v.joined x), inside) :=
    outcome_joinCall hinside (outcome_variable hlist true) (outcome_variable hx true)
      List.mem_cons_self false
  have hbody : (runBody call (joinBody position list item)).outcome inside =
      (.ok none, { inside with scopes := inside.scopes.assign list (v.joined x) }) := by
    rw [joinBody, runBody, runNode, runStatement]
    simp only [bind_assoc]
    rw [outcome_bind_ok (outcome_assign hcall list)]
    rfl
  have hbound : (c.scopes.valueOf? list).isSome := by rw [hv]; rfl
  rw [outcome_inScope]
  show (((runBody call (joinBody position list item)).outcome inside).1,
    left ((runBody call (joinBody position list item)).outcome inside).2) = _
  rw [hbody]
  show (_, { c with scopes := ((c.scopes.enter.define item x).assign list (v.joined x)).leave }) = _
  rw [Scopes.leave_assign_define hbound hitem]

variable (call position)

/-- The rounds of the loop join their items one after another, and other variables stay as they are. -/
theorem outcome_joinRounds (items : List Value) {v : Value} (hv : c.scopes.valueOf? list = some v) :
    ∃ d, d.scopes.valueOf? list = some (items.foldl Value.joined v) ∧
      (∀ other, nameKey other ≠ nameKey list → d.scopes.valueOf? other = c.scopes.valueOf? other) ∧
      (untilReturned (fun x => inScope do
        bindItem [item] x
        runBody call (joinBody position list item)) items).outcome c = (.ok none, d) := by
  induction items generalizing c v with
  | nil => exact ⟨c, hv, fun _ _ => rfl, rfl⟩
  | cons x rest ih =>
      have hbound : (c.scopes.valueOf? list).isSome := by rw [hv]; rfl
      -- a round leaves the variable bound, to the joined list, so the others can follow
      let next : Context := { c with scopes := c.scopes.assign list (v.joined x) }
      have hnext : next.scopes.valueOf? list = some (v.joined x) := by
        rw [Scopes.valueOf?_assign hbound, if_pos rfl]
      obtain ⟨d, hd, hothers, houtcome⟩ :=
        ih (c := next) ((Scopes.function?_assign hbound _ _).trans hjoin) hnext
      refine ⟨d, hd, fun other hother => (hothers other hother).trans ?_, ?_⟩
      · rw [Scopes.valueOf?_assign hbound, if_neg hother]
      · rw [untilReturned, outcome_bind_ok (outcome_joinRound hjoin hitem hv x)]
        exact houtcome

end

/-- A loop joins the lists that it goes through to what the variable holds, in a function and
elsewhere. -/
theorem effect_joinLoop {s : Flatten.Site} {position : Position} {c d : Context} {list item : String}
    {lists source v : Value}
    (hlists : (evaluate s.caller position false source).outcome c = (.ok lists, d))
    (hjoin : d.scopes.function? "join" = none) (hitem : nameKey item ≠ nameKey list)
    (hv : d.scopes.valueOf? list = some v) :
    ∃ e, e.scopes.valueOf? list = some (lists.items.foldl Value.joined v) ∧
      (∀ other, nameKey other ≠ nameKey list → e.scopes.valueOf? other = d.scopes.valueOf? other) ∧
      (runStatement s.caller position (joinLoop position list item source)).effect c = (.ok (), e) ∧
      (Flatten.flattenStatement s position (joinLoop position list item source)).effect c =
        (.ok (), e) := by
  obtain ⟨e, he, hothers, hrounds⟩ :=
    outcome_joinRounds s.caller position hjoin hitem lists.items hv
  have hrun : (runStatement s.caller position (joinLoop position list item source)).effect c =
      (.ok (), e) := by
    have hitems : (eachItems s.caller position source).outcome c = (.ok lists.items, d) := by
      rw [eachItems, outcome_bind_ok hlists]
      rfl
    rw [effect, joinLoop, runStatement, outcome_bind_ok hitems, hrounds]
    rfl
  have hdoes : Does (runStatement s.caller position (joinLoop position list item source))
      (Flatten.flattenStatement s position (joinLoop position list item source)) := by
    refine Does.statement position trivial fun body hbody => ?_
    obtain rfl := List.mem_singleton.mp hbody
    refine Does.body fun n hn => ?_
    obtain rfl := List.mem_singleton.mp hn
    exact Does.bind fun _ => Does.pure []
  exact ⟨e, he, hothers, hrun, (hdoes.effect c).symm.trans hrun⟩

/-- **An empty list is joined without effect behind a list, but not in front of it.** An empty pair of
parentheses is a list separated by blanks. Let a value be a list with a separator. Joined to it from
behind without asking for a separator, the empty list changes nothing. Joined to it from the front, it
leaves the items and puts blanks between them. And so a loop that joins lists to a variable that held
the empty list at first leaves all their items in one list with blanks. -/
theorem empty_joined {s : Flatten.Site} {position : Position} {c d : Context} {source : Value}
    {items : List Value} {separator : ListSeparator}
    (hjoin : c.scopes.function? "join" = none)
    (hlist : (evaluate s.caller position true source).outcome c =
      (.ok (.list items separator), d))
    (hseparator : separator ≠ .undecided) :
    (∀ place, Grammar.readValue "()" place = .ok Value.emptyList) ∧
      (∀ asked ∈ Builtin.automatic, ∀ arithmetic,
        (evaluate s.caller position arithmetic (joinCall source .emptyList asked)).outcome c =
            (.ok (.list items separator), d) ∧
          (evaluate s.caller position arithmetic (joinCall .emptyList source asked)).outcome c =
            (.ok (.list items .space), d)) ∧
      ∀ {list item : String} {lists joined : Value} {before after : Context},
        (evaluate s.caller position false lists).outcome before = (.ok joined, after) →
          after.scopes.function? "join" = none → nameKey item ≠ nameKey list →
            after.scopes.valueOf? list = some .emptyList →
              ∃ e, e.scopes.valueOf? list = some (.list (joined.items.flatMap Value.items) .space) ∧
                (runStatement s.caller position (joinLoop position list item lists)).effect before =
                  (.ok (), e) ∧
                (Flatten.flattenStatement s position (joinLoop position list item lists)).effect
                  before = (.ok (), e) := by
  have hempty : ∀ e, (evaluate s.caller position true .emptyList).outcome e = (.ok .emptyList, e) :=
    fun _ => rfl
  refine ⟨Grammar.readValue_emptyList, fun asked hasked arithmetic => ⟨?_, ?_⟩, ?_⟩
  · rw [outcome_joinCall hjoin hlist (hempty d) hasked, Value.list_joined_emptyList hseparator]
  · rw [outcome_joinCall hjoin (hempty c) hlist hasked, Value.emptyList_joined]
    rfl
  · intro list item lists joined before after hlists hafter hitem hempty
    obtain ⟨e, he, -, hrun, hflatten⟩ := effect_joinLoop hlists hafter hitem hempty
    rw [Value.emptyList, Value.foldl_joined (by decide), List.nil_append] at he
    exact ⟨e, he, hrun, hflatten⟩

/-- `$list: a, b`, `$lists: $list, (c, d)` and `$all: ()`. -/
def commaLists : Context :=
  let first : Value := .list [.word "a", .word "b"] .comma
  let second : Value := .list [.word "c", .word "d"] .comma
  withVariables [("list", first), ("lists", .list [first, second] .comma), ("all", .emptyList)]

theorem commaLists_joined :
    commaLists.scopes.function? "join" = none ∧
      commaLists.scopes.valueOf? "list" = some (.list [.word "a", .word "b"] .comma) ∧
      (evaluate (Flatten.siteOf 0 0 0).caller ⟨"", 1, 1⟩ true
        (joinCall (.variable "list") .emptyList [])).outcome commaLists =
          (.ok (.list [.word "a", .word "b"] .comma), commaLists) ∧
      ∃ e, e.scopes.valueOf? "all" =
          some (.list [.word "a", .word "b", .word "c", .word "d"] .space) ∧
        (runStatement (Flatten.siteOf 0 0 0).caller ⟨"", 1, 1⟩
          (joinLoop ⟨"", 1, 1⟩ "all" "item" (.variable "lists"))).effect commaLists = (.ok (), e) := by
  have hjoin : commaLists.scopes.function? "join" = none := by cbv
  have hlist : commaLists.scopes.valueOf? "list" = some (.list [.word "a", .word "b"] .comma) := by cbv
  have hvalue : (evaluate (Flatten.siteOf 0 0 0).caller ⟨"", 1, 1⟩ true (.variable "list")).outcome
      commaLists = (.ok (.list [.word "a", .word "b"] .comma), commaLists) :=
    outcome_variable hlist true
  obtain ⟨-, hcalls, hloops⟩ := empty_joined hjoin hvalue (by decide)
  have hlists : commaLists.scopes.valueOf? "lists" = some (.list [
      .list [.word "a", .word "b"] .comma, .list [.word "c", .word "d"] .comma] .comma) := by cbv
  have hitem : nameKey "item" ≠ nameKey "all" := by cbv
  obtain ⟨e, hall, hrun, -⟩ := hloops (outcome_variable hlists false) hjoin hitem (by cbv)
  exact ⟨hjoin, hlist, (hcalls [] List.mem_cons_self true).1, e, hall, hrun⟩

/-- `join((), $list)` has blanks where `$list` has a comma. -/
theorem emptyInFront_drops_commas : ∃ empty,
    Grammar.readValue "()" ⟨"", 1, 1⟩ = .ok empty ∧
      commaLists.scopes.valueOf? "list" = some (.list [.word "a", .word "b"] .comma) ∧
      (evaluate (Flatten.siteOf 0 0 0).caller ⟨"", 1, 1⟩ true
        (joinCall empty (.variable "list") [])).outcome commaLists =
          (.ok (.list [.word "a", .word "b"] .space), commaLists) :=
  ⟨.emptyList, rfl, by cbv, by cbv⟩

end Evaluation

end Scss
