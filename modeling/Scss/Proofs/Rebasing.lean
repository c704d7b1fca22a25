import Mathlib
import Scss.Proofs.Evaluated
import Scss.Proofs.Naturality

/-!
# Which urls are rebased

The urls of an imported stylesheet should all be rebased, wherever they stand in a value. That says
two things of what becomes of a value (`Rebases`). A url that is given as one word or string gets its
path rebased. Any other value keeps its outline, which is all of it but the values in it, and those
become what they should.

`Value.rebaseUrls` looks into lists and expressions, but not into the arguments of a function. So it
does as it should where no url among them would have to change (`IsReached`), and nowhere else
(`rebaseUrls_rebases_iff`).
-/

namespace Scss.Value

/-! ## Urls and outlines -/

/-- The path of a url that is given as one word or string. -/
def urlPath? : Value → Option String
  | .call name [argument] =>
    if Text.sameIgnoringCase name "url" then argument.value.text? else none
  | _ => none

/-- A word or string with another text. -/
def withText (text : String) : Value → Value
  | .quoted _ quote => .quoted text quote
  | .word _ => .word text
  | v => v

/-- A url with another path. -/
def withUrlPath (path : String) : Value → Value
  | .call name [argument] => .call name [{ argument with value := argument.value.withText path }]
  | v => v

/-- All of a value but the values in it. -/
def outline : Value → Value
  | .call name arguments => .call name (arguments.map fun a => { a with value := .null })
  | .list items separator => .list (items.map fun _ => .null) separator
  | .expression tokens => .expression (tokens.map (ExprToken.map fun _ => .null))
  | .paren _ => .paren .null
  | .interpolated pieces quote =>
    .interpolated (pieces.map fun
      | .literal text => .literal text
      | .embedded _ => .embedded .null) quote
  | v => v

/-- What becomes of a value if all urls in it are rebased and nothing else is changed. -/
inductive Rebases (base : String) : Value → Value → Prop where
  | url {v : Value} {path : String} (hpath : v.urlPath? = some path) :
      Rebases base v (v.withUrlPath (UrlPath.rebase base path))
  | other {v w : Value} (hurl : v.urlPath? = none) (houtline : w.outline = v.outline)
      (hparts : List.Forall₂ (Rebases base) v.parts w.parts) : Rebases base v w

/-- No url in the value changes if it is rebased. -/
def IsSettled (base : String) (v : Value) : Prop :=
  v.All fun w => ∀ path, w.urlPath? = some path → UrlPath.rebase base path = path

/-- A value in which a url that has to change stands neither among the arguments of a function nor
with a name or dots at its path. -/
inductive IsReached (base : String) : Value → Prop where
  | plain {v : Value} (h : v.parts = []) : IsReached base v
  | url {name path : String} {argument : Argument Value}
      (hpath : urlPath? (.call name [argument]) = some path)
      (hpositional : argument = .positional argument.value) : IsReached base (.call name [argument])
  | call {name : String} {arguments : List (Argument Value)}
      (hurl : urlPath? (.call name arguments) = none)
      (h : ∀ a ∈ arguments, a.value.IsSettled base) : IsReached base (.call name arguments)
  | list {items : List Value} {separator : ListSeparator} (h : ∀ v ∈ items, IsReached base v) :
      IsReached base (.list items separator)
  | expression {tokens : List (ExprToken Value)} (h : ∀ v, .operand v ∈ tokens → IsReached base v) :
      IsReached base (.expression tokens)

variable {base : String}

theorem exists_of_urlPath? {v : Value} {path : String} (h : v.urlPath? = some path) :
    ∃ name argument, v = .call name [argument] ∧ Text.sameIgnoringCase name "url" = true ∧
      argument.value.text? = some path := by
  unfold urlPath? at h
  split at h
  next name argument =>
    split at h
    next hname => exact ⟨name, argument, rfl, hname, h⟩
    · cases h
  · cases h

theorem withText_of_text? {v : Value} {text : String} (h : v.text? = some text) :
    v.withText text = v := by
  cases v with
  | quoted _ _ | word _ => cases h; rfl
  | _ => cases h

theorem text?_withText {v : Value} {text : String} (h : v.text? = some text) (other : String) :
    (v.withText other).text? = some other := by
  cases v with
  | quoted _ _ | word _ => rfl
  | _ => cases h

/-- A word or string holds no values. -/
theorem parts_of_text? {v : Value} {text : String} (h : v.text? = some text) : v.parts = [] := by
  cases v with
  | quoted _ _ | word _ => rfl
  | _ => cases h

theorem urlPath?_of_parts {v : Value} (h : v.parts = []) : v.urlPath? = none := by
  cases hpath : v.urlPath? with
  | none => rfl
  | some path =>
      obtain ⟨name, argument, rfl, -⟩ := exists_of_urlPath? hpath
      cases h

/-- A url with its path given another text. -/
theorem urlPath?_withUrlPath {v : Value} {path : String} (h : v.urlPath? = some path) (other : String) :
    (v.withUrlPath other).urlPath? = some other := by
  obtain ⟨name, argument, rfl, hname, htext⟩ := exists_of_urlPath? h
  rw [withUrlPath, urlPath?, if_pos hname, text?_withText htext]

theorem withUrlPath_self {v : Value} {path : String} (h : v.urlPath? = some path) :
    v.withUrlPath path = v := by
  obtain ⟨name, argument, rfl, -, htext⟩ := exists_of_urlPath? h
  rw [withUrlPath, withText_of_text? htext]

/-! ## What becomes of a value -/

variable {v w : Value}

theorem rebases_url_iff {path : String} (hpath : v.urlPath? = some path) :
    Rebases base v w ↔ w = v.withUrlPath (UrlPath.rebase base path) := by
  constructor
  · intro h
    cases h with
    | url hpath' => rw [Option.some.inj (hpath'.symm.trans hpath)]
    | other hurl => exact nomatch hurl.symm.trans hpath
  · rintro rfl
    exact .url hpath

theorem rebases_other_iff (hurl : v.urlPath? = none) :
    Rebases base v w ↔ w.outline = v.outline ∧ List.Forall₂ (Rebases base) v.parts w.parts := by
  constructor
  · intro h
    cases h with
    | url hpath => exact nomatch hurl.symm.trans hpath
    | other _ houtline hparts => exact ⟨houtline, hparts⟩
  · rintro ⟨houtline, hparts⟩
    exact .other hurl houtline hparts

/-- A list whose elements hold some values is known from the values and from the rest. -/
theorem eq_of_filterMap_eq {α β : Type} {f : α → β} {g : α → Option Value}
    (hholds : ∀ a b, f a = f b → (g a).isSome = (g b).isSome)
    (hext : ∀ a b, f a = f b → g a = g b → a = b) {xs ys : List α} (hf : xs.map f = ys.map f)
    (hg : xs.filterMap g = ys.filterMap g) : xs = ys := by
  induction xs generalizing ys with
  | nil => exact (List.map_eq_nil_iff.mp hf.symm).symm
  | cons x xs ih =>
      cases ys with
      | nil => cases hf
      | cons y ys =>
          obtain ⟨hxy, hf⟩ := List.cons.inj hf
          have hboth := hholds x y hxy
          cases hx : g x with
          | none =>
              cases hy : g y with
              | some w => simp [hx, hy] at hboth
              | none =>
                  rw [List.filterMap_cons_none hx, List.filterMap_cons_none hy] at hg
                  rw [hext x y hxy (hx.trans hy.symm), ih hf hg]
          | some v =>
              cases hy : g y with
              | none => simp [hx, hy] at hboth
              | some w =>
                  rw [List.filterMap_cons_some hx, List.filterMap_cons_some hy] at hg
                  obtain ⟨hvw, hg⟩ := List.cons.inj hg
                  rw [hext x y hxy (hx.trans (hvw ▸ hy.symm)), ih hf hg]

/-- **A value is known from its outline and the values in it.** -/
theorem eq_of_outline (houtline : v.outline = w.outline) (hparts : v.parts = w.parts) : v = w := by
  cases v with
  | call name arguments =>
      cases w with
      | call name' arguments' =>
          obtain ⟨rfl, hrests⟩ := Value.call.inj houtline
          have hvalues : arguments.map Argument.value = arguments'.map Argument.value := hparts
          rw [← List.filterMap_eq_map] at hvalues
          rw [eq_of_filterMap_eq (fun _ _ _ => rfl) ?_ hrests hvalues]
          rintro ⟨label, value, splat⟩ ⟨label', value', splat'⟩ hrest hvalue
          obtain ⟨hlabel, -, hsplat⟩ := Argument.mk.inj hrest
          exact Argument.mk.injEq .. ▸ ⟨hlabel, Option.some.inj hvalue, hsplat⟩
      | _ => cases houtline
  | list items separator =>
      cases w with
      | list items' separator' =>
          obtain ⟨-, rfl⟩ := Value.list.inj houtline
          exact congrArg (Value.list · separator) hparts
      | _ => cases houtline
  | expression tokens =>
      cases w with
      | expression tokens' =>
          rw [eq_of_filterMap_eq ?_ ?_ (Value.expression.inj houtline) hparts]
          · -- what is left of a token tells whether it is an operand
            intro a b h
            cases a <;> cases b <;> first | rfl | cases h
          · intro a b h hvalue
            cases a <;> cases b <;> cases h <;> first | rfl | cases hvalue; rfl
      | _ => cases houtline
  | paren inner =>
      cases w with
      | paren inner' => rw [(List.cons.inj hparts).1]
      | _ => cases houtline
  | interpolated pieces quote =>
      cases w with
      | interpolated pieces' quote' =>
          obtain ⟨hrests, rfl⟩ := Value.interpolated.inj houtline
          rw [eq_of_filterMap_eq ?_ ?_ hrests hparts]
          · intro a b h
            cases a <;> cases b <;> first | rfl | cases h
          · intro a b h hvalue
            cases a <;> cases b <;> cases h <;> first | rfl | cases hvalue; rfl
      | _ => cases houtline
  | _ => cases w <;> first | exact houtline | cases houtline

/-- Of each element of a list comes one, so of the list comes one. -/
theorem eq_of_forall₂ {α β : Type} {R : α → β → Prop} {xs : List α} {ys zs : List β}
    (hone : ∀ x ∈ xs, ∀ y z, R x y → R x z → y = z) (hys : List.Forall₂ R xs ys)
    (hzs : List.Forall₂ R xs zs) : ys = zs := by
  induction hys generalizing zs with
  | nil =>
      cases hzs
      rfl
  | cons hxy _ ih =>
      cases hzs with
      | cons hxz hzs =>
          rw [hone _ List.mem_cons_self _ _ hxy hxz,
            ih (fun x hx => hone x (List.mem_cons_of_mem _ hx)) hzs]

/-- **There is one value that a value should become.** -/
theorem Rebases.unique {u : Value} (hw : Rebases base v w) (hu : Rebases base v u) : w = u := by
  have hall : v.All fun _ => True := all_of_forall (fun _ => trivial) v
  induction hall generalizing w u with
  | @mk v _ _ ih =>
      cases hurl : v.urlPath? with
      | some path =>
          rw [rebases_url_iff hurl] at hw hu
          rw [hw, hu]
      | none =>
          rw [rebases_other_iff hurl] at hw hu
          refine eq_of_outline (hw.1.trans hu.1.symm) ?_
          exact eq_of_forall₂ (fun x hx _ _ hy hz => ih x hx hy hz) hw.2 hu.2

theorem isSettled_iff : v.IsSettled base ↔
    (∀ path, v.urlPath? = some path → UrlPath.rebase base path = path) ∧
      ∀ w ∈ v.parts, w.IsSettled base := by
  constructor
  · intro h
    cases h with
    | mk own inside => exact ⟨own, inside⟩
  · rintro ⟨own, inside⟩
    exact .mk own inside

theorem isSettled_of_parts (h : v.parts = []) : v.IsSettled base := by
  rw [isSettled_iff, urlPath?_of_parts h, h]
  exact ⟨nofun, nofun⟩

/-- **A value stays as it is if all urls in it do, and only then.** -/
theorem rebases_self_iff : Rebases base v v ↔ v.IsSettled base := by
  have hall : v.All fun _ => True := all_of_forall (fun _ => trivial) v
  induction hall with
  | @mk v _ _ ih =>
      cases hurl : v.urlPath? with
      | none =>
          rw [rebases_other_iff hurl, isSettled_iff, hurl, List.forall₂_same]
          constructor
          · exact fun h => ⟨nofun, fun w hw => (ih w hw).mp (h.2 w hw)⟩
          · exact fun h => ⟨rfl, fun w hw => (ih w hw).mpr (h.2 w hw)⟩
      | some path =>
          have hparts : ∀ w ∈ v.parts, w.IsSettled base := by
            obtain ⟨name, argument, rfl, -, htext⟩ := exists_of_urlPath? hurl
            exact List.forall_mem_singleton.mpr (isSettled_of_parts (parts_of_text? htext))
          rw [rebases_url_iff hurl, isSettled_iff, hurl]
          constructor
          · intro h
            have hpath := urlPath?_withUrlPath hurl (UrlPath.rebase base path)
            rw [← h, hurl] at hpath
            refine ⟨fun other hother => ?_, hparts⟩
            rw [← Option.some.inj hother]
            exact (Option.some.inj hpath).symm
          · intro h
            rw [h.1 path rfl, withUrlPath_self hurl]

/-! ## What is done -/

theorem rebaseItems_eq (items : List Value) : rebaseItems base items = items.map (rebaseUrls base) := by
  induction items with
  | nil => rfl
  | cons item rest ih => rw [rebaseItems, ih, List.map_cons]

theorem rebaseTokens_eq (tokens : List (ExprToken Value)) :
    rebaseTokens base tokens = tokens.map (ExprToken.map (rebaseUrls base)) := by
  induction tokens with
  | nil => rfl
  | cons token rest ih =>
      cases token with
      | operand v =>
          rw [rebaseTokens, ih]
          rfl
      | operator op =>
          rw [rebaseTokens, ih]
          · rfl
          · exact nofun
      | blank =>
          rw [rebaseTokens, ih]
          · rfl
          · exact nofun

theorem operands_map {α β : Type} (f : α → β) (tokens : List (ExprToken α)) :
    (tokens.map (ExprToken.map f)).filterMap ExprToken.operand? =
      (tokens.filterMap ExprToken.operand?).map f := by
  have hone : ExprToken.operand? ∘ ExprToken.map f = fun t => t.operand?.map f := by
    funext t
    cases t <;> rfl
  rw [List.filterMap_map, List.map_filterMap, hone]

/-! ## Where all urls are reached -/

theorem isReached_url_iff {name path : String} {argument : Argument Value}
    (hpath : urlPath? (.call name [argument]) = some path) :
    IsReached base (.call name [argument]) ↔ argument = .positional argument.value := by
  constructor
  · intro h
    cases h with
    | plain hparts => cases hparts
    | url _ hpositional => exact hpositional
    | call hurl => exact nomatch hurl.symm.trans hpath
  · exact .url hpath

theorem isReached_call_iff {name : String} {arguments : List (Argument Value)}
    (hurl : urlPath? (.call name arguments) = none) :
    IsReached base (.call name arguments) ↔ ∀ a ∈ arguments, a.value.IsSettled base := by
  constructor
  · intro h
    cases h with
    | plain hparts =>
        obtain rfl := List.map_eq_nil_iff.mp hparts
        exact nofun
    | url hpath => exact nomatch hurl.symm.trans hpath
    | call _ h => exact h
  · exact .call hurl

theorem isReached_list_iff {items : List Value} {separator : ListSeparator} :
    IsReached base (.list items separator) ↔ ∀ v ∈ items, v.IsReached base := by
  constructor
  · intro h
    cases h with
    | plain hparts =>
        obtain rfl : items = [] := hparts
        exact nofun
    | list h => exact h
  · exact .list

theorem isReached_expression_iff {tokens : List (ExprToken Value)} :
    IsReached base (.expression tokens) ↔ ∀ v ∈ tokens.filterMap ExprToken.operand?, v.IsReached base := by
  constructor
  · intro h
    cases h with
    | plain hparts =>
        have hnone : tokens.filterMap ExprToken.operand? = [] := hparts
        rw [hnone]
        exact nofun
    | expression h => exact fun v hv => h v (ExprToken.mem_operands.mp hv)
  · exact fun h => .expression fun v hv => h v (ExprToken.mem_operands.mpr hv)

/-- The path of a url is rebased, and what is said about its argument is dropped. -/
theorem rebaseUrls_url {name path : String} {argument : Argument Value}
    (hpath : urlPath? (.call name [argument]) = some path) :
    rebaseUrls base (.call name [argument]) =
      .call name [.positional (argument.value.withText (UrlPath.rebase base path))] := by
  obtain ⟨name', argument', heq, hname, htext⟩ := exists_of_urlPath? hpath
  cases heq
  have hrebased : rebasePath? base argument.value =
      some (argument.value.withText (UrlPath.rebase base path)) := by
    cases hvalue : argument.value with
    | quoted _ _ | word _ =>
        rw [hvalue] at htext
        cases htext
        rfl
    | _ =>
        rw [hvalue] at htext
        cases htext
  rw [rebaseUrls, if_pos hname, hrebased]

/-- Any other call is left as it is. -/
theorem rebaseUrls_call {name : String} {arguments : List (Argument Value)}
    (hv : IsEvaluated (.call name arguments)) (hurl : urlPath? (.call name arguments) = none) :
    rebaseUrls base (.call name arguments) = .call name arguments := by
  match arguments with
  | [] | _ :: _ :: _ => rfl
  | [argument] =>
      rw [rebaseUrls]
      split
      next hname =>
        have htext : argument.value.text? = none := by
          rwa [urlPath?, if_pos hname] at hurl
        have hrebased : rebasePath? base argument.value = none := by
          have hvalue := Kind.isEvaluated.ofCall hv argument List.mem_cons_self
          generalize argument.value = value at htext hvalue
          cases hvalue with
          | quoted _ _ | word _ => cases htext
          | _ => rfl
        rw [hrebased]
      · rfl

theorem rebases_rebaseUrls_url {name path : String} {argument : Argument Value}
    (hpath : urlPath? (.call name [argument]) = some path) :
    Rebases base (.call name [argument]) (rebaseUrls base (.call name [argument])) ↔
      argument = .positional argument.value := by
  rw [rebases_url_iff hpath, rebaseUrls_url hpath, withUrlPath]
  constructor
  · intro h
    obtain ⟨hargument, -⟩ := List.cons.inj (Value.call.inj h).2
    obtain ⟨hname, -, hsplat⟩ := Argument.mk.inj hargument
    obtain ⟨name, value, splat⟩ := argument
    obtain ⟨rfl, rfl⟩ : name = none ∧ splat = false := ⟨hname.symm, hsplat.symm⟩
    rfl
  · intro h
    rw [h]
    rfl

theorem outline_list_map (f : Value → Value) (items : List Value) (separator : ListSeparator) :
    outline (.list (items.map f) separator) = outline (.list items separator) := by
  rw [outline, outline, List.map_map]
  rfl

theorem outline_expression_map (f : Value → Value) (tokens : List (ExprToken Value)) :
    outline (.expression (tokens.map (ExprToken.map f))) = outline (.expression tokens) := by
  have hone : ExprToken.map (fun _ => null) ∘ ExprToken.map f = ExprToken.map fun _ => null := by
    funext t
    cases t <;> rfl
  rw [outline, outline, List.map_map, hone]

/-- What becomes of a value is what should, if all urls in it are reached, and only then. -/
theorem rebases_rebaseUrls (hv : v.IsEvaluated) (base : String) :
    Rebases base v (v.rebaseUrls base) ↔ v.IsReached base := by
  induction v using Value.induction with
  -- a value without parts is left as it is; what is not evaluated yet does not come up
  | null | number | color | quoted | word => exact ⟨fun _ => .plain rfl, fun _ => .other rfl rfl .nil⟩
  | var | paren | interpolated => exact nomatch hv
  | call name arguments _ =>
      cases hurl : urlPath? (.call name arguments) with
      | none =>
          rw [rebaseUrls_call hv hurl, rebases_self_iff, isSettled_iff, hurl, isReached_call_iff hurl]
          constructor
          · exact fun h a ha => h.2 a.value (List.mem_map_of_mem ha)
          · exact fun h => ⟨nofun, List.forall_mem_map.mpr h⟩
      | some path =>
          obtain ⟨_, argument, heq, -⟩ := exists_of_urlPath? hurl
          obtain ⟨-, rfl⟩ := Value.call.inj heq
          rw [rebases_rebaseUrls_url hurl, isReached_url_iff hurl]
  | list items separator ih =>
      have hitems := Kind.isEvaluated.ofList hv
      rw [rebases_other_iff rfl, rebaseUrls, rebaseItems_eq, isReached_list_iff, outline_list_map]
      show _ ∧ List.Forall₂ _ items (items.map _) ↔ _
      rw [List.forall₂_map_right_iff, List.forall₂_same]
      constructor
      · exact fun h v hv => (ih v hv (hitems v hv)).mp (h.2 v hv)
      · exact fun h => ⟨rfl, fun v hv => (ih v hv (hitems v hv)).mpr (h v hv)⟩
  | expression tokens ih =>
      have hoperands := Kind.isEvaluated.ofExpression hv
      rw [rebases_other_iff rfl, rebaseUrls, rebaseTokens_eq, isReached_expression_iff,
        outline_expression_map]
      show _ ∧ List.Forall₂ _ (tokens.filterMap ExprToken.operand?)
        ((tokens.map _).filterMap ExprToken.operand?) ↔ _
      rw [operands_map, List.forall₂_map_right_iff, List.forall₂_same]
      have hone : ∀ v ∈ tokens.filterMap ExprToken.operand?,
          (Rebases base v (v.rebaseUrls base) ↔ v.IsReached base) := fun v hv =>
        ih v (ExprToken.mem_operands.mp hv) (hoperands v (ExprToken.mem_operands.mp hv))
      constructor
      · exact fun h v hv => (hone v hv).mp (h.2 v hv)
      · exact fun h => ⟨rfl, fun v hv => (hone v hv).mpr (h v hv)⟩

/--
**All urls are rebased but those among the arguments of functions.**

What becomes of an evaluated value is the one value that should become of it, in which every url that
is given as one word or string has its path rebased and nothing else is changed, if no function in it
has a url among its arguments, at any depth, that would have to change, and no path has a name in front
of it or three dots behind it; and otherwise it is not.
-/
theorem rebaseUrls_rebases_iff (hv : v.IsEvaluated) (base : String) :
    (∀ w, Rebases base v w ↔ w = v.rebaseUrls base) ↔ v.IsReached base := by
  rw [← rebases_rebaseUrls hv base]
  constructor
  · exact fun h => (h _).mpr rfl
  · intro h w
    constructor
    · exact fun hw => hw.unique h
    · rintro rfl
      exact h

/-- The value `url(i.png) left` of a stylesheet in `t/` becomes `url(t/i.png) left`. -/
theorem iconOnTheLeft_rebased :
    let icon (path : String) : Value := .call "url" [.positional (.word path)]
    let v : Value := .list [icon "i.png", .word "left"] .space
    v.IsEvaluated ∧ v.IsReached "t/" ∧
      ∀ w, Rebases "t/" v w ↔ w = .list [icon "t/i.png", .word "left"] .space := by
  intro icon v
  have hv : v.IsEvaluated := .list (List.forall_mem_cons.mpr
    ⟨.call (List.forall_mem_singleton.mpr (.word _)), List.forall_mem_singleton.mpr (.word _)⟩)
  have hpath : urlPath? (icon "i.png") = some "i.png" := by cbv
  have hreached : v.IsReached "t/" := .list (List.forall_mem_cons.mpr
    ⟨.url hpath rfl, List.forall_mem_singleton.mpr (.plain rfl)⟩)
  have hbecomes : v.rebaseUrls "t/" = .list [icon "t/i.png", .word "left"] .space := by
    have hrebased : UrlPath.rebase "t/" "i.png" = "t/i.png" := by decide +kernel
    rw [rebaseUrls, rebaseItems_eq, List.map_cons, rebaseUrls_url hpath, hrebased]
    rfl
  exact ⟨hv, hreached, hbecomes ▸ (rebaseUrls_rebases_iff hv "t/").mpr hreached⟩

/-- The url in `image-set(url("i.png"))` stays as it is, so that it leads elsewhere. -/
theorem imageSet_keeps_url :
    let icon : Value := .call "url" [.positional (.quoted "i.png" '"')]
    let v : Value := .call "image-set" [.positional icon]
    v.IsEvaluated ∧ v.rebaseUrls "t/" = v ∧ ¬Rebases "t/" v (v.rebaseUrls "t/") := by
  intro icon v
  have hv : v.IsEvaluated := .call (List.forall_mem_singleton.mpr
    (.call (List.forall_mem_singleton.mpr (.quoted _ _))))
  have hsame : v.rebaseUrls "t/" = v := rebaseUrls_call hv (by cbv)
  refine ⟨hv, hsame, fun h => ?_⟩
  rw [hsame, rebases_self_iff, isSettled_iff] at h
  have hicon := (isSettled_iff.mp (h.2 icon List.mem_cons_self)).1 "i.png" (by cbv)
  have hrebased : UrlPath.rebase "t/" "i.png" = "t/i.png" := by decide +kernel
  exact absurd (hrebased.symm.trans hicon) (by decide)

end Scss.Value
