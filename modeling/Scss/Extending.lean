import Scss.Context
import Scss.Selector.Set

/-!
# Applying extensions

Every rule of a flattened stylesheet gets the selectors that follow from the recorded extensions,
and those that follow from these in turn. Selectors that can match nothing are then dropped, and so
are added selectors that ask for more than another one does. A rule without selectors goes, and so
does a media directive without rules.
-/

namespace Scss.Extending

/-- How far the closure of a selector list has come: the selectors so far, those whose extensions
are still to be looked at, and whether each extension has applied. -/
structure Progress where
  set : SelectorSet
  queue : List Selector
  matched : List Bool

/-- Adds a selector, and puts it in the queue if it is new. -/
def add (limit : Nat) (p : Progress) (s : Selector) : Except Failure Progress :=
  if h : s ∈ p.set then .ok p
  else
    let set := p.set.push s h
    if limit < set.size then .error (.limitExceeded .extendedSelectors limit)
    else .ok { p with set, queue := p.queue ++ [s] }

/-- Adds what follows from one selector by each extension. `matched` are the marks of the extensions
already looked at, in reverse. -/
def extendBy (limit : Nat) (s : Selector) (p : Progress) :
    List (Extension × Bool) → Except Failure Progress
  | [] => .ok { p with matched := p.matched.reverse }
  | (e, mark) :: rest => do
    let generated := s.extendWith e
    let p ← generated.foldlM (add limit) p
    extendBy limit s { p with matched := (mark || !generated.isEmpty) :: p.matched } rest

/-- Adds what follows from the queue until it is empty. `fuel` bounds how many selectors are taken
from it; each was put there when it was added to the set. -/
def close (limit : Nat) (extensions : List Extension) : Nat → Progress → Except Failure Progress
  | 0, p => .ok p
  | fuel + 1, p =>
    match p.queue with
    | [] => .ok p
    | s :: queue => do
      let next ← extendBy limit s { p with queue, matched := [] } (extensions.zip p.matched)
      close limit extensions fuel next

/-- The selectors of a rule after extending, and which extensions have applied so far. -/
def extendSelectors (extensions : List Extension) (matched : List Bool) (written : List Selector) :
    Except Failure (List Selector × List Bool) := do
  let start := SelectorSet.ofList written
  let closed ← close maxSelectors extensions (start.size + maxSelectors)
    ⟨start, start.toList, matched⟩
  let spared := (start.toList.filter Selector.canMatch).length
  return (((closed.set.filter Selector.canMatch).eliminate spared).toList, closed.matched)

mutual

/-- The statements with the selectors of their rules extended. -/
def extendNodes (extensions : List Extension) (matched : List Bool) :
    List Node → Except Failure (List Node × List Bool)
  | [] => .ok ([], matched)
  | node :: rest => do
    let (front, matched) ← extendNode extensions matched node
    let (nodes, matched) ← extendNodes extensions matched rest
    return (front ++ nodes, matched)

def extendNode (extensions : List Extension) (matched : List Bool) :
    Node → Except Failure (List Node × List Bool)
  | .mk position statement => do
    let (statements, matched) ← extendStatement extensions matched statement
    return (statements.map (Node.mk position), matched)

/-- The statement that is left, if any. -/
def extendStatement (extensions : List Extension) (matched : List Bool) :
    Statement → Except Failure (List Statement × List Bool)
  | .rule source body => do
    let written := match source with
      | .parsed selectors => selectors
      | .interpolated _ => []
    let (selectors, matched) ← extendSelectors extensions matched written
    return (if selectors.isEmpty then [] else [.rule (.parsed selectors) body], matched)
  | .media query body => do
    let (body, matched) ← extendNodes extensions matched body
    return (if body.isEmpty then [] else [.media query body], matched)
  | .atRule name prelude (some body) => do
    let (body, matched) ← extendNodes extensions matched body
    return ([.atRule name prelude (some body)], matched)
  | statement => .ok ([statement], matched)

end

/-- The warning about an extension that applied nowhere. -/
def unmatchedWarning (e : Extension) : String :=
  "\"" ++ e.extending.text ++ "\" failed to @extend \"" ++ e.target.text ++
    "\": the selector was not found. Use \"@extend " ++ e.target.text ++
    " !optional\" if the extend should be able to fail."

/-- Applies the recorded extensions, and warns of those that applied nowhere. -/
def run (nodes : List Node) : Compile (List Node) := do
  let extensions := (← get).extensions
  match extendNodes extensions (extensions.map fun _ => false) nodes with
  | .error failure => throw failure
  | .ok (nodes, matched) => do
    (extensions.zip matched).forM fun (e, applied) =>
      if applied || e.optional then pure () else Compile.warn e.position (unmatchedWarning e)
    return nodes

end Scss.Extending
