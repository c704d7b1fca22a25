import Scss.Extending
import Scss.Proofs.Parts

/-!
# The closure of a selector list

Extending a rule works off a queue: each selector in turn is taken from it, and what follows from the
selector by each extension is put at its end if it is new. What comes out should be what follows
from the written selectors in any number of steps, and nothing else.

The invariant of the queue (`Closing`) is the usual one of a search. Whatever is in the set follows
from what was written; and whatever follows from a selector of the set by one step is in the set too,
unless the selector still waits in the queue. When the queue is empty the second half says that the
set is closed. That it ever is empty is a matter of counting: each selector enters the queue once,
and there is a bound on how many there are.
-/

namespace Scss.Extending

/-- What follows from a selector list by extensions, in any number of steps. -/
inductive Derived (extensions : List Extension) (written : List Selector) : Selector → Prop where
  | written {s : Selector} (hs : s ∈ written) : Derived extensions written s
  | extended {s t : Selector} {e : Extension} (hs : Derived extensions written s)
      (he : e ∈ extensions) (ht : t ∈ s.extendWith e) : Derived extensions written t

/-- What extending keeps holds of every selector that follows. -/
theorem Derived.keeps {P : Selector → Prop} {extensions : List Extension}
    (hP : ∀ e ∈ extensions, ∀ s t : Selector, P s → t ∈ s.extendWith e → P t)
    {written : List Selector} (hwritten : ∀ s ∈ written, P s) {s : Selector}
    (h : Derived extensions written s) : P s := by
  induction h with
  | written hs => exact hwritten _ hs
  | extended _ he ht ih => exact hP _ he _ _ ih ht

/-! ## Adding -/

/-- Between two states the same selectors have come to the set and to the queue, all of them with a
property, and the set has kept the limit if there were any. -/
def Grows (limit : Nat) (P : Selector → Prop) (p q : Progress) : Prop :=
  ∃ added, q.set.toList = p.set.toList ++ added ∧ q.queue = p.queue ++ added ∧
    (∀ s ∈ added, P s) ∧ (added = [] ∨ q.set.size ≤ limit)

namespace Grows

variable {limit : Nat} {P Q : Selector → Prop} {p q r : Progress}

theorem refl (hset : q.set = p.set) (hqueue : q.queue = p.queue) : Grows limit P p q :=
  ⟨[], by rw [hset, List.append_nil], by rw [hqueue, List.append_nil], by simp, Or.inl rfl⟩

theorem trans (hpq : Grows limit P p q) (hqr : Grows limit P q r) : Grows limit P p r := by
  obtain ⟨first, hset, hqueue, hfirst, hsize⟩ := hpq
  obtain ⟨second, hset', hqueue', hsecond, hsize'⟩ := hqr
  refine ⟨first ++ second, by rw [hset', hset, List.append_assoc],
    by rw [hqueue', hqueue, List.append_assoc], ?_, ?_⟩
  · intro s hs
    rcases List.mem_append.mp hs with hs | hs
    · exact hfirst s hs
    · exact hsecond s hs
  · rcases hsize' with rfl | hsize'
    · rw [List.append_nil] at hset' ⊢
      rwa [SelectorSet.size, hset']
    · exact Or.inr hsize'

theorem mono (h : Grows limit P p q) (hPQ : ∀ s, P s → Q s) : Grows limit Q p q := by
  obtain ⟨added, hset, hqueue, hadded, hsize⟩ := h
  exact ⟨added, hset, hqueue, fun s hs => hPQ s (hadded s hs), hsize⟩

theorem mem (h : Grows limit P p q) {s : Selector} (hs : s ∈ p.set) : s ∈ q.set := by
  obtain ⟨added, hset, -⟩ := h
  show s ∈ q.set.toList
  rw [hset]
  exact List.mem_append_left _ hs

end Grows

theorem add_grows {limit : Nat} {p q : Progress} {s : Selector} (h : add limit p s = .ok q) :
    Grows limit (· = s) p q ∧ s ∈ q.set ∧ q.matched = p.matched := by
  unfold add at h
  split at h
  next hold =>
    obtain rfl := Except.ok.inj h
    exact ⟨Grows.refl rfl rfl, hold, rfl⟩
  next hnew =>
    dsimp only at h
    split at h
    · cases h
    next hsize =>
      obtain rfl := Except.ok.inj h
      refine ⟨⟨[s], rfl, rfl, ?_, Or.inr (Nat.le_of_not_lt hsize)⟩, ?_, rfl⟩
      · exact fun t ht => List.mem_singleton.mp ht
      · exact List.mem_append_right p.set.toList List.mem_cons_self

theorem addAll_grows {limit : Nat} {ss : List Selector} {p q : Progress}
    (h : ss.foldlM (add limit) p = .ok q) :
    Grows limit (· ∈ ss) p q ∧ (∀ s ∈ ss, s ∈ q.set) ∧ q.matched = p.matched := by
  induction ss generalizing p with
  | nil =>
      obtain rfl := Except.ok.inj h
      exact ⟨Grows.refl rfl rfl, by simp, rfl⟩
  | cons s rest ih =>
      rw [List.foldlM_cons] at h
      obtain ⟨mid, hadd, hrest⟩ := bind_eq_ok_iff.mp h
      obtain ⟨hfirst, hmem, hmatched⟩ := add_grows hadd
      obtain ⟨hsecond, hall, hmatched'⟩ := ih hrest
      refine ⟨?_, ?_, hmatched'.trans hmatched⟩
      · refine (hfirst.mono ?_).trans (hsecond.mono fun t => List.mem_cons_of_mem s)
        rintro t rfl
        exact List.mem_cons_self
      · intro t ht
        rcases List.mem_cons.mp ht with rfl | ht
        · exact hsecond.mem hmem
        · exact hall t ht

/-- **What one selector brings**: all that follows from it by one of the extensions, and nothing
else. -/
theorem extendBy_grows {limit : Nat} {s : Selector} {pairs : List (Extension × Bool)}
    {p q : Progress} (h : extendBy limit s p pairs = .ok q) :
    Grows limit (fun t => ∃ e ∈ pairs.map Prod.fst, t ∈ s.extendWith e) p q ∧
      (∀ e ∈ pairs.map Prod.fst, ∀ t ∈ s.extendWith e, t ∈ q.set) ∧
      q.matched.length = p.matched.length + pairs.length := by
  induction pairs generalizing p with
  | nil =>
      obtain rfl := Except.ok.inj h
      exact ⟨Grows.refl rfl rfl, by simp, by simp⟩
  | cons pair rest ih =>
      obtain ⟨e, mark⟩ := pair
      rw [extendBy] at h
      obtain ⟨mid, hadd, hrest⟩ := bind_eq_ok_iff.mp h
      obtain ⟨hfirst, hmem, hmatched⟩ := addAll_grows hadd
      obtain ⟨hsecond, hall, hlength⟩ := ih hrest
      -- marking an extension touches neither the set nor the queue
      have hsecond : Grows limit _ mid q := (Grows.refl rfl rfl).trans hsecond
      refine ⟨?_, ?_, ?_⟩
      · refine (hfirst.mono fun t ht => ⟨e, by simp, ht⟩).trans (hsecond.mono ?_)
        rintro t ⟨e', he', ht⟩
        exact ⟨e', List.mem_cons_of_mem _ he', ht⟩
      · intro e' he' t ht
        rcases List.mem_cons.mp he' with rfl | he'
        · exact hsecond.mem (hmem t ht)
        · exact hall e' he' t ht
      · rw [hlength, List.length_cons, List.length_cons, hmatched]
        omega

/-! ## The queue -/

/-- What holds of the search at every turn: everything in the set follows from what was written, and
a selector of the set that no longer waits has brought what follows from it. -/
structure Closing (extensions : List Extension) (written : List Selector) (p : Progress) : Prop where
  begins : ∀ s ∈ written, s ∈ p.set
  derived : ∀ s ∈ p.set, Derived extensions written s
  queued : ∀ s ∈ p.queue, s ∈ p.set
  settled : ∀ s ∈ p.set, s ∈ p.queue ∨ ∀ e ∈ extensions, ∀ t ∈ s.extendWith e, t ∈ p.set
  marks : p.matched.length = extensions.length

/-- One turn keeps the invariant. -/
theorem closing_step {limit : Nat} {extensions : List Extension} {written queue : List Selector}
    {s : Selector} {p q : Progress} (hp : Closing extensions written p)
    (hqueue : p.queue = s :: queue)
    (h : extendBy limit s { p with queue, matched := [] } (extensions.zip p.matched) = .ok q) :
    Closing extensions written q := by
  have hfst : (extensions.zip p.matched).map Prod.fst = extensions :=
    List.map_fst_zip (Nat.le_of_eq hp.marks.symm)
  obtain ⟨hgrows, hall, hlength⟩ := extendBy_grows h
  rw [hfst] at hgrows hall
  have hmem := fun {t : Selector} (ht : t ∈ p.set) => hgrows.mem ht
  obtain ⟨added, hset, hwaiting, hadded, -⟩ := hgrows
  have hs : s ∈ p.set := hp.queued s (hqueue ▸ List.mem_cons_self)
  have hsplit : ∀ t ∈ q.set, t ∈ p.set ∨ t ∈ added := by
    intro t ht
    have ht : t ∈ q.set.toList := ht
    rw [hset] at ht
    exact List.mem_append.mp ht
  refine ⟨fun t ht => hmem (hp.begins t ht), ?_, ?_, ?_, ?_⟩
  -- what is new follows from `s`
  · intro t ht
    rcases hsplit t ht with ht | ht
    · exact hp.derived t ht
    · obtain ⟨e, he, hte⟩ := hadded t ht
      exact .extended (hp.derived s hs) he hte
  · intro t ht
    rw [hwaiting] at ht
    rcases List.mem_append.mp ht with ht | ht
    · exact hmem (hp.queued t (hqueue ▸ List.mem_cons_of_mem s ht))
    · show t ∈ q.set.toList
      rw [hset]
      exact List.mem_append_right _ ht
  -- `s` no longer waits, and what follows from it is in the set now; what is new waits
  · intro t ht
    rw [hwaiting]
    rcases hsplit t ht with ht | ht
    · rcases hp.settled t ht with hwaits | hdone
      · rw [hqueue] at hwaits
        rcases List.mem_cons.mp hwaits with rfl | hwaits
        · exact Or.inr hall
        · exact Or.inl (List.mem_append_left _ hwaits)
      · exact Or.inr fun e he u hu => hmem (hdone e he u hu)
    · exact Or.inl (List.mem_append_right _ ht)
  · rw [hlength, List.length_zip, hp.marks]
    simp

/-- How many selectors may still be taken from the queue, if the set has room for `bound`: those that wait,
and those that may still be added. -/
def Progress.left (bound : Nat) (p : Progress) : Nat := p.queue.length + (bound - p.set.size)

/-- One turn leaves fewer to be taken from the queue. -/
theorem extendBy_left {limit bound : Nat} (hlimit : limit ≤ bound) {s : Selector}
    {queue : List Selector} {pairs : List (Extension × Bool)} {p q : Progress}
    (hqueue : p.queue = s :: queue) (hsize : p.set.size ≤ bound)
    (h : extendBy limit s { p with queue, matched := [] } pairs = .ok q) :
    q.set.size ≤ bound ∧ q.left bound < p.left bound := by
  obtain ⟨added, hset, hwaiting, -, hadded⟩ := (extendBy_grows h).1
  -- what came to the queue came to the set as well
  have hgained : q.set.size = p.set.size + added.length := by
    rw [SelectorSet.size, hset, List.length_append, SelectorSet.size]
  have hlength : q.queue.length = queue.length + added.length := by
    rw [hwaiting, List.length_append]
  have hbound : q.set.size ≤ bound := by
    rcases hadded with rfl | hadded
    · rw [hgained, List.length_nil]
      omega
    · omega
  refine ⟨hbound, ?_⟩
  rw [Progress.left, Progress.left, hqueue, List.length_cons]
  omega

/-- The search ends with an empty queue if there is fuel for what waits and for all that may still
be added. -/
theorem close_closing {limit bound fuel : Nat} {extensions : List Extension}
    {written : List Selector} {p q : Progress} (hlimit : limit ≤ bound)
    (hp : Closing extensions written p) (hsize : p.set.size ≤ bound)
    (hfuel : p.left bound ≤ fuel) (h : close limit extensions fuel p = .ok q) :
    Closing extensions written q ∧ q.queue = [] := by
  induction fuel generalizing p with
  | zero =>
      obtain rfl := Except.ok.inj h
      exact ⟨hp, List.length_eq_zero_iff.mp (Nat.eq_zero_of_add_eq_zero_right (Nat.le_zero.mp hfuel))⟩
  | succ fuel ih =>
      rw [close] at h
      split at h
      next hqueue =>
        obtain rfl := Except.ok.inj h
        exact ⟨hp, hqueue⟩
      next s queue hqueue =>
        obtain ⟨next, hstep, hrest⟩ := bind_eq_ok_iff.mp h
        have hnext := closing_step hp hqueue hstep
        obtain ⟨hbound, hleft⟩ := extendBy_left hlimit hqueue hsize hstep
        exact ih hnext hbound (by omega) hrest

/-! ## The selectors of a rule -/

/-- The search begins with the written selectors, all of which wait. -/
theorem closing_start {extensions : List Extension} {matched : List Bool}
    (hmarks : matched.length = extensions.length) (written : List Selector) :
    Closing extensions written
      ⟨.ofList written, (SelectorSet.ofList written).toList, matched⟩ := by
  refine ⟨?_, ?_, fun s hs => hs, fun s hs => Or.inl hs, hmarks⟩
  · exact fun s hs => SelectorSet.mem_ofList.mpr hs
  · exact fun s hs => .written (SelectorSet.mem_ofList.mp hs)

/-- **A search that is not given up finds what follows**, and nothing waits at its end. -/
theorem close_complete {extensions : List Extension} {matched : List Bool}
    {written : List Selector} {last : Progress} (hmarks : matched.length = extensions.length)
    (h : close maxSelectors extensions ((SelectorSet.ofList written).size + maxSelectors)
      ⟨.ofList written, (SelectorSet.ofList written).toList, matched⟩ = .ok last) :
    (∀ s, s ∈ last.set ↔ Derived extensions written s) ∧ last.queue = [] ∧
      last.matched.length = extensions.length := by
  have hlimit : maxSelectors ≤ (SelectorSet.ofList written).size + maxSelectors :=
    Nat.le_add_left _ _
  have hfuel : (SelectorSet.ofList written).size +
      ((SelectorSet.ofList written).size + maxSelectors - (SelectorSet.ofList written).size) ≤
        (SelectorSet.ofList written).size + maxSelectors := by omega
  obtain ⟨hlast, hempty⟩ := close_closing hlimit (closing_start hmarks written)
    (Nat.le_add_right _ _) hfuel h
  refine ⟨fun s => ⟨hlast.derived s, fun hs => ?_⟩, hempty, hlast.marks⟩
  induction hs with
  | written hs => exact hlast.begins _ hs
  | extended _ he ht ih =>
      have hdone := (hlast.settled _ ih).resolve_left (by rw [hempty]; exact List.not_mem_nil)
      exact hdone _ he _ ht

/-- **Extending a rule closes its selectors.** If it succeeds, the set from which its result is taken
holds exactly what follows from the written selectors. -/
theorem extendSelectors_closes {extensions : List Extension} {matched matched' : List Bool}
    {written result : List Selector} (hmarks : matched.length = extensions.length)
    (h : extendSelectors extensions matched written = .ok (result, matched')) :
    ∃ closed : SelectorSet, (∀ s, s ∈ closed ↔ Derived extensions written s) ∧
      result = ((closed.filter Selector.canMatch).eliminate
        ((SelectorSet.ofList written).toList.filter Selector.canMatch).length).toList ∧
      matched'.length = extensions.length := by
  obtain ⟨last, hclose, hresult⟩ := bind_eq_ok_iff.mp h
  obtain ⟨rfl, rfl⟩ := Prod.mk.inj (Except.ok.inj hresult)
  obtain ⟨hlast, -, hmarks'⟩ := close_complete hmarks hclose
  exact ⟨last.set, hlast, rfl, hmarks'⟩

/-- What comes out of extending a rule: selectors that follow and can match something, each once. -/
theorem extendSelectors_sound {extensions : List Extension} {matched matched' : List Bool}
    {written result : List Selector} (hmarks : matched.length = extensions.length)
    (h : extendSelectors extensions matched written = .ok (result, matched')) :
    (∀ s ∈ result, Derived extensions written s ∧ s.canMatch = true) ∧ result.Nodup ∧
      matched'.length = extensions.length := by
  obtain ⟨closed, hclosed, rfl, hmarks'⟩ := extendSelectors_closes hmarks h
  refine ⟨fun s hs => ?_, SelectorSet.nodup _, hmarks'⟩
  have hs := SelectorSet.mem_filter.mp ((SelectorSet.essential_sublist _ _ _).subset hs)
  exact ⟨(hclosed s).mp hs.1, hs.2⟩

end Scss.Extending
