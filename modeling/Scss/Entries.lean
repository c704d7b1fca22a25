/-!
# Ordered entries

Values under keys, in the order in which the keys were first put. Putting a value under a key that
is there already leaves the key in its place.
-/

namespace Scss

/-- Values under text keys. -/
abbrev Entries (β : Type) := List (String × β)

namespace Entries

variable {β : Type}

def put (key : String) (value : β) : Entries β → Entries β
  | [] => [(key, value)]
  | (k, v) :: rest => if k = key then (k, value) :: rest else (k, v) :: put key value rest

def get? (key : String) : Entries β → Option β
  | [] => none
  | (k, v) :: rest => if k = key then some v else get? key rest

def remove (key : String) : Entries β → Entries β
  | [] => []
  | (k, v) :: rest => if k = key then rest else (k, v) :: remove key rest

def has (key : String) (entries : Entries β) : Bool := (get? key entries).isSome

/-! ## What is found after putting -/

@[simp] theorem get?_put (key other : String) (value : β) (entries : Entries β) :
    get? other (put key value entries) = if other = key then some value else get? other entries := by
  induction entries with
  | nil => simp [put, get?, eq_comm]
  | cons e rest ih =>
    obtain ⟨k, v⟩ := e
    simp only [put]
    split
    next h =>
      subst h
      simp only [get?]
      by_cases ho : k = other
      · simp [ho]
      · simp [ho, Ne.symm ho]
    next h =>
      simp only [get?, ih]
      by_cases ho : k = other
      · subst ho
        simp [h]
      · simp [ho]

/-- Putting adds a key only if it was not there. -/
theorem map_fst_put (key : String) (value : β) (entries : Entries β) :
    (put key value entries).map Prod.fst =
      if has key entries then entries.map Prod.fst else entries.map Prod.fst ++ [key] := by
  induction entries with
  | nil => simp [put, has, get?]
  | cons e rest ih =>
    obtain ⟨k, v⟩ := e
    simp only [put, has, get?]
    by_cases h : k = key
    · simp [h]
    · simp only [h, if_false, List.map_cons, ih, has]
      by_cases hk : (get? key rest).isSome <;> simp [hk]

end Entries

end Scss
