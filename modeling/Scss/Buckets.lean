/-!
# Buckets

Things are kept in buckets by a number, and the buckets hang in a binary tree: the last digit of the
number says which branch to take, and the other digits say where to go on. Looking something up then
means looking through one bucket. What a bucket holds is the view through which the laws are stated.
-/

namespace Scss

inductive Buckets (α : Type) where
  | bucket (items : List α)
  | branch (even odd : Buckets α)

namespace Buckets

variable {α : Type}

/-- A tree of empty buckets, all equally deep. -/
def empty : Nat → Buckets α
  | 0 => bucket []
  | depth + 1 => branch (empty depth) (empty depth)

/-- The bucket for a number. -/
def find (key : Nat) : Buckets α → List α
  | bucket items => items
  | branch even odd => if key % 2 = 0 then find (key / 2) even else find (key / 2) odd

/-- Puts something into the bucket for a number. -/
def put (key : Nat) (x : α) : Buckets α → Buckets α
  | bucket items => bucket (x :: items)
  | branch even odd =>
    if key % 2 = 0 then branch (put (key / 2) x even) odd else branch even (put (key / 2) x odd)

/-! ## What the buckets hold -/

@[simp] theorem find_empty (key depth : Nat) : (empty depth : Buckets α).find key = [] := by
  induction depth generalizing key with
  | zero => rfl
  | succ depth ih => simp [empty, find, ih]

@[simp] theorem find_put_self (key : Nat) (x : α) (t : Buckets α) :
    (t.put key x).find key = x :: t.find key := by
  induction t generalizing key with
  | bucket items => rfl
  | branch even odd ihe iho =>
    by_cases h : key % 2 = 0
    · simp [put, find, h, ihe]
    · simp [put, find, h, iho]

/-- A bucket gains at most what is put. -/
theorem find_put (key other : Nat) (x : α) (t : Buckets α) :
    (t.put key x).find other = x :: t.find other ∨ (t.put key x).find other = t.find other := by
  induction t generalizing key other with
  | bucket items => exact Or.inl rfl
  | branch even odd ihe iho =>
    by_cases h : key % 2 = 0 <;> by_cases ho : other % 2 = 0
    · simpa [put, find, h, ho] using ihe (key / 2) (other / 2)
    · exact Or.inr (by simp [put, find, h, ho])
    · exact Or.inr (by simp [put, find, h, ho])
    · simpa [put, find, h, ho] using iho (key / 2) (other / 2)

/-- What is kept under its own number is found exactly if it was put. -/
theorem mem_find_put {number : α → Nat} {x y : α} {t : Buckets α} :
    y ∈ (t.put (number x) x).find (number y) ↔ y = x ∨ y ∈ t.find (number y) := by
  constructor
  · intro h
    rcases find_put (number x) (number y) x t with e | e
    · exact List.mem_cons.mp (e ▸ h)
    · exact Or.inr (e ▸ h)
  · rintro (rfl | h)
    · simp
    · rcases find_put (number x) (number y) x t with e | e
      · exact e ▸ List.mem_cons_of_mem x h
      · exact e ▸ h

end Buckets

end Scss
