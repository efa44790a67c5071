/-!
First in, first out. Both ends are lists, so that neither adding nor removing walks over the queue.

* `Queue.toList`: the members in the order in which they leave;
* `Queue.push`, `Queue.pushAll`: add at the back;
* `Queue.pop?`: take from the front.
-/

namespace FiveInRow

/-- A queue; `back` holds the latest members, the last one first. -/
structure Queue (α : Type) where
  front : List α
  back : List α

namespace Queue

variable {α : Type}

/-- The queue without members. -/
def empty : Queue α := ⟨[], []⟩

/-- The members in the order in which they leave. -/
def toList (q : Queue α) : List α := q.front ++ q.back.reverse

/-- The number of members. -/
def length (q : Queue α) : Nat := q.front.length + q.back.length

/-- Add a member. -/
def push (q : Queue α) (a : α) : Queue α := { q with back := a :: q.back }

/-- Add members in order. -/
def pushAll (q : Queue α) (as : List α) : Queue α := as.foldl push q

/-- The first member and the others. -/
def pop? (q : Queue α) : Option (α × Queue α) :=
  match q.front with
  | a :: front => some (a, { q with front })
  | [] =>
    match q.back.reverse with
    | a :: front => some (a, ⟨front, []⟩)
    | [] => none

@[simp] theorem toList_empty : (empty : Queue α).toList = [] := rfl

@[simp] theorem length_toList (q : Queue α) : q.toList.length = q.length := by
  simp [toList, length]

@[simp] theorem toList_push (q : Queue α) (a : α) : (q.push a).toList = q.toList ++ [a] := by
  simp [toList, push]

@[simp] theorem toList_pushAll (q : Queue α) (as : List α) :
    (q.pushAll as).toList = q.toList ++ as := by
  unfold pushAll
  induction as generalizing q with
  | nil => simp
  | cons a as ih => simp [ih]

theorem pop?_eq_none_iff (q : Queue α) : q.pop? = none ↔ q.toList = [] := by
  unfold pop? toList
  cases q.front <;> cases h : q.back.reverse <;> simp_all

theorem toList_of_pop? {q r : Queue α} {a : α} (h : q.pop? = some (a, r)) :
    q.toList = a :: r.toList := by
  unfold pop? at h
  split at h
  · rename_i front hf
    cases h
    simp [toList, hf]
  · rename_i hf
    split at h
    · rename_i b front hb
      cases h
      simp [toList, hf, hb]
    · contradiction

end Queue

end FiveInRow
