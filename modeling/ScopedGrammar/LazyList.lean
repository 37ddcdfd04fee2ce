/-!
# Lists made on demand

A `LazyList` has its first element at hand and makes the others when they are asked for. It is finite, and stands for
the list of all its elements (`LazyList.toList`): every operation on lazy lists is the one on lists through that view,
and asking for the first elements gives the first ones of that list (`LazyList.firsts_eq_take`).
-/

namespace ScopedGrammar

/-- A list whose tail is made on demand. -/
inductive LazyList (α : Type) where
  | nil
  | cons (head : α) (tail : Unit → LazyList α)

namespace LazyList

variable {α β : Type}

/-- The list of all elements. -/
def toList : LazyList α → List α
  | nil => []
  | cons a tail => a :: (tail ()).toList

/-- The first elements of a list still to be made, up to a number. Nothing is made for none. -/
def firsts : Nat → (Unit → LazyList α) → List α
  | 0, _ => []
  | n + 1, xs =>
    match xs () with
    | nil => []
    | cons a tail => a :: firsts n tail

/-- The elements of a list. -/
def ofList : List α → LazyList α
  | [] => nil
  | a :: rest => cons a fun _ => ofList rest

/-- One list after another. -/
def append : LazyList α → (Unit → LazyList α) → LazyList α
  | nil, ys => ys ()
  | cons a tail, ys => cons a fun _ => append (tail ()) ys

/-- A function on every element. -/
def map (f : α → β) : LazyList α → LazyList β
  | nil => nil
  | cons a tail => cons (f a) fun _ => map f (tail ())

/-- The lists that a function gives for the elements, one after another. -/
def flatMap (f : α → LazyList β) : LazyList α → LazyList β
  | nil => nil
  | cons a tail => append (f a) fun _ => flatMap f (tail ())

/-! ## Through the view -/

@[simp] theorem toList_ofList (l : List α) : (ofList l).toList = l := by
  induction l with
  | nil => rfl
  | cons a rest ih => rw [ofList, toList, ih]

@[simp] theorem toList_append (xs : LazyList α) (ys : Unit → LazyList α) :
    (append xs ys).toList = xs.toList ++ (ys ()).toList := by
  induction xs with
  | nil => rfl
  | cons a tail ih => rw [append, toList, ih, toList, List.cons_append]

@[simp] theorem toList_map (f : α → β) (xs : LazyList α) : (map f xs).toList = xs.toList.map f := by
  induction xs with
  | nil => rfl
  | cons a tail ih => rw [map, toList, ih, toList, List.map_cons]

@[simp] theorem toList_flatMap (f : α → LazyList β) (xs : LazyList α) :
    (flatMap f xs).toList = xs.toList.flatMap fun a => (f a).toList := by
  induction xs with
  | nil => rfl
  | cons a tail ih => rw [flatMap, toList_append, ih, toList, List.flatMap_cons]

theorem firsts_eq_take (n : Nat) (xs : Unit → LazyList α) : firsts n xs = (xs ()).toList.take n := by
  induction n generalizing xs with
  | zero => rfl
  | succ n ih =>
    rw [firsts]
    cases xs () with
    | nil => rfl
    | cons a tail => rw [toList, List.take_succ_cons, ← ih]

end LazyList

end ScopedGrammar
