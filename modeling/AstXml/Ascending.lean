/-!
Lists in strictly ascending order. Inserting keeps the order and drops repeats, so the list of a
collection does not depend on the order in which its members came.
-/
namespace AstXml.Ascending

variable {α : Type}

/-- Puts `x` at its place in an ascending list; a member is not repeated. -/
def insert [DecidableEq α] (before : α → α → Bool) (x : α) : List α → List α
  | [] => [x]
  | y :: rest =>
    if x = y then y :: rest
    else if before x y then x :: y :: rest
    else y :: insert before x rest

/-- The members of a list in ascending order, each once. -/
def ofList [DecidableEq α] (before : α → α → Bool) (xs : List α) : List α :=
  xs.foldl (fun sorted x => insert before x sorted) []

theorem mem_insert [DecidableEq α] (before : α → α → Bool) (x y : α) (xs : List α) :
    y ∈ insert before x xs ↔ y = x ∨ y ∈ xs := by
  induction xs with
  | nil => simp [insert]
  | cons z rest ih =>
    simp only [insert]
    split
    · simp_all
    · split
      · simp
      · simp only [List.mem_cons, ih]
        exact or_left_comm

theorem mem_foldl_insert [DecidableEq α] (before : α → α → Bool) (y : α) (xs sorted : List α) :
    y ∈ xs.foldl (fun s x => insert before x s) sorted ↔ y ∈ sorted ∨ y ∈ xs := by
  induction xs generalizing sorted with
  | nil => simp
  | cons x rest ih =>
    rw [List.foldl_cons, ih, mem_insert, List.mem_cons, or_comm (a := y = x), or_assoc]

theorem mem_ofList [DecidableEq α] (before : α → α → Bool) (y : α) (xs : List α) :
    y ∈ ofList before xs ↔ y ∈ xs := by
  simp [ofList, mem_foldl_insert]

end AstXml.Ascending
