/-!
Named fields, in the order of their names. A field list is a list of name/value pairs that `insert`
keeps sorted, so two lists that were built by different writes and hold the same fields are the same
list. One pass puts a pair before the first larger name, and that alone makes the laws below hold of
every list, sorted or not:

    find? k (insert k v fs) = some v        a field that was written is read back
    insert k v (insert k w fs) = insert k v fs             the last write wins
    insert j w (insert k v fs) = insert k v (insert j w fs)     if j ≠ k
-/

namespace Rulebook.Fields

variable {α : Type}

/-- The value of the first field with this name. -/
def find? (k : String) : List (String × α) → Option α
  | [] => none
  | (j, v) :: fs => if k = j then some v else find? k fs

/-- Write a field: in place if the name is there, else before the first larger name. -/
def insert (k : String) (v : α) : List (String × α) → List (String × α)
  | [] => [(k, v)]
  | (j, w) :: fs =>
    if k = j then (k, v) :: fs
    else if k < j then (k, v) :: (j, w) :: fs
    else (j, w) :: insert k v fs

/-- All fields but the ones with this name. -/
def erase (k : String) (fs : List (String × α)) : List (String × α) := fs.filter (·.1 ≠ k)

/-- The fields that remain when the pairs are written one after the other. -/
def ofList (pairs : List (String × α)) : List (String × α) :=
  pairs.foldl (fun fs p => insert p.1 p.2 fs) []

@[simp] theorem find?_insert_self (k : String) (v : α) (fs : List (String × α)) :
    find? k (insert k v fs) = some v := by
  induction fs with
  | nil => simp [insert, find?]
  | cons p fs ih => simp only [insert]; split <;> (try split) <;> simp_all [find?]

@[simp] theorem find?_insert_of_ne {j k : String} (h : j ≠ k) (v : α)
    (fs : List (String × α)) :
    find? j (insert k v fs) = find? j fs := by
  induction fs with
  | nil => simp [insert, find?, h]
  | cons p fs ih => simp only [insert]; split <;> (try split) <;> simp_all [find?]

@[simp] theorem insert_insert (k : String) (v w : α) (fs : List (String × α)) :
    insert k v (insert k w fs) = insert k v fs := by
  induction fs with
  | nil => simp [insert]
  | cons p fs ih => simp only [insert]; split <;> (try split) <;> simp_all [insert]

/-- Writes of two names commute: neither moves the place where the other one goes. -/
theorem insert_comm {j k : String} (h : j ≠ k) (v w : α) (fs : List (String × α)) :
    insert j w (insert k v fs) = insert k v (insert j w fs) := by
  induction fs with
  | nil => grind [insert]
  | cons p fs ih => grind [insert]

end Rulebook.Fields
