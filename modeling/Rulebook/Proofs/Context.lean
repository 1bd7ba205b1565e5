import Mathlib.Data.List.Basic
import Rulebook.Context

/-!
Contexts as their names show them. A write at a path goes to one name, the root of the path, and
what it puts there is made of the value and of what stood there before:

    write user.age 25     user: {age: 30, zip: 150}  ──▶  user: {age: 25, zip: 150}
                          other names                ──▶  as they were

So two contexts that agree on a name agree on it after the same writes, and writes to different
names can be done in either order.
-/

namespace Rulebook

/-- The name that a path begins with. -/
def rootOf (path : String) : String := (Path.ofString path).root

/-- What a write below a name leaves there, by the value that stood there. -/
def Value.placed (v : Value) (old : Option Value) : List String → Value
  | [] => v
  | k :: ks => .map (v.write ((old.map Value.fields).getD []) k ks)

theorem Value.write_eq (v : Value) (fs : List (String × Value)) (k : String) (ks : List String) :
    v.write fs k ks = Fields.insert k (v.placed (Fields.find? k fs) ks) fs := by
  cases ks <;> rfl

namespace Context

variable {c d : Context} {ks js : List String} {k p q : String} {v w : Value}

/-! ### One write -/

theorem insert_eq (p : String) (v : Value) (c : Context) :
    c.insert p v =
      ⟨Fields.insert (rootOf p)
        (v.placed (c.lookup (rootOf p)) (Path.ofString p).rest) c.entries⟩ := by
  rw [insert, Value.write_eq]
  rfl

theorem lookup_insert_root :
    (c.insert p v).lookup (rootOf p) =
      some (v.placed (c.lookup (rootOf p)) (Path.ofString p).rest) := by
  rw [insert_eq]
  exact Fields.find?_insert_self ..

theorem lookup_insert_of_ne (h : k ≠ rootOf p) : (c.insert p v).lookup k = c.lookup k := by
  rw [insert_eq]
  exact Fields.find?_insert_of_ne h ..

/-- What a name shows after a write depends on what it showed before, and on nothing else. -/
theorem lookup_insert_congr (h : c.lookup k = d.lookup k) :
    (c.insert p v).lookup k = (d.insert p v).lookup k := by
  by_cases hk : k = rootOf p
  · subst hk
    rw [lookup_insert_root, lookup_insert_root, h]
  · rw [lookup_insert_of_ne hk, lookup_insert_of_ne hk, h]

theorem insert_insert_comm (h : rootOf p ≠ rootOf q) :
    (c.insert p v).insert q w = (c.insert q w).insert p v := by
  rw [insert_eq q, insert_eq p v (c.insert q w), lookup_insert_of_ne (Ne.symm h),
    lookup_insert_of_ne h, insert_eq p v c, insert_eq q w c]
  exact congrArg Context.mk (Fields.insert_comm (Ne.symm h) ..)

/-! ### Writes in a row -/

/-- The context after some writes, each of a value at a path. -/
def insertAll (ws : List (String × Value)) (c : Context) : Context :=
  ws.foldl (fun c w => c.insert w.1 w.2) c

/-- The names that writes go to. -/
def rootsOf (ws : List (String × Value)) : List String := ws.map fun w => rootOf w.1

variable {ws vs : List (String × Value)}

theorem insertAll_append : c.insertAll (ws ++ vs) = (c.insertAll ws).insertAll vs :=
  List.foldl_append

theorem lookup_insertAll_congr (h : c.lookup k = d.lookup k) :
    (c.insertAll ws).lookup k = (d.insertAll ws).lookup k := by
  induction ws generalizing c d with
  | nil => exact h
  | cons w ws ih => exact ih (lookup_insert_congr h)

theorem lookup_insertAll_of_not_mem (h : k ∉ rootsOf ws) :
    (c.insertAll ws).lookup k = c.lookup k := by
  induction ws generalizing c with
  | nil => rfl
  | cons w ws ih =>
    obtain ⟨hw, hws⟩ := List.ne_and_not_mem_of_not_mem_cons h
    exact (ih hws).trans (lookup_insert_of_ne hw)

theorem insertAll_insert_comm (h : rootOf p ∉ rootsOf ws) :
    (c.insert p v).insertAll ws = (c.insertAll ws).insert p v := by
  induction ws generalizing c with
  | nil => rfl
  | cons w ws ih =>
    obtain ⟨hw, hws⟩ := List.ne_and_not_mem_of_not_mem_cons h
    have hfirst : (c.insert p v).insert w.1 w.2 = (c.insert w.1 w.2).insert p v :=
      insert_insert_comm hw
    exact (congrArg (insertAll ws) hfirst).trans (ih hws)

theorem insertAll_comm (h : (rootsOf ws).Disjoint (rootsOf vs)) :
    (c.insertAll ws).insertAll vs = (c.insertAll vs).insertAll ws := by
  induction ws generalizing c with
  | nil => rfl
  | cons w ws ih =>
    obtain ⟨hw, hws⟩ := List.disjoint_cons_left.1 h
    calc ((c.insert w.1 w.2).insertAll ws).insertAll vs
        = ((c.insert w.1 w.2).insertAll vs).insertAll ws := ih hws
      _ = ((c.insertAll vs).insert w.1 w.2).insertAll ws := by rw [insertAll_insert_comm hw]

/-! ### Agreement -/

/-- Two contexts show the same under some names: the same value, or none in either. -/
def Agree (ks : List String) (c d : Context) : Prop := ∀ k ∈ ks, c.lookup k = d.lookup k

namespace Agree

theorem refl : Agree ks c c := fun _ _ => rfl

theorem mono (h : Agree ks c d) (hsub : js ⊆ ks) : Agree js c d := fun k hk => h k (hsub hk)

theorem head (h : Agree (k :: ks) c d) : c.lookup k = d.lookup k := h k List.mem_cons_self

theorem tail (h : Agree (k :: ks) c d) : Agree ks c d := h.mono (List.subset_cons_self k ks)

theorem left (h : Agree (ks ++ js) c d) : Agree ks c d := h.mono (List.subset_append_left ks js)

theorem right (h : Agree (ks ++ js) c d) : Agree js c d := h.mono (List.subset_append_right ks js)

theorem insertAll (h : Agree ks c d) : Agree ks (c.insertAll ws) (d.insertAll ws) :=
  fun k hk => lookup_insertAll_congr (h k hk)

end Agree

theorem get_congr (h : c.lookup (rootOf p) = d.lookup (rootOf p)) : c.get p = d.get p := by
  simp only [get]
  exact congrArg (Option.bind · _) h

end Context

end Rulebook
