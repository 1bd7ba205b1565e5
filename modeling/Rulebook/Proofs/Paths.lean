import Rulebook.Proofs.Context

/-!
Reads behind writes. A context is read like a map whose fields are its names, so that a path is no
more than the list of its parts, and what a write at one path means to a read at another is told by
how the two lists compare:

    write  user.age 25

    read   user.age           25            the value that was written
           user.age.years     25 . years    what the value has along the rest
           user               a map         made on the way, if there was none
           user.name, total   as before     they part from the path somewhere

A value on the way that is no map is lost to the write. Nothing could be read below it, so that the
paths which part from the one written show no difference.
-/

namespace Rulebook

/-- The parts of a path: the texts between its dots. -/
def partsOf (path : String) : List String := (path.toList.splitOn '.').map String.ofList

theorem splitOn_dot (cs : List Char) : cs.splitOn '.' = (splitDots cs).1 :: (splitDots cs).2 := by
  induction cs with
  | nil => rfl
  | cons c cs ih =>
    rw [splitDots]
    by_cases hc : c = '.'
    · simp [List.splitOn_cons_eq_if_modifyHead, hc, ih]
    · simp [List.splitOn_cons_eq_if_modifyHead, hc, ih]

theorem partsOf_eq (path : String) : partsOf path = rootOf path :: (Path.ofString path).rest := by
  rw [partsOf, splitOn_dot]
  rfl

/-! ### Inside a value -/

namespace Value

variable {v : Value} {j k : String} {is js ks : List String}

theorem descend_append (v : Value) : v.descend (js ++ ks) = (v.descend js).bind (descend ks) := by
  induction js generalizing v with
  | nil => rfl
  | cons j js ih =>
    cases v with
    | map fs =>
      rw [List.cons_append, descend, descend]
      cases Fields.find? j fs with
      | none => rfl
      | some w => exact ih w
    | _ => rfl

/-- The fields of what stands at a place, which has none if it is no map. -/
theorem bind_descend_cons (old : Option Value) :
    old.bind (descend (k :: ks)) =
      (Fields.find? k ((old.map fields).getD [])).bind (descend ks) := by
  cases old with
  | none => rfl
  | some w => cases w <;> rfl

theorem placed_cons (old : Option Value) :
    v.placed old (k :: ks) =
      .map (Fields.insert k (v.placed (Fields.find? k ((old.map fields).getD [])) ks)
        ((old.map fields).getD [])) := by
  rw [placed, write_eq]

/-- The value that was written stands at the end of the path. -/
theorem descend_placed (v : Value) (old : Option Value) (ks : List String) :
    (v.placed old ks).descend ks = some v := by
  induction ks generalizing old with
  | nil => rfl
  | cons k ks ih => rw [placed_cons, descend, Fields.find?_insert_self, Option.bind_some, ih]

/-- There is a map at every place that a written path goes through. -/
theorem descend_placed_inside (v : Value) (old : Option Value) (js : List String) (k : String)
    (ks : List String) : ∃ fs, (v.placed old (js ++ k :: ks)).descend js = some (.map fs) := by
  induction js generalizing old with
  | nil => exact ⟨_, congrArg some (placed_cons old)⟩
  | cons j js ih =>
    rw [List.cons_append, placed_cons, descend, Fields.find?_insert_self, Option.bind_some]
    exact ih _

/-- A path that parts from the one written shows what it showed before. -/
theorem descend_placed_apart (v : Value) (old : Option Value) (hks : ¬ ks <+: js)
    (hjs : ¬ js <+: ks) :
    (v.placed old ks).descend js = old.bind (descend js) := by
  induction ks generalizing old js with
  | nil => exact absurd List.nil_prefix hks
  | cons k ks ih =>
    cases js with
    | nil => exact absurd List.nil_prefix hjs
    | cons j js =>
      rw [placed_cons, descend, bind_descend_cons]
      by_cases hj : j = k
      · -- the two paths go on into one field, and part further down
        subst hj
        rw [List.prefix_cons_inj] at hks hjs
        rw [Fields.find?_insert_self, Option.bind_some, ih _ hks hjs]
      · rw [Fields.find?_insert_of_ne hj]

end Value

/-! ### In a context -/

namespace Context

/-- A context as the map of its names. -/
def toMap (c : Context) : Value := .map c.entries

theorem get_eq (path : String) (c : Context) : c.get path = c.toMap.descend (partsOf path) := by
  rw [partsOf_eq]
  rfl

theorem toMap_insert (path : String) (v : Value) (c : Context) :
    (c.insert path v).toMap = v.placed (some c.toMap) (partsOf path) := by
  rw [partsOf_eq]
  rfl

/-- READ BACK: behind a write at `p`, the path `p` shows the value, a path that goes on from `p`
    shows what the value has along the rest, and one that stops inside `p` shows a map. A path that
    does neither shows what it showed before, and so does every name but the first part of `p`. -/
theorem get_insert (c : Context) (v : Value) (p q : String) :
    (c.insert p v).get p = some v ∧
    (∀ ks, partsOf q = partsOf p ++ ks → (c.insert p v).get q = v.descend ks) ∧
    (∀ k ks, partsOf p = partsOf q ++ k :: ks →
      ∃ fs, (c.insert p v).get q = some (.map fs)) ∧
    (¬ partsOf p <+: partsOf q → ¬ partsOf q <+: partsOf p →
      (c.insert p v).get q = c.get q) ∧
    ∀ k, (partsOf p).head? ≠ some k → (c.insert p v).lookup k = c.lookup k := by
  simp only [get_eq, toMap_insert]
  refine ⟨Value.descend_placed v _ _, ?_, ?_, ?_, ?_⟩
  · intro ks hq
    rw [hq, Value.descend_append, Value.descend_placed, Option.bind_some]
  · intro k ks hp
    rw [hp]
    exact Value.descend_placed_inside v _ _ k ks
  · intro hp hq
    exact Value.descend_placed_apart v _ hp hq
  · intro k hk
    rw [partsOf_eq, List.head?_cons] at hk
    exact lookup_insert_of_ne fun h => hk (congrArg some h.symm)

/-- A write through a value that is no map. -/
theorem get_insert_scalar :
    let c : Context := ⟨[("total", .int 7), ("user", .str "old")]⟩
    let v : Value := .map [("years", .int 25)]
    (c.insert "user.age" v).get "user.age" = some v ∧
    (c.insert "user.age" v).get "user.age.years" = some (.int 25) ∧
    (∃ fs, (c.insert "user.age" v).get "user" = some (.map fs)) ∧
    (c.insert "user.age" v).get "user.name" = none ∧
    (c.insert "user.age" v).lookup "total" = some (.int 7) := by
  intro c v
  have hparts : partsOf "user.age" = ["user", "age"] := by cbv
  obtain ⟨hsame, hbelow, -, -, hnames⟩ := get_insert c v "user.age" "user.age.years"
  obtain ⟨-, -, hinside, -, -⟩ := get_insert c v "user.age" "user"
  obtain ⟨-, -, -, hapart, -⟩ := get_insert c v "user.age" "user.name"
  have hname : partsOf "user.name" = ["user", "name"] := by cbv
  refine ⟨hsame, hbelow ["years"] (by cbv), hinside "age" [] (by cbv), ?_, ?_⟩
  · rw [hapart (by rw [hparts, hname]; decide) (by rw [hparts, hname]; decide)]
    cbv
  · rw [hnames "total" (by rw [hparts]; decide)]
    cbv

end Context

/-- A value that was written is read back. -/
theorem get_insert_self (path : String) (v : Value) (c : Context) :
    (c.insert path v).get path = some v := by
  rw [Context.get_eq, Context.toMap_insert]
  exact Value.descend_placed v _ _

end Rulebook
