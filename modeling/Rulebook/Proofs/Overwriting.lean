import Rulebook.Proofs.Paths

/-!
Two writes in a row. What the second one does to the first is told by how their paths compare,
whatever stands on the way:

    first       second

    user.age    user.zip      they part: the same in either order
    user.age    user          the second is above: as if it had been alone
    user        user.age      the second is below: one write of the first value, the second inside

Both writes may go through values that are no maps, and the one that comes first puts a map there.
The other one would have put the same map there, so this makes no difference either.
-/

namespace Rulebook

/-! ### Below one place -/

namespace Value

variable {v w : Value} {js ks : List String}

/-- Two writes into one field are two writes below it. -/
theorem placed_placed_cons (old : Option Value) (k : String) (js ks : List String) :
    w.placed (some (v.placed old (k :: ks))) (k :: js) =
      .map (Fields.insert k
        (w.placed (some (v.placed (Fields.find? k ((old.map fields).getD [])) ks)) js)
        ((old.map fields).getD [])) := by
  simp only [placed_cons, Option.map_some, Option.getD_some, fields, Fields.find?_insert_self,
    Fields.insert_insert]

/-- Writes along paths that part from each other can be done in either order. -/
theorem placed_comm (old : Option Value) (hks : ¬ ks <+: js) (hjs : ¬ js <+: ks) :
    w.placed (some (v.placed old ks)) js = v.placed (some (w.placed old js)) ks := by
  induction ks generalizing old js with
  | nil => exact absurd List.nil_prefix hks
  | cons k ks ih =>
    cases js with
    | nil => exact absurd List.nil_prefix hjs
    | cons j js =>
      by_cases hj : j = k
      · -- the two paths go on into one field, and part further down
        subst hj
        rw [List.prefix_cons_inj] at hks hjs
        rw [placed_placed_cons, placed_placed_cons, ih _ hks hjs]
      · simp only [placed_cons, Option.map_some, Option.getD_some, fields]
        rw [Fields.find?_insert_of_ne hj, Fields.find?_insert_of_ne (Ne.symm hj),
          Fields.insert_comm hj]

/-- A write leaves nothing of one further down its path. -/
theorem placed_above (old : Option Value) (js ks : List String) :
    w.placed (some (v.placed old (js ++ ks))) js = w.placed old js := by
  induction js generalizing old with
  | nil => rfl
  | cons j js ih => rw [List.cons_append, placed_placed_cons, ih, placed_cons]

/-- A write below the place of another one goes into the value that was written there. -/
theorem placed_below (old : Option Value) (js ks : List String) :
    w.placed (some (v.placed old ks)) (ks ++ js) = (w.placed (some v) js).placed old ks := by
  induction ks generalizing old with
  | nil => rfl
  | cons k ks ih => rw [List.cons_append, placed_placed_cons, ih, placed_cons]

end Value

/-! ### In a context -/

namespace Context

theorem toMap_inj {c d : Context} (h : c.toMap = d.toMap) : c = d := by
  cases c
  cases d
  cases h
  rfl

/-- TWO WRITES: the second value is read back. If neither path begins with the other, the writes
    leave the same context in either order. If the path of the first begins with that of the second,
    the second leaves what it leaves alone. If it is the other way round, they are one write: of the
    first value, with the second inside. -/
theorem insert_twice (c : Context) (v w : Value) (p q : String) :
    ((c.insert p v).insert q w).get q = some w ∧
    (¬ partsOf p <+: partsOf q → ¬ partsOf q <+: partsOf p →
      (c.insert p v).insert q w = (c.insert q w).insert p v) ∧
    (partsOf q <+: partsOf p → (c.insert p v).insert q w = c.insert q w) ∧
    ∀ ks, partsOf q = partsOf p ++ ks →
      (c.insert p v).insert q w = c.insert p (w.placed (some v) ks) := by
  refine ⟨get_insert_self q w _, fun hp hq => toMap_inj ?_, fun ⟨ks, hp⟩ => toMap_inj ?_,
    fun ks hq => toMap_inj ?_⟩
  · simp only [toMap_insert]
    exact Value.placed_comm _ hp hq
  · simp only [toMap_insert, ← hp]
    exact Value.placed_above _ _ _
  · simp only [toMap_insert, hq]
    exact Value.placed_below _ _ _

/-- Writes through a text, which stands where both of them need a map. -/
theorem insert_twice_scalar :
    let c : Context := ⟨[("user", .str "old")]⟩
    let age : Value := .int 25
    let zip : Value := .int 150
    (¬ partsOf "user.age" <+: partsOf "user.zip" ∧
      ¬ partsOf "user.zip" <+: partsOf "user.age") ∧
    (c.insert "user.age" age).insert "user.zip" zip =
      (c.insert "user.zip" zip).insert "user.age" age ∧
    (c.insert "user.age" age).insert "user" zip = c.insert "user" zip ∧
    (c.insert "user" zip).insert "user.age" age = c.insert "user" (.map [("age", age)]) := by
  intro c age zip
  have huser : partsOf "user" = ["user"] := by cbv
  have hage : partsOf "user.age" = ["user", "age"] := by cbv
  have hzip : partsOf "user.zip" = ["user", "zip"] := by cbv
  have hage_zip : ¬ partsOf "user.age" <+: partsOf "user.zip" := by rw [hage, hzip]; decide
  have hzip_age : ¬ partsOf "user.zip" <+: partsOf "user.age" := by rw [hage, hzip]; decide
  have habove : partsOf "user" <+: partsOf "user.age" := by rw [huser, hage]; decide
  refine ⟨⟨hage_zip, hzip_age⟩, (insert_twice c age zip _ _).2.1 hage_zip hzip_age,
    (insert_twice c age zip _ _).2.2.1 habove, ?_⟩
  exact (insert_twice c zip age "user" "user.age").2.2.2 ["age"] (by rw [huser, hage]; rfl)

end Context

end Rulebook
