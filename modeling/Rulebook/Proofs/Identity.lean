import Rulebook.Proofs.FieldTests
import Rulebook.Proofs.Transitivity

/-!
The two equalities of values. What is identical is also equal, and only numbers can be equal without
being identical:

    1 and 1.0                       equal
    [1, {zip: 150}] twice           equal and identical
    one object twice                equal and identical
    two objects, alike or not       neither

So among values without a double there is one equality. It is that of the values themselves, but for
what objects answer, and in this way it is an equality like any other: that of what is left if of
every object only its number is kept.
-/

namespace Rulebook.Value

mutual

/-- Whether there is no double in a value. What an object answers is not in it. -/
def floatless : Value → Bool
  | float _ => false
  | list vs => floatlessItems vs
  | map fs => floatlessFields fs
  | _ => true

/-- `floatless` for all elements. -/
def floatlessItems : List Value → Bool
  | [] => true
  | v :: vs => floatless v && floatlessItems vs

/-- `floatless` for all fields. -/
def floatlessFields : List (String × Value) → Bool
  | [] => true
  | (_, v) :: fs => floatless v && floatlessFields fs

end

mutual

/-- What is left of a value if its objects keep nothing but their numbers. -/
def bare : Value → Value
  | list vs => list (bareItems vs)
  | map fs => map (bareFields fs)
  | object number .. => object number "" (fun _ => none) fun _ => none
  | v => v

/-- `bare` for all elements. -/
def bareItems : List Value → List Value
  | [] => []
  | v :: vs => bare v :: bareItems vs

/-- `bare` for all fields. -/
def bareFields : List (String × Value) → List (String × Value)
  | [] => []
  | (k, v) :: fs => (k, bare v) :: bareFields fs

end

variable {a b c : Value} {as bs : List Value} {fs gs : List (String × Value)}

/-! ### Identical and equal -/

theorem identical_list_iff :
    (list as).identical b = true ↔ ∃ bs, b = list bs ∧ identicalItems as bs = true := by
  cases b <;> simp [identical]

theorem identical_map_iff :
    (map fs).identical b = true ↔ ∃ gs, b = map gs ∧ identicalFields fs gs = true := by
  cases b <;> simp [identical]

theorem identicalItems_cons_iff : identicalItems (a :: as) bs = true ↔
    ∃ b' bs', bs = b' :: bs' ∧ a.identical b' = true ∧ identicalItems as bs' = true := by
  cases bs <;> simp [identicalItems]

theorem identicalFields_cons_iff {k : String} : identicalFields ((k, a) :: fs) gs = true ↔
    ∃ b' gs', gs = (k, b') :: gs' ∧ a.identical b' = true ∧
      identicalFields fs gs' = true := by
  cases gs with
  | nil => simp [identicalFields]
  | cons g gs =>
    obtain ⟨l, b'⟩ := g
    simp only [identicalFields, Bool.and_eq_true, beq_iff_eq, List.cons.injEq, Prod.mk.injEq]
    constructor
    · rintro ⟨⟨rfl, hb⟩, hgs⟩
      exact ⟨b', gs, ⟨⟨rfl, rfl⟩, rfl⟩, hb, hgs⟩
    · rintro ⟨_, _, ⟨⟨rfl, rfl⟩, rfl⟩, hb, hgs⟩
      exact ⟨⟨rfl, hb⟩, hgs⟩

mutual

theorem equals_of_identical :
    ∀ (a : Value) {b : Value}, a.identical b = true → a.equals b = true
  | list as, _, h => by
    obtain ⟨bs, rfl, hbs⟩ := identical_list_iff.1 h
    exact equals_list_iff.2 ⟨bs, rfl, equalItems_of_identical as hbs⟩
  | map fs, _, h => by
    obtain ⟨gs, rfl, hgs⟩ := identical_map_iff.1 h
    exact equals_map_iff.2 ⟨gs, rfl, equalFields_of_identical fs hgs⟩
  | int _, b, h | float _, b, h | bool _, b, h | str _, b, h | object .., b, h | null, b, h => by
    cases b <;> simp_all [identical, equals, sameAtom]

theorem equalItems_of_identical :
    ∀ (as : List Value) {bs : List Value}, identicalItems as bs = true →
    equalItems as bs = true
  | [], bs, h => by cases bs <;> simp_all [identicalItems, equalItems]
  | a :: as, _, h => by
    obtain ⟨b, bs, rfl, hb, hbs⟩ := identicalItems_cons_iff.1 h
    exact equalItems_cons_iff.2
      ⟨b, bs, rfl, equals_of_identical a hb, equalItems_of_identical as hbs⟩

theorem equalFields_of_identical : ∀ (fs : List (String × Value)) {gs : List (String × Value)},
    identicalFields fs gs = true → equalFields fs gs = true
  | [], gs, h => by cases gs <;> simp_all [identicalFields, equalFields]
  | (_, a) :: fs, _, h => by
    obtain ⟨b, gs, rfl, hb, hgs⟩ := identicalFields_cons_iff.1 h
    exact equalFields_cons_iff.2
      ⟨b, gs, rfl, equals_of_identical a hb, equalFields_of_identical fs hgs⟩

end

mutual

/-- Without a double, values that are equal are identical. -/
theorem identical_of_equals :
    ∀ (a : Value) {b : Value}, a.floatless = true → b.floatless = true →
    a.equals b = true → a.identical b = true
  | list as, _, ha, hb, h => by
    obtain ⟨bs, rfl, hbs⟩ := equals_list_iff.1 h
    exact identical_list_iff.2 ⟨bs, rfl, identicalItems_of_equal as ha hb hbs⟩
  | map fs, _, ha, hb, h => by
    obtain ⟨gs, rfl, hgs⟩ := equals_map_iff.1 h
    exact identical_map_iff.2 ⟨gs, rfl, identicalFields_of_equal fs ha hb hgs⟩
  | int _, b, ha, hb, h | float _, b, ha, hb, h | bool _, b, ha, hb, h | str _, b, ha, hb, h
  | object .., b, ha, hb, h | null, b, ha, hb, h => by
    cases b <;> simp_all [identical, equals, sameAtom, floatless]

theorem identicalItems_of_equal :
    ∀ (as : List Value) {bs : List Value}, floatlessItems as = true →
    floatlessItems bs = true → equalItems as bs = true → identicalItems as bs = true
  | [], bs, _, _, h => by cases bs <;> simp_all [identicalItems, equalItems]
  | a :: as, _, ha, hb, h => by
    obtain ⟨b, bs, rfl, hab, hbs⟩ := equalItems_cons_iff.1 h
    rw [floatlessItems, Bool.and_eq_true] at ha hb
    exact identicalItems_cons_iff.2
      ⟨b, bs, rfl, identical_of_equals a ha.1 hb.1 hab,
        identicalItems_of_equal as ha.2 hb.2 hbs⟩

theorem identicalFields_of_equal : ∀ (fs : List (String × Value)) {gs : List (String × Value)},
    floatlessFields fs = true → floatlessFields gs = true → equalFields fs gs = true →
    identicalFields fs gs = true
  | [], gs, _, _, h => by cases gs <;> simp_all [identicalFields, equalFields]
  | (_, a) :: fs, _, ha, hb, h => by
    obtain ⟨b, gs, rfl, hab, hgs⟩ := equalFields_cons_iff.1 h
    rw [floatlessFields, Bool.and_eq_true] at ha hb
    exact identicalFields_cons_iff.2
      ⟨b, gs, rfl, identical_of_equals a ha.1 hb.1 hab,
        identicalFields_of_equal fs ha.2 hb.2 hgs⟩

end

/-! ### Identical and the same -/

mutual

/-- Without a double, values are identical if and only if they are the same but for
    what objects answer. -/
theorem identical_iff_bare :
    ∀ (a b : Value), a.floatless = true → (a.identical b = true ↔ a.bare = b.bare)
  | list as, b, ha => by
    cases b with
    | list bs =>
      rw [identical, bare, bare, list.injEq]
      exact identicalItems_iff_bare as bs ha
    | _ => simp [identical, bare]
  | map fs, b, ha => by
    cases b with
    | map gs =>
      rw [identical, bare, bare, map.injEq]
      exact identicalFields_iff_bare fs gs ha
    | _ => simp [identical, bare]
  | int _, b, ha | float _, b, ha | bool _, b, ha | str _, b, ha | object .., b, ha | null, b,
      ha => by
    cases b <;> simp_all [identical, bare, floatless]

theorem identicalItems_iff_bare : ∀ as bs : List Value, floatlessItems as = true →
    (identicalItems as bs = true ↔ bareItems as = bareItems bs)
  | [], bs, _ => by cases bs <;> simp [identicalItems, bareItems]
  | a :: as, [], _ => by simp [identicalItems, bareItems]
  | a :: as, b :: bs, ha => by
    rw [floatlessItems, Bool.and_eq_true] at ha
    rw [identicalItems, Bool.and_eq_true, bareItems, bareItems, List.cons.injEq,
      identical_iff_bare a b ha.1, identicalItems_iff_bare as bs ha.2]

theorem identicalFields_iff_bare : ∀ fs gs : List (String × Value), floatlessFields fs = true →
    (identicalFields fs gs = true ↔ bareFields fs = bareFields gs)
  | [], gs, _ => by cases gs <;> simp [identicalFields, bareFields]
  | (j, a) :: fs, [], _ => by simp [identicalFields, bareFields]
  | (j, a) :: fs, (k, b) :: gs, ha => by
    rw [floatlessFields, Bool.and_eq_true] at ha
    rw [identicalFields, Bool.and_eq_true, Bool.and_eq_true, beq_iff_eq, bareFields, bareFields,
      List.cons.injEq, Prod.mk.injEq, identical_iff_bare a b ha.1,
      identicalFields_iff_bare fs gs ha.2]

end

theorem equals_iff_bare (ha : a.floatless = true) (hb : b.floatless = true) :
    a.equals b = true ↔ a.bare = b.bare := by
  rw [← identical_iff_bare a b ha]
  exact ⟨identical_of_equals a ha hb, equals_of_identical a⟩

/-! ### Elements of a list -/

theorem floatlessItems_iff : floatlessItems as = true ↔ ∀ v ∈ as, v.floatless = true := by
  induction as with
  | nil => simp [floatlessItems]
  | cons v as ih => rw [floatlessItems, Bool.and_eq_true, ih, List.forall_mem_cons]

/-- A list contains what equals one of its elements. -/
theorem check_contains {ctx : Context} {t : FieldTest} (hop : t.op = .contains)
    (h : ctx.resolve t.path = .ok (list as)) (ds : List Diagnostic) :
    (Condition.field t).check ctx ds = (as.any fun v => v.equals t.constant, ds) := by
  have hlist : list as ≠ null := nofun
  rw [Condition.check, FieldTest.test_of_value h hlist, FieldTest.onValue, hop]
  rfl

theorem any_equals_iff (has : floatlessItems as = true) (hb : b.floatless = true) :
    (as.any fun v => v.equals b) = true ↔ ∃ v ∈ as, v.identical b = true := by
  rw [List.any_eq_true]
  refine exists_congr fun v => and_congr_right fun hv => ?_
  exact ⟨identical_of_equals v (floatlessItems_iff.1 has v hv) hb, equals_of_identical v⟩

/-- TWO EQUALITIES: what is identical is equal. Among values without a double what is equal is
    identical too, and the same but for what objects answer, so that equality is reflexive,
    symmetric and transitive there, and a list contains what is identical to one of its elements. -/
theorem equals_and_identical (a b c : Value) :
    (a.identical b = true → a.equals b = true) ∧
    (a.floatless = true → a.equals a = true) ∧
    (a.floatless = true → b.floatless = true →
      (a.equals b = true → a.identical b = true) ∧
      (a.equals b = true ↔ a.bare = b.bare) ∧
      (a.equals b = true → b.equals a = true) ∧
      (c.floatless = true → a.equals b = true → b.equals c = true → a.equals c = true)) ∧
    ∀ vs, (list vs).floatless = true → b.floatless = true →
      ∀ ctx path, ctx.resolve path = .ok (list vs) →
      ∃ r, (r = true ↔ ∃ v ∈ vs, v.identical b = true) ∧
        ∀ ds, (Condition.field ⟨path, .contains, b⟩).check ctx ds = (r, ds) := by
  refine ⟨equals_of_identical a, fun ha => (equals_iff_bare ha ha).2 rfl,
    fun ha hb => ⟨?_, ?_, ?_, ?_⟩, ?_⟩
  · exact identical_of_equals a ha hb
  · exact equals_iff_bare ha hb
  · intro hab
    exact (equals_iff_bare hb ha).2 ((equals_iff_bare ha hb).1 hab).symm
  · intro hc hab hbc
    exact (equals_iff_bare ha hc).2
      (((equals_iff_bare ha hb).1 hab).trans ((equals_iff_bare hb hc).1 hbc))
  · intro vs hvs hb ctx path hpath
    exact ⟨_, any_equals_iff hvs hb, check_contains rfl hpath⟩

/-- An object with a map around it, at two times. It answers differently, and yet the
    two are equal. -/
theorem equals_and_identical_object :
    let answers (n : Int64) (k : String) : Option Value := if k = "age" then some (int n) else none
    let owner (n : Int64) : Value := object 1 "Person" (answers n) fun _ => none
    let before : Value := map [("owner", owner 30), ("zip", int 150)]
    let after : Value := map [("owner", owner 31), ("zip", int 150)]
    let ctx : Context := ⟨[("orders", list [null, before])]⟩
    (before.floatless = true ∧ after.floatless = true) ∧
      (before.identical after = true ∧ before.equals after = true ∧
        after.equals before = true ∧
        before.equals before = true) ∧
      (Condition.field ⟨"orders", .contains, after⟩).check ctx [] = (true, []) := by
  intro answers owner before after ctx
  have hbefore : before.floatless = true := rfl
  have hafter : after.floatless = true := rfl
  have hidentical : before.identical after = true := by decide
  have horders : ctx.resolve "orders" = .ok (list [null, before]) := by cbv
  obtain ⟨hequal, -, hpair, hlist⟩ := equals_and_identical before after before
  obtain ⟨-, -, hsymm, htrans⟩ := hpair hbefore hafter
  have hthere := hequal hidentical
  have hback := hsymm hthere
  obtain ⟨r, hr, hcheck⟩ := hlist [null, before] rfl hafter ctx "orders" horders
  obtain rfl : r = true := hr.2 ⟨before, by simp, hidentical⟩
  exact ⟨⟨hbefore, hafter⟩, ⟨hidentical, hthere, hback, htrans hbefore hthere hback⟩,
    hcheck []⟩

/-- A double on one side is enough for the two to differ. -/
example :
    (list [int 1]).equals (list [float 1.0]) = true ∧
    (list [int 1]).identical (list [float 1.0]) = false := by
  decide

end Rulebook.Value
