import Rulebook.Proofs.Evaluation
import Rulebook.Proofs.FieldTests

/-!
Fields that are not there. There are four ways for a path to lead nowhere:

    user.age    in    zip: 150               the root is bound to nothing
                      user: {zip: 150}       a map has no such field
                      user: <Person>         an object has no answer for the name
                      user: "old"            the value is no record

A field test does not tell them apart, nor does it tell them from a field that is null. It cannot
see a write of null to such a path either, although this may put maps in the place of what was on
the way.
-/

namespace Rulebook

/-- A value has no field with a name. -/
inductive Value.Lacks (k : String) : Value → Prop
  | missing {fs : List (String × Value)} (h : Fields.find? k fs = none) : Lacks k (.map fs)
  | refused {number : Nat} {type : String} {field call : String → Option Value}
    (h : field k = none) :
    Lacks k (.object number type field call)
  | noRecord {v : Value} (hmap : v.kind ≠ .map) (hobject : v.kind ≠ .object) : Lacks k v

/-- Names that are followed from a value come to one that lacks the next of them. -/
inductive Value.BreaksOff : List String → Value → Prop
  | here {v : Value} {k : String} {ks : List String} (h : v.Lacks k) : BreaksOff (k :: ks) v
  | further {v w : Value} {k : String} {ks : List String} (hfield : v.field k = .ok w)
    (h : w.BreaksOff ks) :
    BreaksOff (k :: ks) v

/-- A path leads nowhere in a context. -/
inductive Context.Absent (path : String) (c : Context) : Prop
  | unbound (h : c.lookup (rootOf path) = none)
  | breaksOff {v : Value} (hroot : c.lookup (rootOf path) = some v)
    (h : v.BreaksOff (Path.ofString path).rest)

variable {c : Context} {path : String} {t : FieldTest}

/-! ### Paths that lead nowhere -/

namespace Value

variable {v : Value} {k : String} {ks : List String}

theorem lacks_iff : v.Lacks k ↔ ∃ cause, v.field k = .error cause := by
  constructor
  · intro h
    cases h with
    | missing hk => simp [field_map, hk]
    | refused hk => simp [field, hk]
    | noRecord hmap hobject =>
      cases v with
      | map => exact absurd rfl hmap
      | object => exact absurd rfl hobject
      | _ => simp [field]
  · rintro ⟨cause, h⟩
    cases v with
    | map fs =>
      refine .missing ?_
      cases hk : Fields.find? k fs with
      | none => rfl
      | some w => simp [field_map, hk] at h
    | object number type field call =>
      refine .refused ?_
      cases hk : field k with
      | none => rfl
      | some w => simp [Value.field, hk] at h
    | _ => exact .noRecord (by simp [kind]) (by simp [kind])

theorem walk_field_cons :
    Segment.walk c ((k :: ks).map .field) v = v.field k >>= Segment.walk c (ks.map .field) :=
  Segment.walk_cons _ _ _

theorem breaksOff_iff :
    v.BreaksOff ks ↔ ∃ cause, Segment.walk c (ks.map .field) v = .error cause := by
  constructor
  · intro h
    induction h with
    | here h =>
      obtain ⟨cause, hk⟩ := lacks_iff.1 h
      exact ⟨cause, by rw [walk_field_cons, hk, error_bind]⟩
    | further hk _ ih => rwa [walk_field_cons, hk, ok_bind]
  · rintro ⟨cause, h⟩
    induction ks generalizing v with
    | nil => cases h
    | cons k ks ih =>
      rw [walk_field_cons] at h
      cases hk : v.field k with
      | error e => exact .here (lacks_iff.2 ⟨e, hk⟩)
      | ok w =>
        rw [hk, ok_bind] at h
        exact .further hk (ih h)

end Value

/-- A path leads nowhere if and only if it does not resolve. -/
theorem Context.absent_iff : c.Absent path ↔ ∃ cause, c.resolve path = .error cause := by
  rw [resolve, Path.expr, Expr.eval, ← rootOf]
  cases hroot : c.lookup (rootOf path) with
  | none => exact ⟨fun _ => ⟨_, rfl⟩, fun _ => .unbound hroot⟩
  | some v =>
    refine ⟨fun h => ?_, fun h => .breaksOff hroot (Value.breaksOff_iff.2 h)⟩
    cases h with
    | unbound h => rw [hroot] at h; cases h
    | breaksOff hroot' h =>
      cases hroot.symm.trans hroot'
      exact Value.breaksOff_iff.1 h

/-! ### Testing them -/

/-- MISSING AND NULL: a test of a path that leads nowhere holds if and only if it compares
    with null for equality. With null written to the path it has the same answer, and it
    never leaves a diagnostic. -/
theorem FieldTest.check_absent (h : c.Absent t.path) :
    ∃ b, (b = true ↔ t.op = .compare .eq ∧ t.constant = .null) ∧ ∀ ds,
      (Condition.field t).check c ds = (b, ds) ∧
      (Condition.field t).check (c.insert t.path .null) ds = (b, ds) := by
  obtain ⟨cause, hcause⟩ := Context.absent_iff.1 h
  refine ⟨t.onMissing, onMissing_iff, fun ds =>
    ⟨check_of_missing ?_ ds, check_of_missing ?_ ds⟩⟩
  · intro v hv
    rw [hcause] at hv
    cases hv
  · intro v hv
    rw [resolve_of_get (get_insert_self _ _ _)] at hv
    cases hv
    rfl

/-- A path through an object, which answers with a text. The write puts maps in the
    place of both. -/
theorem FieldTest.check_absent_answer :
    let answers (k : String) : Option Value := if k = "pet" then some (.str "Rex") else none
    let owner : Value := .object 1 "Person" answers fun _ => none
    let c : Context := ⟨[("owner", owner)]⟩
    let t : FieldTest := ⟨"owner.pet.name", .compare .eq, .null⟩
    c.Absent t.path ∧ (Condition.field t).check c [] = (true, []) ∧
      (Condition.field t).check (c.insert t.path .null) [] = (true, []) := by
  intro answers owner c t
  have hpath : Path.ofString t.path = ⟨"owner", ["pet", "name"]⟩ := by cbv
  have hroot : c.lookup (rootOf t.path) = some owner := by rw [rootOf, hpath]; rfl
  have hpet : owner.field "pet" = .ok (.str "Rex") := rfl
  have hname : (Value.str "Rex").Lacks "name" := .noRecord (by decide) (by decide)
  have habsent : c.Absent t.path :=
    .breaksOff hroot (by rw [hpath]; exact .further hpet (.here hname))
  obtain ⟨b, hb, hcheck⟩ := check_absent habsent
  obtain rfl : b = true := hb.2 ⟨rfl, rfl⟩
  exact ⟨habsent, hcheck []⟩

end Rulebook
