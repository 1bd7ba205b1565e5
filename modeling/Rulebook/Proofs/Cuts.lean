import Rulebook.Proofs.Evaluation
import Rulebook.Proofs.Roots

/-!
Paths that are cut in two. What is in front of the cut has a value, and the path goes on from there
as if that value had a name of its own:

    order.items[i + 1].price.size()
    order.items[i + 1]                   v
    it.price.size()                      in the context where it = v

A name for the value must not be one that an index behind the cut looks at, since there the context
shows through. Where the front part fails, the whole path fails alike.

How a value is held makes no difference either. A value of the context is lent, and looked into
where it stands; what a call returns, or an object has for a field, is owned, and taken apart:

    lent  map       the field is lent
    owned map       the field is moved out, and owned
    lent  list      the element is lent
    owned list      the element is moved out, the last one takes its place, and it is owned
-/

namespace Rulebook

variable {c : Context}

/-! ### Values that are held -/

/-- A value on the way along a path. -/
inductive Held where
  | lent (v : Value)
  | owned (v : Value)

/-- The value that is held. -/
def Held.value : Held → Value
  | lent v => v
  | owned v => v

/-- Move a field out: its value, and the fields that are left. -/
def Fields.moveOut {α : Type} (k : String) (fs : List (String × α)) :
    Option (α × List (String × α)) :=
  (find? k fs).map (·, erase k fs)

/-- Move an element out: the element, and the list in which the last one has taken its place. -/
def swapOut {α : Type} (items : List α) (i : Fin items.length) : α × List α :=
  (items.get i, (items.set i (items.getLast (List.ne_nil_of_length_pos i.pos))).dropLast)

/-- The place in a list that an index stands for. -/
def Value.place (size : Nat) (index : Value) : Except EvalError (Fin size) :=
  match index.int? with
  | none => .error (.typeMismatch "[]" .int index.kind)
  | some i =>
    if h : 0 ≤ i.toInt ∧ i.toInt.toNat < size then .ok ⟨i.toInt.toNat, h.2⟩
    else .error (.indexOutOfBounds i size)

/-- The field of a value that is held. -/
def Held.field (name : String) : Held → Except EvalError Held
  | lent (.map fs) =>
    match Fields.find? name fs with
    | some v => .ok (lent v)
    | none => .error (.noSuchField name "map")
  | owned (.map fs) =>
    match Fields.moveOut name fs with
    | some (v, _) => .ok (owned v)
    | none => .error (.noSuchField name "map")
  | h => (h.value.field name).map owned

/-- The element of a value that is held, where the index is evaluated once it is known
    to be a list. -/
def Held.element (index : Except EvalError Value) : Held → Except EvalError Held
  | lent (.list items) => do
    let i ← index
    let k ← i.place items.length
    return lent (items.get k)
  | owned (.list items) => do
    let i ← index
    let k ← i.place items.length
    return owned (swapOut items k).1
  | h => .error (.notIndexable h.value.kind)

/-- One segment, from a value that is held. -/
def Segment.advance (c : Context) : Segment → Held → Except EvalError Held
  | .field name, h => h.field name
  | .call name, h => (h.value.call name).map .owned
  | .index e, h => h.element (e.eval c)

/-- Follow segments from a value that is held. -/
def Segment.follow (c : Context) : List Segment → Held → Except EvalError Held
  | [], h => .ok h
  | s :: ss, h => s.advance c h >>= Segment.follow c ss

theorem Value.element_eq (items : List Value) (index : Value) :
    Value.element items index = (index.place items.length).map items.get := by
  rw [element, place]
  cases index.int? with
  | none => rfl
  | some i =>
    dsimp only
    by_cases hi : 0 ≤ i.toInt
    · rw [if_pos hi]
      by_cases hlt : i.toInt.toNat < items.length
      · rw [dif_pos ⟨hi, hlt⟩, List.getElem?_eq_getElem hlt]
        rfl
      · rw [dif_neg fun h => hlt h.2, List.getElem?_eq_none (Nat.le_of_not_lt hlt)]
        rfl
    · rw [if_neg hi, dif_neg fun h => hi h.1]
      rfl

theorem Held.field_value (name : String) (h : Held) :
    (h.field name).map value = h.value.field name := by
  unfold field
  split
  · next fs =>
    simp only [value, Value.field]
    cases Fields.find? name fs <;> rfl
  · next fs =>
    simp only [value, Value.field, Fields.moveOut]
    cases Fields.find? name fs <;> rfl
  · cases h.value.field name <;> rfl

/-- To hold the element in one way or the other is to have the element. -/
theorem Value.element_held {items : List Value} (index : Except EvalError Value)
    {hold : Fin items.length → Held} (hhold : ∀ k, (hold k).value = items.get k) :
    (do let i ← index; let k ← i.place items.length; return hold k :
        Except EvalError Held).map Held.value = index >>= Value.element items := by
  cases index with
  | error cause => rfl
  | ok i =>
    simp only [ok_bind, element_eq]
    cases i.place items.length with
    | error cause => rfl
    | ok k => exact congrArg _ (hhold k)

theorem Held.element_value (index : Except EvalError Value) (h : Held) :
    (h.element index).map value = match h.value with
      | .list items => index >>= Value.element items
      | v => .error (.notIndexable v.kind) := by
  unfold element
  split
  · exact Value.element_held index fun k => rfl
  · exact Value.element_held index fun k => rfl
  · next hlent howned =>
    cases h with
    | lent v =>
      cases v with
      | list items => exact absurd rfl (hlent items)
      | _ => rfl
    | owned v =>
      cases v with
      | list items => exact absurd rfl (howned items)
      | _ => rfl

theorem Segment.advance_value (s : Segment) (h : Held) :
    (s.advance c h).map Held.value = s.step c h.value := by
  cases s with
  | field name =>
    rw [advance, step]
    exact h.field_value name
  | call name =>
    rw [advance, step]
    cases h.value.call name <;> rfl
  | index e =>
    rw [advance, h.element_value]
    cases h.value with
    | list items => rw [step_index]
    | _ => rfl

theorem Segment.follow_value (ss : List Segment) (h : Held) :
    (follow c ss h).map Held.value = walk c ss h.value := by
  induction ss generalizing h with
  | nil => rw [follow, walk]; rfl
  | cons s ss ih =>
    rw [follow, walk_cons, ← s.advance_value h]
    cases s.advance c h with
    | error cause => rfl
    | ok h' => exact ih h'

/-! ### Cuts -/

theorem Segment.walk_append (front back : List Segment) (v : Value) :
    walk c (front ++ back) v = walk c front v >>= walk c back := by
  induction front generalizing v with
  | nil => rw [List.nil_append, walk, ok_bind]
  | cons s ss ih =>
    rw [List.cons_append, walk_cons, walk_cons, bind_assoc]
    exact congrArg _ (funext fun w => ih w)

theorem Expr.eval_path_append (root : String) (front back : List Segment) :
    (path root (front ++ back)).eval c = (path root front).eval c >>= Segment.walk c back := by
  rw [eval, eval]
  cases c.lookup root with
  | none => rfl
  | some v => exact Segment.walk_append front back v

theorem splitDots_of_not_mem {cs : List Char} (h : '.' ∉ cs) : splitDots cs = (cs, []) := by
  induction cs with
  | nil => rfl
  | cons d cs ih =>
    obtain ⟨hd, hcs⟩ := List.ne_and_not_mem_of_not_mem_cons h
    rw [splitDots, ih hcs]
    simp [Ne.symm hd]

/-- A text without dots is a path of one part. -/
theorem Path.ofString_of_not_mem {t : String} (h : '.' ∉ t.toList) :
    Path.ofString t = ⟨t, []⟩ := by
  simp [ofString, splitDots_of_not_mem h]

theorem Context.lookup_insert_of_not_mem {t : String} (h : '.' ∉ t.toList)
    (v : Value) (k : String) :
    (c.insert t v).lookup k = if k = t then some v else c.lookup k := by
  have hroot : rootOf t = t := by rw [rootOf, Path.ofString_of_not_mem h]
  by_cases hk : k = t
  · have hself : (c.insert t v).lookup (rootOf t) = _ := lookup_insert_root
    rw [hroot, Path.ofString_of_not_mem h] at hself
    rw [hk, hself, if_pos rfl]
    rfl
  · rw [if_neg hk]
    exact lookup_insert_of_ne (hroot.symm ▸ hk)

/-- CUT ANYWHERE: a path fails as its front part fails. If the front part has a value, the
    path goes on from it as it does from a new name for that value, and as it does from that
    value however it is held. -/
theorem Expr.eval_cut (c : Context) (root : String) (front back : List Segment) :
    (∀ cause, (path root front).eval c = .error cause →
      (path root (front ++ back)).eval c = .error cause) ∧
    ∀ v, (path root front).eval c = .ok v →
      (∀ t, '.' ∉ t.toList → t ∉ Segment.allRoots back →
        (path root (front ++ back)).eval c = (path t back).eval (c.insert t v)) ∧
      ∀ held : Held, held.value = v →
        (path root (front ++ back)).eval c = (Segment.follow c back held).map Held.value := by
  rw [eval_path_append]
  refine ⟨?_, ?_⟩
  · intro cause hcause
    rw [hcause, error_bind]
  · intro v hv
    rw [hv, ok_bind]
    refine ⟨?_, ?_⟩
    · intro t ht hback
      rw [eval, Context.lookup_insert_of_not_mem ht, if_pos rfl]
      refine Segment.walk_congr back v ?_
      intro k hk
      have hne : k ≠ t := by
        rintro rfl
        exact hback hk
      rw [Context.lookup_insert_of_not_mem ht, if_neg hne]
    · rintro held rfl
      exact (Segment.follow_value back held).symm

/-- A list that a call returns, with an index of its own behind the cut. -/
theorem Expr.eval_cut_call :
    let pets : Value := .list [.map [("name", .str "Rex")], .map [("name", .str "Tom")]]
    let owner : Value :=
      .object 1 "Person" (fun _ => none) fun k => if k = "pets" then some pets else none
    let c : Context := ⟨[("i", .int 1), ("owner", owner)]⟩
    let back : List Segment := [.index (.path "i" []), .field "name"]
    (path "owner" [.call "pets"]).eval c = .ok pets ∧
      '.' ∉ "it".toList ∧ "it" ∉ Segment.allRoots back ∧
      (path "it" back).eval (c.insert "it" pets) = .ok (.str "Tom") ∧
      (Segment.follow c back (.owned pets)).map Held.value = .ok (.str "Tom") ∧
      (path "owner" [.field "pets"]).eval c = .error (.noSuchField "pets" "Person") ∧
      (path "owner" (.field "pets" :: back)).eval c = .error (.noSuchField "pets" "Person") := by
  intro pets owner c back
  have hpets : (path "owner" [.call "pets"]).eval c = .ok pets := rfl
  have hwhole : (path "owner" ([.call "pets"] ++ back)).eval c = .ok (.str "Tom") := rfl
  have hmissing : (path "owner" [.field "pets"]).eval c = .error (.noSuchField "pets" "Person") :=
    rfl
  have hdot : '.' ∉ "it".toList := by decide
  have hback : "it" ∉ Segment.allRoots back := by
    simp [back, Segment.allRoots, Segment.roots, Expr.roots]
  obtain ⟨hnamed, hheld⟩ := (eval_cut c "owner" [.call "pets"] back).2 pets hpets
  refine ⟨hpets, hdot, hback, ?_, ?_, hmissing, ?_⟩
  · rw [← hnamed "it" hdot hback, hwhole]
  · rw [← hheld (.owned pets) rfl, hwhole]
  · exact (eval_cut c "owner" [.field "pets"] back).1 _ hmissing

end Rulebook
