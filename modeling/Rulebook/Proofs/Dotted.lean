import Rulebook.Action
import Rulebook.Condition.FieldTest
import Rulebook.Proofs.Paths
import Rulebook.Proofs.Writing

/-!
Paths as expressions. A path whose parts are names is an expression too, and the two are read alike,
although a write splits a text at its dots and an expression is scanned and read into a tree:

    text        user.profile.age
    parts       user, profile, age
    row         word user, dot, word profile, dot, word age
    tree        path user .profile .age

What a write puts at the path is what the expression has for its value. The expression sees more
than `get` does, because a field of an object is no part of the context; where no object is on the
way, the two see the same.
-/

namespace Rulebook

/-- What a part of a path is if it is to be read as a word: a word that is no truth value. -/
def IsName (s : String) : Prop := IsWord s.toList ∧ s ≠ "true" ∧ s ≠ "false"

/-- The parts of a path are names. -/
def IsDotted (path : String) : Prop := ∀ x ∈ partsOf path, IsName x

/-- A text is laid out in a row of terminals, wherever it begins. -/
def LaidOut (operand : Bool) (cs : List Char) (row : List Terminal) : Prop :=
  ∀ position, ∃ tiles last, Tiling position operand cs tiles last ∧
    tiles.map (·.token.terminal) = row

variable {operand : Bool} {cs rest : List Char} {row : List Terminal} {t : Terminal} {path : String}

/-! ### Rows of terminals -/

namespace LaidOut

theorem nil : LaidOut operand [] [] :=
  fun _ => ⟨[], [], tiling_nil_iff.2 ⟨rfl, by simp⟩, rfl⟩

/-- A lexeme, with blanks in front of it, and what the text goes on with. -/
theorem cons (gap : List Char) (hgap : ∀ c ∈ gap, isBlank c = true)
    (ht : t.Spells operand cs rest) (h : LaidOut t.opensOperand rest row) :
    LaidOut operand (gap ++ cs ++ rest) (t :: row) := by
  intro position
  obtain ⟨tiles, last, htiling, hrow⟩ := h (position + bytes (gap ++ cs))
  refine ⟨⟨gap, cs, ⟨t, position + bytes gap⟩⟩ :: tiles, last, ?_,
    by rw [List.map_cons, hrow]⟩
  exact tiling_cons_iff.2 ⟨rest, rfl, hgap, rfl, ht, htiling⟩

/-- A text is laid out in one row only. -/
theorem unique {row' : List Terminal} (h : LaidOut operand cs row) (h' : LaidOut operand cs row') :
    row = row' := by
  obtain ⟨tiles, last, htiling, rfl⟩ := h 0
  obtain ⟨tiles', last', htiling', rfl⟩ := h' 0
  have htokens :=
    List.append_cancel_right (Except.ok.inj (htiling.scan_eq.symm.trans htiling'.scan_eq))
  have hmap := congrArg (List.map Token.terminal) htokens
  rwa [List.map_map, List.map_map] at hmap

/-- The tree whose row a text is laid out in is read from the text. -/
theorem ofSource {source : String} {e : Expr} (h : LaidOut true source.toList e.terminals)
    (hL : Language.Disjunction e.terminals e) (hle : e.height ≤ maxHeight) :
    Expr.ofSource source = .ok e := by
  obtain ⟨tiles, last, htiling, hrow⟩ := h 0
  have hmap : (tiles.map Tile.token).map Token.terminal = e.terminals := by
    rw [List.map_map]; exact hrow
  have hts : ∀ t ∈ tiles.map Tile.token, t.terminal ≠ .ending := by
    rintro t ht hend
    refine Expr.ending_not_mem e ?_
    rw [← hmap, ← hend]
    exact List.mem_map_of_mem ht
  refine Expr.ofSource_eq_ok_iff.2 ⟨_, htiling.scan_eq, ?_⟩
  exact (Expr.ofTokensWithin_iff (by decide) hts rfl).2 ⟨hmap.symm ▸ hL, hle⟩

end LaidOut

/-! ### The row of a path -/

/-- Names as they stand behind the first part of a path. -/
def fieldsText (xs : List String) : List Char := xs.flatMap fun x => '.' :: x.toList

theorem IsName.spells {x : String} (h : IsName x) (hrest : Stops isWordPart rest) :
    (Terminal.word x).Spells operand x.toList rest :=
  ⟨rfl, h.1, h.2.1, h.2.2, hrest⟩

theorem stops_fieldsText (xs : List String) (hrest : Stops isWordPart rest) :
    Stops isWordPart (fieldsText xs ++ rest) := by
  cases xs with
  | nil => exact hrest
  | cons y ys => rintro _ ⟨⟩; rfl

theorem LaidOut.fields {xs : List String} (hxs : ∀ x ∈ xs, IsName x)
    (hrest : Stops isWordPart rest) (h : LaidOut false rest row) :
    LaidOut false (fieldsText xs ++ rest) (Segment.terminals (xs.map .field) ++ row) := by
  induction xs with
  | nil => exact h
  | cons x xs ih =>
    have hname : (Terminal.word x).Spells false _ _ :=
      (hxs x List.mem_cons_self).spells (stops_fieldsText xs hrest)
    have htail := ih fun y hy => hxs y (List.mem_cons_of_mem _ hy)
    have hdot (more : List Char) : Terminal.dot.Spells false ['.'] more := rfl
    have hrow := cons [] (by simp) (hdot _) (cons [] (by simp) hname htail)
    simpa [Segment.terminals, fieldsText] using hrow

/-- A text is its parts, with dots in front of all but the first. -/
theorem splitDots_joined (cs : List Char) :
    (splitDots cs).1 ++ ((splitDots cs).2.flatMap fun part => '.' :: part) = cs := by
  induction cs with
  | nil => rfl
  | cons c cs ih =>
    rw [splitDots]
    by_cases hc : c = '.'
    · simp [hc, ih]
    · simp [hc, ih]

theorem toList_path (path : String) :
    (rootOf path).toList ++ fieldsText (Path.ofString path).rest = path.toList := by
  have h := splitDots_joined path.toList
  simpa [rootOf, Path.ofString, fieldsText, List.flatMap_map] using h

/-- A path is laid out in the row of its expression, in front of anything that does
    not go on with it. -/
theorem LaidOut.dotted (hpath : IsDotted path) (hrest : Stops isWordPart rest)
    (h : LaidOut false rest row) :
    LaidOut operand (path.toList ++ rest) ((Path.ofString path).expr.terminals ++ row) := by
  rw [IsDotted, partsOf_eq] at hpath
  obtain ⟨hroot, hxs⟩ := List.forall_mem_cons.1 hpath
  have hname : (Terminal.word (rootOf path)).Spells operand _ _ :=
    hroot.spells (stops_fieldsText (Path.ofString path).rest hrest)
  have hrow := cons [] (by simp) hname (fields hxs hrest h)
  rw [List.nil_append, ← List.append_assoc, toList_path] at hrow
  exact hrow

theorem segments_fields (L : Language) (xs : List String) :
    Language.Segments L (Segment.terminals (xs.map .field)) (xs.map .field) := by
  induction xs with
  | nil => exact .nil
  | cons x xs ih => exact .field ih

theorem heights_fields (xs : List String) : Segment.heights (xs.map .field) = 0 := by
  induction xs with
  | nil => rfl
  | cons x xs ih => simp [Segment.heights, Segment.height, ih]

theorem Path.negation_expr (p : Path) : Language.Negation p.expr.terminals p.expr :=
  .path (segments_fields _ p.rest)

theorem Path.height_expr (p : Path) : p.expr.height = 1 := by
  rw [expr, Expr.height, heights_fields]
  rfl

/-- A path whose parts are names is an expression, and that of the path. -/
theorem ofSource_path (hpath : IsDotted path) :
    Expr.ofSource path = .ok (Path.ofString path).expr := by
  have hrow : LaidOut true (path.toList ++ []) _ := LaidOut.dotted hpath (by simp [Stops]) .nil
  rw [List.append_nil, List.append_nil] at hrow
  refine hrow.ofSource (Path.negation_expr _).disjunction ?_
  rw [Path.height_expr]
  decide

/-! ### Reading -/

/-- What a path resolves to: the value of its root, followed from field to field. -/
def Context.resolve (path : String) (c : Context) : Except EvalError Value :=
  (Path.ofString path).expr.eval c

/-- The values that fields are taken of when names are followed. -/
def Value.passed : List String → Value → List Value
  | [], _ => []
  | k :: ks, v => v :: match v.field k with
    | .ok w => passed ks w
    | .error _ => []

/-- The values on the way to the end of a path. -/
def Context.passed (path : String) (c : Context) : List Value :=
  match c.lookup (rootOf path) with
  | some v => v.passed (Path.ofString path).rest
  | none => []

variable {c : Context} {v w : Value} {xs : List String}

theorem Value.field_map (k : String) (fs : List (String × Value)) :
    (Value.map fs).field k = match Fields.find? k fs with
      | some v => .ok v
      | none => .error (.noSuchField k "map") := rfl

/-- Fields are read wherever names descend through maps. -/
theorem walk_of_descend (h : v.descend xs = some w) : Segment.walk c (xs.map .field) v = .ok w := by
  induction xs generalizing v with
  | nil => cases h; rfl
  | cons x xs ih =>
    cases v with
    | map fs =>
      rw [Value.descend, Option.bind_eq_some_iff] at h
      obtain ⟨u, hu, h⟩ := h
      rw [List.map_cons, Segment.walk, Segment.step, Value.field_map, hu]
      exact ih h
    | _ => cases h

/-- Without an object on the way, fields are read through maps. -/
theorem descend_of_walk (h : Segment.walk c (xs.map .field) v = .ok w)
    (hpassed : ∀ u ∈ v.passed xs, u.kind ≠ .object) : v.descend xs = some w := by
  induction xs generalizing v with
  | nil => cases h; rfl
  | cons x xs ih =>
    rw [List.map_cons, Segment.walk, Segment.step] at h
    rw [Value.passed] at hpassed
    obtain ⟨hv, hpassed⟩ := List.forall_mem_cons.1 hpassed
    cases v with
    | map fs =>
      rw [Value.field_map] at h hpassed
      rw [Value.descend]
      cases hu : Fields.find? x fs with
      | none => rw [hu] at h; cases h
      | some u =>
        rw [hu] at h hpassed
        exact ih h hpassed
    | object => exact absurd rfl hv
    | _ => cases h

theorem resolve_of_get (h : c.get path = some v) : c.resolve path = .ok v := by
  simp only [Context.get] at h
  rw [Option.bind_eq_some_iff] at h
  obtain ⟨u, hu, h⟩ := h
  rw [Context.resolve, Path.expr, Expr.eval, hu]
  exact walk_of_descend h

theorem get_of_resolve (h : c.resolve path = .ok v)
    (hpassed : ∀ u ∈ c.passed path, u.kind ≠ .object) :
    c.get path = some v := by
  rw [Context.resolve, Path.expr, Expr.eval] at h
  rw [Context.passed, rootOf] at hpassed
  simp only [Context.get]
  cases hu : c.lookup (Path.ofString path).root with
  | none => rw [hu] at h; cases h
  | some u =>
    rw [hu] at h hpassed
    exact descend_of_walk h hpassed

theorem Expression.ofSource_eq {source : String} {tree : Expr}
    (h : Expr.ofSource source = .ok tree) :
    ofSource source = .ok ⟨source, tree, h⟩ := by
  unfold ofSource
  split
  · next h' => rw [h] at h'; cases h'
  · next h' => cases h.symm.trans h'; rfl

/-- SAME PLACE: a path whose parts are names is an expression. Its value is what stands at the path,
    and if no object is on the way it has no other; so behind a write at the path it is what was
    written, whether the write is done alone or by an action. -/
theorem Expression.eval_path (hpath : IsDotted path) :
    ∃ e : Expression, ofSource path = .ok e ∧ ∀ c : Context,
      (∀ v, c.get path = some v → e.eval c = .ok v) ∧
      (∀ v, e.eval c = .ok v → (∀ u ∈ c.passed path, u.kind ≠ .object) →
        c.get path = some v) ∧
      (∀ v, e.eval (c.insert path v) = .ok v) ∧
      ∀ clock f, ((Action.set path f).run clock c).result = .ok () →
        ∃ v, f.eval c = .ok v ∧ e.eval ((Action.set path f).run clock c).context = .ok v := by
  refine ⟨_, ofSource_eq (ofSource_path hpath), fun c => ⟨?_, ?_, ?_, ?_⟩⟩
  · intro v h
    exact resolve_of_get h
  · intro v h hpassed
    exact get_of_resolve h hpassed
  · intro v
    exact resolve_of_get (get_insert_self path v c)
  · intro clock f h
    rw [Action.run] at h ⊢
    cases hf : f.eval c with
    | error cause => rw [hf] at h; cases h
    | ok v => exact ⟨v, rfl, resolve_of_get (get_insert_self path v c)⟩

/-- A path through an object, which a write puts a map in the place of. -/
theorem Expression.eval_path_object :
    let owner : Value :=
      .object 1 "Person" (fun k => if k = "age" then some (.int 30) else none) fun _ => none
    let c : Context := ⟨[("owner", owner)]⟩
    IsDotted "owner.age" ∧ c.get "owner.age" = none ∧
      ∃ e, ofSource "owner.age" = .ok e ∧
        e.eval (c.insert "owner.age" (.int 25)) = .ok (.int 25) := by
  intro owner c
  have hparts : partsOf "owner.age" = ["owner", "age"] := by cbv
  have howner : IsName "owner" :=
    ⟨⟨⟨'o', rfl, rfl⟩, List.all_eq_true.1 rfl⟩, by decide, by decide⟩
  have hage : IsName "age" :=
    ⟨⟨⟨'a', rfl, rfl⟩, List.all_eq_true.1 rfl⟩, by decide, by decide⟩
  have hpath : IsDotted "owner.age" := by
    rw [IsDotted, hparts]
    simp [howner, hage]
  obtain ⟨e, he, hread⟩ := eval_path hpath
  refine ⟨hpath, by cbv, e, he, ?_⟩
  exact (hread c).2.2.1 (.int 25)

end Rulebook
