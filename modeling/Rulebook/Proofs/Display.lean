import Rulebook.Proofs.FieldTests

/-!
A tree is known by the text that shows it. The text cannot be read back, because it has parentheses
around every operator but `!` and the grammar has none; but it is scanned, and the row of its
terminals tells the tree:

    tree    all of  not a[-1]  and  c - -1
    text    (!a[-1] && (c - -1))
    row     (   !   a   [   -1   ]   &&   (   c   -   -1   )   )

Two things are to be shown, and both of a tree wherever it stands. Its text is scanned into its row
if an operand is due, as long as nothing follows that goes on with a word or a number (`Scans`); a
text has one row, so that texts can be forgotten then. And its row tells by the first terminal what
kind of tree it is of, and by the others where it ends, as long as nothing follows that goes on with
a path (`Told`).

Both are inductions over the trees that are known in this way, the plain ones. All operators but `!`
are one case there: they differ only in what stands between the operands (`group?`).
-/

namespace Rulebook

/-! ### Rows with parentheses -/

mutual

/-- The terminals of a tree as it is shown, with parentheses around every operator but `!`. -/
def Expr.grouped : Expr → List Terminal
  | .literal l => [.literal l]
  | .path root ss => .word root :: Segment.grouped ss
  | .binary op l r => .openCall :: (l.grouped ++ op.terminal :: (r.grouped ++ [.closeCall]))
  | .not e => .not :: e.grouped
  | .all es => .openCall :: (Expr.groupedRow .and es ++ [.closeCall])
  | .any es => .openCall :: (Expr.groupedRow .or es ++ [.closeCall])

/-- The terminals of some trees as they are shown, with a separator between them. -/
def Expr.groupedRow (sep : Terminal) : List Expr → List Terminal
  | [] => []
  | [e] => e.grouped
  | e :: f :: es => e.grouped ++ sep :: Expr.groupedRow sep (f :: es)

/-- The terminals of the segments of a path as they are shown. -/
def Segment.grouped : List Segment → List Terminal
  | [] => []
  | .field x :: ss => .dot :: .word x :: Segment.grouped ss
  | .call x :: ss => .dot :: .word x :: .openCall :: .closeCall :: Segment.grouped ss
  | .index e :: ss => .openIndex :: (e.grouped ++ .closeIndex :: Segment.grouped ss)

end

/-- What stands in a pair of parentheses: what separates the operands, the first one,
    and the others. -/
def Expr.group? : Expr → Option (Terminal × Expr × List Expr)
  | .binary op l r => some (op.terminal, l, [r])
  | .all (e :: es) => some (.and, e, es)
  | .any (e :: es) => some (.or, e, es)
  | _ => none

/-- The name of a field or a call is a name. -/
def Segment.IsNamed : Segment → Prop
  | .field x | .call x => IsName x
  | .index _ => True

/-- Trees that are known by their texts: the words are names, the literals are plain, and there are
    two operands or more in a pair of parentheses. -/
inductive Expr.IsPlain : Expr → Prop
  | literal {l} : l.value.IsPlain → IsPlain (.literal l)
  | path {root ss} : IsName root → (∀ s ∈ ss, s.IsNamed) →
      (∀ e, .index e ∈ ss → IsPlain e) → IsPlain (.path root ss)
  | not {e} : IsPlain e → IsPlain (.not e)
  | group {e sep first others} : e.group? = some (sep, first, others) → others ≠ [] →
      IsPlain first → (∀ o ∈ others, IsPlain o) → IsPlain e

variable {e f first : Expr} {others : List Expr} {sep t : Terminal} {operand : Bool}
  {cs rest : List Char} {row v w : List Terminal} {ss : List Segment}

theorem Expr.groupedRow_cons (sep : Terminal) (first : Expr) (others : List Expr) :
    groupedRow sep (first :: others) = first.grouped ++ others.flatMap (sep :: ·.grouped) := by
  induction others generalizing first with
  | nil => simp [groupedRow]
  | cons o os ih => simp [groupedRow, ih]

theorem Expr.grouped_of_group (h : e.group? = some (sep, first, others)) :
    e.grouped = .openCall :: (first.grouped ++
      (others.flatMap (sep :: ·.grouped) ++ [.closeCall])) := by
  unfold group? at h
  split at h <;> cases h <;> simp [grouped, groupedRow_cons]

theorem BinOp.terminal_injective {op op' : BinOp} (h : op.terminal = op'.terminal) : op = op' := by
  rcases op with (_ | _ | _ | _ | _ | _) | (_ | _ | _ | _) <;>
    rcases op' with (_ | _ | _ | _ | _ | _) | (_ | _ | _ | _) <;> first | rfl | cases h

/-- Operators hold on to an operand more than `&&` and `||` do, and less than the
    segments of a path. -/
theorem BinOp.grip_terminal (op : BinOp) : 3 ≤ op.terminal.grip ∧ op.terminal.grip < 7 := by
  rcases op with (_ | _ | _ | _ | _ | _) | (_ | _ | _ | _) <;> decide

theorem Expr.grip_of_group (h : e.group? = some (sep, first, others)) :
    0 < sep.grip ∧ sep.grip < 7 := by
  unfold group? at h
  split at h
  · next op l r =>
    have := op.grip_terminal
    cases h
    omega
  · cases h; decide
  · cases h; decide
  · cases h

/-- The operands and what separates them say which operator it is. -/
theorem Expr.group_injective {g : Terminal × Expr × List Expr} (he : e.group? = some g)
    (hf : f.group? = some g) : e = f := by
  have hne (op : BinOp) : op.terminal ≠ .and ∧ op.terminal ≠ .or := by
    have hgrip := op.grip_terminal.1
    constructor <;> intro h <;> rw [h] at hgrip <;> exact absurd hgrip (by decide)
  unfold group? at he hf
  split at he
  · next op l r =>
    cases he
    split at hf
    · next op' l' r' =>
      simp only [Option.some.injEq, Prod.mk.injEq, List.cons.injEq, and_true] at hf
      obtain ⟨hop, rfl, rfl⟩ := hf
      rw [BinOp.terminal_injective hop]
    · exact absurd (congrArg Prod.fst (Option.some.inj hf)).symm (hne op).1
    · exact absurd (congrArg Prod.fst (Option.some.inj hf)).symm (hne op).2
    · cases hf
  · cases he
    split at hf
    · next op _ _ => exact absurd (congrArg Prod.fst (Option.some.inj hf)) (hne op).1
    · cases hf; rfl
    · cases hf
    · cases hf
  · cases he
    split at hf
    · next op _ _ => exact absurd (congrArg Prod.fst (Option.some.inj hf)) (hne op).2
    · cases hf
    · cases hf; rfl
    · cases hf
  · cases he

/-! ### Rows that are scanned -/

theorem Expr.toList_chain (s : String) (first : Expr) (others : List Expr) :
    (s.intercalate (texts (first :: others))).toList =
      first.text.toList ++ others.flatMap fun o => s.toList ++ o.text.toList := by
  induction others generalizing first with
  | nil => simp [texts]
  | cons o os ih =>
    simp only [texts, String.intercalate_cons_cons, String.toList_append] at ih ⊢
    rw [ih]
    simp

theorem BinOp.toList_text (op : BinOp) : op.text.toList = op.terminal.spelling := by
  rcases op with (_ | _ | _ | _ | _ | _) | (_ | _ | _ | _) <;> rfl

/-- The text of the operands behind the first one, each with what separates it from
    the one before. -/
def othersText (sep : Terminal) (others : List Expr) : List Char :=
  others.flatMap fun o => ' ' :: (sep.spelling ++ ' ' :: o.text.toList)

theorem Expr.text_of_group (h : e.group? = some (sep, first, others)) :
    e.text.toList = '(' :: (first.text.toList ++ (othersText sep others ++ [')'])) := by
  unfold group? at h
  split at h
  · next op l r =>
    cases h
    simp [text, othersText, BinOp.toList_text]
  · cases h
    rw [text, String.toList_append, String.toList_append, toList_chain]
    simp [othersText, Terminal.spelling]
  · cases h
    rw [text, String.toList_append, String.toList_append, toList_chain]
    simp [othersText, Terminal.spelling]
  · cases h

theorem Expr.spells_of_group (h : e.group? = some (sep, first, others)) (rest : List Char) :
    sep.Spells false sep.spelling (' ' :: rest) ∧ sep.opensOperand = true := by
  unfold group? at h
  split at h
  · next op l r =>
    cases h
    cases op with
    | compare c =>
      have htext : c.text.toList = _ := BinOp.toList_text (.compare c)
      rw [← htext]
      exact ⟨c.spells false rest, c.opensOperand⟩
    | arith a =>
      cases a with
      | sub => exact ⟨⟨rfl, Bool.noConfusion⟩, rfl⟩
      | add | mul | div => exact ⟨rfl, rfl⟩
  · cases h; exact ⟨rfl, rfl⟩
  · cases h; exact ⟨rfl, rfl⟩
  · cases h

/-- A tree whose text is scanned into its row, wherever an operand is due. -/
def Expr.Scans (e : Expr) : Prop :=
  ∀ ⦃gap rest row⦄, (∀ c ∈ gap, isBlank c = true) → Stops isNumberTail rest →
    LaidOut false rest row →
    LaidOut true (gap ++ e.text.toList ++ rest) (e.grouped ++ row)

theorem Expr.scans_literal {l : Literal} (hl : l.value.IsPlain) : (literal l).Scans := by
  intro gap rest row hgap hrest h
  exact .cons gap hgap (Literal.spells hl hrest) h

theorem stops_segments (ss : List Segment) (hrest : Stops isNumberTail rest) :
    Stops isWordPart ((Segment.texts ss).toList ++ rest) := by
  cases ss with
  | nil => exact hrest.mono fun _ => isNumberTail_of_isWordPart
  | cons s ss => cases s <;> simp [Segment.texts, Segment.text, Stops] <;> rfl

theorem LaidOut.segments (hname : ∀ s ∈ ss, s.IsNamed)
    (hindex : ∀ e, .index e ∈ ss → e.Scans) (hrest : Stops isNumberTail rest)
    (h : LaidOut false rest row) :
    LaidOut false ((Segment.texts ss).toList ++ rest) (Segment.grouped ss ++ row) := by
  have hempty : ∀ c ∈ ([] : List Char), isBlank c = true := by simp
  induction ss with
  | nil => exact h
  | cons s ss ih =>
    have htail := ih (fun t ht => hname t (List.mem_cons_of_mem _ ht))
      fun e he => hindex e (List.mem_cons_of_mem _ he)
    have hs := hname s List.mem_cons_self
    have hdot (more : List Char) : Terminal.dot.Spells false ['.'] more := rfl
    cases s with
    | field x =>
      have hx : (Terminal.word x).Spells false _ _ := IsName.spells hs (stops_segments ss hrest)
      simpa [Segment.texts, Segment.text, Segment.grouped] using
        cons [] hempty (hdot _) (cons [] hempty hx htail)
    | call x =>
      have hclose : Terminal.closeCall.Spells true [')'] ((Segment.texts ss).toList ++ rest) := rfl
      have hopen (more : List Char) : Terminal.openCall.Spells false ['('] more := rfl
      have hx (more : List Char) : (Terminal.word x).Spells false x.toList ('(' :: more) :=
        IsName.spells hs (by rintro _ ⟨⟩; rfl)
      simpa [Segment.texts, Segment.text, Segment.grouped] using
        cons [] hempty (hdot _) (cons [] hempty (hx _)
          (cons [] hempty (hopen _) (cons [] hempty hclose htail)))
    | index e =>
      have hclose : Terminal.closeIndex.Spells false [']'] ((Segment.texts ss).toList ++ rest) :=
        rfl
      have hopen (more : List Char) : Terminal.openIndex.Spells false ['['] more := rfl
      have he :=
        hindex e List.mem_cons_self hempty (by rintro _ ⟨⟩; rfl) (cons [] hempty hclose htail)
      simpa [Segment.texts, Segment.text, Segment.grouped] using cons [] hempty (hopen _) he

theorem Expr.scans_path {root : String} (hroot : IsName root)
    (hname : ∀ s ∈ ss, s.IsNamed) (hindex : ∀ e, .index e ∈ ss → e.Scans) :
    (path root ss).Scans := by
  intro gap rest row hgap hrest h
  have hspells : (Terminal.word root).Spells true _ _ := hroot.spells (stops_segments ss hrest)
  simpa [text, grouped] using LaidOut.cons gap hgap hspells (.segments hname hindex hrest h)

theorem Expr.IsPlain.stops_equals (he : e.IsPlain) (hrest : Stops isNumberTail rest) :
    Stops (· == '=') (e.text.toList ++ rest) := by
  cases he with
  | literal hl => exact (Literal.spells hl hrest).stops_equals Terminal.noConfusion rest
  | path hroot hname hindex =>
    rename_i root ss
    have hspells : (Terminal.word root).Spells true _ _ := hroot.spells (stops_segments ss hrest)
    simpa [text] using hspells.stops_equals Terminal.noConfusion ((Segment.texts ss).toList ++ rest)
  | not => simp [text, Stops]
  | group hg => simp [text_of_group hg, Stops]

theorem LaidOut.behind (hsep : ∀ rest, sep.Spells false sep.spelling (' ' :: rest))
    (hopens : sep.opensOperand = true) (hothers : ∀ o ∈ others, o.Scans)
    (hrest : Stops isNumberTail rest) (h : LaidOut false rest row) :
    Stops isNumberTail (othersText sep others ++ rest) ∧
      LaidOut false (othersText sep others ++ rest)
        (others.flatMap (sep :: ·.grouped) ++ row) := by
  have hspace : ∀ c ∈ [' '], isBlank c = true := List.all_eq_true.1 rfl
  induction others with
  | nil => exact ⟨hrest, h⟩
  | cons o os ih =>
    obtain ⟨hstop, htail⟩ := ih fun p hp => hothers p (List.mem_cons_of_mem _ hp)
    have ho := hothers o List.mem_cons_self hspace hstop htail
    rw [← hopens] at ho
    refine ⟨by rintro _ ⟨⟩; rfl, ?_⟩
    simpa [othersText] using cons [' '] hspace (hsep _) ho

theorem Expr.IsPlain.scans (he : e.IsPlain) : e.Scans := by
  induction he with
  | literal hl => exact scans_literal hl
  | path hroot hname _ ih => exact scans_path hroot hname ih
  | @not e he ih =>
    intro gap rest row hgap hrest h
    have hnot : Terminal.not.Spells true ['!'] (e.text.toList ++ rest) :=
      ⟨rfl, he.stops_equals hrest⟩
    have hoperand : LaidOut true _ _ := @ih [] _ _ (by simp) hrest h
    simpa [text, grouped] using LaidOut.cons gap hgap hnot hoperand
  | @group e sep first others hg _ _ _ ihfirst ihothers =>
    intro gap rest row hgap hrest h
    have hclose : Terminal.closeCall.Spells false [')'] rest := rfl
    have hopen (more : List Char) : Terminal.openCall.Spells true ['('] more := rfl
    obtain ⟨hstop, hothers⟩ := LaidOut.behind (fun rest => (spells_of_group hg rest).1)
      (spells_of_group hg []).2 ihothers (by rintro _ ⟨⟩; rfl) (.cons [] (by simp) hclose h)
    have hfirst := @ihfirst [] _ _ (by simp) hstop hothers
    rw [text_of_group hg, grouped_of_group hg]
    simpa using LaidOut.cons gap hgap (hopen _) hfirst

/-! ### Rows that tell the tree -/

/-- A row that does not go on with a path in front of it. -/
def Detached (row : List Terminal) : Prop := ∀ t ∈ row.head?, t.grip < 7

/-- A tree whose row says where it ends and which tree it is, whatever follows that is detached. -/
def Expr.Told (e : Expr) : Prop :=
  ∀ ⦃f v w⦄, f.IsPlain → Detached v → Detached w → e.grouped ++ v = f.grouped ++ w →
    e = f ∧ v = w

theorem detached_cons (h : t.grip < 7) (v : List Terminal) : Detached (t :: v) := by
  rintro _ ⟨⟩
  exact h

theorem Detached.ne (h : Detached v) (ht : t.grip = 7) (more : List Terminal) :
    v ≠ t :: more := by
  rintro rfl
  have := h t rfl
  omega

/-- No pair of parentheses follows the name of a field. -/
theorem Segment.grouped_ne_openCall (ss : List Segment) (hv : Detached v) (more : List Terminal) :
    grouped ss ++ v ≠ .openCall :: more := by
  cases ss with
  | nil => exact hv.ne rfl more
  | cons s ss => cases s <;> simp [grouped]

theorem Segment.grouped_cancel {tt : List Segment} (hss : ∀ e, .index e ∈ ss → e.Told)
    (htt : ∀ e, .index e ∈ tt → e.IsPlain) (hv : Detached v) (hw : Detached w)
    (h : grouped ss ++ v = grouped tt ++ w) : ss = tt ∧ v = w := by
  induction ss generalizing tt with
  | nil =>
    cases tt with
    | nil => exact ⟨rfl, h⟩
    | cons t tt => cases t <;> exact absurd h (hv.ne rfl _)
  | cons s ss ih =>
    cases tt with
    | nil => cases s <;> exact absurd h.symm (hw.ne rfl _)
    | cons t tt =>
      have ih := @ih tt (fun e he => hss e (List.mem_cons_of_mem _ he))
        fun e he => htt e (List.mem_cons_of_mem _ he)
      cases s with
      | field x =>
        cases t with
        | field y =>
          simp only [grouped, List.cons_append, List.cons.injEq, Terminal.word.injEq, true_and] at h
          obtain ⟨rfl, hvw⟩ := ih h.2
          exact ⟨by rw [h.1], hvw⟩
        | call y =>
          simp only [grouped, List.cons_append, List.cons.injEq, true_and] at h
          exact absurd h.2 (grouped_ne_openCall ss hv _)
        | index e => simp [grouped] at h
      | call x =>
        cases t with
        | field y =>
          simp only [grouped, List.cons_append, List.cons.injEq, true_and] at h
          exact absurd h.2.symm (grouped_ne_openCall tt hw _)
        | call y =>
          simp only [grouped, List.cons_append, List.cons.injEq, Terminal.word.injEq, true_and] at h
          obtain ⟨rfl, hvw⟩ := ih h.2
          exact ⟨by rw [h.1], hvw⟩
        | index e => simp [grouped] at h
      | index e =>
        cases t with
        | field y => simp [grouped] at h
        | call y => simp [grouped] at h
        | index f =>
          simp only [grouped, List.cons_append, List.append_assoc, List.cons.injEq, true_and] at h
          have hclose (more : List Terminal) : Detached (.closeIndex :: more) :=
            detached_cons (by decide) more
          obtain ⟨rfl, hrest⟩ :=
            hss e List.mem_cons_self (htt f List.mem_cons_self) (hclose _) (hclose _) h
          obtain ⟨rfl, hvw⟩ := ih (List.cons.inj hrest).2
          exact ⟨rfl, hvw⟩

theorem Expr.detached_others (others : List Expr) (hsep : sep.grip < 7) (v : List Terminal) :
    Detached (others.flatMap (sep :: ·.grouped) ++ .closeCall :: v) := by
  cases others with
  | nil => exact detached_cons (by decide) v
  | cons o os => exact detached_cons hsep _

/-- The operands behind the first one, up to the parenthesis, are told with what separates them. -/
theorem Expr.others_cancel {sep' : Terminal} {others' : List Expr}
    (hsep : 0 < sep.grip ∧ sep.grip < 7) (hsep' : 0 < sep'.grip)
    (hothers : ∀ o ∈ others, o.Told) (hothers' : ∀ o ∈ others', o.IsPlain)
    (h : others.flatMap (sep :: ·.grouped) ++ .closeCall :: v =
      others'.flatMap (sep' :: ·.grouped) ++ .closeCall :: w) :
    others = others' ∧ v = w ∧ (others ≠ [] → sep = sep') := by
  have hclose : Terminal.closeCall.grip = 0 := rfl
  induction others generalizing others' with
  | nil =>
    cases others' with
    | nil => exact ⟨rfl, (List.cons.inj h).2, by simp⟩
    | cons o os =>
      have hhead : Terminal.closeCall = sep' := (List.cons.inj h).1
      rw [← hhead] at hsep'
      omega
  | cons o os ih =>
    cases others' with
    | nil =>
      have hhead : sep = .closeCall := (List.cons.inj h).1
      rw [hhead] at hsep
      omega
    | cons p ps =>
      simp only [List.flatMap_cons, List.cons_append, List.append_assoc, List.cons.injEq] at h
      obtain ⟨rfl, h⟩ := h
      obtain ⟨rfl, hrest⟩ := hothers o List.mem_cons_self (hothers' p List.mem_cons_self)
        (detached_others os hsep.2 v) (detached_others ps hsep.2 w) h
      obtain ⟨rfl, hvw, -⟩ := ih (fun q hq => hothers q (List.mem_cons_of_mem _ hq))
        (fun q hq => hothers' q (List.mem_cons_of_mem _ hq)) hrest
      exact ⟨rfl, hvw, fun _ => rfl⟩

theorem Expr.told_group (he : e.group? = some (sep, first, others)) (hne : others ≠ [])
    (hfirst : first.Told) (hothers : ∀ o ∈ others, o.Told) : e.Told := by
  intro f v w hf hv hw h
  rw [grouped_of_group he] at h
  cases hf with
  | literal | path | not => simp [grouped] at h
  | @group _ sep' first' others' hf _ hfirst' hothers' =>
    have hsep := grip_of_group he
    have hsep' := grip_of_group hf
    rw [grouped_of_group hf] at h
    simp only [List.cons_append, List.append_assoc, List.nil_append, List.cons.injEq, true_and] at h
    obtain ⟨rfl, hrest⟩ :=
      hfirst hfirst' (detached_others others hsep.2 v) (detached_others others' hsep'.2 w) h
    obtain ⟨rfl, hvw, hseps⟩ := others_cancel hsep hsep'.1 hothers hothers' hrest
    obtain rfl := hseps hne
    exact ⟨group_injective he hf, hvw⟩

theorem Expr.told_literal (l : Literal) : (literal l).Told := by
  intro f v w hf hv hw h
  cases hf with
  | literal =>
    simp only [grouped, List.cons_append, List.nil_append, List.cons.injEq,
      Terminal.literal.injEq] at h
    exact ⟨by rw [h.1], h.2⟩
  | path | not => simp [grouped] at h
  | group hf => simp [grouped, grouped_of_group hf] at h

theorem Expr.told_not (he : e.Told) : (not e).Told := by
  intro f v w hf hv hw h
  cases hf with
  | literal | path => simp [grouped] at h
  | not hf =>
    simp only [grouped, List.cons_append, List.cons.injEq, true_and] at h
    obtain ⟨rfl, hvw⟩ := he hf hv hw h
    exact ⟨rfl, hvw⟩
  | group hf => simp [grouped, grouped_of_group hf] at h

theorem Expr.told_path {root : String} (hss : ∀ e, .index e ∈ ss → e.Told) :
    (path root ss).Told := by
  intro f v w hf hv hw h
  cases hf with
  | literal | not => simp [grouped] at h
  | path _ _ htt =>
    simp only [grouped, List.cons_append, List.cons.injEq, Terminal.word.injEq] at h
    obtain ⟨rfl, hvw⟩ := Segment.grouped_cancel hss htt hv hw h.2
    exact ⟨by rw [h.1], hvw⟩
  | group hf => simp [grouped, grouped_of_group hf] at h

theorem Expr.IsPlain.told (he : e.IsPlain) : e.Told := by
  induction he with
  | literal => exact told_literal _
  | path _ _ _ ih => exact told_path ih
  | not _ ih => exact told_not ih
  | group hg hne _ _ ihfirst ihothers => exact told_group hg hne ihfirst ihothers

/-- Plain trees with one text are one tree. -/
theorem Expr.IsPlain.eq_of_text (he : e.IsPlain) (hf : f.IsPlain) (h : e.text = f.text) :
    e = f := by
  have hscans {g : Expr} (hg : g.IsPlain) : LaidOut true g.text.toList g.grouped := by
    have hrow : LaidOut true ([] ++ g.text.toList ++ []) (g.grouped ++ []) :=
      hg.scans (by simp) (by simp [Stops]) .nil
    simpa using hrow
  have hrow : e.grouped = f.grouped := (hscans he).unique (h ▸ hscans hf)
  refine (he.told hf (v := []) (w := []) ?_ ?_ (by rw [hrow])).1 <;> simp [Detached]

/-! ### Trees that are read -/

/-- A terminal that a plain tree may have. -/
def Terminal.IsPlain : Terminal → Prop
  | .word x => IsName x
  | .literal l => l.value.IsPlain
  | _ => True

namespace Language

variable {L M : Language} {op? : Terminal → Option BinOp}

/-- A language in which plain terminals spell plain trees. -/
def KeepsPlain (L : Language) : Prop :=
  ∀ ⦃w e⦄, L w e → (∀ t ∈ w, t.IsPlain) → e.IsPlain

theorem isPlain_binary {op : BinOp} {l r : Expr} (hl : l.IsPlain) (hr : r.IsPlain) :
    (Expr.binary op l r).IsPlain :=
  .group rfl (by simp) hl (by simpa using hr)

theorem KeepsPlain.chain (hL : KeepsPlain L) : KeepsPlain (Chain op? L) := by
  intro w e h hw
  induction h with
  | one h => exact hL h hw
  | more _ _ hr ih =>
    simp only [List.mem_append, List.mem_cons] at hw
    exact isPlain_binary (ih fun t ht => hw t (.inl ht)) (hL hr fun t ht => hw t (.inr (.inr ht)))

theorem KeepsPlain.once (hL : KeepsPlain L) : KeepsPlain (Once op? L) := by
  intro w e h hw
  cases h with
  | one h => exact hL h hw
  | two hl _ hr =>
    simp only [List.mem_append, List.mem_cons] at hw
    exact isPlain_binary (hL hl fun t ht => hw t (.inl ht))
      (hL hr fun t ht => hw t (.inr (.inr ht)))

theorem KeepsPlain.separated {es : List Expr} (hL : KeepsPlain L) (h : Separated sep L w es)
    (hw : ∀ t ∈ w, t.IsPlain) : ∀ e ∈ es, e.IsPlain := by
  induction h with
  | one h => simpa using hL h hw
  | more h _ ih =>
    simp only [List.mem_append, List.mem_cons] at hw
    exact List.forall_mem_cons.2
      ⟨hL h fun t ht => hw t (.inl ht), ih fun t ht => hw t (.inr (.inr ht))⟩

theorem KeepsPlain.flat {node : List Expr → Expr} (hL : KeepsPlain L)
    (hnode : ∀ e es, (node (e :: es)).group? = some (sep, e, es)) :
    KeepsPlain (Flat sep node L) := by
  intro w e h hw
  cases h with
  | one h => exact hL h hw
  | @many _ es h hlen =>
    have hes := hL.separated h hw
    match es, hlen with
    | first :: second :: others, _ =>
      obtain ⟨hfirst, hothers⟩ := List.forall_mem_cons.1 hes
      exact .group (hnode _ _) (by simp) hfirst hothers

theorem KeepsPlain.segments (hL : KeepsPlain L) (h : Segments L w ss)
    (hw : ∀ t ∈ w, t.IsPlain) :
    (∀ s ∈ ss, s.IsNamed) ∧ ∀ e, .index e ∈ ss → e.IsPlain := by
  induction h with
  | nil => simp
  | @field x w ss _ ih =>
    obtain ⟨hnamed, hindex⟩ := ih fun t ht => hw t (by simp [ht])
    have hx : IsName x := hw (.word x) (by simp)
    exact ⟨List.forall_mem_cons.2 ⟨hx, hnamed⟩, by simpa using hindex⟩
  | @call x w ss _ ih =>
    obtain ⟨hnamed, hindex⟩ := ih fun t ht => hw t (by simp [ht])
    have hx : IsName x := hw (.word x) (by simp)
    exact ⟨List.forall_mem_cons.2 ⟨hx, hnamed⟩, by simpa using hindex⟩
  | @index v w e ss h _ ih =>
    obtain ⟨hnamed, hindex⟩ := ih fun t ht => hw t (by simp [ht])
    have he := hL h fun t ht => hw t (by simp [ht])
    refine ⟨List.forall_mem_cons.2 ⟨trivial, hnamed⟩, fun f hf => ?_⟩
    rcases List.mem_cons.1 hf with hf | hf
    · cases hf; exact he
    · exact hindex f hf

theorem KeepsPlain.levels (hL : KeepsPlain L) : KeepsPlain (Levels L) :=
  KeepsPlain.flat (KeepsPlain.flat (KeepsPlain.once (KeepsPlain.once (KeepsPlain.chain
    (KeepsPlain.chain hL)))) fun _ _ => rfl) fun _ _ => rfl

/-- The plain trees are a closed language, as far as the terminals are plain. -/
theorem closed_plain : Closed fun w e => (∀ t ∈ w, t.IsPlain) → e.IsPlain where
  not h hw := .not (h fun t ht => hw t (List.mem_cons_of_mem _ ht))
  literal hw := .literal (hw _ List.mem_cons_self)
  path h hw := by
    obtain ⟨hroot, hrow⟩ := List.forall_mem_cons.1 hw
    obtain ⟨hnamed, hindex⟩ := KeepsPlain.segments (KeepsPlain.levels fun _ _ h => h) h hrow
    exact .path hroot hnamed hindex

end Language

/-- A tree that was read is plain if its literals are: its words are names and its chains no shorter
    than the grammar makes them. -/
theorem Expr.isPlain_of_ofSource {source : String} (h : ofSource source = .ok e)
    (hl : ∀ l, .literal l ∈ e.terminals → l.value.IsPlain) : e.IsPlain := by
  obtain ⟨hrow, hL, -⟩ := legibleRow_of_ofSource h
  refine Language.KeepsPlain.levels (fun _ _ h => h)
    (levels_of_disjunction Language.closed_plain hL) ?_
  intro t ht
  obtain ⟨_, hlegible⟩ := hrow.exists_legible ht
  cases t with
  | word x =>
    obtain ⟨hword, hparts, c, hc, hstart⟩ := hlegible
    refine ⟨⟨⟨c, hc, hstart⟩, hparts⟩, ?_, ?_⟩
    · rintro rfl; cases hword
    · rintro rfl; cases hword
  | literal l => exact hl l ht
  | _ => trivial

/-- UNIQUE: two trees that were read, without a number with a point and without a single quote in a
    text, are one tree if they are shown alike. -/
theorem Expr.text_injective {source source' : String} (he : ofSource source = .ok e)
    (hf : ofSource source' = .ok f) (hel : ∀ l, .literal l ∈ e.terminals → l.value.IsPlain)
    (hfl : ∀ l, .literal l ∈ f.terminals → l.value.IsPlain) (h : e.text = f.text) : e = f :=
  (isPlain_of_ofSource he hel).eq_of_text (isPlain_of_ofSource hf hfl) h

/-- One tree from two texts, where a minus sign is an operator, or not, and the quotes differ. -/
theorem Expr.text_injective_quotes :
    ∃ e f, ofSource "!a[-1].b()&&c- -1!=\"x\"" = .ok e ∧
      ofSource "! a [-1] .b() && c - -1 != 'x'" = .ok f ∧
      (∀ l, .literal l ∈ e.terminals → l.value.IsPlain) ∧
      (∀ l, .literal l ∈ f.terminals → l.value.IsPlain) ∧
      e.text = "(!a[-1].b() && ((c - -1) != 'x'))" ∧ e.text = f.text ∧ e = f := by
  let e : Expr := .all [.not (.path "a" [.index (.literal (.int (-1))), .call "b"]),
    .binary (.compare .ne) (.binary (.arith .sub) (.path "c" []) (.literal (.int (-1))))
      (.literal (.str "x"))]
  have ha : Language.Negation [.not, .word "a", .openIndex, .literal (.int (-1)), .closeIndex, .dot,
      .word "b", .openCall, .closeCall]
      (.not (.path "a" [.index (.literal (.int (-1))), .call "b"])) :=
    .not (.path (.index (v := [_]) Language.Negation.literal.disjunction (.call .nil)))
  have hc : Language.Negation [.word "c"] (.path "c" []) := .path .nil
  have hL : Language.Disjunction _ e :=
    .one (.many (.more ha.equality (.one (.two
      (.one (.more (.one (.one hc)) (t := .minus) rfl (.one (.literal (l := .int (-1))))))
      (t := .ne) rfl (Language.Negation.literal (l := .str "x")).relation))) (by decide))
  have he : ofSource "!a[-1].b()&&c- -1!=\"x\"" = .ok e := by
    have htokens : tokenize "!a[-1].b()&&c- -1!=\"x\"" =
        .ok ([⟨.not, 0⟩, ⟨.word "a", 1⟩, ⟨.openIndex, 2⟩, ⟨.literal (.int (-1)), 3⟩,
          ⟨.closeIndex, 5⟩, ⟨.dot, 6⟩, ⟨.word "b", 7⟩, ⟨.openCall, 8⟩,
          ⟨.closeCall, 9⟩, ⟨.and, 10⟩, ⟨.word "c", 12⟩, ⟨.minus, 13⟩,
          ⟨.literal (.int (-1)), 15⟩, ⟨.ne, 17⟩, ⟨.literal (.str "x"), 19⟩] ++
            [⟨.ending, 22⟩]) := by
      cbv
    exact ofSource_of_tokens htokens (by decide) rfl hL (by decide)
  have hf : ofSource "! a [-1] .b() && c - -1 != 'x'" = .ok e := by
    have htokens : tokenize "! a [-1] .b() && c - -1 != 'x'" =
        .ok ([⟨.not, 0⟩, ⟨.word "a", 2⟩, ⟨.openIndex, 4⟩, ⟨.literal (.int (-1)), 5⟩,
          ⟨.closeIndex, 7⟩, ⟨.dot, 9⟩, ⟨.word "b", 10⟩, ⟨.openCall, 11⟩,
          ⟨.closeCall, 12⟩, ⟨.and, 14⟩, ⟨.word "c", 17⟩, ⟨.minus, 19⟩,
          ⟨.literal (.int (-1)), 21⟩, ⟨.ne, 24⟩, ⟨.literal (.str "x"), 27⟩] ++
            [⟨.ending, 30⟩]) := by
      cbv
    exact ofSource_of_tokens htokens (by decide) rfl hL (by decide)
  have hl : ∀ l, .literal l ∈ e.terminals → l.value.IsPlain := by
    simp [e, terminals, joined, Segment.terminals, BinOp.terminal, Literal.value, Value.IsPlain]
  exact ⟨e, e, he, hf, hl, hl, by decide, rfl, text_injective he hf hl hl rfl⟩

end Rulebook
