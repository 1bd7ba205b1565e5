import Mathlib.Data.List.Nodup
import Rulebook.Registry

/-!
A registry and its history. Beside the registry runs the list of live rules by arrival: a rule comes
to its end when it is registered, and leaves it when it is taken out. The registry is that list in
stable order of falling priority, at all times.

    operations       register a 1   register b 2   register c 1   remove a   register a 1
    by arrival       a              a b            a b c          b c        b c a
    by priority      a              b a            b a c          b c        b c a

Halving is right because the registry is in order before a rule comes, and the order is stable
because the rule goes behind its equals. Two lists in order are the same if they have the same rules
of each priority in the same order, so that neither step has to be compared with how sorting is
done.
-/

namespace Rulebook

namespace Registry

/-! ### Operations -/

/-- What can be done with a registry. -/
inductive Operation where
  | register (r : Rule)
  | remove (id : String)
  | clear

/-- The registry after one more operation; one that fails leaves it as it was. -/
def perform (g : Registry) : Operation → Registry
  | .register r =>
    match g.register r with
    | .ok g' => g'
    | .error _ => g
  | .remove id => (g.remove id).2
  | .clear => g.clear

/-- The registry after operations on an empty one. -/
def after (ops : List Operation) : Registry := ops.foldl perform empty

/-- The live rules after one more operation. -/
def arrive (live : List Rule) : Operation → List Rule
  | .register r => if live.any (·.id == r.id) then live else live ++ [r]
  | .remove id => live.filter (·.id != id)
  | .clear => []

/-- The rules that live after operations, in the order of their last registration. -/
def arrivals (ops : List Operation) : List Rule := ops.foldl arrive []

/-! ### Order -/

/-- Whether one rule may stand before another. -/
def precedes (r s : Rule) : Bool := s.priority ≤ r.priority

theorem precedes_iff {r s : Rule} : precedes r s = true ↔ s.priority ≤ r.priority :=
  decide_eq_true_iff

theorem precedes_trans (r s t : Rule) (hrs : precedes r s) (hst : precedes s t) : precedes r t := by
  rw [precedes_iff] at *
  exact Int.le_trans hst hrs

theorem precedes_total (r s : Rule) : precedes r s || precedes s r := by
  rw [Bool.or_eq_true, precedes_iff, precedes_iff]
  exact Int.le_total ..

theorem mem_iff_of_filter_priority {xs ys : List Rule}
    (h : ∀ k, xs.filter (·.priority == k) = ys.filter (·.priority == k)) (r : Rule) :
    r ∈ xs ↔ r ∈ ys := by
  have hr : (r ∈ xs.filter (·.priority == r.priority)) ↔
      (r ∈ ys.filter (·.priority == r.priority)) := by
    rw [h]
  simpa using hr

/-- Lists in order are the same if the rules of each priority are. -/
theorem eq_of_filter_priority {xs ys : List Rule} (hx : xs.Pairwise (precedes · ·))
    (hy : ys.Pairwise (precedes · ·))
    (h : ∀ k, xs.filter (·.priority == k) = ys.filter (·.priority == k)) : xs = ys := by
  have hmem := mem_iff_of_filter_priority h
  induction xs generalizing ys with
  | nil =>
    symm
    exact List.eq_nil_iff_forall_not_mem.2 fun y hy => absurd ((hmem y).2 hy) List.not_mem_nil
  | cons x xs ih =>
    cases ys with
    | nil => exact absurd ((hmem x).1 List.mem_cons_self) List.not_mem_nil
    | cons y ys =>
      obtain ⟨hxs, hxt⟩ := List.pairwise_cons.1 hx
      obtain ⟨hys, hyt⟩ := List.pairwise_cons.1 hy
      -- the first rules have the highest priority of all
      have hxy : x.priority = y.priority := by
        refine Int.le_antisymm ?_ ?_
        · rcases List.mem_cons.1 ((hmem x).1 List.mem_cons_self) with rfl | hm
          · exact Int.le_refl _
          · exact precedes_iff.1 (hys x hm)
        · rcases List.mem_cons.1 ((hmem y).2 List.mem_cons_self) with rfl | hm
          · exact Int.le_refl _
          · exact precedes_iff.1 (hxs y hm)
      obtain rfl : x = y := by
        have hk := h x.priority
        rw [List.filter_cons_of_pos (by simp), List.filter_cons_of_pos (by simp [hxy])] at hk
        exact (List.cons.inj hk).1
      have htail : ∀ k, xs.filter (·.priority == k) = ys.filter (·.priority == k) := by
        intro k
        have hk := h k
        rw [List.filter_cons, List.filter_cons] at hk
        split at hk
        · exact (List.cons.inj hk).2
        · exact hk
      rw [ih hxt hyt htail (mem_iff_of_filter_priority htail)]

theorem pairwise_sorted (live : List Rule) : (live.mergeSort precedes).Pairwise (precedes · ·) :=
  List.pairwise_mergeSort precedes_trans precedes_total live

/-- Sorting keeps the rules of one priority in their order. -/
theorem filter_priority_sorted (live : List Rule) (k : Int) :
    (live.mergeSort precedes).filter (·.priority == k) = live.filter (·.priority == k) := by
  have hequal : (live.filter (·.priority == k)).Pairwise (precedes · ·) := by
    refine List.pairwise_of_forall_mem_list fun r hr s hs => ?_
    rw [List.mem_filter, beq_iff_eq] at hr hs
    exact precedes_iff.2 (Int.le_of_eq (hs.2.trans hr.2.symm))
  have hsub := (List.sublist_mergeSort precedes_trans precedes_total hequal
    List.filter_sublist).filter (·.priority == k)
  rw [List.filter_filter] at hsub
  simp only [Bool.and_self] at hsub
  exact (hsub.eq_of_length ((List.mergeSort_perm live precedes).filter _).length_eq.symm).symm

/-- A list in order is the sorted one if the rules of each priority are in their order. -/
theorem eq_sorted {rules live : List Rule} (h : rules.Pairwise (precedes · ·))
    (hk : ∀ k, rules.filter (·.priority == k) = live.filter (·.priority == k)) :
    rules = live.mergeSort precedes :=
  eq_of_filter_priority h (pairwise_sorted live) fun k => by rw [hk, filter_priority_sorted]

theorem filter_sorted (live : List Rule) (p : Rule → Bool) :
    (live.mergeSort precedes).filter p = (live.filter p).mergeSort precedes := by
  refine eq_sorted ((pairwise_sorted live).filter p) fun k => ?_
  rw [List.filter_filter, List.filter_filter]
  simp only [Bool.and_comm]
  rw [← List.filter_filter, ← List.filter_filter, filter_priority_sorted]

/-! ### Halving -/

theorem any_getElem?_append {test : Rule → Bool} {front back : List Rule}
    (hf : ∀ r ∈ front, test r) (hb : ∀ r ∈ back, test r = false) {i : Nat} :
    ((front ++ back)[i]?).any test = true ↔ i < front.length := by
  constructor
  · intro h
    refine Nat.lt_of_not_le fun hle => ?_
    rw [List.getElem?_append_right hle, Option.any_eq_true] at h
    obtain ⟨r, hr, ht⟩ := h
    rw [hb r (List.mem_of_getElem? hr)] at ht
    cases ht
  · intro h
    rw [List.getElem?_append_left h, List.getElem?_eq_getElem h]
    exact hf _ (List.getElem_mem h)

/-- The place where a test turns is found, if it is between the bounds. -/
theorem turn_append {test : Rule → Bool} {front back : List Rule} (hf : ∀ r ∈ front, test r)
    (hb : ∀ r ∈ back, test r = false) (lo hi : Nat) (hlo : lo ≤ front.length)
    (hhi : front.length ≤ hi) : turn test (front ++ back) lo hi = front.length := by
  fun_induction turn test (front ++ back) lo hi with
  | case1 lo hi hlt mid ht ih =>
    have hmid := (any_getElem?_append hf hb).1 ht
    exact ih hmid hhi
  | case2 lo hi hlt mid ht ih =>
    have hmid := mt (any_getElem?_append hf hb).2 ht
    exact ih hlo (Nat.le_of_not_lt hmid)
  | case3 lo hi hlt => omega

theorem insertIdx_append (front back : List Rule) (r : Rule) :
    (front ++ back).insertIdx front.length r = front ++ r :: back := by
  induction front with
  | nil => rfl
  | cons s front ih => rw [List.cons_append, List.length_cons, List.insertIdx_succ_cons, ih]; rfl

/-- The place of a rule in a list in order: behind its equals, before those of a lower priority. -/
theorem exists_front_back {rules : List Rule} (h : rules.Pairwise (precedes · ·)) (k : Int) :
    ∃ front back, rules = front ++ back ∧ (∀ s ∈ front, k ≤ s.priority) ∧
      ∀ s ∈ back, s.priority < k := by
  induction rules with
  | nil => exact ⟨[], [], rfl, by simp, by simp⟩
  | cons s rules ih =>
    obtain ⟨hs, hrules⟩ := List.pairwise_cons.1 h
    by_cases hk : k ≤ s.priority
    · obtain ⟨front, back, rfl, hf, hb⟩ := ih hrules
      refine ⟨s :: front, back, rfl, ?_, hb⟩
      intro t ht
      rcases List.mem_cons.1 ht with rfl | ht
      · exact hk
      · exact hf t ht
    · refine ⟨[], s :: rules, rfl, by simp, ?_⟩
      intro t ht
      rcases List.mem_cons.1 ht with rfl | ht
      · exact Int.not_le.1 hk
      · exact Int.lt_of_le_of_lt (precedes_iff.1 (hs t ht)) (Int.not_le.1 hk)

theorem place_append {r : Rule} {front back : List Rule}
    (hf : ∀ s ∈ front, r.priority ≤ s.priority)
    (hb : ∀ s ∈ back, s.priority < r.priority) :
    place r (front ++ back) = front ++ r :: back := by
  have hf' : ∀ s ∈ front, decide (r.priority ≤ s.priority) = true := by simpa using hf
  have hb' : ∀ s ∈ back, decide (r.priority ≤ s.priority) = false := by simpa using hb
  rw [place, turn_append hf' hb' 0 _ (Nat.zero_le _) (by simp), insertIdx_append]

/-- To place a rule in sorted rules is to sort with the rule at the end. -/
theorem place_sorted (live : List Rule) (r : Rule) :
    place r (live.mergeSort precedes) = (live ++ [r]).mergeSort precedes := by
  obtain ⟨front, back, heq, hf, hb⟩ := exists_front_back (pairwise_sorted live) r.priority
  have hsorted := pairwise_sorted live
  rw [heq] at hsorted
  rw [heq, place_append hf hb]
  refine eq_sorted ?_ fun k => ?_
  · obtain ⟨hfront, hback, hcross⟩ := List.pairwise_append.1 hsorted
    refine List.pairwise_append.2 ⟨hfront, List.pairwise_cons.2 ⟨?_, hback⟩, ?_⟩
    · intro s hs
      exact precedes_iff.2 (Int.le_of_lt (hb s hs))
    · intro s hs t ht
      rcases List.mem_cons.1 ht with rfl | ht
      · exact precedes_iff.2 (hf s hs)
      · exact hcross s hs t ht
  · rw [List.filter_append, List.filter_append, ← filter_priority_sorted live, heq,
      List.filter_append, List.append_assoc]
    congr 1
    -- no rule behind the new one has its priority
    by_cases hk : r.priority = k
    · have hnone : back.filter (·.priority == k) = [] := by
        refine List.filter_eq_nil_iff.2 fun s hs => ?_
        have := hb s hs
        rw [beq_iff_eq]
        omega
      simp [hk, hnone]
    · simp [hk]

/-! ### Ids -/

theorem eraseP_id {rules : List Rule} (h : (rules.map Rule.id).Nodup) (id : String) :
    rules.eraseP (·.id == id) = rules.filter (·.id != id) := by
  induction rules with
  | nil => rfl
  | cons r rules ih =>
    rw [List.map_cons, List.nodup_cons] at h
    by_cases hr : r.id = id
    · rw [List.eraseP_cons_of_pos (by simp [hr]), List.filter_cons_of_neg (by simp [hr])]
      symm
      refine List.filter_eq_self.2 fun s hs => ?_
      rw [bne_iff_ne]
      rintro rfl
      exact h.1 (hr ▸ List.mem_map_of_mem hs)
    · rw [List.eraseP_cons_of_neg (by simp [hr]), List.filter_cons_of_pos (by simp [hr]), ih h.2]

theorem find?_id {rules : List Rule} (h : (rules.map Rule.id).Nodup) {r : Rule} (hr : r ∈ rules) :
    rules.find? (·.id == r.id) = some r := by
  cases hf : rules.find? (·.id == r.id) with
  | none => exact absurd (List.find?_eq_none.1 hf r hr) (by simp)
  | some s =>
    have hid : s.id = r.id := by simpa using List.find?_some hf
    rw [List.inj_on_of_nodup_map h (List.mem_of_find?_eq_some hf) hr hid]

/-! ### History -/

/-- A registry that is the sorted list of live rules, no two of which have one id. -/
structure Mirrors (g : Registry) (live : List Rule) : Prop where
  rules : g.rules = live.mergeSort precedes
  nodup : (live.map Rule.id).Nodup

namespace Mirrors

variable {g : Registry} {live : List Rule}

theorem mem_iff (h : Mirrors g live) {r : Rule} : r ∈ g.rules ↔ r ∈ live := by
  rw [h.rules, List.mem_mergeSort]

theorem order_nodup (h : Mirrors g live) : g.order.Nodup := by
  rw [order, h.rules, ((List.mergeSort_perm live precedes).map Rule.id).nodup_iff]
  exact h.nodup

theorem any_id (h : Mirrors g live) (id : String) :
    g.rules.any (·.id == id) = live.any (·.id == id) := by
  rw [h.rules, (List.mergeSort_perm live precedes).any_eq]

theorem register (h : Mirrors g live) (r : Rule) :
    Mirrors (g.perform (.register r)) (arrive live (.register r)) := by
  simp only [perform, Registry.register, arrive, h.any_id]
  cases hd : live.any (·.id == r.id) with
  | true => simpa using h
  | false =>
    refine ⟨?_, ?_⟩
    · simp only [Bool.false_eq_true, if_false]
      rw [h.rules, place_sorted]
    · simp only [Bool.false_eq_true, if_false]
      rw [List.map_append, List.nodup_append]
      refine ⟨h.nodup, by simp, ?_⟩
      intro id hid s hs
      rw [List.any_eq_false] at hd
      obtain ⟨t, ht, rfl⟩ := List.mem_map.1 hid
      rw [List.map_cons, List.map_nil, List.mem_singleton] at hs
      rw [hs]
      simpa using hd t ht

theorem remove (h : Mirrors g live) (id : String) :
    Mirrors (g.perform (.remove id)) (arrive live (.remove id)) := by
  refine ⟨?_, h.nodup.sublist (List.filter_sublist.map Rule.id)⟩
  rw [perform, Registry.remove, eraseP_id h.order_nodup, h.rules, filter_sorted, arrive]

/-- The registry goes on to mirror the live rules, whatever is done. -/
theorem step (h : Mirrors g live) (op : Operation) : Mirrors (g.perform op) (arrive live op) := by
  cases op with
  | register r => exact h.register r
  | remove id => exact h.remove id
  | clear => exact ⟨by rw [arrive, List.mergeSort_nil]; rfl, List.nodup_nil⟩

theorem run (h : Mirrors g live) (ops : List Operation) :
    Mirrors (ops.foldl perform g) (ops.foldl arrive live) := by
  induction ops generalizing g live with
  | nil => exact h
  | cons op ops ih => exact ih (h.step op)

end Mirrors

theorem mirrors_after (ops : List Operation) : Mirrors (after ops) (arrivals ops) :=
  Mirrors.run ⟨List.mergeSort_nil.symm, List.nodup_nil⟩ ops

/-- STABLE: after any operations no two rules have one id, and the registry is the live rules, in
    order of arrival, sorted by falling priority. A rule is refused if and only if a live rule
    has its id, and nothing changes then. What is taken out is the rule with the id, and the
    others stay in their order. -/
theorem after_stable (ops : List Operation) :
    (after ops).order.Nodup ∧
    (after ops).rules = (arrivals ops).mergeSort precedes ∧
    (∀ r e, (after ops).register r = .error e ↔
      e = .duplicateRule r.id ∧ ∃ s ∈ arrivals ops, s.id = r.id) ∧
    (∀ r, (∃ s ∈ arrivals ops, s.id = r.id) →
      (after ops).perform (.register r) = after ops) ∧
    (∀ r ∈ arrivals ops,
      (after ops).remove r.id = (some r, ⟨(after ops).rules.filter (·.id != r.id)⟩)) ∧
    (∀ id, (∀ r ∈ arrivals ops, r.id ≠ id) →
      (after ops).remove id = (none, after ops)) := by
  have h := mirrors_after ops
  have htaken : ∀ id, (after ops).rules.any (·.id == id) = true ↔ ∃ s ∈ arrivals ops,
      s.id = id := by
    intro id
    rw [h.any_id, List.any_eq_true]
    simp only [beq_iff_eq]
  refine ⟨h.order_nodup, h.rules, fun r e => ?_, fun r hr => ?_, fun r hr => ?_,
    fun id hid => ?_⟩
  · rw [← htaken, register]
    split
    · next ht => simp [ht, eq_comm]
    · next ht => simp [ht]
  · rw [perform, register, if_pos ((htaken r.id).2 hr)]
  · rw [remove, eraseP_id h.order_nodup, get?, find?_id h.order_nodup (h.mem_iff.2 hr)]
  · have hnone : ∀ r ∈ (after ops).rules, ¬ (r.id == id) = true := by
      intro r hr
      simpa using hid r (h.mem_iff.1 hr)
    rw [remove, get?, List.find?_eq_none.2 hnone, List.eraseP_of_forall_not hnone]

/-- A rule that leaves and comes back is behind its equal. -/
theorem after_stable_return :
    let a : Rule := ⟨"a", "a", none, 1, false, none, none, .all [], []⟩
    let b : Rule := ⟨"b", "b", none, 1, false, none, none, .all [], []⟩
    let ops : List Operation := [.register a, .register b, .remove "a", .register a]
    a ∈ arrivals ops ∧ (after ops).rules = [b, a].mergeSort precedes ∧
      (after ops).remove a.id = (some a, ⟨(after ops).rules.filter (·.id != a.id)⟩) := by
  intro a b ops
  have hlive : arrivals ops = [b, a] := rfl
  have ha : a ∈ arrivals ops := by rw [hlive]; exact List.mem_cons_of_mem _ List.mem_cons_self
  obtain ⟨-, hrules, -, -, hremove, -⟩ := after_stable ops
  exact ⟨ha, hlive ▸ hrules, hremove a ha⟩

/-! ### Reachable registries -/

/-- What can come of building a registry and working on it. -/
inductive Reachable : Registry → Prop
  | empty : Reachable empty
  | built {ds g} : ofDrafts ds = .ok g → Reachable g
  | performed {g} (op : Operation) : Reachable g → Reachable (g.perform op)

/-- To add drafts is to register some rules. -/
theorem exists_registrations {ds : List Draft} {g g' : Registry} (h : addAll ds g = .ok g') :
    ∃ rs : List Rule, g' = (rs.map Operation.register).foldl perform g := by
  induction ds generalizing g with
  | nil => cases h; exact ⟨[], rfl⟩
  | cons d ds ih =>
    unfold addAll at h
    split at h
    · cases h
    next r hr =>
    split at h
    · cases h
    next g₁ hg =>
    obtain ⟨rs, rfl⟩ := ih h
    refine ⟨r :: rs, ?_⟩
    rw [List.map_cons, List.foldl_cons, perform, hg]

/-- Whatever is reachable is so by operations on the empty registry. -/
theorem Reachable.exists_after {g : Registry} (h : Reachable g) : ∃ ops, g = after ops := by
  induction h with
  | empty => exact ⟨[], rfl⟩
  | built h =>
    obtain ⟨rs, rfl⟩ := exists_registrations h
    exact ⟨_, rfl⟩
  | performed op _ ih =>
    obtain ⟨ops, rfl⟩ := ih
    exact ⟨ops ++ [op], by rw [after, after, List.foldl_append]; rfl⟩

theorem reachable_after (ops : List Operation) : Reachable (after ops) := by
  have h : ∀ g, Reachable g → Reachable (ops.foldl perform g) := by
    induction ops with
    | nil => exact fun _ hg => hg
    | cons op ops ih => exact fun g hg => ih _ (hg.performed op)
  exact h _ .empty

theorem Reachable.order_nodup {g : Registry} (h : Reachable g) : g.order.Nodup := by
  obtain ⟨ops, rfl⟩ := h.exists_after
  exact (mirrors_after ops).order_nodup

end Registry

end Rulebook
