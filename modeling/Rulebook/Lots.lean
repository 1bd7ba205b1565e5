import Rulebook.Window

/-!
Drawing lots. A draw of `k` out of `n` gives `min k n` different numbers below `n`; which ones is
left to the lots, and everything else holds of all lots alike. Two kinds are here: the numbers in
order, and numbers mixed by a seed, the same for the same seed.

    pick 5 3      three different ones of 0, 1, 2, 3, 4
    pick 2 9      0 and 1, in some order
-/

namespace Rulebook

/-- A way of drawing `k` different numbers below `n`, or all of them if there are not so many. -/
structure Lots where
  pick (n k : Nat) : List Nat
  length_pick : ∀ n k, (pick n k).length = min k n
  nodup_pick : ∀ n k, (pick n k).Nodup
  lt_of_mem_pick : ∀ {n k i}, i ∈ pick n k → i < n

/-- The first ones in order. -/
def Lots.inOrder : Lots where
  pick n k := List.range (min k n)
  length_pick n k := by simp
  nodup_pick n k := List.nodup_range
  lt_of_mem_pick h := by
    have := List.mem_range.1 h
    omega

/-- The next state of a linear congruential generator. -/
def stir (s : UInt64) : UInt64 := s * 6364136223846793005 + 1442695040888963407

/-- Take `k` elements out of a list, each from the place that the generator names. -/
def takeOut : Nat → UInt64 → List Nat → List Nat
  | 0, _, _ => []
  | _, _, [] => []
  | k + 1, s, x :: xs =>
    let t := stir s
    let i := (t >>> 33).toNat % (xs.length + 1)
    have : i < (x :: xs).length := Nat.mod_lt _ (Nat.succ_pos _)
    (x :: xs)[i] :: takeOut k t ((x :: xs).eraseIdx i)

/-- An element and the list without it make up the list. -/
theorem getElem_cons_eraseIdx_perm : ∀ (xs : List Nat) (i : Nat) (h : i < xs.length),
    (xs[i] :: xs.eraseIdx i).Perm xs
  | _ :: _, 0, _ => by simp
  | x :: xs, i + 1, h => by
    rw [List.getElem_cons_succ, List.eraseIdx_cons_succ]
    exact (List.Perm.swap ..).trans
      ((getElem_cons_eraseIdx_perm xs i (Nat.lt_of_succ_lt_succ h)).cons x)

theorem length_takeOut (k : Nat) (s : UInt64) (xs : List Nat) :
    (takeOut k s xs).length = min k xs.length := by
  fun_induction takeOut k s xs with
  | case1 => simp
  | case2 => simp
  | case3 k s x xs t i hi ih =>
    rw [List.length_cons, ih, List.length_eraseIdx_of_lt hi]
    simp only [List.length_cons]
    omega

theorem mem_of_mem_takeOut {k : Nat} {s : UInt64} {xs : List Nat} {y : Nat}
    (h : y ∈ takeOut k s xs) : y ∈ xs := by
  fun_induction takeOut k s xs with
  | case1 => cases h
  | case2 => cases h
  | case3 k s x xs t i hi ih =>
    refine (getElem_cons_eraseIdx_perm _ i hi).subset ?_
    rcases List.mem_cons.1 h with rfl | h
    · exact List.mem_cons_self
    · exact List.mem_cons_of_mem _ (ih h)

theorem nodup_takeOut {k : Nat} {s : UInt64} {xs : List Nat} (hn : xs.Nodup) :
    (takeOut k s xs).Nodup := by
  fun_induction takeOut k s xs with
  | case1 => simp
  | case2 => simp
  | case3 k s x xs t i hi ih =>
    have hp := (getElem_cons_eraseIdx_perm _ i hi).nodup_iff.2 hn
    obtain ⟨hnot, hrest⟩ := List.nodup_cons.1 hp
    exact List.nodup_cons.2 ⟨fun hm => hnot (mem_of_mem_takeOut hm), ih hrest⟩

/-- Numbers mixed by a seed. -/
def Lots.seeded (seed : UInt64) : Lots where
  pick n k := takeOut k seed (List.range n)
  length_pick n k := by simp [length_takeOut]
  nodup_pick n k := nodup_takeOut List.nodup_range
  lt_of_mem_pick h := List.mem_range.1 (mem_of_mem_takeOut h)

/-- Up to `k` different entries whose time lies in a window; an entry without a time
    is never drawn. -/
def Lots.draw {α : Type} (lots : Lots) (w : Window) (time : α → Option Instant) (k : Nat)
    (xs : List α) : List α :=
  let eligible := xs.filter fun x => (time x).any w.contains
  (lots.pick eligible.length k).filterMap (eligible[·]?)

end Rulebook
