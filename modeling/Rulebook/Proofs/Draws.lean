import Mathlib.Data.List.FinRange
import Mathlib.Data.List.Forall2
import Rulebook.Lottery

/-!
What a lottery does to a context, by what stands at the path of its candidates:

    nothing, or null                  no winners
    [c₀, c₁, …], all of them dated    at most k of those whose time lies in the window
    […, cᵢ, …], cᵢ not dated          a fault at path[i], for the first such candidate
    anything else                     a fault at path

A candidate is dated if it is a map or an object and its time field is missing, null, a number of
milliseconds or a timestamp. Two equal candidates are still two, so winners are told apart by the
places at which they stand; and which places are picked is left to the lots, of which nothing is
known but that they pick as many as they should and none of them twice.
-/

namespace Rulebook

variable {α β : Type}

/-! ### Lots -/

namespace Lots

variable {lots : Lots} {k : Nat} {xs : List α}

/-- As many entries as are asked for, or all of them. -/
def choose (lots : Lots) (k : Nat) (xs : List α) : List α :=
  (lots.pick xs.length k).filterMap (xs[·]?)

theorem choose_map (f : α → β) : lots.choose k (xs.map f) = (lots.choose k xs).map f := by
  simp only [choose, List.length_map, List.map_filterMap, List.getElem?_map]

theorem length_choose : (lots.choose k xs).length = min k xs.length := by
  rw [choose, ← lots.length_pick, List.filterMap_length_eq_length]
  intro i hi
  rw [List.getElem?_eq_getElem (lots.lt_of_mem_pick hi)]
  rfl

theorem mem_of_mem_choose {x : α} (h : x ∈ lots.choose k xs) : x ∈ xs := by
  obtain ⟨i, -, hi⟩ := List.mem_filterMap.1 h
  exact List.mem_of_getElem? hi

theorem nodup_choose (h : xs.Nodup) : (lots.choose k xs).Nodup := by
  refine List.Nodup.filterMap ?_ (lots.nodup_pick _ _)
  intro i j x hi hj
  obtain ⟨hlt, -⟩ := List.getElem?_eq_some_iff.1 hi
  exact (List.getElem?_inj hlt h).1 (hi.trans hj.symm)

/-- A draw takes entries off different places, each with a time in the window, and as
    many as there are to take. -/
theorem exists_places (lots : Lots) (w : Window) (time : α → Option Instant) (k : Nat)
    (xs : List α) :
    ∃ places : List Nat, places.Nodup ∧
      List.Forall₂ (fun i x => xs[i]? = some x ∧ (time x).any w.contains = true) places
        (lots.draw w time k xs) ∧
      places.length = min k (xs.countP fun x => (time x).any w.contains) := by
  let eligible (x : α) : Bool := (time x).any w.contains
  -- draw among the places, and look up the entries there
  let places := (List.finRange xs.length).filter (eligible ∘ xs.get)
  have hplaces : xs.filter eligible = places.map xs.get := by
    conv => lhs; rw [← List.map_get_finRange xs]
    exact List.filter_map
  have hdraw : lots.draw w time k xs = (lots.choose k places).map xs.get := by
    rw [← choose_map, ← hplaces]
    rfl
  refine ⟨(lots.choose k places).map Fin.val, ?_, ?_, ?_⟩
  · have hnodup : places.Nodup := (List.nodup_finRange _).filter _
    exact (nodup_choose hnodup).map Fin.val_injective
  · rw [hdraw, List.forall₂_map_left_iff, List.forall₂_map_right_iff, List.forall₂_same]
    intro i hi
    exact ⟨List.getElem?_eq_getElem i.isLt, (List.mem_filter.1 (mem_of_mem_choose hi)).2⟩
  · rw [List.length_map, length_choose, List.countP_eq_length_filter, hplaces, List.length_map]

end Lots

/-! ### Times -/

/-- What a time field tells: no time if it is missing or null, else the instant that it holds. -/
inductive TellsTime : Option Value → Option Instant → Prop
  | missing : TellsTime none none
  | null : TellsTime (some .null) none
  | millis {n : Int64} {t : Instant} : Instant.ofMillis n.toInt = some t →
    TellsTime (some (.int n)) (some t)
  | stamp {s : String} {t : Instant} : Instant.ofStamp s = .ok t →
    TellsTime (some (.str s)) (some t)

namespace Lottery

variable {l : Lottery} {v : Value} {t : Option Instant}

/-- What a candidate has in the time field: the field of a map, or the field of an object or else
    what it answers to a call of that name. -/
inductive Shows (l : Lottery) : Value → Option Value → Prop
  | map {fs : List (String × Value)} : Shows l (.map fs) (Fields.find? l.timeField fs)
  | field {number : Nat} {type : String} {field call : String → Option Value} {raw : Value} :
      field l.timeField = some raw → Shows l (.object number type field call) (some raw)
  | call {number : Nat} {type : String} {field call : String → Option Value} :
      field l.timeField = none → Shows l (.object number type field call) (call l.timeField)

/-- A candidate that has this time, or has none. -/
def Dated (l : Lottery) (v : Value) (t : Option Instant) : Prop :=
  ∃ raw, l.Shows v raw ∧ TellsTime raw t

theorem rawTime_eq_ok_iff {raw : Option Value} : l.rawTime v = .ok raw ↔ l.Shows v raw := by
  constructor
  · intro h
    cases v with
    | map fs => cases h; exact .map
    | object number type field call =>
      cases hfield : field l.timeField with
      | some raw => rw [rawTime, hfield] at h; cases h; exact .field hfield
      | none => rw [rawTime, hfield] at h; cases h; exact .call hfield
    | _ => cases h
  · intro h
    cases h with
    | map => rfl
    | field hfield | call hfield => rw [rawTime, hfield]; rfl

theorem readTime_eq_ok_iff {raw : Value} : l.readTime raw = .ok t ↔ TellsTime (some raw) t := by
  constructor
  · intro h
    cases raw with
    | null => cases h; exact .null
    | int n =>
      cases hn : Instant.ofMillis n.toInt with
      | some t => rw [readTime, hn] at h; cases h; exact .millis hn
      | none => rw [readTime, hn] at h; cases h
    | str s =>
      cases hs : Instant.ofStamp s with
      | ok t => rw [readTime, hs] at h; cases h; exact .stamp hs
      | error e => rw [readTime, hs] at h; cases h
    | _ => cases h
  · intro h
    cases h with
    | null => rfl
    | millis hn => rw [readTime, hn]
    | stamp hs => rw [readTime, hs]

theorem time_eq_ok_iff : l.time v = .ok t ↔ l.Dated v t := by
  have hmissing : TellsTime none t ↔ none = t :=
    ⟨fun h => by cases h; rfl, fun h => h ▸ .missing⟩
  rw [Dated]
  simp only [← rawTime_eq_ok_iff]
  rw [time]
  cases hraw : l.rawTime v with
  | error e => simp
  | ok raw =>
    cases raw with
    | none => simp [hmissing]
    | some raw => simp [readTime_eq_ok_iff]

theorem exists_time_eq_error (h : ∀ t, ¬ l.Dated v t) : ∃ cause, l.time v = .error cause := by
  cases ht : l.time v with
  | ok t => exact absurd (time_eq_ok_iff.1 ht) (h t)
  | error cause => exact ⟨cause, rfl⟩

/-! ### Candidates -/

variable {vs front back : List Value} {ts : List (Option Instant)}

theorem timed_of_dated (h : List.Forall₂ l.Dated vs ts) (i : Nat) :
    l.timed i vs = .ok (vs.zip ts) := by
  induction h generalizing i with
  | nil => rfl
  | cons hv _ ih => rw [timed, time_eq_ok_iff.2 hv, ih]; rfl

/-- Of candidates that are not all dated, the first one that is not ends the reading. -/
theorem timed_of_fault {cause : EntryFault} (hfront : ∀ u ∈ front, ∃ t, l.Dated u t)
    (hv : l.time v = .error cause) (i : Nat) :
    l.timed i (front ++ v :: back) = .error (i + front.length, cause) := by
  induction front generalizing i with
  | nil => rw [List.nil_append, timed, hv]; rfl
  | cons u front ih =>
    obtain ⟨⟨t, ht⟩, hrest⟩ := List.forall_mem_cons.1 hfront
    rw [List.cons_append, timed, time_eq_ok_iff.2 ht]
    dsimp only
    rw [ih hrest, List.length_cons, Nat.add_assoc, Nat.add_comm 1]
    rfl

/-- Candidates have their times, or there is a first one that has none. -/
theorem dated_or_undated (l : Lottery) (vs : List Value) :
    (∃ ts, List.Forall₂ l.Dated vs ts) ∨
    ∃ front v back, vs = front ++ v :: back ∧ (∀ u ∈ front, ∃ t, l.Dated u t) ∧
      ∀ t, ¬ l.Dated v t := by
  induction vs with
  | nil => exact .inl ⟨[], .nil⟩
  | cons u vs ih =>
    by_cases hu : ∃ t, l.Dated u t
    · obtain ⟨t, ht⟩ := hu
      rcases ih with ⟨ts, hts⟩ | ⟨front, v, back, rfl, hfront, hv⟩
      · exact .inl ⟨t :: ts, .cons ht hts⟩
      · exact .inr
          ⟨u :: front, v, back, rfl, List.forall_mem_cons.2 ⟨⟨t, ht⟩, hfront⟩, hv⟩
    · exact .inr ⟨[], u, vs, rfl, fun _ h => absurd h List.not_mem_nil, not_exists.1 hu⟩

/-- The candidate at a place, with a time that lies in the window in force. -/
def Eligible (l : Lottery) (now : Instant) (vs : List Value) (ts : List (Option Instant))
    (i : Nat) (v : Value) : Prop :=
  vs[i]? = some v ∧ ∃ t, ts[i]? = some (some t) ∧ (l.period.window now).contains t = true

/-- The winners among dated candidates stand at different places and have their times in the window,
    and there are as many as there can be. -/
theorem exists_winners (l : Lottery) (now : Instant) (h : List.Forall₂ l.Dated vs ts) :
    ∃ places : List Nat, places.Nodup ∧
      List.Forall₂ (l.Eligible now vs ts) places (l.draw now (vs.zip ts)) ∧
      places.length = min l.winners (ts.countP fun t => t.any (l.period.window now).contains) := by
  have hsnd : (vs.zip ts).map Prod.snd = ts := List.map_snd_zip (Nat.le_of_eq h.length_eq.symm)
  obtain ⟨places, hnodup, hwinners, hlength⟩ :=
    l.lots.exists_places (l.period.window now) Prod.snd l.winners (vs.zip ts)
  refine ⟨places, hnodup, ?_, ?_⟩
  · rw [draw, List.forall₂_map_right_iff]
    refine hwinners.imp ?_
    rintro i ⟨v, t⟩ ⟨hz, htime⟩
    obtain ⟨hv, ht⟩ := List.getElem?_zip_eq_some.1 hz
    cases t with
    | none => cases htime
    | some t => exact ⟨hv, t, ht, htime⟩
  · rw [hlength, ← hsnd, List.countP_map, hsnd]
    rfl

/-- THE DRAW: without candidates nobody wins. Candidates that are all dated win at different places,
    only with a time in the window in force, and as many as are asked for or are in the window.
    Otherwise nothing is written, and the fault is at the path, or at the first candidate that is
    not dated, however many winners are asked for. -/
theorem run_draws (now : Instant) (l : Lottery) (ctx : Context) :
    (ctx.get l.candidates = none ∨ ctx.get l.candidates = some .null →
      l.run now ctx = .done (ctx.insert l.result (.list [])) ()) ∧
    (∀ vs ts, ctx.get l.candidates = some (.list vs) → List.Forall₂ l.Dated vs ts →
      ∃ places winners, places.Nodup ∧ List.Forall₂ (l.Eligible now vs ts) places winners ∧
        winners.length = min l.winners (ts.countP fun t => t.any (l.period.window now).contains) ∧
        l.run now ctx = .done (ctx.insert l.result (.list winners)) ()) ∧
    (∀ vs, ctx.get l.candidates = some (.list vs) →
      (¬ ∃ ts, List.Forall₂ l.Dated vs ts) →
      ∃ front v back cause, vs = front ++ v :: back ∧
        (∀ u ∈ front, ∃ t, l.Dated u t) ∧ (¬ ∃ t, l.Dated v t) ∧
        l.run now ctx =
          ⟨ctx, [], .error (.invalidInput l.name
            (l.candidates ++ "[" ++ toString front.length ++ "]") cause)⟩) ∧
    ∀ v, ctx.get l.candidates = some v → v.kind ≠ .list → v.kind ≠ .null →
      l.run now ctx =
        ⟨ctx, [], .error (.invalidInput l.name l.candidates (.noList v.kind))⟩ := by
  refine ⟨?_, ?_, ?_, ?_⟩
  · rintro (hget | hget) <;> rw [run, hget] <;> rfl
  · intro vs ts hget hdated
    obtain ⟨places, hnodup, hwinners, hlength⟩ := l.exists_winners now hdated
    refine ⟨places, _, hnodup, hwinners, hwinners.length_eq ▸ hlength, ?_⟩
    simp only [run, hget, Option.getD_some, timed_of_dated hdated]
  · intro vs hget hundated
    obtain ⟨front, v, back, rfl, hfront, hv⟩ := (dated_or_undated l vs).resolve_left hundated
    obtain ⟨cause, hcause⟩ := exists_time_eq_error hv
    refine ⟨front, v, back, cause, rfl, hfront, not_exists.2 hv, ?_⟩
    simp only [run, hget, Option.getD_some, timed_of_fault hfront hcause, Nat.zero_add]
  · intro v hget hlist hnull
    rw [run, hget]
    cases v with
    | list vs => exact absurd rfl hlist
    | null => exact absurd rfl hnull
    | _ => rfl

/-- An object that is there twice, with a call for its time, beside a map without a time and one too
    late: the winners are the two. A truth value for a time, behind a good candidate, is a fault at
    place 1, also if nobody is to win; and a text is no list of candidates. -/
theorem run_draws_twice :
    let now : Instant := ⟨0, 0⟩
    let buyer : Value := .object 1 "Buyer" (fun _ => none) fun _ => some (.int 1000)
    let late : Value := .map [("purchaseTime", .int 9000)]
    let bad : Value := .map [("purchaseTime", .bool true)]
    let vs := [buyer, .map [], buyer, late]
    let ts := [some ⟨1, 0⟩, none, some ⟨1, 0⟩, some ⟨9, 0⟩]
    let l : Lottery := { candidates := "buyers", result := "buyers.won", winners := 5,
                         period := .fixed (.upTo ⟨5, 0⟩), lots := .inOrder }
    let nobody : Lottery := { l with winners := 0 }
    let buyers (v : Value) : Context := ⟨[("buyers", v)]⟩
    List.Forall₂ l.Dated vs ts ∧
      (∃ winners, winners.length = 2 ∧
        l.run now (buyers (.list vs)) =
          .done ((buyers (.list vs)).insert "buyers.won" (.list winners)) ()) ∧
      (¬ ∃ t, nobody.Dated bad t) ∧
      (∃ cause, nobody.run now (buyers (.list [buyer, bad])) =
        ⟨buyers (.list [buyer, bad]), [],
          .error (.invalidInput "lottery" "buyers[1]" cause)⟩) ∧
      l.run now (buyers (.str "all")) =
        ⟨buyers (.str "all"), [], .error (.invalidInput "lottery" "buyers" (.noList .str))⟩ ∧
      l.run now (buyers .null) = .done ((buyers .null).insert "buyers.won" (.list [])) () := by
  intro now buyer late bad vs ts l nobody buyers
  have hget (v : Value) : (buyers v).get "buyers" = some v := rfl
  have hbuyer (l : Lottery) : l.Dated buyer (some ⟨1, 0⟩) := ⟨_, .call rfl, .millis rfl⟩
  have hlate : l.Dated late (some ⟨9, 0⟩) := ⟨_, .map, .millis rfl⟩
  have hdated : List.Forall₂ l.Dated vs ts :=
    .cons (hbuyer l) (.cons ⟨_, .map, .missing⟩ (.cons (hbuyer l) (.cons hlate .nil)))
  have hbad : ¬ ∃ t, nobody.Dated bad t := by
    rintro ⟨t, raw, hraw, ht⟩
    have hshown : nobody.rawTime bad = .ok (some (.bool true)) := rfl
    rw [← rawTime_eq_ok_iff, hshown] at hraw
    cases hraw
    cases ht
  refine ⟨hdated, ?_, hbad, ?_, ?_, ?_⟩
  · obtain ⟨-, winners, -, -, hlength, hrun⟩ := (run_draws now l _).2.1 vs ts (hget _) hdated
    exact ⟨winners, hlength, hrun⟩
  · have hundated : ¬ ∃ ts, List.Forall₂ nobody.Dated [buyer, bad] ts := by
      rintro ⟨_, _ | ⟨_, _ | ⟨h, _⟩⟩⟩
      exact hbad ⟨_, h⟩
    obtain ⟨front, v, back, cause, hvs, hfront, hv, hrun⟩ :=
      (run_draws now nobody _).2.2.1 _ (hget _) hundated
    -- the object is dated, and so the first one that is not is the next
    rcases front with _ | ⟨u, _ | ⟨w, front⟩⟩
    · rw [List.nil_append, List.cons.injEq] at hvs
      exact absurd ⟨_, hvs.1 ▸ hbuyer nobody⟩ hv
    · have hkey : nobody.candidates ++ "[" ++ toString [u].length ++ "]" = "buyers[1]" := by cbv
      rw [hkey] at hrun
      exact ⟨cause, hrun⟩
    · have hlength := congrArg List.length hvs
      simp at hlength
  · exact (run_draws now l _).2.2.2 _ (hget _) (by decide) (by decide)
  · exact (run_draws now l _).1 (.inr (hget _))

end Lottery

end Rulebook
